-- Double-quoted text with backslash escapes: what a quoted form looks like, and reading one.
-- The quoted content is a byte string, since an escape can name any byte.
import Backend.Text.Hex
import Backend.Text.Printable
import Backend.Text.Utf8

namespace Backend.Text

/-! ## Writing -/

/-- The letters of the short escapes and the characters they stand for. -/
def shortEscapes : List (Char × Nat) :=
  [('a', 7), ('b', 8), ('f', 12), ('n', 10), ('r', 13), ('t', 9), ('v', 11)]

def shortEscape? (n : Nat) : Option Char :=
  (shortEscapes.find? fun (_, m) => m == n).map Prod.fst

/-- One character of a quoted text. The quote and the backslash are always escaped, other
characters only if they are not printable. -/
def quoteChar (c : Char) : List Char :=
  if c == '"' || c == '\\' then ['\\', c]
  else if isPrintable c then [c]
  else
    match shortEscape? c.toNat with
    | some letter => ['\\', letter]
    | none =>
      if c.toNat < 0x20 || c.toNat == 0x7f then '\\' :: 'x' :: hexFixed 2 c.toNat
      else if c.toNat < 0x10000 then '\\' :: 'u' :: hexFixed 4 c.toNat
      else '\\' :: 'U' :: hexFixed 8 c.toNat

/-- A character or a byte that belongs to none. -/
def quoteItem : Utf8Item → List Char
  | .char c => quoteChar c
  | .stray b => '\\' :: 'x' :: hexFixed 2 b.toNat

/-- The quoted form of a byte string. -/
def quoteBytes (bytes : List UInt8) : String :=
  String.ofList ('"' :: (utf8Items bytes).flatMap quoteItem ++ ['"'])

/-- The quoted form of a text. -/
def quoteChars (s : List Char) : String :=
  String.ofList ('"' :: s.flatMap quoteChar ++ ['"'])

/-- The quoted form of a text. -/
def quote (s : String) : String := quoteChars s.toList

/-! ## Reading -/

/-- The value of exactly `n` hexadecimal digits, and what follows them. -/
def takeHex : Nat → Nat → List Char → Option (Nat × List Char)
  | 0, acc, s => some (acc, s)
  | n + 1, acc, c :: s => do takeHex n (acc * 16 + (← hexValue? c)) s
  | _ + 1, _, [] => none

def octalValue? (c : Char) : Option Nat :=
  if '0' ≤ c && c ≤ '7' then some (c.toNat - 48) else none

/-- A code point that is no surrogate. -/
def scalarBytes? (n : Nat) : Option (List UInt8) :=
  if n < 0xd800 || (0xdfff < n && n ≤ 0x10ffff) then some (utf8Char (Char.ofNat n)) else none

/-- The bytes an escape stands for, after its backslash, and how many characters it has. -/
def escapeBytes? : List Char → Option (List UInt8 × Nat)
  | 'x' :: s => do
    let (n, _) ← takeHex 2 0 s
    some ([UInt8.ofNat n], 3)
  | 'u' :: s => do
    let (n, _) ← takeHex 4 0 s
    some (← scalarBytes? n, 5)
  | 'U' :: s => do
    let (n, _) ← takeHex 8 0 s
    some (← scalarBytes? n, 9)
  | '\\' :: _ => some ([92], 1)
  | '"' :: _ => some ([34], 1)
  | c :: s =>
    match shortEscapes.lookup c with
    | some n => some ([UInt8.ofNat n], 1)
    | none =>
      match octalValue? c, s with
      | some a, d :: e :: _ => do
        let n := (a * 8 + (← octalValue? d)) * 8 + (← octalValue? e)
        if n ≤ 255 then some ([UInt8.ofNat n], 3) else none
      | _, _ => none
  | [] => none

/-- Reads the characters up to the closing quote; `skip` counts those of an escape already
read. Gives the content and what follows the quote. -/
def unquoteFrom : Nat → List Char → Option (List UInt8 × List Char)
  | _, [] => none
  | skip + 1, _ :: s => unquoteFrom skip s
  | 0, '"' :: s => some ([], s)
  | 0, '\n' :: _ => none
  | 0, '\\' :: s => do
    let (bytes, size) ← escapeBytes? s
    let (content, rest) ← unquoteFrom size s
    some (bytes ++ content, rest)
  | 0, c :: s => do
    let (content, rest) ← unquoteFrom 0 s
    some (utf8Char c ++ content, rest)

/-- Reads a quoted text after its opening quote. -/
def unquote? (s : List Char) : Option (List UInt8 × List Char) := unquoteFrom 0 s

end Backend.Text
