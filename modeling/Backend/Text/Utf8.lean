-- Text as bytes: the UTF-8 form of characters, and reading characters back from bytes
-- that need not be well formed.

namespace Backend.Text

/-- The UTF-8 bytes of a text. -/
def utf8 (s : String) : List UInt8 := s.toUTF8.toList

/-- The UTF-8 bytes of one character. -/
def utf8Char (c : Char) : List UInt8 := utf8 (String.singleton c)

/-- The number of bytes of a text in UTF-8. -/
def utf8Length (s : List Char) : Nat := s.foldl (fun n c => n + c.utf8Size) 0

/-- One step of reading: a character, or a byte that starts none. -/
inductive Utf8Item where
  | char (c : Char)
  | stray (b : UInt8)

def continuation? (b : UInt8) : Option Nat :=
  if 0x80 ≤ b && b ≤ 0xbf then some (b.toNat - 0x80) else none

/-- The character at the front of the bytes and the number of bytes after its first. Overlong
forms, surrogates and values beyond the last code point start no character. -/
def utf8Head? : List UInt8 → Option (Char × Nat)
  | [] => none
  | b0 :: rest =>
    if b0 < 0x80 then some (Char.ofNat b0.toNat, 0)
    else if 0xc2 ≤ b0 && b0 ≤ 0xdf then
      match rest with
      | b1 :: _ => do
        let c1 ← continuation? b1
        some (Char.ofNat ((b0.toNat - 0xc0) * 64 + c1), 1)
      | _ => none
    else if 0xe0 ≤ b0 && b0 ≤ 0xef then
      match rest with
      | b1 :: b2 :: _ => do
        let c1 ← continuation? b1
        let c2 ← continuation? b2
        let n := ((b0.toNat - 0xe0) * 64 + c1) * 64 + c2
        if n < 0x800 || (0xd800 ≤ n && n ≤ 0xdfff) then none else some (Char.ofNat n, 2)
      | _ => none
    else if 0xf0 ≤ b0 && b0 ≤ 0xf4 then
      match rest with
      | b1 :: b2 :: b3 :: _ => do
        let c1 ← continuation? b1
        let c2 ← continuation? b2
        let c3 ← continuation? b3
        let n := (((b0.toNat - 0xf0) * 64 + c1) * 64 + c2) * 64 + c3
        if n < 0x10000 || 0x10ffff < n then none else some (Char.ofNat n, 3)
      | _ => none
    else none

/-- Splits bytes into characters and stray bytes; `skip` counts bytes of a character already
taken. -/
def utf8ItemsFrom : Nat → List UInt8 → List Utf8Item
  | _, [] => []
  | skip + 1, _ :: rest => utf8ItemsFrom skip rest
  | 0, b :: rest =>
    match utf8Head? (b :: rest) with
    | some (c, more) => .char c :: utf8ItemsFrom more rest
    | none => .stray b :: utf8ItemsFrom 0 rest

/-- Splits bytes into characters and stray bytes. -/
def utf8Items (bytes : List UInt8) : List Utf8Item := utf8ItemsFrom 0 bytes

/-- The text of the bytes, with the replacement character for every stray byte. -/
def ofUtf8 (bytes : List UInt8) : String :=
  String.ofList ((utf8Items bytes).map fun
    | .char c => c
    | .stray _ => Char.ofNat 0xfffd)

/-- Whether the bytes are the UTF-8 form of some text. -/
def isUtf8 (bytes : List UInt8) : Bool :=
  (utf8Items bytes).all fun
    | .char _ => true
    | .stray _ => false

end Backend.Text
