-- Integer numerals: digits in a base, with the base named by a mark and with underscores
-- between digits.

namespace Backend.Text

/-- The letter `c` in lower case. -/
def lower (c : Char) : Char :=
  if 'A' ≤ c && c ≤ 'Z' then Char.ofNat (c.toNat + 32) else c

/-- The value of a digit or letter, below 36. -/
def digitValue? (c : Char) : Option Nat :=
  let d := lower c
  if '0' ≤ c && c ≤ '9' then some (c.toNat - 48)
  else if 'a' ≤ d && d ≤ 'z' then some (d.toNat - 87)
  else none

/-- Why a numeral has no value. -/
inductive NumeralError where
  | malformed
  | outOfRange
  deriving DecidableEq

/-- What the character before the current one was, for the placement of underscores. -/
inductive GroupState where
  | start
  | digit
  | underscore
  | other
  deriving DecidableEq

/-- Every underscore stands between two digits; `hex` says whether letters are digits. -/
def groupedFrom (hex : Bool) : GroupState → List Char → Bool
  | prev, [] => prev != .underscore
  | prev, c :: s =>
    let letter := lower c
    if ('0' ≤ c && c ≤ '9') || (hex && 'a' ≤ letter && letter ≤ 'f') then groupedFrom hex .digit s
    else if c == '_' then prev == .digit && groupedFrom hex .underscore s
    else prev != .underscore && groupedFrom hex .other s

/-- The underscores of a numeral are well placed; a base mark counts as a digit. -/
def grouped (s : List Char) : Bool :=
  let unsigned := match s with
    | '-' :: r => r
    | '+' :: r => r
    | r => r
  match unsigned with
  | '0' :: m :: r =>
    if lower m == 'b' || lower m == 'o' || lower m == 'x' then groupedFrom (lower m == 'x') .digit r
    else groupedFrom false .start unsigned
  | _ => groupedFrom false .start unsigned

/-- The value of the digits, stopping at the first fault. -/
def digitsFrom (base limit : Nat) (underscores : Bool) : Nat → List Char → Except NumeralError Nat
  | acc, [] => .ok acc
  | acc, c :: s =>
    if c == '_' && underscores then digitsFrom base limit underscores acc s
    else
      match digitValue? c with
      | none => .error .malformed
      | some d =>
        if d ≥ base then .error .malformed
        else if acc * base + d ≥ limit then .error .outOfRange
        else digitsFrom base limit underscores (acc * base + d) s

/-- Splits the base mark off a numeral: `0b`, `0o` and `0x` need a digit after them, any other
leading zero means octal. -/
def baseMark (s : List Char) : Nat × List Char :=
  match s with
  | '0' :: m :: d :: r =>
    if lower m == 'b' then (2, d :: r)
    else if lower m == 'o' then (8, d :: r)
    else if lower m == 'x' then (16, d :: r)
    else (8, m :: d :: r)
  | '0' :: r => (8, r)
  | r => (10, r)

/-- An unsigned numeral in any base, below `limit`. -/
def readNat (limit : Nat) (s : List Char) : Except NumeralError Nat :=
  if s.isEmpty then .error .malformed
  else
    let (base, digits) := baseMark s
    match digitsFrom base limit true 0 digits with
    | .error e => .error e
    | .ok n => if s.contains '_' && !grouped s then .error .malformed else .ok n

/-- A decimal numeral without sign and underscores, below `limit`. -/
def readDecimal (limit : Nat) (s : List Char) : Except NumeralError Nat :=
  if s.isEmpty then .error .malformed else digitsFrom 10 limit false 0 s

/-- A 64-bit numeral with optional sign, in any base. -/
def readInt64 (s : List Char) : Except NumeralError Int64 :=
  let magnitude (r : List Char) : Except NumeralError Nat := readNat (Nat.pow 2 64) r
  let positive (r : List Char) : Except NumeralError Int64 := do
    let n ← magnitude r
    if n < Nat.pow 2 63 then .ok (Int64.ofNat n) else .error .outOfRange
  match s with
  | '-' :: r => do
    let n ← magnitude r
    if n ≤ Nat.pow 2 63 then .ok (Int64.ofInt (-(n : Int))) else .error .outOfRange
  | '+' :: r => positive r
  | r => positive r

/-- A 64-bit numeral that may also use the unsigned range, whose upper half reads as the negative
numbers of the same bits. -/
def readWord (s : List Char) : Except NumeralError Int64 :=
  match readInt64 s with
  | .ok n => .ok n
  | .error _ => do
    let n ← readNat (Nat.pow 2 64) s
    .ok (UInt64.ofNat n).toInt64

end Backend.Text
