-- Reading a floating-point numeral: decimal or hexadecimal digits with an exponent, or one of the
-- names of infinity and NaN. The result is the nearest binary64 number.
import Backend.Float.Binary64
import Backend.Text.Hex
import Backend.Text.Numeral

namespace Backend.Float

open Backend.Text

/-- The digits of a numeral: their value, how many of them follow the point, whether there was
one at all, and the text that follows. -/
structure Significand where
  value : Nat
  places : Nat
  any : Bool
  rest : List Char

/-- Takes digits in `base` and at most one point, passing over underscores. -/
def Significand.take (base : Nat) : Bool → Significand → List Char → Significand
  | _, acc, [] => { acc with rest := [] }
  | point, acc, c :: s =>
    if c == '_' then Significand.take base point acc s
    else if c == '.' && !point then Significand.take base true acc s
    else
      match hexValue? c with
      | some d =>
        if d < base then
          Significand.take base point
            { acc with
              value := acc.value * base + d
              places := if point then acc.places + 1 else acc.places
              any := true } s
        else { acc with rest := c :: s }
      | none => { acc with rest := c :: s }

/-- The exponent digits, of which no more than five count, and the text that follows. -/
def exponentDigits : Nat → List Char → Nat × List Char
  | acc, [] => (acc, [])
  | acc, c :: s =>
    if c == '_' then exponentDigits acc s
    else if '0' ≤ c && c ≤ '9' then
      exponentDigits (if acc < 10000 then acc * 10 + (c.toNat - 48) else acc) s
    else (acc, c :: s)

/-- An exponent after its mark: an optional sign and at least one digit. -/
def exponent? (s : List Char) : Option (Int × List Char) :=
  let digits (negative : Bool) (r : List Char) : Option (Int × List Char) :=
    match r with
    | c :: _ =>
      if '0' ≤ c && c ≤ '9' then
        let (e, rest) := exponentDigits 0 r
        some (if negative then -(e : Int) else e, rest)
      else none
    | [] => none
  match s with
  | '+' :: r => digits false r
  | '-' :: r => digits true r
  | r => digits false r

/-- The magnitude nearest to `value * base^exponent`, if it is finite. -/
def nearestMagnitude? (value base : Nat) (exponent : Int) : Option Nat :=
  let m :=
    if value == 0 then 0
    else if exponent < 0 then Format.binary64.nearest value (base.pow exponent.natAbs)
    else Format.binary64.nearest (value * base.pow exponent.natAbs) 1
  if m < Format.binary64.infinity then some m else none

/-- The exponent after decimal digits, which may be missing. -/
def decimalExponent? : List Char → Option (Int × List Char)
  | c :: t => if lower c == 'e' then exponent? t else some (0, c :: t)
  | [] => some (0, [])

/-- The exponent after hexadecimal digits. -/
def hexExponent? : List Char → Option (Int × List Char)
  | c :: t => if lower c == 'p' then exponent? t else none
  | [] => none

/-- An unsigned decimal numeral. -/
def decimalMagnitude? (s : List Char) : Option Nat := do
  let sig := Significand.take 10 false ⟨0, 0, false, []⟩ s
  if !sig.any then none
  let (e, rest) ← decimalExponent? sig.rest
  if rest.isEmpty then nearestMagnitude? sig.value 10 (e - sig.places) else none

/-- An unsigned hexadecimal numeral after its mark. -/
def hexMagnitude? (s : List Char) : Option Nat := do
  let sig := Significand.take 16 false ⟨0, 0, false, []⟩ s
  if !sig.any then none
  let (e, rest) ← hexExponent? sig.rest
  if rest.isEmpty then nearestMagnitude? sig.value 2 (e - 4 * sig.places) else none

/-- An unsigned numeral of digits. -/
def magnitude? (s : List Char) : Option Nat :=
  match s with
  | '0' :: x :: d :: r => if lower x == 'x' then hexMagnitude? (d :: r) else decimalMagnitude? s
  | _ => decimalMagnitude? s

/-- The sign at the front, true for a minus sign. -/
def splitSign : List Char → Option Bool × List Char
  | '-' :: s => (some true, s)
  | '+' :: s => (some false, s)
  | s => (none, s)

/-- The number a numeral stands for, if it is well formed and not too large. -/
def read? (s : List Char) : Option Binary64 := do
  let (sign, unsigned) := splitSign s
  let name := String.ofList (unsigned.map lower)
  let negative := sign == some true
  if name == "inf" || name == "infinity" then
    some (.ofMagnitude negative Format.binary64.infinity)
  else if sign.isNone && name == "nan" then some .nan
  else
    let m ← magnitude? unsigned
    if s.contains '_' && !grouped s then none else some (.ofMagnitude negative m)

end Backend.Float
