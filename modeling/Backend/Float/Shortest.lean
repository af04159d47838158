-- Writing a binary64 number with the fewest significant digits that read back as the same number,
-- and of those the ones nearest to it.
import Backend.Float.Binary64

namespace Backend.Float

/-- Significant decimal digits: the value is `0.d₁d₂… * 10^point`. -/
structure Digits where
  digits : List Nat
  point : Int

/-- The least `k` with `num / den < 10^k`, for a positive fraction of binary64 size. -/
def decimalPoint (num den : Nat) : Int :=
  if num ≥ den then (Nat.toDigits 10 (num / den)).length
  else
    match (List.range 400).find? fun j => decide (den ≤ num * Nat.pow 10 j) with
    | some j => 1 - (j : Int)
    | none => -399

/-- The real numbers that round to a given one: numerators over a common denominator. -/
structure Interval where
  low : Nat
  value : Nat
  high : Nat
  den : Nat
  closed : Bool

/-- The interval around a positive finite number; below a power of two the gap is half as wide. -/
def Binary64.interval (x : Binary64) : Interval :=
  let (m, q) := x.decode
  let below := if m == Nat.pow 2 52 && q > -1074 then 1 else 2
  let (unit, den) := scaled 1 1 (2 - q)
  ⟨(4 * m - below) * unit, 4 * m * unit, (4 * m + 2) * unit, den, m % 2 == 0⟩

/-- The fraction lies in the interval. -/
def Interval.contains (i : Interval) (num den : Nat) : Bool :=
  let n := num * i.den
  if i.closed then decide (i.low * den ≤ n) && decide (n ≤ i.high * den)
  else decide (i.low * den < n) && decide (n < i.high * den)

/-- The neighbour of the value on the grid `10^scale` that lies in the interval; the nearer one
if both do. -/
def Interval.onGrid? (i : Interval) (scale : Int) : Option Nat :=
  let (up, down) : Nat × Nat :=
    if scale < 0 then (1, Nat.pow 10 scale.natAbs) else (Nat.pow 10 scale.natAbs, 1)
  let d := i.value * down / (i.den * up)
  let r := i.value * down % (i.den * up)
  let lowHit := i.contains (d * up) down
  let highHit := i.contains ((d + 1) * up) down
  if lowHit && highHit then
    some (if 2 * r < i.den * up || (2 * r == i.den * up && d % 2 == 0) then d else d + 1)
  else if lowHit then some d
  else if highHit then some (d + 1)
  else none

/-- The shortest digits of a positive finite number. -/
def Binary64.shortest (x : Binary64) : Digits :=
  let i := x.interval
  let k := decimalPoint i.value i.den
  let hit := (List.range 17).findSome? fun n => do
    let d ← i.onGrid? (k - (n + 1 : Nat))
    let text := Nat.toDigits 10 d
    let point := k + ((text.length : Int) - (n + 1 : Nat))
    let kept := (text.reverse.dropWhile (· == '0')).reverse
    some (Digits.mk (kept.map fun c => c.toNat - 48) point)
  hit.getD ⟨[], 0⟩

/-! ## The general form -/

def digitChars (ds : List Nat) : List Char := ds.map fun d => Char.ofNat (48 + d)

/-- Positional notation. -/
def Digits.positional (d : Digits) : List Char :=
  let p := d.point.toNat
  if d.point ≤ 0 then
    let zeros := List.replicate d.point.natAbs '0'
    if d.digits.isEmpty then ['0'] else '0' :: '.' :: zeros ++ digitChars d.digits
  else
    let whole := (d.digits ++ List.replicate p 0).take p
    let part := d.digits.drop p
    digitChars whole ++ if part.isEmpty then [] else '.' :: digitChars part

/-- Scientific notation with at least two digits of exponent. -/
def Digits.scientific (d : Digits) : List Char :=
  let e := d.point - 1
  let mantissa := match d.digits with
    | [] => ['0']
    | a :: [] => digitChars [a]
    | a :: r => digitChars [a] ++ '.' :: digitChars r
  let magnitude := Nat.toDigits 10 e.natAbs
  let padded := if magnitude.length < 2 then '0' :: magnitude else magnitude
  mantissa ++ 'e' :: (if e < 0 then '-' else '+') :: padded

/-- Numbers from `1e-4` up to `1e6` are written positionally, others in scientific notation. -/
def Binary64.text (x : Binary64) : String :=
  if x.isNaN then "NaN"
  else if x.isInfinite then if x.isNegative then "-Inf" else "+Inf"
  else
    let d := if x.magnitude == 0 then ⟨[], 0⟩ else x.shortest
    let e := d.point - 1
    let unsigned := if e < -4 || e ≥ 6 then d.scientific else d.positional
    String.ofList (if x.isNegative then '-' :: unsigned else unsigned)

end Backend.Float
