-- IEEE 754 numbers as bit patterns: binary64 values, their exact meaning as a fraction, rounding
-- a fraction to the nearest pattern, and narrowing to binary32.

namespace Backend.Float

/-! ## Formats -/

/-- A binary interchange format: significand bits with the leading one, the exponent of the least
positive number, and the width of the exponent field. -/
structure Format where
  precision : Nat
  leastExponent : Int
  exponentBits : Nat

def Format.binary64 : Format := ⟨53, -1074, 11⟩

def Format.binary32 : Format := ⟨24, -149, 8⟩

/-- The pattern of positive infinity, one above the greatest finite number. -/
def Format.infinity (f : Format) : Nat :=
  (Nat.pow 2 f.exponentBits - 1) * Nat.pow 2 (f.precision - 1)

/-- `num / den * 2^(-q)` as a fraction. -/
def scaled (num den : Nat) (q : Int) : Nat × Nat :=
  if q < 0 then (num * Nat.pow 2 q.natAbs, den) else (num, den * Nat.pow 2 q.natAbs)

/-- The integer nearest to `num / den`, an exact half going to the even one. -/
def roundHalfEven (num den : Nat) : Nat :=
  let d := num / den
  let twice := 2 * (num % den)
  if twice < den || (twice == den && d % 2 == 0) then d else d + 1

/-- The greatest `e` with `2^e ≤ num / den`, for positive numbers. -/
def binaryExponent (num den : Nat) : Int :=
  let e : Int := (num.log2 : Int) - (den.log2 : Int)
  let (n, d) := scaled num den e
  if n < d then e - 1 else e

/-- The pattern of the number of the format nearest to `num / den`, ties to even. A result of at
least `infinity` means that the fraction is too large for the format. -/
def Format.nearest (f : Format) (num den : Nat) : Nat :=
  if num == 0 then 0
  else
    let q := max (binaryExponent num den - (f.precision - 1 : Nat)) f.leastExponent
    let (n, d) := scaled num den q
    (q - f.leastExponent).toNat * Nat.pow 2 (f.precision - 1) + roundHalfEven n d

/-! ## Binary64 -/

/-- A binary64 number by its bit pattern. -/
structure Binary64 where
  bits : UInt64
  deriving DecidableEq

namespace Binary64

/-- The quiet NaN that the numeral `nan` stands for. -/
def nan : Binary64 := ⟨0x7ff8000000000001⟩

def zero : Binary64 := ⟨0⟩

def isNegative (x : Binary64) : Bool := decide (Nat.pow 2 63 ≤ x.bits.toNat)

/-- The pattern without the sign. -/
def magnitude (x : Binary64) : Nat := x.bits.toNat % Nat.pow 2 63

def isNaN (x : Binary64) : Bool := decide (Format.binary64.infinity < x.magnitude)

def isInfinite (x : Binary64) : Bool := x.magnitude == Format.binary64.infinity

/-- Flips the sign, of a NaN too. -/
def neg (x : Binary64) : Binary64 := ⟨x.bits ^^^ 0x8000000000000000⟩

/-- Puts a sign before a magnitude. -/
def ofMagnitude (negative : Bool) (magnitude : Nat) : Binary64 :=
  ⟨UInt64.ofNat (magnitude + if negative then Nat.pow 2 63 else 0)⟩

/-- Equality of numbers: the two zeros are equal and a NaN is not equal to itself. -/
def equal (x y : Binary64) : Bool :=
  !x.isNaN && !y.isNaN && (x.bits == y.bits || (x.magnitude == 0 && y.magnitude == 0))

/-- A finite magnitude as `m * 2^q`. -/
def decode (x : Binary64) : Nat × Int :=
  let field : Nat := x.magnitude / Nat.pow 2 52
  let fraction := x.magnitude % Nat.pow 2 52
  if field == 0 then (fraction, -1074) else (fraction + Nat.pow 2 52, (field : Int) - 1075)

/-- The binary32 pattern of the nearest number. A NaN keeps its sign and the upper part of its
payload and is quiet. -/
def toBinary32 (x : Binary64) : UInt32 :=
  let sign := if x.isNegative then Nat.pow 2 31 else 0
  let magnitude :=
    if x.isNaN then 0x7fc00000 ||| (x.magnitude % Nat.pow 2 52) / Nat.pow 2 29
    else if x.isInfinite then Format.binary32.infinity
    else
      let (m, q) := x.decode
      let (num, den) := scaled m 1 (-q)
      min (Format.binary32.nearest num den) Format.binary32.infinity
  UInt32.ofNat (sign + magnitude)

end Binary64

end Backend.Float
