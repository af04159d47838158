-- Products and sums of IEEE 754 numbers as bit patterns, as the SSE instructions give them: the
-- exact result is rounded once, to the nearest number with ties to even. The product with two is
-- the sum of a number with itself, for numbers, infinities and what is no number.
import Backend.Float.Binary64
import Mathlib.Tactic.Ring

namespace Backend.Float

/-! ## Patterns -/

namespace Format

variable (f : Format)

/-- The sign bit of a pattern. -/
def signBit : Nat := 2 ^ (f.precision - 1 + f.exponentBits)

def isNegative (x : Nat) : Bool := decide (f.signBit ≤ x)

/-- The pattern without the sign. -/
def magnitude (x : Nat) : Nat := x % f.signBit

def isNaN (x : Nat) : Bool := decide (f.infinity < f.magnitude x)

def isInfinite (x : Nat) : Bool := f.magnitude x == f.infinity

/-- A magnitude with a sign. -/
def signed (negative : Bool) (m : Nat) : Nat := m + if negative then f.signBit else 0

/-- A pattern that is no number with the bit that makes it quiet. -/
def quiet (x : Nat) : Nat := x ||| 2 ^ (f.precision - 2)

/-- What comes of an operation that has no result. -/
def indefinite : Nat := f.signed true (f.quiet f.infinity)

/-- A finite number without its sign, as a multiple of the least positive number. -/
def units (x : Nat) : Nat :=
  let field := f.magnitude x / 2 ^ (f.precision - 1)
  let fraction := f.magnitude x % 2 ^ (f.precision - 1)
  if field = 0 then fraction else (fraction + 2 ^ (f.precision - 1)) * 2 ^ (field - 1)

/-- A finite number as a multiple of the least positive number. -/
def signedUnits (x : Nat) : Int := if f.isNegative x then -(f.units x : Int) else f.units x

/-- How many of the least positive number make one. -/
def unitsOfOne : Nat := 2 ^ f.leastExponent.natAbs

/-- A fraction rounded to a number, or to infinity if it is too large. -/
def round (negative : Bool) (num den : Nat) : Nat :=
  f.signed negative (min (f.nearest num den) f.infinity)

/-! ## Products and sums -/

/-- The product of two patterns. -/
def mul (x y : Nat) : Nat :=
  if f.isNaN x then f.quiet x
  else if f.isNaN y then f.quiet y
  else if f.isInfinite x || f.isInfinite y then
    if f.units x = 0 || f.units y = 0 then f.indefinite
    else f.signed (f.isNegative x != f.isNegative y) f.infinity
  else f.round (f.isNegative x != f.isNegative y) (f.units x * f.units y)
    (f.unitsOfOne * f.unitsOfOne)

/-- The sum of two patterns. -/
def add (x y : Nat) : Nat :=
  if f.isNaN x then f.quiet x
  else if f.isNaN y then f.quiet y
  else if f.isInfinite x then
    if f.isInfinite y && f.isNegative x != f.isNegative y then f.indefinite else x
  else if f.isInfinite y then y
  else
    let total := f.signedUnits x + f.signedUnits y
    if total = 0 then f.signed (f.isNegative x && f.isNegative y) 0
    else f.round (decide (total < 0)) total.natAbs f.unitsOfOne

/-- The pattern of two. -/
def two : Nat := 2 ^ (f.precision - 1) * (f.leastExponent.natAbs + 3 - f.precision)

end Format

/-! ## Fractions in other terms -/

theorem scaled_mul (num den c : Nat) (q : Int) :
    scaled (num * c) (den * c) q = ((scaled num den q).1 * c, (scaled num den q).2 * c) := by
  unfold scaled
  split
  · exact Prod.ext (Nat.mul_right_comm ..) rfl
  · exact Prod.ext rfl (Nat.mul_right_comm ..)

theorem roundHalfEven_mul (num den : Nat) {c : Nat} (hc : 0 < c) :
    roundHalfEven (num * c) (den * c) = roundHalfEven num den := by
  unfold roundHalfEven
  dsimp only
  rw [Nat.mul_div_mul_right _ _ hc, Nat.mul_mod_mul_right]
  have hlt : 2 * (num % den * c) < den * c ↔ 2 * (num % den) < den := by
    rw [← Nat.mul_assoc]
    exact Nat.mul_lt_mul_right hc
  have heq : 2 * (num % den * c) = den * c ↔ 2 * (num % den) = den := by
    rw [← Nat.mul_assoc]
    exact Nat.mul_left_inj hc.ne'
  simp only [hlt, decide_eq_true_eq, beq_iff_eq, heq, Bool.or_eq_true, Bool.and_eq_true]

theorem log2_mul_pow {n : Nat} (hn : n ≠ 0) (k : Nat) : (n * 2 ^ k).log2 = n.log2 + k := by
  induction k with
  | zero => rw [Nat.pow_zero, Nat.mul_one, Nat.add_zero]
  | succ k ih =>
    have hne : n * 2 ^ k ≠ 0 := Nat.mul_ne_zero hn (Nat.two_pow_pos k).ne'
    rw [Nat.pow_succ, ← Nat.mul_assoc, Nat.mul_comm _ 2, Nat.log2_two_mul hne, ih, Nat.add_assoc]

theorem binaryExponent_mul {num den : Nat} (hnum : num ≠ 0) (hden : den ≠ 0) (k : Nat) :
    binaryExponent (num * 2 ^ k) (den * 2 ^ k) = binaryExponent num den := by
  have hexp : ((num * 2 ^ k).log2 : Int) - ((den * 2 ^ k).log2 : Int) = num.log2 - den.log2 := by
    rw [log2_mul_pow hnum, log2_mul_pow hden]
    omega
  unfold binaryExponent
  dsimp only
  rw [hexp, scaled_mul]
  simp only [Nat.mul_lt_mul_right (Nat.two_pow_pos k)]

/-- A fraction is rounded to the same number in higher terms. -/
theorem Format.nearest_mul (f : Format) (num : Nat) {den : Nat} (hden : den ≠ 0) (k : Nat) :
    f.nearest (num * 2 ^ k) (den * 2 ^ k) = f.nearest num den := by
  by_cases hnum : num = 0
  · subst hnum
    rw [Nat.zero_mul]
    rfl
  · have hne : num * 2 ^ k ≠ 0 := Nat.mul_ne_zero hnum (Nat.two_pow_pos k).ne'
    unfold Format.nearest
    dsimp only
    rw [binaryExponent_mul hnum hden, scaled_mul, roundHalfEven_mul _ _ (Nat.two_pow_pos k)]
    simp [hnum]

/-! ## Doubling -/

/-- One of the two formats that the machine computes in. -/
def Format.Standard (f : Format) : Prop := f = .binary32 ∨ f = .binary64

section Doubling

variable {f : Format} {x : Nat}

theorem Format.Standard.two (hf : f.Standard) :
    f.isNaN f.two = false ∧ f.isInfinite f.two = false ∧ f.isNegative f.two = false ∧
      f.units f.two = 2 * f.unitsOfOne ∧ 2 * f.unitsOfOne ≠ 0 := by
  rcases hf with rfl | rfl
  · decide +kernel
  · decide +kernel

theorem Format.Standard.units_infinity (hf : f.Standard) (hx : f.isInfinite x = true) :
    f.units x ≠ 0 := by
  have hm : f.magnitude x = f.infinity := by simpa [isInfinite] using hx
  have hinf : f.infinity / 2 ^ (f.precision - 1) ≠ 0 := by
    rcases hf with rfl | rfl
    · decide
    · decide
  unfold units
  dsimp only
  rw [hm, if_neg hinf]
  exact Nat.mul_ne_zero (by have := Nat.two_pow_pos (f.precision - 1); omega)
    (Nat.two_pow_pos _).ne'

/-- A pattern is its magnitude with its sign. -/
theorem Format.signed_magnitude (hx : x < 2 * f.signBit) :
    f.signed (f.isNegative x) (f.magnitude x) = x := by
  unfold signed isNegative magnitude
  by_cases h : f.signBit ≤ x
  · have hmod : x % f.signBit = x - f.signBit := by
      rw [Nat.mod_eq_sub_mod h, Nat.mod_eq_of_lt (by omega)]
    simp only [h, decide_true, if_true, hmod]
    omega
  · simp [h, Nat.mod_eq_of_lt (by omega : x < f.signBit)]

/-- A number is doubled by adding it to itself. -/
theorem Format.round_double (f : Format) (x : Nat) :
    f.round (f.isNegative x) (f.units x * (2 * f.unitsOfOne)) (f.unitsOfOne * f.unitsOfOne) =
      let total := f.signedUnits x + f.signedUnits x
      if total = 0 then f.signed (f.isNegative x) 0
      else f.round (decide (total < 0)) total.natAbs f.unitsOfOne := by
  have hnearest : f.nearest (f.units x * (2 * f.unitsOfOne)) (f.unitsOfOne * f.unitsOfOne) =
      f.nearest (2 * f.units x) f.unitsOfOne := by
    have hone : f.unitsOfOne ≠ 0 := (Nat.two_pow_pos _).ne'
    rw [← f.nearest_mul (2 * f.units x) hone f.leastExponent.natAbs]
    congr 1
    unfold unitsOfOne
    ring
  unfold round
  rw [hnearest]
  dsimp only
  unfold signedUnits
  by_cases hzero : f.units x = 0
  · have hnone : f.nearest (2 * f.units x) f.unitsOfOne = 0 := by
      rw [hzero]
      rfl
    rw [hnone, hzero]
    simp
  · cases hneg : f.isNegative x with
    | true =>
      have hlt : -(f.units x : Int) + -(f.units x : Int) < 0 := by omega
      have habs : (-(f.units x : Int) + -(f.units x : Int)).natAbs = 2 * f.units x := by omega
      simp only [if_true, hlt.ne, if_false, hlt, decide_true, habs]
    | false =>
      have hge : ¬ ((f.units x : Int) + f.units x < 0) := by omega
      have hne : (f.units x : Int) + f.units x ≠ 0 := by omega
      have habs : ((f.units x : Int) + f.units x).natAbs = 2 * f.units x := by omega
      simp only [Bool.false_eq_true, if_false, hne, hge, decide_false, habs]

/-- The product with two is the sum of a pattern with itself, in either order. -/
theorem Format.mul_two (hf : f.Standard) (hx : x < 2 * f.signBit) :
    f.mul x f.two = f.add x x ∧ f.mul f.two x = f.add x x := by
  obtain ⟨hnan, hinf, hneg, hunits, hpos⟩ := hf.two
  have hsign : ∀ b : Bool, (b != false) = b ∧ (false != b) = b := by decide
  have hself : ∀ b : Bool, (b != b) = false ∧ (b && b) = b := by decide
  unfold mul add
  rw [hnan, hinf, hneg, hunits]
  simp only [Bool.false_eq_true, if_false, Bool.or_false, Bool.false_or, (hsign _).1, (hsign _).2,
    (hself _).1, (hself _).2, Bool.and_false, hpos, or_false, false_or, Bool.or_eq_true,
    decide_eq_true_eq]
  cases hxn : f.isNaN x with
  | true => simp
  | false =>
    cases hxi : f.isInfinite x with
    | true =>
      have hm : f.magnitude x = f.infinity := by simpa [isInfinite] using hxi
      have hback := f.signed_magnitude hx
      rw [hm] at hback
      simp [hf.units_infinity hxi, hback]
    | false =>
      have hdouble := f.round_double x
      dsimp only at hdouble
      simp only [Bool.false_eq_true, if_false]
      rw [← hdouble, Nat.mul_comm (2 * f.unitsOfOne)]
      exact ⟨rfl, rfl⟩

end Doubling

end Backend.Float
