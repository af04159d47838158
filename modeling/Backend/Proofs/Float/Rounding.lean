-- Rounding to binary64 in rational numbers: a fraction that lies in the interval of a number is
-- rounded to this number.
import Backend.Float.Shortest
import Mathlib.Algebra.Order.Field.Power
import Mathlib.Data.Nat.Log
import Mathlib.Data.Rat.Cast.Order
import Mathlib.Tactic.FieldSimp
import Mathlib.Tactic.Linarith
import Mathlib.Tactic.Positivity
import Mathlib.Tactic.Ring

namespace Backend.Float

/-! ## Scaling by powers of two -/

theorem scaled_den_pos {den : Nat} (num : Nat) (h : 0 < den) (q : Int) :
    0 < (scaled num den q).2 := by
  unfold scaled
  split
  · exact h
  · exact Nat.mul_pos h (Nat.pow_pos (by decide))

theorem scaled_value (num den : Nat) (q : Int) :
    ((scaled num den q).1 : ℚ) / (scaled num den q).2 = num / den * 2 ^ (-q) := by
  unfold scaled
  simp only [Nat.pow_eq]
  split
  · have hq : -q = (q.natAbs : Int) := by omega
    rw [hq, zpow_natCast]
    push_cast
    ring
  · have hq : -q = -(q.natAbs : Int) := by omega
    rw [hq, zpow_neg, zpow_natCast]
    push_cast
    rw [div_mul_eq_div_div, div_eq_mul_inv]

/-! ## Rounding to an integer -/

/-- The integer within half a unit, which is even if it is exactly half a unit away. -/
theorem roundHalfEven_eq {num den m : Nat} (hlow : 2 * m * den ≤ 2 * num + den)
    (hhigh : 2 * num ≤ (2 * m + 1) * den)
    (htie : 2 * m * den = 2 * num + den ∨ 2 * num = (2 * m + 1) * den → m % 2 = 0)
    (hden : 0 < den) : roundHalfEven num den = m := by
  have hsplit := Nat.div_add_mod num den
  have hmod := Nat.mod_lt num hden
  unfold roundHalfEven
  set d := num / den
  set r := num % den
  have hle : d ≤ m := by
    have : 2 * d * den < (2 * m + 2) * den := by nlinarith
    have := Nat.lt_of_mul_lt_mul_right this
    omega
  have hge : m ≤ d + 1 := by
    have : 2 * m * den < (2 * d + 3) * den := by nlinarith
    have := Nat.lt_of_mul_lt_mul_right this
    omega
  obtain rfl | rfl : m = d ∨ m = d + 1 := by omega
  · have hr : 2 * r ≤ den := by nlinarith
    rcases Nat.lt_or_eq_of_le hr with hr | hr
    · simp [hr]
    · have heven : d % 2 = 0 := htie (.inr (by nlinarith))
      simp [hr, heven]
  · have hr : den ≤ 2 * r := by nlinarith
    rcases Nat.lt_or_eq_of_le hr with hr | hr
    · have hnot : ¬ 2 * r < den := by omega
      have hne : (2 * r == den) = false := by simpa using (Nat.ne_of_gt hr)
      simp [hnot, hne]
    · have heven : (d + 1) % 2 = 0 := htie (.inl (by nlinarith))
      have hodd : d % 2 = 1 := by omega
      simp [← hr, hodd]

/-- The same for a fraction. -/
theorem roundHalfEven_of_abs {num den m : Nat} (hden : 0 < den)
    (hnear : |(num : ℚ) / den - m| ≤ 1 / 2) (htie : |(num : ℚ) / den - m| = 1 / 2 → m % 2 = 0) :
    roundHalfEven num den = m := by
  have hpos : (0 : ℚ) < den := by exact_mod_cast hden
  obtain ⟨hlow, hhigh⟩ := abs_le.mp hnear
  have hmul : (num : ℚ) / den * den = num := div_mul_cancel₀ _ hpos.ne'
  have hlow' : 2 * m * den ≤ 2 * num + den := by
    have : (2 * m * den : ℚ) ≤ 2 * num + den := by nlinarith
    exact_mod_cast this
  have hhigh' : 2 * num ≤ (2 * m + 1) * den := by
    have : (2 * num : ℚ) ≤ (2 * m + 1) * den := by nlinarith
    exact_mod_cast this
  refine roundHalfEven_eq hlow' hhigh' (fun h => htie ?_) hden
  rcases h with h | h
  · have hq : (2 * m * den : ℚ) = 2 * num + den := by exact_mod_cast h
    have : (num : ℚ) / den - m = -(1 / 2) := by
      field_simp
      linarith
    rw [this, abs_neg, abs_of_pos (by norm_num)]
  · have hq : (2 * num : ℚ) = (2 * m + 1) * den := by exact_mod_cast h
    have : (num : ℚ) / den - m = 1 / 2 := by
      field_simp
      linarith
    rw [this, abs_of_pos (by norm_num)]

/-! ## The exponent of a fraction -/

theorem log2_bounds {n : Nat} (h : 0 < n) :
    (2 : ℚ) ^ (n.log2 : Int) ≤ n ∧ (n : ℚ) < 2 ^ ((n.log2 : Int) + 1) := by
  have hlow : 2 ^ n.log2 ≤ n := Nat.log2_self_le (by omega)
  have hhigh : n < 2 ^ (n.log2 + 1) := Nat.lt_log2_self
  constructor
  · rw [zpow_natCast]
    exact_mod_cast hlow
  · have : ((n.log2 : Int) + 1) = ((n.log2 + 1 : Nat) : Int) := by omega
    rw [this, zpow_natCast]
    exact_mod_cast hhigh

theorem binaryExponent_bounds {num den : Nat} (hnum : 0 < num) (hden : 0 < den) :
    (2 : ℚ) ^ binaryExponent num den ≤ num / den ∧
      (num : ℚ) / den < 2 ^ (binaryExponent num den + 1) := by
  obtain ⟨hn, hn'⟩ := log2_bounds hnum
  obtain ⟨hd, hd'⟩ := log2_bounds hden
  have hpos : (0 : ℚ) < den := by exact_mod_cast hden
  have htwo : (2 : ℚ) ≠ 0 := by norm_num
  unfold binaryExponent
  set e : Int := (num.log2 : Int) - (den.log2 : Int) with he
  have hlow : (2 : ℚ) ^ (e - 1) ≤ num / den := by
    rw [le_div_iff₀ hpos]
    calc (2 : ℚ) ^ (e - 1) * den ≤ 2 ^ (e - 1) * 2 ^ ((den.log2 : Int) + 1) := by gcongr
      _ = 2 ^ (num.log2 : Int) := by rw [← zpow_add₀ htwo]; congr 1; omega
      _ ≤ num := hn
  have hhigh : (num : ℚ) / den < 2 ^ (e + 1) := by
    rw [div_lt_iff₀ hpos]
    calc (num : ℚ) < 2 ^ ((num.log2 : Int) + 1) := hn'
      _ = 2 ^ (e + 1) * 2 ^ (den.log2 : Int) := by rw [← zpow_add₀ htwo]; congr 1; omega
      _ ≤ 2 ^ (e + 1) * den := by gcongr
  have hscaled := scaled_value num den e
  have hsden : (0 : ℚ) < (scaled num den e).2 := by exact_mod_cast scaled_den_pos num hden e
  have hpow : (0 : ℚ) < 2 ^ e := by positivity
  have hcompare : (scaled num den e).1 < (scaled num den e).2 ↔ (num : ℚ) / den < 2 ^ e := by
    rw [← @Nat.cast_lt ℚ, ← div_lt_one hsden, hscaled, zpow_neg, ← div_eq_mul_inv,
      div_lt_one hpow]
  show (2 : ℚ) ^ (if (scaled num den e).1 < (scaled num den e).2 then e - 1 else e) ≤ _ ∧
    _ < (2 : ℚ) ^ ((if (scaled num den e).1 < (scaled num den e).2 then e - 1 else e) + 1)
  split
  · rename_i h
    rw [Int.sub_add_cancel]
    exact ⟨hlow, hcompare.mp h⟩
  · rename_i h
    exact ⟨not_lt.mp (mt hcompare.mpr h), hhigh⟩

/-! ## Rounding to the format -/

/-- The last place of the significand has the weight `2^q` if the fraction lies below `2^(q+53)`
and, above the least weight, not below `2^(q+52)`. -/
theorem nearest_of_weight {num den m : Nat} {q : Int} (hnum : 0 < num) (hden : 0 < den)
    (hq : -1074 ≤ q) (hhigh : (num : ℚ) / den < 2 ^ (q + 53))
    (hlow : q = -1074 ∨ (2 : ℚ) ^ (q + 52) ≤ num / den)
    (hnear : |(num : ℚ) / den * 2 ^ (-q) - m| ≤ 1 / 2)
    (htie : |(num : ℚ) / den * 2 ^ (-q) - m| = 1 / 2 → m % 2 = 0) :
    Format.binary64.nearest num den = (q + 1074).toNat * 2 ^ 52 + m := by
  obtain ⟨hle, hlt⟩ := binaryExponent_bounds hnum hden
  have htwo : (1 : ℚ) < 2 := by norm_num
  have hupper : binaryExponent num den < q + 53 :=
    (zpow_lt_zpow_iff_right₀ htwo).mp (hle.trans_lt hhigh)
  have hweight : max (binaryExponent num den - 52) (-1074) = q := by
    rcases hlow with rfl | hlow
    · exact max_eq_right (by omega)
    · have := (zpow_lt_zpow_iff_right₀ htwo).mp (hlow.trans_lt hlt)
      rw [max_eq_left (by omega)]
      omega
  have hround : roundHalfEven (scaled num den q).1 (scaled num den q).2 = m := by
    refine roundHalfEven_of_abs (scaled_den_pos num hden q) ?_ ?_
    · rwa [scaled_value]
    · rwa [scaled_value]
  have hne : (num == 0) = false := by simpa using (Nat.ne_of_gt hnum)
  unfold Format.nearest
  rw [hne]
  show (max (binaryExponent num den - 52) (-1074) - -1074).toNat * 2 ^ 52 +
    roundHalfEven (scaled num den (max (binaryExponent num den - 52) (-1074))).1
      (scaled num den (max (binaryExponent num den - 52) (-1074))).2 = _
  rw [hweight, hround, Int.sub_neg]

/-! ## The interval of a number -/

/-- A positive finite number as `m * 2^q`. -/
structure Decoded (x : Binary64) (m : Nat) (q : Int) : Prop where
  pos : 0 < m
  lt : m < 2 ^ 53
  least : -1074 ≤ q
  most : q ≤ 971
  normal : q = -1074 ∨ 2 ^ 52 ≤ m
  magnitude : (q + 1074).toNat * 2 ^ 52 + m = x.magnitude

theorem decoded {x : Binary64} (hpos : 0 < x.magnitude)
    (hfinite : x.magnitude < Format.binary64.infinity) : Decoded x x.decode.1 x.decode.2 := by
  have hinf : Format.binary64.infinity = 2047 * 2 ^ 52 := by decide
  have hmod := Nat.mod_lt x.magnitude (show 0 < 2 ^ 52 by decide)
  have hsplit := Nat.div_add_mod x.magnitude (2 ^ 52)
  rw [hinf] at hfinite
  have hfield : x.magnitude / 2 ^ 52 < 2047 := by omega
  unfold Binary64.decode
  simp only [Nat.pow_eq]
  split
  · rename_i h
    simp only [beq_iff_eq] at h
    constructor <;> dsimp only <;> omega
  · rename_i h
    simp only [beq_iff_eq] at h
    constructor <;> dsimp only <;> omega

/-- How far the interval reaches below the number, in quarters of the last place. -/
def quartersBelow (m : Nat) (q : Int) : Nat := if m = 2 ^ 52 ∧ -1074 < q then 1 else 2

theorem quartersBelow_le {m : Nat} {q : Int} (hpos : 0 < m) :
    quartersBelow m q ≤ 2 ∧ quartersBelow m q ≤ 4 * m := by
  unfold quartersBelow
  split <;> omega

/-- The interval reaches half a place above the number and half a place, or a quarter, below it. -/
structure Reaches (i : Interval) (m : Nat) (q : Int) : Prop where
  den_pos : 0 < i.den
  low : (i.low : ℚ) / i.den = (m - quartersBelow m q / 4) * 2 ^ q
  value : (i.value : ℚ) / i.den = m * 2 ^ q
  high : (i.high : ℚ) / i.den = (m + 1 / 2) * 2 ^ q
  closed : i.closed = true ↔ m % 2 = 0

theorem Reaches.lt {i : Interval} {m : Nat} {q : Int} (h : Reaches i m q) :
    (i.low : ℚ) / i.den < i.value / i.den ∧ (i.value : ℚ) / i.den < i.high / i.den := by
  have hpow : (0 : ℚ) < 2 ^ q := by positivity
  have hquarters : (1 : ℚ) ≤ quartersBelow m q := by
    have : 1 ≤ quartersBelow m q := by
      unfold quartersBelow
      split <;> omega
    exact_mod_cast this
  rw [h.low, h.value, h.high]
  exact ⟨mul_lt_mul_of_pos_right (by linarith) hpow, mul_lt_mul_of_pos_right (by linarith) hpow⟩

theorem interval_eq (x : Binary64) : x.interval =
    ⟨(4 * x.decode.1 - quartersBelow x.decode.1 x.decode.2) * (scaled 1 1 (2 - x.decode.2)).1,
      4 * x.decode.1 * (scaled 1 1 (2 - x.decode.2)).1,
      (4 * x.decode.1 + 2) * (scaled 1 1 (2 - x.decode.2)).1,
      (scaled 1 1 (2 - x.decode.2)).2, x.decode.1 % 2 == 0⟩ := by
  have hbelow : quartersBelow x.decode.1 x.decode.2 =
      if x.decode.1 == Nat.pow 2 52 && x.decode.2 > -1074 then 1 else 2 := by
    simp [quartersBelow]
  rw [hbelow]
  rfl

theorem interval_reaches {x : Binary64} (hpos : 0 < x.decode.1) :
    Reaches x.interval x.decode.1 x.decode.2 := by
  rw [interval_eq]
  generalize x.decode = d at hpos ⊢
  obtain ⟨m, q⟩ := d
  dsimp only at hpos ⊢
  have hunit : ((scaled 1 1 (2 - q)).1 : ℚ) / (scaled 1 1 (2 - q)).2 = 2 ^ q / 4 := by
    rw [scaled_value, neg_sub, zpow_sub₀ (by norm_num)]
    norm_num
  have hquarters := (quartersBelow_le (q := q) hpos).2
  refine ⟨scaled_den_pos 1 (by decide) _, ?_, ?_, ?_, by simp⟩ <;>
  · rw [Nat.cast_mul, mul_div_assoc, hunit]
    push_cast [hquarters]
    ring

/-- The comparisons with the ends, as fractions. -/
theorem contains_iff {i : Interval} {num den : Nat} (hi : 0 < i.den) (hden : 0 < den) :
    i.contains num den = true ↔
      if i.closed then (i.low : ℚ) / i.den ≤ num / den ∧ (num : ℚ) / den ≤ i.high / i.den
      else (i.low : ℚ) / i.den < num / den ∧ (num : ℚ) / den < i.high / i.den := by
  have hi' : (0 : ℚ) < i.den := by exact_mod_cast hi
  have hden' : (0 : ℚ) < den := by exact_mod_cast hden
  unfold Interval.contains
  split
  · rw [div_le_div_iff₀ hi' hden', div_le_div_iff₀ hden' hi', Bool.and_eq_true, decide_eq_true_eq,
      decide_eq_true_eq]
    exact and_congr (by norm_cast) (by norm_cast)
  · rw [div_lt_div_iff₀ hi' hden', div_lt_div_iff₀ hden' hi', Bool.and_eq_true, decide_eq_true_eq,
      decide_eq_true_eq]
    exact and_congr (by norm_cast) (by norm_cast)

/-- A fraction in the interval lies within its ends, and at an end only if the significand is
even. -/
theorem Reaches.bounds {i : Interval} {m : Nat} {q : Int} {num den : Nat} (h : Reaches i m q)
    (hden : 0 < den) (hcontains : i.contains num den = true) :
    (m - quartersBelow m q / 4 : ℚ) ≤ num / den * 2 ^ (-q) ∧
      (num : ℚ) / den * 2 ^ (-q) ≤ m + 1 / 2 ∧
      ((m - quartersBelow m q / 4 : ℚ) = num / den * 2 ^ (-q) ∨
        (num : ℚ) / den * 2 ^ (-q) = m + 1 / 2 → m % 2 = 0) := by
  have hpow : (0 : ℚ) < 2 ^ q := by positivity
  have hscale : ∀ a v : ℚ, (a * 2 ^ q ≤ v ↔ a ≤ v * 2 ^ (-q)) ∧ (v ≤ a * 2 ^ q ↔ v * 2 ^ (-q) ≤ a) ∧
      (a * 2 ^ q < v ↔ a < v * 2 ^ (-q)) ∧ (v < a * 2 ^ q ↔ v * 2 ^ (-q) < a) := by
    intro a v
    rw [zpow_neg, ← div_eq_mul_inv]
    exact ⟨(le_div_iff₀ hpow).symm, (div_le_iff₀ hpow).symm, (lt_div_iff₀ hpow).symm,
      (div_lt_iff₀ hpow).symm⟩
  rw [contains_iff h.den_pos hden, h.low, h.high] at hcontains
  split at hcontains
  · rename_i hclosed
    exact ⟨(hscale _ _).1.mp hcontains.1, (hscale _ _).2.1.mp hcontains.2,
      fun _ => h.closed.mp hclosed⟩
  · have hlow := (hscale _ _).2.2.1.mp hcontains.1
    have hhigh := (hscale _ _).2.2.2.mp hcontains.2
    exact ⟨hlow.le, hhigh.le,
      fun hends => (hends.elim (fun h => hlow.ne h) fun h => hhigh.ne h).elim⟩

/-- Every fraction in the interval of a number is rounded to the number. -/
theorem nearest_of_contains {x : Binary64} (hpos : 0 < x.magnitude)
    (hfinite : x.magnitude < Format.binary64.infinity) {num den : Nat} (hden : 0 < den)
    (hcontains : x.interval.contains num den = true) :
    0 < num ∧ Format.binary64.nearest num den = x.magnitude := by
  have hx := decoded hpos hfinite
  obtain ⟨hlow, hhigh, htie⟩ := (interval_reaches hx.pos).bounds hden hcontains
  set m := x.decode.1
  set q := x.decode.2
  set y := (num : ℚ) / den * 2 ^ (-q) with hy
  have hpow : (0 : ℚ) < 2 ^ q := by positivity
  have hvalue : (num : ℚ) / den = y * 2 ^ q := by
    rw [hy, mul_assoc, ← zpow_add₀ (by norm_num)]
    simp
  have hm : (1 : ℚ) ≤ m := by exact_mod_cast hx.pos
  have hquarters : (quartersBelow m q : ℚ) ≤ 2 := by
    exact_mod_cast (quartersBelow_le (q := q) hx.pos).1
  have hnum : 0 < num := by
    have hpositive : (0 : ℚ) < y := by linarith
    rw [Nat.pos_iff_ne_zero]
    rintro rfl
    simp [hy] at hpositive
  refine ⟨hnum, ?_⟩
  have hm' : (m : ℚ) ≤ 2 ^ 53 - 1 := by
    have : m + 1 ≤ 2 ^ 53 := hx.lt
    have : ((m + 1 : Nat) : ℚ) ≤ (2 ^ 53 : Nat) := by exact_mod_cast this
    push_cast at this
    linarith
  have hbelow : (num : ℚ) / den < 2 ^ (q + 53) := by
    rw [hvalue, zpow_add₀ (by norm_num), mul_comm]
    refine mul_lt_mul_of_pos_left ?_ hpow
    rw [show (2 : ℚ) ^ (53 : Int) = 2 ^ 53 by norm_num]
    linarith
  by_cases hnormal : q = -1074 ∨ (2 : ℚ) ^ (q + 52) ≤ num / den
  · rw [← hx.magnitude]
    refine nearest_of_weight hnum hden hx.least hbelow hnormal ?_ ?_
    · rw [abs_le]
      constructor <;> linarith
    · intro h
      rcases (abs_eq (by norm_num)).mp h with h | h
      · exact htie (.inr (by linarith))
      · exact htie (.inl (by linarith))
  · -- Just below a power of two the last place weighs half as much.
    simp only [not_or, not_le] at hnormal
    obtain ⟨hne, hlt⟩ := hnormal
    have hleast : 2 ^ 52 ≤ m := hx.normal.resolve_left hne
    have hunder : y < 2 ^ 52 := by
      rw [hvalue, zpow_add₀ (by norm_num), mul_comm] at hlt
      exact_mod_cast lt_of_mul_lt_mul_left hlt hpow.le
    have hpower : m = 2 ^ 52 := by
      by_contra hpower
      have : 2 ^ 52 + 1 ≤ m := by omega
      have : ((2 ^ 52 + 1 : Nat) : ℚ) ≤ m := by exact_mod_cast this
      push_cast at this
      linarith
    have hquarter : quartersBelow m q = 1 := if_pos ⟨hpower, by have := hx.least; omega⟩
    have hmq : (m : ℚ) = 2 ^ 52 := by rw [hpower]; norm_num
    rw [hquarter, hmq] at hlow
    have hhalf : (num : ℚ) / den * 2 ^ (-(q - 1)) = 2 * y := by
      rw [hy, neg_sub, sub_eq_add_neg, zpow_add₀ (by norm_num)]
      ring
    have hnearest := nearest_of_weight (m := 2 ^ 53) (q := q - 1) hnum hden
      (by have := hx.least; omega) (by rwa [show q - 1 + 53 = q + 52 by omega]) (.inr ?_) ?_ ?_
    · rw [hnearest, ← hx.magnitude, hpower]
      have := hx.least
      omega
    · rw [hvalue, show q - 1 + 52 = q + 51 by omega, zpow_add₀ (by norm_num), mul_comm]
      refine mul_le_mul_of_nonneg_right ?_ hpow.le
      norm_num at hlow ⊢
      linarith
    · rw [hhalf, abs_le]
      push_cast
      constructor <;> norm_num at hlow hunder ⊢ <;> linarith
    · exact fun _ => by decide

end Backend.Float
