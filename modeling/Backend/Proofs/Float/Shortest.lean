-- The shortest digits of a binary64 number: seventeen always suffice, and the number they stand for
-- is rounded to the one that they were found for.
import Backend.Proofs.Float.Rounding
import Backend.Proofs.Text.Numeral
import Backend.Float.Numeral
import Mathlib.Data.List.TakeWhile

namespace Backend.Float

open Backend.Text

/-! ## The decimal point -/

theorem length_toDigits_bounds {n : Nat} (h : 0 < n) :
    (10 : ℚ) ^ (((Nat.toDigits 10 n).length : Int) - 1) ≤ n ∧
      (n : ℚ) + 1 ≤ 10 ^ ((Nat.toDigits 10 n).length : Int) := by
  have hpos : 0 < (Nat.toDigits 10 n).length := Nat.length_toDigits_pos
  set len := (Nat.toDigits 10 n).length with hlen
  constructor
  · have hle : 10 ^ (len - 1) ≤ n := by
      rcases Nat.eq_zero_or_pos (len - 1) with hzero | hpos'
      · rw [hzero]
        exact h
      · by_contra hlt
        have := (Nat.length_toDigits_le_iff (by decide) hpos').mpr (not_le.mp hlt)
        omega
    have hcast : ((len : Int) - 1) = ((len - 1 : Nat) : Int) := by omega
    rw [hcast, zpow_natCast]
    exact_mod_cast hle
  · have hlt : n < 10 ^ len := (Nat.length_toDigits_le_iff (by decide) hpos).mp hlen.ge
    rw [zpow_natCast]
    exact_mod_cast hlt

/-- The point stands right after the first digit that is not zero. -/
theorem decimalPoint_bounds {num den : Nat} (hden : 0 < den)
    (hnum : ∃ j < 400, (1 : ℚ) ≤ num / den * 10 ^ j) :
    (10 : ℚ) ^ (decimalPoint num den - 1) ≤ num / den ∧
      (num : ℚ) / den < 10 ^ decimalPoint num den ∧
      -399 ≤ decimalPoint num den := by
  have hpos : (0 : ℚ) < den := by exact_mod_cast hden
  have hten : (10 : ℚ) ≠ 0 := by norm_num
  unfold decimalPoint
  split
  · rename_i hge
    have hquot : 0 < num / den := Nat.div_pos hge hden
    obtain ⟨hlow, hhigh⟩ := length_toDigits_bounds hquot
    refine ⟨?_, ?_, by omega⟩
    · refine hlow.trans ?_
      rw [le_div_iff₀ hpos]
      exact_mod_cast Nat.div_mul_le_self num den
    · refine lt_of_lt_of_le ?_ hhigh
      rw [div_lt_iff₀ hpos]
      exact_mod_cast (Nat.div_lt_iff_lt_mul hden).mp (Nat.lt_succ_self _)
  · rename_i hlt
    cases hfind : (List.range 400).find? fun j => decide (den ≤ num * Nat.pow 10 j) with
    | none =>
      rw [List.find?_range_eq_none] at hfind
      obtain ⟨j, hj, hle⟩ := hnum
      have hnone := hfind j hj
      rw [Bool.not_eq_true', decide_eq_false_iff_not, Nat.pow_eq] at hnone
      rw [div_mul_eq_mul_div, one_le_div₀ hpos] at hle
      exact absurd (by exact_mod_cast hle) hnone
    | some j =>
      simp only [List.find?_range_eq_some, List.mem_range, decide_eq_true_eq, Bool.not_eq_true',
        decide_eq_false_iff_not, Nat.pow_eq] at hfind
      obtain ⟨hj, hbound, hleast⟩ := hfind
      have hjpos : 0 < j := by
        rw [Nat.pos_iff_ne_zero]
        rintro rfl
        rw [Nat.pow_zero, Nat.mul_one] at hj
        exact hlt hj
      have hprev := hleast (j - 1) (by omega)
      show (10 : ℚ) ^ (1 - (j : Int) - 1) ≤ _ ∧ _ < (10 : ℚ) ^ (1 - (j : Int)) ∧
        -399 ≤ 1 - (j : Int)
      refine ⟨?_, ?_, by omega⟩
      · rw [show (1 - (j : Int) - 1) = -(j : Int) by omega, zpow_neg, zpow_natCast,
          le_div_iff₀ hpos, inv_mul_le_iff₀ (by positivity), mul_comm]
        exact_mod_cast hj
      · rw [show (1 - (j : Int)) = -((j - 1 : Nat) : Int) by omega, zpow_neg, zpow_natCast,
          div_lt_iff₀ hpos, ← div_eq_inv_mul, lt_div_iff₀ (by positivity)]
        exact_mod_cast not_le.mp hprev

/-! ## Points of a decimal grid -/

/-- The power `10^scale` as a fraction. -/
def gridUnit (scale : Int) : Nat × Nat :=
  if scale < 0 then (1, Nat.pow 10 scale.natAbs) else (Nat.pow 10 scale.natAbs, 1)

theorem gridUnit_pos (scale : Int) : 0 < (gridUnit scale).1 ∧ 0 < (gridUnit scale).2 := by
  have hpow : 0 < Nat.pow 10 scale.natAbs := Nat.pow_pos (by decide)
  unfold gridUnit
  split
  · exact ⟨Nat.one_pos, hpow⟩
  · exact ⟨hpow, Nat.one_pos⟩

theorem gridUnit_value (scale : Int) :
    ((gridUnit scale).1 : ℚ) / (gridUnit scale).2 = 10 ^ scale := by
  have hpow : ((Nat.pow 10 scale.natAbs : Nat) : ℚ) = 10 ^ (scale.natAbs : Int) := by
    rw [Nat.pow_eq, zpow_natCast, Nat.cast_pow, Nat.cast_ofNat]
  unfold gridUnit
  split
  · show ((1 : Nat) : ℚ) / ((Nat.pow 10 scale.natAbs : Nat) : ℚ) = _
    rw [hpow, Nat.cast_one, one_div, ← zpow_neg]
    congr 1
    omega
  · show ((Nat.pow 10 scale.natAbs : Nat) : ℚ) / ((1 : Nat) : ℚ) = _
    rw [hpow, Nat.cast_one, div_one]
    congr 1
    omega

/-- The point `d * 10^scale` lies in the interval. -/
def OnGrid (i : Interval) (scale : Int) (d : Nat) : Prop :=
  i.contains (d * (gridUnit scale).1) (gridUnit scale).2 = true

theorem grid_value (scale : Int) (d : Nat) :
    ((d * (gridUnit scale).1 : Nat) : ℚ) / (gridUnit scale).2 = d * 10 ^ scale := by
  rw [Nat.cast_mul, mul_div_assoc, gridUnit_value]

theorem onGrid_of_lt {i : Interval} (hi : 0 < i.den) {scale : Int} {d : Nat}
    (hlow : (i.low : ℚ) / i.den < d * 10 ^ scale) (hhigh : (d : ℚ) * 10 ^ scale < i.high / i.den) :
    OnGrid i scale d := by
  rw [OnGrid, contains_iff hi (gridUnit_pos scale).2, grid_value]
  split
  · exact ⟨hlow.le, hhigh.le⟩
  · exact ⟨hlow, hhigh⟩

/-- The point below the value of the interval. -/
def gridFloor (i : Interval) (scale : Int) : Nat :=
  i.value * (gridUnit scale).2 / (i.den * (gridUnit scale).1)

theorem gridFloor_bounds {i : Interval} (hi : 0 < i.den) (scale : Int) :
    (gridFloor i scale : ℚ) * 10 ^ scale ≤ i.value / i.den ∧
      (i.value : ℚ) / i.den < (gridFloor i scale + 1) * 10 ^ scale := by
  obtain ⟨hup, hdown⟩ := gridUnit_pos scale
  have hden : 0 < i.den * (gridUnit scale).1 := Nat.mul_pos hi hup
  have hi' : (0 : ℚ) < i.den := by exact_mod_cast hi
  have hdown' : (0 : ℚ) < (gridUnit scale).2 := by exact_mod_cast hdown
  rw [← gridUnit_value, ← mul_div_assoc, ← mul_div_assoc, div_le_div_iff₀ hdown' hi',
    div_lt_div_iff₀ hi' hdown']
  have hlow : gridFloor i scale * (i.den * (gridUnit scale).1) ≤ i.value * (gridUnit scale).2 :=
    Nat.div_mul_le_self _ _
  have hhigh : i.value * (gridUnit scale).2 <
      (gridFloor i scale + 1) * (i.den * (gridUnit scale).1) :=
    (Nat.div_lt_iff_lt_mul hden).mp (Nat.lt_succ_self _)
  constructor
  · calc (gridFloor i scale : ℚ) * (gridUnit scale).1 * i.den
        = gridFloor i scale * (i.den * (gridUnit scale).1) := by ring
      _ ≤ i.value * (gridUnit scale).2 := by exact_mod_cast hlow
  · calc (i.value : ℚ) * (gridUnit scale).2
        < (gridFloor i scale + 1) * (i.den * (gridUnit scale).1) := by exact_mod_cast hhigh
      _ = (gridFloor i scale + 1) * (gridUnit scale).1 * i.den := by ring

/-- The search answers with the point below the value or the one above it, if either is in the
interval. -/
theorem onGrid?_cases (i : Interval) (scale : Int) :
    (∃ d, i.onGrid? scale = some d ∧ OnGrid i scale d) ∨
      i.onGrid? scale = none ∧ ¬ OnGrid i scale (gridFloor i scale) ∧
        ¬ OnGrid i scale (gridFloor i scale + 1) := by
  let hit (d : Nat) : Bool := i.contains (d * (gridUnit scale).1) (gridUnit scale).2
  let d := gridFloor i scale
  obtain ⟨nearer, heq⟩ : ∃ nearer : Bool, i.onGrid? scale =
      if hit d && hit (d + 1) then some (if nearer then d else d + 1)
      else if hit d then some d else if hit (d + 1) then some (d + 1) else none := ⟨_, rfl⟩
  rw [heq]
  by_cases hlow : hit d = true <;> by_cases hhigh : hit (d + 1) = true
  · refine .inl ⟨if nearer then d else d + 1, by simp [hlow, hhigh], ?_⟩
    cases nearer
    · exact hhigh
    · exact hlow
  · exact .inl ⟨d, by simp [hlow, hhigh], hlow⟩
  · exact .inl ⟨d + 1, by simp [hlow, hhigh], hhigh⟩
  · exact .inr ⟨by simp [hlow, hhigh], hlow, hhigh⟩

/-! ## Digits that suffice -/

section Digits

variable {x : Binary64} (hpos : 0 < x.magnitude) (hfinite : x.magnitude < Format.binary64.infinity)

/-- The decimal point of a positive finite number. -/
def point (x : Binary64) : Int := decimalPoint x.interval.value x.interval.den

include hpos hfinite

theorem point_bounds : (10 : ℚ) ^ (point x - 1) ≤ x.decode.1 * 2 ^ x.decode.2 ∧
    (x.decode.1 : ℚ) * 2 ^ x.decode.2 < 10 ^ point x ∧ -399 ≤ point x := by
  have hx := decoded hpos hfinite
  have hreaches := interval_reaches hx.pos
  rw [← hreaches.value]
  refine decimalPoint_bounds hreaches.den_pos ⟨399, by decide, ?_⟩
  have hvalue : (2 : ℚ) ^ (-1074 : Int) ≤ x.interval.value / x.interval.den := by
    rw [hreaches.value]
    have hm : (1 : ℚ) ≤ x.decode.1 := by exact_mod_cast hx.pos
    have hq : (2 : ℚ) ^ (-1074 : Int) ≤ 2 ^ x.decode.2 := zpow_le_zpow_right₀ (by norm_num) hx.least
    nlinarith [zpow_pos (show (0 : ℚ) < 2 by norm_num) x.decode.2]
  have hten : (1 : ℚ) ≤ 2 ^ (-1074 : Int) * 10 ^ 399 := by
    have height : (2 : ℚ) ^ 1074 ≤ 10 ^ 399 := by
      calc (2 : ℚ) ^ 1074 ≤ 2 ^ (3 * 399) := pow_le_pow_right₀ (by norm_num) (by norm_num)
        _ = (2 ^ 3) ^ 399 := pow_mul _ _ _
        _ ≤ 10 ^ 399 := pow_le_pow_left₀ (by norm_num) (by norm_num) _
    rw [show (-1074 : Int) = -((1074 : Nat) : Int) from rfl, zpow_neg, zpow_natCast,
      ← div_eq_inv_mul, one_le_div₀ (by positivity)]
    exact height
  exact hten.trans (mul_le_mul_of_nonneg_right hvalue (by positivity))

/-- One of the two points of the seventeenth place next to the number lies in its interval. -/
theorem onGrid?_seventeenth : ∃ d, x.interval.onGrid? (point x - 17) = some d := by
  have hx := decoded hpos hfinite
  have hreaches := interval_reaches hx.pos
  obtain ⟨hpoint, -, -⟩ := point_bounds hpos hfinite
  rcases onGrid?_cases x.interval (point x - 17) with ⟨d, hd, -⟩ | ⟨-, hlow, hhigh⟩
  · exact ⟨d, hd⟩
  exfalso
  obtain ⟨hfloor, hceil⟩ := gridFloor_bounds hreaches.den_pos (point x - 17)
  set i := x.interval
  set m := x.decode.1
  set q := x.decode.2
  set d := gridFloor i (point x - 17)
  set g : ℚ := 10 ^ (point x - 17) with hg
  have hpow : (0 : ℚ) < 2 ^ q := by positivity
  obtain ⟨hunder, hover⟩ := hreaches.lt
  have hbelow : (d : ℚ) * g ≤ i.low / i.den := by
    by_contra hlt
    exact hlow (onGrid_of_lt hreaches.den_pos (not_le.mp hlt) (hfloor.trans_lt hover))
  have habove : (i.high : ℚ) / i.den ≤ (d + 1) * g := by
    by_contra hlt
    refine hhigh (onGrid_of_lt hreaches.den_pos ?_ ?_)
    · push_cast
      exact hunder.trans hceil
    · push_cast
      exact not_le.mp hlt
  rw [hreaches.low] at hbelow
  rw [hreaches.high] at habove
  -- The points are closer to each other than the ends of the interval.
  have hclose : g * 10 ^ 16 ≤ m * 2 ^ q := by
    refine le_trans (le_of_eq ?_) hpoint
    rw [hg, ← zpow_natCast (10 : ℚ) 16, ← zpow_add₀ (by norm_num)]
    congr 1
    push_cast
    omega
  have hm : (m : ℚ) * 2 ^ q ≤ 2 ^ 53 * 2 ^ q := by
    refine mul_le_mul_of_nonneg_right ?_ hpow.le
    exact_mod_cast hx.lt.le
  by_cases hpower : m = 2 ^ 52 ∧ -1074 < q
  · have hquarter : (quartersBelow m q : ℚ) = 1 := by
      rw [quartersBelow, if_pos hpower, Nat.cast_one]
    have hmq : (m : ℚ) = 2 ^ 52 := by rw [hpower.1]; norm_num
    rw [hquarter] at hbelow
    rw [hmq] at hclose hbelow habove
    linarith
  · have hquarter : (quartersBelow m q : ℚ) = 2 := by
      rw [quartersBelow, if_neg hpower, Nat.cast_ofNat]
    rw [hquarter] at hbelow
    linarith

end Digits

/-! ## The digits themselves -/

theorem isDigit_digitChars {ds : List Nat} (h : ∀ d ∈ ds, d < 10) :
    ∀ c ∈ digitChars ds, c.isDigit = true := by
  have hall : ∀ d < 10, (Char.ofNat (48 + d)).isDigit = true := by decide
  intro c hc
  obtain ⟨d, hd, rfl⟩ := List.mem_map.mp hc
  exact hall d (h d hd)

theorem digitChars_map {s : List Char} (h : ∀ c ∈ s, c.isDigit = true) :
    digitChars (s.map fun c => c.toNat - 48) = s := by
  rw [digitChars, List.map_map]
  refine (List.map_congr_left fun c hc => ?_).trans (List.map_id s)
  obtain ⟨hlow, -⟩ := isDigit_iff.mp (h c hc)
  have hlow' : 48 ≤ c.toNat := hlow
  show Char.ofNat (48 + (c.toNat - 48)) = c
  rw [Nat.add_sub_cancel' hlow', Char.ofNat_toNat]

theorem ofDigitChars_zeros (n acc : Nat) :
    Nat.ofDigitChars 10 (List.replicate n '0') acc = acc * 10 ^ n := by
  induction n generalizing acc with
  | zero => simp
  | succ n ih =>
    rw [List.replicate_succ, Nat.ofDigitChars_cons, ih, Nat.pow_succ]
    simp only [Char.reduceToNat, Nat.sub_self, Nat.add_zero]
    ring

/-- The number that the digits stand for. -/
def Digits.value (d : Digits) : ℚ :=
  Nat.ofDigitChars 10 (digitChars d.digits) 0 * 10 ^ (d.point - d.digits.length)

/-- The digits of a point of the grid without the zeros at the end. -/
def gridDigits (k : Int) (n d : Nat) : Digits :=
  let text := Nat.toDigits 10 d
  ⟨(text.reverse.dropWhile (· == '0')).reverse.map fun c => c.toNat - 48,
    k + ((text.length : Int) - (n + 1 : Nat))⟩

theorem gridDigits_lt {k : Int} {n d : Nat} : ∀ a ∈ (gridDigits k n d).digits, a < 10 := by
  intro a ha
  obtain ⟨c, hc, rfl⟩ := List.mem_map.mp ha
  have hmem : c ∈ Nat.toDigits 10 d := by
    have := (List.dropWhile_sublist _).mem (List.mem_reverse.mp hc)
    exact List.mem_reverse.mp this
  obtain ⟨-, hhigh⟩ := isDigit_iff.mp (isDigit_of_mem_decimal hmem)
  have : c.toNat ≤ 57 := hhigh
  omega

theorem gridDigits_value (k : Int) (n d : Nat) :
    (gridDigits k n d).value = d * 10 ^ (k - (n + 1 : Nat)) := by
  set text := Nat.toDigits 10 d with htext
  set kept := (text.reverse.dropWhile (· == '0')).reverse with hkept
  have hdigits : ∀ c ∈ kept, c.isDigit = true := by
    intro c hc
    have := (List.dropWhile_sublist _).mem (List.mem_reverse.mp hc)
    exact isDigit_of_mem_decimal (List.mem_reverse.mp this)
  obtain ⟨z, hz⟩ : ∃ z, text = kept ++ List.replicate z '0' := by
    refine ⟨(text.reverse.takeWhile (· == '0')).length, ?_⟩
    have hzeros : text.reverse.takeWhile (· == '0') =
        List.replicate (text.reverse.takeWhile (· == '0')).length '0' :=
      List.eq_replicate_iff.mpr ⟨rfl, fun c hc => by simpa using List.mem_takeWhile_imp hc⟩
    have hsplit := congrArg List.reverse
      (List.takeWhile_append_dropWhile (p := (· == '0')) (l := text.reverse))
    rw [List.reverse_append, List.reverse_reverse, hzeros, List.reverse_replicate] at hsplit
    exact hsplit.symm
  have hd : d = Nat.ofDigitChars 10 kept 0 * 10 ^ z := by
    have : Nat.ofDigitChars 10 text 0 = d := Nat.ofDigitChars_ten_toDigits
    rw [← this, hz, Nat.ofDigitChars_append, ofDigitChars_zeros]
  have hlen : text.length = kept.length + z := by
    rw [hz, List.length_append, List.length_replicate]
  show (Nat.ofDigitChars 10 (digitChars (kept.map fun c => c.toNat - 48)) 0 : ℚ) *
    10 ^ (k + ((text.length : Int) - (n + 1 : Nat)) - (kept.map fun c => c.toNat - 48).length) = _
  rw [digitChars_map hdigits, List.length_map, hlen, hd]
  push_cast
  rw [mul_assoc, ← zpow_natCast (10 : ℚ) z, ← zpow_add₀ (by norm_num)]
  congr 2
  omega

theorem shortest_eq (x : Binary64) : x.shortest = ((List.range 17).findSome? fun n =>
    (x.interval.onGrid? (point x - (n + 1 : Nat))).map (gridDigits (point x) n)).getD ⟨[], 0⟩ := by
  have : ∀ o : Option Nat, ∀ f : Nat → Digits, (o >>= fun d => some (f d)) = o.map f := by
    intro o f
    cases o <;> rfl
  simp only [← this]
  rfl

theorem shortest_lt (x : Binary64) : ∀ a ∈ x.shortest.digits, a < 10 := by
  rw [shortest_eq]
  cases h : (List.range 17).findSome? fun n =>
      (x.interval.onGrid? (point x - (n + 1 : Nat))).map (gridDigits (point x) n) with
  | none => exact fun a ha => nomatch ha
  | some ds =>
    obtain ⟨n, -, hn⟩ := List.exists_of_findSome?_eq_some h
    obtain ⟨d, -, rfl⟩ := Option.map_eq_some_iff.mp hn
    exact gridDigits_lt

/-- The shortest digits are those of a point in the interval, on one of seventeen grids. -/
theorem shortest_of_grid {x : Binary64} (hpos : 0 < x.magnitude)
    (hfinite : x.magnitude < Format.binary64.infinity) : ∃ n < 17, ∃ d,
      OnGrid x.interval (point x - (n + 1 : Nat)) d ∧ x.shortest = gridDigits (point x) n d := by
  obtain ⟨d, hd⟩ := onGrid?_seventeenth hpos hfinite
  have hsome : ((List.range 17).findSome? fun n =>
      (x.interval.onGrid? (point x - (n + 1 : Nat))).map (gridDigits (point x) n)).isSome =
        true := by
    rw [List.findSome?_isSome_iff]
    refine ⟨16, by decide, ?_⟩
    have hscale : point x - ((16 + 1 : Nat) : Int) = point x - 17 := rfl
    rw [hscale, hd]
    rfl
  obtain ⟨ds, hds⟩ := Option.isSome_iff_exists.mp hsome
  obtain ⟨n, hn, hgrid⟩ := List.exists_of_findSome?_eq_some hds
  obtain ⟨e, he, rfl⟩ := Option.map_eq_some_iff.mp hgrid
  refine ⟨n, List.mem_range.mp hn, e, ?_, by rw [shortest_eq, hds]; rfl⟩
  rcases onGrid?_cases x.interval (point x - (n + 1 : Nat)) with ⟨e', he', honGrid⟩ | ⟨hnone, -⟩
  · rw [he] at he'
    exact Option.some.inj he' ▸ honGrid
  · rw [he] at hnone
    cases hnone

/-- The value of the shortest digits as a fraction in the interval. -/
theorem shortest_value {x : Binary64} (hpos : 0 < x.magnitude)
    (hfinite : x.magnitude < Format.binary64.infinity) : ∃ num den, 0 < den ∧
      x.interval.contains num den = true ∧ (num : ℚ) / den = x.shortest.value := by
  obtain ⟨n, -, d, honGrid, hshortest⟩ := shortest_of_grid hpos hfinite
  refine ⟨_, _, (gridUnit_pos _).2, honGrid, ?_⟩
  rw [grid_value, hshortest, gridDigits_value]

theorem point_lt {x : Binary64} (hpos : 0 < x.magnitude)
    (hfinite : x.magnitude < Format.binary64.infinity) : point x < 1025 := by
  have hx := decoded hpos hfinite
  have hten : (1 : ℚ) < 10 := by norm_num
  have hm : (x.decode.1 : ℚ) < 2 ^ (53 : Int) := by
    rw [show (53 : Int) = ((53 : Nat) : Int) from rfl, zpow_natCast]
    exact_mod_cast hx.lt
  have hlt : (10 : ℚ) ^ (point x - 1) < 10 ^ (1024 : Int) := by
    calc (10 : ℚ) ^ (point x - 1) ≤ x.decode.1 * 2 ^ x.decode.2 := (point_bounds hpos hfinite).1
      _ < 2 ^ (53 : Int) * 2 ^ x.decode.2 := mul_lt_mul_of_pos_right hm (by positivity)
      _ = 2 ^ (53 + x.decode.2) := (zpow_add₀ (by norm_num) _ _).symm
      _ ≤ 2 ^ (1024 : Int) := zpow_le_zpow_right₀ (by norm_num) (by have := hx.most; omega)
      _ ≤ 10 ^ (1024 : Int) := zpow_le_zpow_left₀ (by decide) (by norm_num) (by norm_num)
  have := (zpow_lt_zpow_iff_right₀ hten).mp hlt
  omega

/-- The point is near that of the number, so that the exponent has few digits. -/
theorem shortest_point {x : Binary64} (hpos : 0 < x.magnitude)
    (hfinite : x.magnitude < Format.binary64.infinity) :
    -500 < x.shortest.point ∧ x.shortest.point < 1500 := by
  have hx := decoded hpos hfinite
  have hreaches := interval_reaches hx.pos
  obtain ⟨n, hn, d, honGrid, hshortest⟩ := shortest_of_grid hpos hfinite
  obtain ⟨-, hbelow, hleast⟩ := point_bounds hpos hfinite
  have hmost := point_lt hpos hfinite
  have hpow : (0 : ℚ) < 2 ^ x.decode.2 := by positivity
  have hm : (1 : ℚ) ≤ x.decode.1 := by exact_mod_cast hx.pos
  have hgrid : (0 : ℚ) < 10 ^ (point x - (n + 1 : Nat)) := by positivity
  have hvalue : (d : ℚ) * 10 ^ (point x - (n + 1 : Nat)) ≤
      (x.decode.1 + 1 / 2) * 2 ^ x.decode.2 := by
    rw [OnGrid, contains_iff hreaches.den_pos (gridUnit_pos _).2, grid_value, hreaches.high]
      at honGrid
    split at honGrid
    · exact honGrid.2
    · exact honGrid.2.le
  have hd : d < 10 ^ (n + 2) := by
    have hlt : (d : ℚ) * 10 ^ (point x - (n + 1 : Nat)) <
        10 ^ ((n + 2 : Nat) : Int) * 10 ^ (point x - (n + 1 : Nat)) := by
      calc (d : ℚ) * 10 ^ (point x - (n + 1 : Nat))
        _ ≤ 2 * (x.decode.1 * 2 ^ x.decode.2) := by nlinarith
        _ < 10 * 10 ^ point x := by linarith [zpow_pos (show (0 : ℚ) < 10 by norm_num) (point x)]
        _ = 10 ^ ((n + 2 : Nat) : Int) * 10 ^ (point x - (n + 1 : Nat)) := by
          rw [← zpow_add₀ (by norm_num), ← zpow_one_add₀ (by norm_num)]
          congr 1
          push_cast
          omega
    have hlt' := lt_of_mul_lt_mul_right hlt hgrid.le
    rw [zpow_natCast] at hlt'
    exact_mod_cast hlt'
  have hlen := (Nat.length_toDigits_le_iff (by decide) (by omega)).mpr hd
  have hlen' : 0 < (Nat.toDigits 10 d).length := Nat.length_toDigits_pos
  have hpoint : x.shortest.point = point x + ((Nat.toDigits 10 d).length - (n + 1 : Nat)) := by
    rw [hshortest]
    rfl
  omega

end Backend.Float
