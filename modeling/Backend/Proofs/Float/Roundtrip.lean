-- A binary64 number is read back from the digits that are written for it.
import Backend.Proofs.Float.Shortest

namespace Backend.Float

open Backend.Text

/-! ## Reading digits -/

theorem hexValue?_of_isDigit {c : Char} (h : c.isDigit = true) :
    hexValue? c = some (c.toNat - 48) := by
  obtain ⟨hlow, hhigh⟩ := isDigit_iff.mp h
  have hlow' : 48 ≤ c.toNat := hlow
  have hhigh' : c.toNat ≤ 57 := hhigh
  simp [hexValue?, hlow', hhigh']

theorem take_digits (point : Bool) {s : List Char} (hs : ∀ c ∈ s, c.isDigit = true)
    (acc : Significand) (rest : List Char) : Significand.take 10 point acc (s ++ rest) =
      Significand.take 10 point ⟨Nat.ofDigitChars 10 s acc.value,
        acc.places + (if point then s.length else 0), acc.any || !s.isEmpty, acc.rest⟩ rest := by
  induction s generalizing acc with
  | nil => cases point <;> simp
  | cons c s ih =>
    have hc := hs c List.mem_cons_self
    have hline : (c == '_') = false := by simpa using ne_of_isDigit hc (by decide)
    have hdot : (c == '.') = false := by simpa using ne_of_isDigit hc (by decide)
    have hlt : c.toNat - 48 < 10 := by
      obtain ⟨-, hhigh⟩ := isDigit_iff.mp hc
      have : c.toNat ≤ 57 := hhigh
      omega
    rw [List.cons_append, Significand.take, hline, hdot, hexValue?_of_isDigit hc]
    simp only [Bool.false_and, Bool.false_eq_true, if_false, hlt, if_true]
    rw [ih (fun d hd => hs d (List.mem_cons_of_mem c hd)), Nat.ofDigitChars_cons]
    have hvalue : acc.value * 10 + (c.toNat - 48) = 10 * acc.value + (c.toNat - '0'.toNat) := by
      rw [Nat.mul_comm]
      rfl
    rw [hvalue]
    cases point
    · simp
    · simp [Nat.add_assoc, Nat.add_comm 1]

/-- The digits after the point with the point, which is missing if they are. -/
def fraction (part : List Char) : List Char := if part.isEmpty then [] else '.' :: part

/-- What may follow the digits. -/
def EndsDigits (rest : List Char) : Prop := rest = [] ∨ ∃ s, rest = 'e' :: s

theorem take_end {rest : List Char} (h : EndsDigits rest) (point : Bool) (acc : Significand) :
    Significand.take 10 point acc rest = { acc with rest := rest } := by
  rcases h with rfl | ⟨s, rfl⟩
  · rfl
  · rfl

section Mantissa

variable {whole part rest : List Char} (hwhole : ∀ c ∈ whole, c.isDigit = true)
  (hpart : ∀ c ∈ part, c.isDigit = true) (hne : whole ≠ [])

include hwhole hpart hne

theorem take_mantissa (hrest : EndsDigits rest) :
    Significand.take 10 false ⟨0, 0, false, []⟩ (whole ++ (fraction part ++ rest)) =
      ⟨Nat.ofDigitChars 10 (whole ++ part) 0, part.length, true, rest⟩ := by
  rw [take_digits false hwhole]
  unfold fraction
  cases part with
  | nil =>
    rw [List.append_nil]
    simp only [List.isEmpty_nil, if_true, List.nil_append]
    rw [take_end hrest]
    simp [hne]
  | cons c part =>
    simp only [List.isEmpty_cons, Bool.false_eq_true, if_false, List.cons_append]
    rw [Significand.take]
    simp only [show ('.' == '_') = false from rfl, Bool.false_eq_true, if_false, beq_self_eq_true,
      Bool.not_false, Bool.and_true, if_true]
    rw [← List.cons_append, take_digits true hpart, take_end hrest, ← Nat.ofDigitChars_append]
    simp

theorem decimalMagnitude?_positional : decimalMagnitude? (whole ++ fraction part) =
    nearestMagnitude? (Nat.ofDigitChars 10 (whole ++ part) 0) 10 (-part.length) := by
  have htake : Significand.take 10 false _ (whole ++ (fraction part ++ [])) = _ :=
    take_mantissa hwhole hpart hne (.inl rfl)
  rw [List.append_nil] at htake
  rw [decimalMagnitude?, htake]
  simp [decimalExponent?]

theorem decimalMagnitude?_scientific {text : List Char} {e : Int}
    (htext : exponent? text = some (e, [])) :
    decimalMagnitude? (whole ++ (fraction part ++ 'e' :: text)) =
      nearestMagnitude? (Nat.ofDigitChars 10 (whole ++ part) 0) 10 (e - part.length) := by
  have htake : Significand.take 10 false _ (whole ++ (fraction part ++ 'e' :: text)) = _ :=
    take_mantissa hwhole hpart hne (.inr ⟨text, rfl⟩)
  rw [decimalMagnitude?, htake]
  simp only [Bool.not_true, Bool.false_eq_true, if_false, decimalExponent?,
    show (lower 'e' == 'e') = true from rfl, if_true, htext]
  rfl

end Mantissa

/-! ## Exponents -/

theorem exponentDigits_digits {s : List Char} (hs : ∀ c ∈ s, c.isDigit = true) {acc : Nat}
    (hlt : Nat.ofDigitChars 10 s acc < 100000) :
    exponentDigits acc s = (Nat.ofDigitChars 10 s acc, []) := by
  induction s generalizing acc with
  | nil => rfl
  | cons c s ih =>
    have hc := hs c List.mem_cons_self
    obtain ⟨hlow, hhigh⟩ := isDigit_iff.mp hc
    have hline : (c == '_') = false := by simpa using ne_of_isDigit hc (by decide)
    rw [Nat.ofDigitChars_cons] at hlt ⊢
    have hacc : acc < 10000 := by
      have := le_ofDigitChars s (10 * acc + (c.toNat - '0'.toNat))
      omega
    rw [exponentDigits, hline]
    simp only [Bool.false_eq_true, if_false, hlow, hhigh, decide_true, Bool.and_self, if_true, hacc]
    rw [Nat.mul_comm acc 10]
    exact ih (fun d hd => hs d (List.mem_cons_of_mem c hd)) hlt

/-- An exponent with its sign and at least two digits. -/
def exponentText (e : Int) : List Char :=
  let magnitude := Nat.toDigits 10 e.natAbs
  (if e < 0 then '-' else '+') :: if magnitude.length < 2 then '0' :: magnitude else magnitude

theorem exponent?_text {e : Int} (h : e.natAbs < 100000) :
    exponent? (exponentText e) = some (e, []) := by
  obtain ⟨c, s, hs, hdigits, hvalue⟩ : ∃ c s,
      (if (Nat.toDigits 10 e.natAbs).length < 2 then '0' :: Nat.toDigits 10 e.natAbs
        else Nat.toDigits 10 e.natAbs) = c :: s ∧ (∀ d ∈ c :: s, d.isDigit = true) ∧
      Nat.ofDigitChars 10 (c :: s) 0 = e.natAbs := by
    have hread : Nat.ofDigitChars 10 (Nat.toDigits 10 e.natAbs) 0 = e.natAbs :=
      Nat.ofDigitChars_ten_toDigits
    split
    · refine ⟨'0', _, rfl, fun d hd => ?_, ?_⟩
      · rcases List.mem_cons.mp hd with rfl | hd
        · rfl
        · exact isDigit_of_mem_decimal hd
      · rw [Nat.ofDigitChars_cons]
        exact hread
    · obtain ⟨c, s, hs⟩ := List.exists_cons_of_ne_nil (l := Nat.toDigits 10 e.natAbs)
        (List.ne_nil_of_length_pos Nat.length_toDigits_pos)
      exact ⟨c, s, hs, fun d hd => isDigit_of_mem_decimal (hs ▸ hd), hs ▸ hread⟩
  obtain ⟨hlow, hhigh⟩ := isDigit_iff.mp (hdigits c List.mem_cons_self)
  have hread : exponentDigits 0 (c :: s) = _ := exponentDigits_digits hdigits (by rwa [hvalue])
  rw [hvalue] at hread
  unfold exponentText
  simp only [hs]
  split
  · rename_i hneg
    simp only [exponent?, hlow, hhigh, decide_true, Bool.and_self, if_true, hread]
    congr 2
    omega
  · rename_i hneg
    simp only [exponent?, hlow, hhigh, decide_true, Bool.and_self, if_true, hread]
    simp only [Bool.false_eq_true, if_false]
    congr 2
    omega

/-! ## Layouts -/

/-- A written mantissa: digits on both sides of the point that stand for the given number. -/
structure Mantissa (value : ℚ) (whole part : List Char) : Prop where
  whole_digits : ∀ c ∈ whole, c.isDigit = true
  part_digits : ∀ c ∈ part, c.isDigit = true
  whole_ne : whole ≠ []
  value_eq : (Nat.ofDigitChars 10 (whole ++ part) 0 : ℚ) * 10 ^ (-(part.length : Int)) = value

theorem digitChars_append (a b : List Nat) : digitChars (a ++ b) = digitChars a ++ digitChars b :=
  List.map_append

theorem digitChars_zeros (n : Nat) : digitChars (List.replicate n 0) = List.replicate n '0' :=
  List.map_replicate

theorem length_digitChars (ds : List Nat) : (digitChars ds).length = ds.length := List.length_map _

/-- No digits and no zeros stand for nothing. -/
theorem mantissa_zero {d : Digits} (h : d.digits = []) (e : Int) :
    Mantissa (d.value / 10 ^ e) ['0'] [] := by
  refine ⟨by decide, (fun _ h => nomatch h), by decide, ?_⟩
  rw [Digits.value, h]
  simp [digitChars, Nat.ofDigitChars]

theorem take_zeros_drop (ds : List Nat) (p : Nat) :
    (ds ++ List.replicate p 0).take p ++ ds.drop p = ds ++ List.replicate (p - ds.length) 0 := by
  rw [List.take_append, List.take_replicate, Nat.min_eq_left (Nat.sub_le p ds.length)]
  rcases Nat.le_total ds.length p with h | h
  · rw [List.take_of_length_le h, List.drop_of_length_le h, List.append_nil]
  · rw [Nat.sub_eq_zero_of_le h, List.replicate_zero, List.append_nil, List.append_nil,
      List.take_append_drop]

theorem positional_mantissa {d : Digits} (h : ∀ a ∈ d.digits, a < 10) :
    ∃ whole part, Mantissa d.value whole part ∧ d.positional = whole ++ fraction part := by
  have hdigits := isDigit_digitChars h
  by_cases hpoint : d.point ≤ 0
  · by_cases hempty : d.digits = []
    · refine ⟨['0'], [], ?_, ?_⟩
      · simpa using mantissa_zero hempty 0
      · simp [Digits.positional, hpoint, hempty, fraction]
    · refine ⟨['0'], List.replicate d.point.natAbs '0' ++ digitChars d.digits, ?_, ?_⟩
      · refine ⟨by decide, fun c hc => ?_, by decide, ?_⟩
        · rcases List.mem_append.mp hc with hc | hc
          · rw [List.eq_of_mem_replicate hc]
            rfl
          · exact hdigits c hc
        · have hzeros : ['0'] ++ (List.replicate d.point.natAbs '0' ++ digitChars d.digits) =
              List.replicate (d.point.natAbs + 1) '0' ++ digitChars d.digits := rfl
          rw [hzeros, Nat.ofDigitChars_append, ofDigitChars_zeros, Nat.zero_mul, Digits.value,
            List.length_append, List.length_replicate, length_digitChars]
          congr 2
          omega
      · have hne : (d.digits.isEmpty) = false := by simpa using hempty
        have hpart : (List.replicate d.point.natAbs '0' ++ digitChars d.digits).isEmpty =
            false := by
          simp [digitChars, hempty]
        simp [Digits.positional, hpoint, hne, fraction, hpart]
  · have hpositive : 0 < d.point.toNat := by omega
    have hjoin : digitChars ((d.digits ++ List.replicate d.point.toNat 0).take d.point.toNat) ++
        digitChars (d.digits.drop d.point.toNat) =
          digitChars d.digits ++ List.replicate (d.point.toNat - d.digits.length) '0' := by
      rw [← digitChars_append, take_zeros_drop, digitChars_append, digitChars_zeros]
    have hall : ∀ a ∈ d.digits ++ List.replicate d.point.toNat 0, a < 10 := by
      intro a ha
      rcases List.mem_append.mp ha with ha | ha
      · exact h a ha
      · rw [List.eq_of_mem_replicate ha]
        decide
    refine ⟨digitChars ((d.digits ++ List.replicate d.point.toNat 0).take d.point.toNat),
      digitChars (d.digits.drop d.point.toNat), ⟨?_, ?_, ?_, ?_⟩, ?_⟩
    · exact isDigit_digitChars fun a ha => hall a (List.mem_of_mem_take ha)
    · exact isDigit_digitChars fun a ha => h a (List.mem_of_mem_drop ha)
    · apply List.ne_nil_of_length_pos
      rw [length_digitChars, List.length_take, List.length_append, List.length_replicate]
      omega
    · rw [hjoin, Nat.ofDigitChars_append, ofDigitChars_zeros, Digits.value, length_digitChars,
        List.length_drop]
      push_cast
      rw [mul_assoc, ← zpow_natCast (10 : ℚ), ← zpow_add₀ (by norm_num)]
      congr 2
      omega
    · have hpart : (digitChars (d.digits.drop d.point.toNat)).isEmpty =
          (d.digits.drop d.point.toNat).isEmpty := by
        cases d.digits.drop d.point.toNat <;> rfl
      simp [Digits.positional, hpoint, fraction, hpart]

theorem scientific_mantissa {d : Digits} (h : ∀ a ∈ d.digits, a < 10) :
    ∃ whole part, Mantissa (d.value / 10 ^ (d.point - 1)) whole part ∧
      d.scientific = whole ++ (fraction part ++ 'e' :: exponentText (d.point - 1)) := by
  cases hds : d.digits with
  | nil =>
    refine ⟨['0'], [], mantissa_zero hds _, ?_⟩
    simp [Digits.scientific, hds, fraction, exponentText]
  | cons a r =>
    have hdigits := isDigit_digitChars h
    rw [hds] at hdigits
    refine ⟨digitChars [a], digitChars r, ⟨?_, ?_, by simp [digitChars], ?_⟩, ?_⟩
    · intro c hc
      exact hdigits c (by simp [digitChars] at hc ⊢; exact .inl hc)
    · intro c hc
      exact hdigits c (by simp [digitChars] at hc ⊢; exact .inr hc)
    · rw [← digitChars_append, List.singleton_append, length_digitChars, Digits.value, hds,
        mul_div_assoc, ← zpow_sub₀ (by norm_num), List.length_cons]
      congr 2
      push_cast
      omega
    · cases r with
      | nil => simp [Digits.scientific, hds, fraction, exponentText, digitChars]
      | cons b r => simp [Digits.scientific, hds, fraction, exponentText, digitChars]

/-! ## Numbers -/

/-- The number nearest to a value in the interval of a number is this number. -/
theorem nearestMagnitude?_of_value {x : Binary64} (hpos : 0 < x.magnitude)
    (hfinite : x.magnitude < Format.binary64.infinity) {value : Nat} {e : Int}
    (h : (value : ℚ) * 10 ^ e = x.shortest.value) :
    nearestMagnitude? value 10 e = some x.magnitude := by
  obtain ⟨num, den, hden, hcontains, hvalue⟩ := shortest_value hpos hfinite
  have hi := (interval_reaches (decoded hpos hfinite).pos).den_pos
  have honGrid : OnGrid x.interval e value := by
    rw [OnGrid, contains_iff hi (gridUnit_pos e).2, grid_value, h, ← hvalue]
    exact (contains_iff hi hden).mp hcontains
  obtain ⟨hnum, hnearest⟩ := nearest_of_contains hpos hfinite (gridUnit_pos e).2 honGrid
  have hne : (value == 0) = false := by
    rw [beq_eq_false_iff_ne]
    rintro rfl
    simp at hnum
  have hunit : nearestMagnitude? value 10 e =
      if Format.binary64.nearest (value * (gridUnit e).1) (gridUnit e).2 <
        Format.binary64.infinity then
        some (Format.binary64.nearest (value * (gridUnit e).1) (gridUnit e).2) else none := by
    unfold nearestMagnitude? gridUnit
    rw [hne]
    by_cases hneg : e < 0
    · simp [hneg]
    · simp [hneg]
  rw [hunit, hnearest, if_pos hfinite]

/-- The written digits without a sign. -/
def Digits.layout (d : Digits) : List Char :=
  if d.point - 1 < -4 || d.point - 1 ≥ 6 then d.scientific else d.positional

theorem decimalMagnitude?_layout {d : Digits} (h : ∀ a ∈ d.digits, a < 10)
    (hpoint : (d.point - 1).natAbs < 100000) {m : Nat}
    (hread : ∀ (value : Nat) (e : Int), (value : ℚ) * 10 ^ e = d.value →
      nearestMagnitude? value 10 e = some m) : decimalMagnitude? d.layout = some m := by
  unfold Digits.layout
  split
  · obtain ⟨whole, part, hmantissa, htext⟩ := scientific_mantissa h
    rw [htext, decimalMagnitude?_scientific hmantissa.whole_digits hmantissa.part_digits
      hmantissa.whole_ne (exponent?_text hpoint)]
    refine hread _ _ ?_
    rw [sub_eq_add_neg (d.point - 1), add_comm (d.point - 1), zpow_add₀ (by norm_num), ← mul_assoc,
      hmantissa.value_eq, div_mul_cancel₀ _ (by positivity)]
  · obtain ⟨whole, part, hmantissa, htext⟩ := positional_mantissa h
    rw [htext, decimalMagnitude?_positional hmantissa.whole_digits hmantissa.part_digits
      hmantissa.whole_ne]
    exact hread _ _ hmantissa.value_eq

theorem fraction_chars {part : List Char} (h : ∀ c ∈ part, c.isDigit = true) :
    ∀ c ∈ fraction part, c.isDigit = true ∨ c = '.' := by
  intro c hc
  unfold fraction at hc
  split at hc
  · cases hc
  · rcases List.mem_cons.mp hc with rfl | hc
    · exact .inr rfl
    · exact .inl (h c hc)

theorem exponentText_chars (e : Int) :
    ∀ c ∈ exponentText e, c.isDigit = true ∨ c ∈ ['-', '+'] := by
  intro c hc
  rcases List.mem_cons.mp hc with rfl | hc
  · right
    split <;> decide
  · left
    split at hc
    · rcases List.mem_cons.mp hc with rfl | hc
      · rfl
      · exact isDigit_of_mem_decimal hc
    · exact isDigit_of_mem_decimal hc

/-- The characters of written digits; the first one is a digit. -/
theorem layout_chars {d : Digits} (h : ∀ a ∈ d.digits, a < 10) :
    (∃ c s, d.layout = c :: s ∧ c.isDigit = true) ∧
      ∀ c ∈ d.layout, c.isDigit = true ∨ c ∈ ['-', '+', '.', 'e'] := by
  have hstart : ∀ {value : ℚ} {whole part : List Char}, Mantissa value whole part → ∀ rest,
      ∃ c s, whole ++ rest = c :: s ∧ c.isDigit = true := by
    intro value whole part hmantissa rest
    obtain ⟨c, s, rfl⟩ := List.exists_cons_of_ne_nil hmantissa.whole_ne
    exact ⟨c, s ++ rest, rfl, hmantissa.whole_digits c List.mem_cons_self⟩
  have hfraction : ∀ {value : ℚ} {whole part : List Char}, Mantissa value whole part →
      ∀ c ∈ fraction part, c.isDigit = true ∨ c ∈ ['-', '+', '.', 'e'] := by
    intro value whole part hmantissa c hc
    refine (fraction_chars hmantissa.part_digits c hc).imp_right ?_
    rintro rfl
    decide
  unfold Digits.layout
  split
  · obtain ⟨whole, part, hmantissa, htext⟩ := scientific_mantissa h
    rw [htext]
    refine ⟨hstart hmantissa _, fun c hc => ?_⟩
    rcases List.mem_append.mp hc with hc | hc
    · exact .inl (hmantissa.whole_digits c hc)
    rcases List.mem_append.mp hc with hc | hc
    · exact hfraction hmantissa c hc
    rcases List.mem_cons.mp hc with rfl | hc
    · exact .inr (by decide)
    · have hsub : ['-', '+'] ⊆ ['-', '+', '.', 'e'] := by decide
      exact (exponentText_chars _ c hc).imp_right fun h => hsub h
  · obtain ⟨whole, part, hmantissa, htext⟩ := positional_mantissa h
    rw [htext]
    refine ⟨hstart hmantissa _, fun c hc => ?_⟩
    rcases List.mem_append.mp hc with hc | hc
    · exact .inl (hmantissa.whole_digits c hc)
    · exact hfraction hmantissa c hc

/-- The digits that are written for a finite number. -/
def Binary64.digits (x : Binary64) : Digits := if x.magnitude == 0 then ⟨[], 0⟩ else x.shortest

theorem digits_lt (x : Binary64) : ∀ a ∈ x.digits.digits, a < 10 := by
  unfold Binary64.digits
  split
  · exact fun a ha => nomatch ha
  · exact shortest_lt x

theorem text_finite {x : Binary64} (hnan : x.isNaN = false) (hinf : x.isInfinite = false) :
    x.text.toList = (if x.isNegative then ['-'] else []) ++ x.digits.layout := by
  have htext : x.text = String.ofList
      (if x.isNegative then '-' :: x.digits.layout else x.digits.layout) := by
    rw [Binary64.text, hnan, hinf]
    rfl
  rw [htext, String.toList_ofList]
  split <;> rfl

/-- Magnitudes are read back from their digits. -/
theorem magnitude_digits {x : Binary64} (hfinite : x.magnitude < Format.binary64.infinity) :
    decimalMagnitude? x.digits.layout = some x.magnitude := by
  by_cases hzero : x.magnitude = 0
  · have hdigits : x.digits = ⟨[], 0⟩ := by simp [Binary64.digits, hzero]
    rw [hdigits, hzero]
    rfl
  · have hpos : 0 < x.magnitude := Nat.pos_of_ne_zero hzero
    have hdigits : x.digits = x.shortest := by simp [Binary64.digits, hzero]
    obtain ⟨hleast, hmost⟩ := shortest_point hpos hfinite
    rw [hdigits]
    exact decimalMagnitude?_layout (shortest_lt x) (by omega) fun value e =>
      nearestMagnitude?_of_value hpos hfinite

theorem text_chars {x : Binary64} {c : Char} (h : c ∈ x.text.toList) :
    c.isDigit = true ∨ c ∈ ['-', '+', '.', 'e', 'I', 'n', 'f', 'N', 'a'] := by
  by_cases hnan : x.isNaN = true
  · rw [Binary64.text, hnan] at h
    exact .inr ((by decide : "NaN".toList ⊆ _) h)
  by_cases hinf : x.isInfinite = true
  · rw [Binary64.text, if_neg hnan, hinf, if_pos rfl] at h
    split at h
    · exact .inr ((by decide : "-Inf".toList ⊆ _) h)
    · exact .inr ((by decide : "+Inf".toList ⊆ _) h)
  rw [text_finite (by simpa using hnan) (by simpa using hinf)] at h
  rcases List.mem_append.mp h with h | h
  · split at h
    · exact .inr ((by decide : ['-'] ⊆ _) h)
    · cases h
  · have hsub : ['-', '+', '.', 'e'] ⊆ ['-', '+', '.', 'e', 'I', 'n', 'f', 'N', 'a'] := by decide
    exact ((layout_chars (digits_lt x)).2 c h).imp_right fun h => hsub h

/-! ## Reading a written number -/

theorem lower_of_isDigit {c : Char} (h : c.isDigit = true) : lower c = c := by
  obtain ⟨-, hhigh⟩ := isDigit_iff.mp h
  have hhigh' : c.toNat ≤ 57 := hhigh
  have hnot : ¬ 'A' ≤ c := by
    intro hle
    have : 65 ≤ c.toNat := hle
    omega
  simp [lower, hnot]

theorem splitSign_of_isDigit {c : Char} (h : c.isDigit = true) (s : List Char) :
    splitSign (c :: s) = (none, c :: s) := by
  unfold splitSign
  split
  · rename_i heq
    obtain ⟨rfl, -⟩ := List.cons.inj heq
    cases h
  · rename_i heq
    obtain ⟨rfl, -⟩ := List.cons.inj heq
    cases h
  · rfl

theorem magnitude?_eq {s : List Char} (h : ∀ c ∈ s, lower c ≠ 'x') :
    magnitude? s = decimalMagnitude? s := by
  unfold magnitude?
  split
  · rename_i x d r
    have hx : (lower x == 'x') = false := by simpa using h x (by simp)
    rw [hx]
    rfl
  · rfl

/-- Digits after an optional sign are read as a number. -/
theorem read?_layout {c : Char} {s : List Char} (negative : Bool) {m : Nat} (hc : c.isDigit = true)
    (hchars : ∀ d ∈ c :: s, d.isDigit = true ∨ d ∈ ['-', '+', '.', 'e'])
    (hm : decimalMagnitude? (c :: s) = some m) :
    read? ((if negative then ['-'] else []) ++ c :: s) = some (.ofMagnitude negative m) := by
  have hsplit : splitSign ((if negative then ['-'] else []) ++ c :: s) =
      (if negative then some true else none, c :: s) := by
    cases negative
    · exact splitSign_of_isDigit hc s
    · rfl
  have hname : ∀ name : String, name.toList.head?.any Char.isDigit = false →
      (String.ofList ((c :: s).map lower) == name) = false := by
    intro name hname
    rw [beq_eq_false_iff_ne]
    rintro rfl
    rw [String.toList_ofList, List.map_cons, lower_of_isDigit hc] at hname
    simp [hc] at hname
  have hx : ∀ d ∈ c :: s, lower d ≠ 'x' := by
    intro d hd
    have hothers : ∀ d ∈ ['-', '+', '.', 'e'], lower d ≠ 'x' := by decide
    rcases hchars d hd with h | h
    · rw [lower_of_isDigit h]
      exact ne_of_isDigit h (by decide)
    · exact hothers d h
  have hline : ((if negative then ['-'] else []) ++ c :: s).contains '_' = false := by
    rw [List.contains_eq_mem, decide_eq_false_iff_not]
    intro hmem
    have hnot : ¬ ('_'.isDigit = true ∨ '_' ∈ ['-', '+', '.', 'e']) := by decide
    rcases List.mem_append.mp hmem with h | h
    · cases negative
      · cases h
      · exact absurd h (by decide)
    · exact hnot (hchars _ h)
  unfold read?
  rw [hsplit]
  simp only [hname "inf" (by decide), hname "infinity" (by decide), hname "nan" (by decide),
    magnitude?_eq hx, hm, hline]
  cases negative <;> rfl

theorem ofMagnitude_magnitude (x : Binary64) :
    Binary64.ofMagnitude x.isNegative x.magnitude = x := by
  have hbits := x.bits.toNat_lt
  have hmagnitude : x.magnitude = x.bits.toNat % 2 ^ 63 := rfl
  have hsum : x.magnitude + (if x.isNegative then Nat.pow 2 63 else 0) = x.bits.toNat := by
    rw [hmagnitude, Nat.pow_eq]
    cases hsign : x.isNegative with
    | false =>
      have hlt : ¬ 2 ^ 63 ≤ x.bits.toNat := of_decide_eq_false hsign
      simp only [Bool.false_eq_true, if_false]
      omega
    | true =>
      have hle : 2 ^ 63 ≤ x.bits.toNat := of_decide_eq_true hsign
      simp only [if_true]
      omega
  rw [Binary64.ofMagnitude, hsum, UInt64.ofNat_toNat]

/-- Reading undoes writing, except that only one NaN is read. -/
theorem read?_text {x : Binary64} (h : x = .nan ∨ x.isNaN = false) :
    read? x.text.toList = some x := by
  rcases h with rfl | hnan
  · rfl
  have hsame := ofMagnitude_magnitude x
  by_cases hinf : x.isInfinite = true
  · have hmagnitude : x.magnitude = Format.binary64.infinity := by
      simpa [Binary64.isInfinite] using hinf
    rw [hmagnitude] at hsame
    rw [Binary64.text, hnan, hinf, ← hsame]
    cases x.isNegative <;> rfl
  · have hfinite : x.magnitude < Format.binary64.infinity := by
      have hle : ¬ Format.binary64.infinity < x.magnitude := by simpa [Binary64.isNaN] using hnan
      have hne : x.magnitude ≠ Format.binary64.infinity := by simpa [Binary64.isInfinite] using hinf
      omega
    rw [text_finite hnan (by simpa using hinf)]
    obtain ⟨⟨c, s, hlayout, hc⟩, hchars⟩ := layout_chars (digits_lt x)
    have hm := magnitude_digits hfinite
    rw [hlayout] at hchars hm ⊢
    rw [read?_layout x.isNegative hc hchars hm, hsame]

end Backend.Float
