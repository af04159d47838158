-- Decimal numerals read back as the numbers they were written for.
import Backend.Text.Numeral
import Mathlib.Algebra.Group.Nat.Defs

namespace Backend.Text

/-- A text that is put into another one stays as it is. -/
@[simp] theorem toString_text (s : String) : toString s = s := rfl

/-! ## Characters of a text -/

-- These come before the instance that tries all characters.

instance (priority := high) decidableForallMemList (s : List Char) (p : Char → Prop)
    [DecidablePred p] : Decidable (∀ c ∈ s, p c) :=
  List.decidableBAll p s

instance (priority := high) decidableForallMemOption (o : Option Char) (p : Char → Prop)
    [DecidablePred p] : Decidable (∀ c ∈ o, p c) :=
  Option.decidableForallMem o

/-! ## Digits -/

theorem isDigit_iff {c : Char} : c.isDigit = true ↔ '0' ≤ c ∧ c ≤ '9' := by
  simp only [Char.isDigit, Bool.and_eq_true, decide_eq_true_eq]
  exact Iff.rfl

theorem digitValue?_of_isDigit {c : Char} (h : c.isDigit = true) :
    digitValue? c = some (c.toNat - 48) := by
  obtain ⟨hlow, hhigh⟩ := isDigit_iff.mp h
  simp [digitValue?, hlow, hhigh]

theorem ne_of_isDigit {c d : Char} (h : c.isDigit = true) (hd : d.isDigit = false) : c ≠ d := by
  rintro rfl
  rw [h] at hd
  cases hd

theorem le_ofDigitChars (s : List Char) (acc : Nat) : acc ≤ Nat.ofDigitChars 10 s acc := by
  rw [Nat.ofDigitChars_eq_ofDigitChars_zero]
  exact Nat.le_add_right_of_le (Nat.le_mul_of_pos_left acc (Nat.pow_pos (by decide)))

/-- Digits below the limit are read to their value. -/
theorem digitsFrom_decimal {limit : Nat} (underscores : Bool) {acc : Nat} {s : List Char}
    (hs : ∀ c ∈ s, c.isDigit = true) (hlt : Nat.ofDigitChars 10 s acc < limit) :
    digitsFrom 10 limit underscores acc s = .ok (Nat.ofDigitChars 10 s acc) := by
  induction s generalizing acc with
  | nil => rfl
  | cons c s ih =>
    have hc := hs c List.mem_cons_self
    have hline : (c == '_') = false := by simpa using ne_of_isDigit hc (by decide)
    have hval : c.toNat - 48 < 10 := by
      obtain ⟨-, hhigh⟩ := isDigit_iff.mp hc
      have : c.toNat ≤ 57 := hhigh
      omega
    rw [Nat.ofDigitChars_cons] at hlt ⊢
    rw [Nat.mul_comm 10 acc] at hlt ⊢
    have hstep : acc * 10 + (c.toNat - 48) < limit := Nat.lt_of_le_of_lt (le_ofDigitChars _ _) hlt
    rw [digitsFrom, hline, Bool.false_and, if_neg Bool.false_ne_true, digitValue?_of_isDigit hc]
    simp only [Nat.not_le.mpr hval, Nat.not_le.mpr hstep, if_false]
    exact ih (fun d hd => hs d (List.mem_cons_of_mem c hd)) hlt

theorem isDigit_of_mem_decimal {n : Nat} {c : Char} (h : c ∈ Nat.toDigits 10 n) :
    c.isDigit = true := Nat.isDigit_of_mem_toDigits (by decide) (by decide) h

/-- Only zero is written with a zero in front. -/
theorem toDigits_head {n : Nat} (h : 0 < n) : ∃ c s, Nat.toDigits 10 n = c :: s ∧ c ≠ '0' := by
  induction n using Nat.strongRecOn with
  | ind n ih =>
    by_cases hlt : n < 10
    · refine ⟨n.digitChar, [], Nat.toDigits_of_lt_base hlt, ?_⟩
      have hall : ∀ m < 10, 0 < m → m.digitChar ≠ '0' := by decide
      exact hall n hlt h
    · obtain ⟨c, s, hs, hc⟩ := ih (n / 10) (by omega) (by omega)
      exact ⟨c, s ++ [(n % 10).digitChar],
        by rw [Nat.toDigits_of_base_le (by decide) (by omega), hs, List.cons_append], hc⟩

/-! ## Unsigned numerals -/

theorem readDecimal_toDigits {limit n : Nat} (h : n < limit) :
    readDecimal limit (Nat.toDigits 10 n) = .ok n := by
  have hread : digitsFrom 10 limit false 0 (Nat.toDigits 10 n) = _ :=
    digitsFrom_decimal false (fun c hc => isDigit_of_mem_decimal hc)
      (by rwa [Nat.ofDigitChars_ten_toDigits])
  rw [Nat.ofDigitChars_ten_toDigits] at hread
  rw [readDecimal, if_neg (by simp), hread]

theorem baseMark_toDigits {n : Nat} (h : 0 < n) :
    baseMark (Nat.toDigits 10 n) = (10, Nat.toDigits 10 n) := by
  obtain ⟨c, s, hs, hc⟩ := toDigits_head h
  rw [hs]
  unfold baseMark
  split <;> simp_all

theorem readNat_toDigits {limit n : Nat} (h : n < limit) :
    readNat limit (Nat.toDigits 10 n) = .ok n := by
  have hplain : (Nat.toDigits 10 n).contains '_' = false := by
    simp
  have hread : digitsFrom 10 limit true 0 (Nat.toDigits 10 n) = _ :=
    digitsFrom_decimal true (fun c hc => isDigit_of_mem_decimal hc)
      (by rwa [Nat.ofDigitChars_ten_toDigits])
  rw [Nat.ofDigitChars_ten_toDigits] at hread
  rcases Nat.eq_zero_or_pos n with rfl | hpos
  · rfl
  · rw [readNat, if_neg (by simp), baseMark_toDigits hpos]
    simp only [hread, hplain, Bool.false_and, Bool.false_eq_true, if_false]

/-! ## Signed numerals -/

theorem toString_of_nonneg {n : Int} (h : 0 ≤ n) :
    (toString n).toList = Nat.toDigits 10 n.natAbs := by
  rw [Int.toString_eq_repr, Int.repr_eq_if, if_pos h, Nat.toList_repr, ← Int.toNat_of_nonneg h,
    Int.toNat_natCast, Int.natAbs_natCast]

theorem toString_of_neg {n : Int} (h : n < 0) :
    (toString n).toList = '-' :: Nat.toDigits 10 n.natAbs := by
  have habs : (-n).toNat = n.natAbs := by omega
  rw [Int.toString_eq_repr, Int.repr_eq_if, if_neg (Int.not_le.mpr h), String.toList_append,
    Nat.toList_repr, habs]
  rfl

theorem mem_toString_int {n : Int} {c : Char} (h : c ∈ (toString n).toList) :
    c = '-' ∨ c.isDigit = true := by
  rcases Int.lt_or_le n 0 with hn | hn
  · rw [toString_of_neg hn, List.mem_cons] at h
    exact h.imp_right isDigit_of_mem_decimal
  · rw [toString_of_nonneg hn] at h
    exact .inr (isDigit_of_mem_decimal h)

/-- A 64-bit number is read back from its decimal numeral. -/
theorem readInt64_toString (n : Int64) : readInt64 (toString n.toInt).toList = .ok n := by
  have hlow := n.le_toInt
  have hhigh := n.toInt_lt
  have hread : readNat (Nat.pow 2 64) (Nat.toDigits 10 n.toInt.natAbs) = .ok n.toInt.natAbs :=
    readNat_toDigits (by
      have : Nat.pow 2 64 = 2 ^ 64 := rfl
      omega)
  have hpow : Nat.pow 2 63 = 2 ^ 63 := rfl
  rcases Int.lt_or_le n.toInt 0 with hn | hn
  · have habs : -(n.toInt.natAbs : Int) = n.toInt := by omega
    rw [toString_of_neg hn, readInt64]
    simp only [hread, bind, Except.bind]
    rw [if_pos (by omega), habs, Int64.ofInt_toInt]
  · obtain ⟨c, s, hs, hc⟩ : ∃ c s, Nat.toDigits 10 n.toInt.natAbs = c :: s ∧ c.isDigit = true := by
      cases hs : Nat.toDigits 10 n.toInt.natAbs with
      | nil => exact absurd hs Nat.toDigits_ne_nil
      | cons c s => exact ⟨c, s, rfl, isDigit_of_mem_decimal (hs ▸ List.mem_cons_self)⟩
    have habs : (n.toInt.natAbs : Int) = n.toInt := by omega
    rw [toString_of_nonneg hn, readInt64]
    · simp only [hread, bind, Except.bind]
      rw [if_pos (by omega), ← Int64.ofInt_eq_ofNat, habs, Int64.ofInt_toInt]
    · rintro r hr
      exact ne_of_isDigit hc (by decide) (List.cons.inj (hs.symm.trans hr)).1
    · rintro r hr
      exact ne_of_isDigit hc (by decide) (List.cons.inj (hs.symm.trans hr)).1

theorem readInt64_toDigits {n : Nat} (h : n < 2 ^ 63) :
    readInt64 (Nat.toDigits 10 n) = .ok (Int64.ofNat n) := by
  have hval : (Int64.ofNat n).toInt = n := Int64.toInt_ofNat_of_lt h
  have hread := readInt64_toString (Int64.ofNat n)
  rwa [hval, toString_of_nonneg (Int.natCast_nonneg n), Int.natAbs_natCast] at hread

theorem readWord_toString (n : Int64) : readWord (toString n.toInt).toList = .ok n := by
  rw [readWord, readInt64_toString]

end Backend.Text
