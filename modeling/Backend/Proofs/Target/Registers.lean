-- The register table: every register it gives goes by a word that it knows, and a register that is
-- written by class and number is either unknown to it or the same one.
import Backend.Proofs.Text.Numeral
import Backend.Target.Basic

namespace Backend

/-- The table has the general purpose registers at four widths, each under its own name, and the SSE
registers. -/
theorem registerOfName?_eq_some {name : String} {r : Reg} (h : registerOfName? name = some r) :
    (∃ i < 16, ∃ w ∈ [8, 4, 2, 1], r = gpr (UInt8.ofNat i) w ∧ r.name = name) ∨
      ∃ i < 16, r = xmm (UInt8.ofNat i) 8 ∧ ∃ s, name.toList = 'x' :: 'm' :: 'm' :: s := by
  unfold registerOfName? at h
  split at h
  · rename_i m hm
    left
    obtain ⟨⟨width, names⟩, hmem, hname⟩ := List.exists_of_findSome?_eq_some hm
    simp only [Option.ite_none_right_eq_some, Option.some.injEq] at hname
    obtain ⟨hlt, rfl⟩ := hname
    rw [Option.some.injEq] at h
    subst h
    have hlen : names.length = 16 ∧ Machine.namesOfWidth width.toNat = names ∧
        width.toNat ∈ [8, 4, 2, 1] := by
      simp only [List.mem_cons, Prod.mk.injEq, List.not_mem_nil, or_false] at hmem
      rcases hmem with ⟨rfl, rfl⟩ | ⟨rfl, rfl⟩ | ⟨rfl, rfl⟩ | ⟨rfl, rfl⟩ <;> decide
    refine ⟨names.idxOf name, hlt, width.toNat, hlen.2.2, rfl, ?_⟩
    have hidx : (UInt8.ofNat (names.idxOf name)).toNat = names.idxOf name :=
      UInt8.toNat_ofNat_of_lt (Nat.lt_trans hlt (by decide))
    have hin : names.idxOf name < names.length := hlen.1 ▸ hlt
    simp only [gpr, Machine.regName, hlen.2.1, hidx]
    rw [List.getElem?_eq_getElem hin, Option.getD_some, List.getElem_idxOf]
  · split at h
    · rename_i s hs
      split at h
      · rename_i n hn
        split at h
        · rename_i hbound
          rw [Option.some.injEq] at h
          simp only [Bool.and_eq_true, decide_eq_true_eq] at hbound
          exact .inr ⟨n.toNat, by omega, h.symm, s, hs⟩
        · cases h
      · cases h
    · cases h

/-- What a register of the table is like. -/
structure TableRegister (r : Reg) : Prop where
  known : registerOfName? r.name = some r
  word : ∀ c ∈ r.name.toList, Operand.isWordChar c = true
  letter : ∀ c ∈ r.name.toList.head?, 'a' ≤ c ∧ c ≤ 'z'
  ne_empty : r.name ≠ ""
  ne_stack : r.name ≠ "stack"
  width : r.cls = .float → r.width = 8

instance decidableTableRegister (r : Reg) : Decidable (TableRegister r) :=
  decidable_of_iff (registerOfName? r.name = some r ∧
      (∀ c ∈ r.name.toList, Operand.isWordChar c = true) ∧
      (∀ c ∈ r.name.toList.head?, 'a' ≤ c ∧ c ≤ 'z') ∧ r.name ≠ "" ∧ r.name ≠ "stack" ∧
      (r.cls = .float → r.width = 8))
    ⟨fun ⟨a, b, c, d, e, f⟩ => ⟨a, b, c, d, e, f⟩, fun ⟨a, b, c, d, e, f⟩ => ⟨a, b, c, d, e, f⟩⟩

theorem tableRegister {name : String} {r : Reg} (h : registerOfName? name = some r) :
    TableRegister r := by
  have hgpr : ∀ i < 16, ∀ w ∈ [8, 4, 2, 1], TableRegister (gpr (UInt8.ofNat i) w) := by
    decide +kernel
  have hxmm : ∀ i < 16, TableRegister (xmm (UInt8.ofNat i) 8) := by decide +kernel
  rcases registerOfName?_eq_some h with ⟨i, hi, w, hw, rfl, -⟩ | ⟨i, hi, rfl, -⟩
  · exact hgpr i hi w hw
  · exact hxmm i hi

/-- The only names of the form `rN` are those of whole registers with the number `N`. -/
theorem registerOfName?_r {n : Nat} {r : Reg}
    (h : registerOfName? (String.ofList ('r' :: Nat.toDigits 10 n)) = some r) :
    r = gpr (UInt8.ofNat n) 8 := by
  have hall : ∀ i < 16, ∀ w ∈ [8, 4, 2, 1], (gpr (UInt8.ofNat i) w).name.toList.head? = some 'r' →
      (∀ c ∈ (gpr (UInt8.ofNat i) w).name.toList.tail, c.isDigit = true) →
      w = 8 ∧ Nat.ofDigitChars 10 (gpr (UInt8.ofNat i) w).name.toList.tail 0 = i := by
    decide +kernel
  rcases registerOfName?_eq_some h with ⟨i, hi, w, hw, rfl, hname⟩ | ⟨i, hi, rfl, s, hs⟩
  · have hchars : (gpr (UInt8.ofNat i) w).name.toList = 'r' :: Nat.toDigits 10 n := by simp [hname]
    obtain ⟨rfl, hval⟩ := hall i hi w hw (by rw [hchars]; rfl) (by
      rw [hchars]
      exact fun c hc => Text.isDigit_of_mem_decimal hc)
    rw [hchars, List.tail_cons, Nat.ofDigitChars_ten_toDigits] at hval
    rw [hval]
  · rw [String.toList_ofList] at hs
    cases hs

/-- No name has the form `xN`. -/
theorem registerOfName?_x (n : Nat) :
    registerOfName? (String.ofList ('x' :: Nat.toDigits 10 n)) = none := by
  have hall : ∀ i < 16, ∀ w ∈ [8, 4, 2, 1],
      (gpr (UInt8.ofNat i) w).name.toList.head? ≠ some 'x' := by
    decide +kernel
  rw [Option.eq_none_iff_forall_ne_some]
  intro r h
  rcases registerOfName?_eq_some h with ⟨i, hi, w, hw, rfl, hname⟩ | ⟨i, hi, rfl, s, hs⟩
  · exact hall i hi w hw (by rw [hname, String.toList_ofList]; rfl)
  · rw [String.toList_ofList, List.cons.injEq] at hs
    have hdigit : 'm'.isDigit = true :=
      Text.isDigit_of_mem_decimal (n := n) (hs.2 ▸ List.mem_cons_self)
    revert hdigit
    decide

end Backend
