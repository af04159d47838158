-- What the first phase defines: the labels of the instructions, each once. It stops at a label
-- whose name is defined.
import Backend.Proofs.Assembler.FirstPhase
import Backend.Proofs.CodeUnit.History

namespace Backend.Assembler

open Machine (Inst labels)

variable {a b : Assembler}

/-- An instruction other than a label leaves the symbols as they are, but for a reference. -/
theorem symbols_assemble_op {op : Machine.Op} {cond : Machine.Cond}
    {dst src src2 : Option Machine.Operand} (h : a.assemble (.op op cond dst src src2) = .ok b) :
    ∃ u : CodeUnit, u.symbols = a.unit.symbols ∧
      (b.unit = u ∨ ∃ r, b.unit = u.addRelocation r) := by
  cases assembled_of_ok h with
  | short | long => exact ⟨_, (emitLine_fields _ _ _).2.2, .inl rfl⟩
  | reserved => exact ⟨_, (withLine_fields (a.unit.emit _) _).2.2, .inl rfl⟩
  | @plain _ _ _ _ _ e =>
    refine ⟨_, (emitLine_fields a.unit (.op op cond dst src src2) e.bytes).2.2, ?_⟩
    unfold emitted
    cases e.fixup with
    | none => exact .inl rfl
    | some f => exact .inr ⟨_, rfl⟩

/-- An instruction defines its label, which was not defined before, and no other name. -/
theorem defines_assemble {inst : Inst} (h : a.assemble inst = .ok b) :
    (∀ n, inst.label? = some n → ¬ a.unit.Defines n) ∧
      (∀ m, b.unit.Defines m ↔ inst.label? = some m ∨ a.unit.Defines m) ∧
      ∀ m, inst.label? ≠ some m → b.unit.textOffset? m = a.unit.textOffset? m := by
  cases inst with
  | label name kind binding =>
    cases assembled_of_ok h with
    | @label _ _ _ u hu =>
      obtain ⟨-, -, hsymbols⟩ := withLine_fields u ⟨u.offset, [], "", name⟩
      obtain ⟨hfree, hdefines⟩ := CodeUnit.defines_define hu
      refine ⟨fun n hn => ?_, fun m => ?_, fun m hm => ?_⟩
      · cases hn
        exact hfree
      · rw [CodeUnit.defines_congr hsymbols, hdefines, Inst.label?, Option.some.injEq,
          @eq_comm _ name]
      · rw [CodeUnit.textOffset?_congr hsymbols, CodeUnit.textOffset?_define hu, if_neg]
        rintro rfl
        exact hm rfl
  | op op cond dst src src2 =>
    obtain ⟨u, hsymbols, hb | ⟨r, hb⟩⟩ := symbols_assemble_op h
    · refine ⟨fun n hn => (by cases hn), fun m => ?_, fun m _ => ?_⟩
      · simp [hb, CodeUnit.defines_congr hsymbols, Inst.label?]
      · rw [hb, CodeUnit.textOffset?_congr hsymbols]
    · refine ⟨fun n hn => (by cases hn), fun m => ?_, fun m _ => ?_⟩
      · simp [hb, CodeUnit.defines_addRelocation, CodeUnit.defines_congr hsymbols, Inst.label?]
      · rw [hb, CodeUnit.textOffset?_addRelocation, CodeUnit.textOffset?_congr hsymbols]

theorem branch_ne_unit {inst : Inst} {op : Machine.Op} {cond : Machine.Cond}
    {target : Machine.Target} {e : CodeUnit.Error} :
    a.branch inst op cond target ≠ .error (.unit e) := by
  have hbytes {x : Except Machine.EncodeError (List UInt8)} :
      (do
        let bytes ← encoded inst x
        pure { a with unit := emitLine a.unit inst bytes }) ≠
        (.error (.unit e) : Except AsmError Assembler) := by
    cases x with
    | ok bytes => exact fun h => by cases h
    | error cause => exact fun h => by cases h
  unfold branch
  dsimp only
  split
  · split
    · exact hbytes
    · exact hbytes
  · exact fun h => by cases h

/-- An instruction is refused for a definition only if it is a label that is defined. -/
theorem defines_of_refused {inst : Inst} {n : String}
    (h : a.assemble inst = .error (.unit (.alreadyDefined n))) :
    inst.label? = some n ∧ a.unit.Defines n := by
  cases inst with
  | label name kind binding =>
    simp only [assemble] at h
    split at h
    · cases h
    · rename_i e he
      cases h
      obtain ⟨hname, hdefines⟩ := CodeUnit.define_eq_error.mp he
      cases hname
      exact ⟨rfl, hdefines⟩
  | op op cond dst src src2 =>
    exfalso
    simp only [assemble] at h
    split at h
    · exact branch_ne_unit h
    · cases he : (Inst.op op cond dst src src2).encode with
      | error cause =>
        rw [he] at h
        cases h
      | ok e =>
        rw [he] at h
        cases hf : e.fixup with
        | none => simp [encoded, hf, bind, Except.bind, pure, Except.pure] at h
        | some f => simp [encoded, hf, bind, Except.bind, pure, Except.pure] at h

/-! ## Lists of instructions -/

/-- Instructions define their labels, each of which was not defined before and stands once, and no
other name. -/
theorem defines_assembleAll {insts : List Inst} (h : a.assembleAll insts = .ok b) :
    (labels insts).Nodup ∧ (∀ n ∈ labels insts, ¬ a.unit.Defines n) ∧
      (∀ m, b.unit.Defines m ↔ m ∈ labels insts ∨ a.unit.Defines m) ∧
      ∀ m, m ∉ labels insts → b.unit.textOffset? m = a.unit.textOffset? m := by
  induction insts generalizing a with
  | nil =>
    cases h
    simp
  | cons inst rest ih =>
    obtain ⟨c, hc, h⟩ := assembleAll_cons_eq_ok.mp h
    obtain ⟨hfree, hdefines, hoffset⟩ := defines_assemble hc
    obtain ⟨hnodup, hrest, hall, hoffsets⟩ := ih h
    have hbefore : ∀ n ∈ labels rest, ¬ a.unit.Defines n :=
      fun n hn hdef => hrest n hn ((hdefines n).mpr (.inr hdef))
    cases inst with
    | label name kind binding =>
      refine ⟨List.nodup_cons.mpr ⟨fun hmem => hrest name hmem ((hdefines name).mpr (.inl rfl)),
        hnodup⟩, fun n hn => ?_, fun m => ?_, fun m hm => ?_⟩
      · rcases List.mem_cons.mp hn with rfl | hn
        · exact hfree n rfl
        · exact hbefore n hn
      · rw [hall, hdefines]
        simp only [Inst.label?, Option.some.injEq, Machine.labels_cons_label, List.mem_cons]
        tauto
      · obtain ⟨hne, hm⟩ := not_or.mp (mt List.mem_cons.mpr hm)
        rw [hoffsets m hm, hoffset m fun h => hne (Option.some.inj h).symm]
    | op op cond dst src src2 =>
      refine ⟨hnodup, hbefore, fun m => ?_, fun m hm => ?_⟩
      · rw [hall, hdefines]
        simp [Inst.label?]
      · rw [hoffsets m hm, hoffset m fun h => nomatch h]

/-- Instructions are refused for a definition only if a label among them was defined before or
stands among them twice. -/
theorem defines_of_all_refused {insts : List Inst} {n : String}
    (h : a.assembleAll insts = .error (.unit (.alreadyDefined n))) :
    n ∈ labels insts ∧ (a.unit.Defines n ∨ 1 < (labels insts).count n) := by
  induction insts generalizing a with
  | nil => cases h
  | cons inst rest ih =>
    unfold assembleAll at h
    rw [List.foldlM_cons] at h
    cases hc : a.assemble inst with
    | error e =>
      rw [hc] at h
      cases h
      obtain ⟨hlabel, hdefines⟩ := defines_of_refused hc
      cases inst with
      | label name kind binding =>
        cases hlabel
        exact ⟨List.mem_cons_self, .inl hdefines⟩
      | op => cases hlabel
    | ok c =>
      rw [hc] at h
      obtain ⟨hmem, hcause⟩ := ih h
      obtain ⟨-, hdefines, -⟩ := defines_assemble hc
      cases inst with
      | label name kind binding =>
        rw [Machine.labels_cons_label]
        refine ⟨List.mem_cons_of_mem _ hmem, ?_⟩
        have hcount := List.count_pos_iff.mpr hmem
        rcases hcause with hdef | htwice
        · rcases (hdefines n).mp hdef with hname | hdef
          · cases hname
            exact .inr (by rw [List.count_cons_self]; omega)
          · exact .inl hdef
        · exact .inr (htwice.trans_le List.count_le_count_cons)
      | op op cond dst src src2 =>
        refine ⟨hmem, hcause.imp_left fun hdef => ?_⟩
        simpa [Inst.label?] using (hdefines n).mp hdef

end Backend.Assembler
