-- Temporaries: variables whose definition a rule may drop. A temporary is read once in its block,
-- by the instruction that the rule replaces, so nothing that is left reads its cell.
import Backend.Proofs.Peephole.Frame

namespace Backend.Peephole

universe u

/-! ## Counting uses -/

/-- How often a variable is among the operands. -/
def varCount (ident : String) (os : List Operand) : Nat :=
  (os.filterMap Operand.var?).countP fun v => v.ident == ident

@[simp] theorem varCount_nil (ident : String) : varCount ident [] = 0 := rfl

@[simp] theorem varCount_append (ident : String) (os os' : List Operand) :
    varCount ident (os ++ os') = varCount ident os + varCount ident os' := by
  simp [varCount]

theorem varCount_cons_var (v : Var) (os : List Operand) :
    varCount v.ident (.var v :: os) = varCount v.ident os + 1 := by
  simp [varCount, Operand.var?]

theorem var?_eq_some {o : Operand} {v : Var} : o.var? = some v ↔ o = .var v := by
  cases o <;> simp [Operand.var?]

theorem varCount_eq_zero {ident : String} {os : List Operand} :
    varCount ident os = 0 ↔ ∀ v, Operand.var v ∈ os → v.ident ≠ ident := by
  simp [varCount, List.countP_eq_zero, List.mem_filterMap, var?_eq_some]

theorem useCount_eq (b : Block) (ident : String) :
    b.useCount ident = varCount ident (b.ops.flatMap Instr.uses) := by
  simp only [Block.useCount, varCount, List.filterMap_flatMap]
  rfl

/-! ## Cells of temporaries -/

theorem isVar_iff {o : Option Operand} {t : Var} :
    isVar o t = true ↔ ∃ v, o = some (.var v) ∧ v.ident = t.ident := by
  unfold isVar
  cases o with
  | none => simp [Operand.sameOption]
  | some o => cases o <;> simp [Operand.sameOption, Operand.same]

theorem temp?_eq_some {st : Setting} {b : Block} {o : Option Operand} {t : Var} :
    temp? st b o = some t ↔
      o = some (.var t) ∧ t.isConst = false ∧ b.canRemove st.locations t.ident = true := by
  unfold temp?
  split
  · rename_i v
    by_cases h : (!v.isConst && b.canRemove st.locations v.ident) = true
    · rw [if_pos h]
      simp only [Bool.and_eq_true, Bool.not_eq_true'] at h
      simp only [Option.some.injEq, Operand.var.injEq]
      constructor
      · rintro rfl
        exact ⟨rfl, h⟩
      · exact fun hv => hv.1
    · rw [if_neg h]
      simp only [reduceCtorEq, Option.some.injEq, Operand.var.injEq, false_iff]
      rintro ⟨rfl, h1, h2⟩
      exact h (by simp [h1, h2])
  · rename_i hno
    simp only [reduceCtorEq, false_iff]
    rintro ⟨rfl, -⟩
    exact hno t rfl

/-- The cells of some variables. -/
def cellsOf (locs : Locations) (idents : List String) : Cell → Prop :=
  fun c => ∃ ident ∈ idents, c = varCell locs ident

variable {locs : Locations} {b : Block} {ident : String}

@[simp] theorem cellsOf_singleton {c : Cell} :
    cellsOf locs [ident] c ↔ c = varCell locs ident := by
  simp [cellsOf]

theorem touches_cellsOf {idents : List String} {o : Operand} :
    Touches locs (cellsOf locs idents) o ↔
      ∃ ident ∈ idents, Touches locs (cellsOf locs [ident]) o := by
  simp only [Touches, cellsOf_singleton]
  constructor
  · rintro ⟨c, hc, ident, hmem, hcell⟩
    exact ⟨ident, hmem, c, hc, hcell⟩
  · rintro ⟨ident, hmem, c, hc, hcell⟩
    exact ⟨c, hc, ident, hmem, hcell⟩

theorem not_live_of_canRemove (h : b.canRemove locs ident = true) : ident ∉ b.liveOut := by
  simp only [Block.canRemove, Bool.and_eq_true, Bool.not_eq_true'] at h
  simpa using h.1.1

theorem count_of_canRemove (h : b.canRemove locs ident = true) :
    varCount ident (b.ops.flatMap Instr.uses) ≤ 1 := by
  simp only [Block.canRemove, Bool.and_eq_true, decide_eq_true_eq] at h
  rw [← useCount_eq]
  exact h.2

/-- The cell of a removable variable is touched only by naming the variable. -/
theorem untouched (h : b.canRemove locs ident = true) (sep : Separate locs) {i : Instr}
    (hi : i ∈ b.ops) {os : List Operand} (hsub : ∀ o ∈ os, o ∈ i.uses)
    (hno : varCount ident os = 0) :
    ∀ o ∈ os, ¬ Touches locs (cellsOf locs [ident]) o := by
  rintro o ho ⟨c, hc, hcell⟩
  rw [cellsOf_singleton] at hcell
  subst hcell
  cases o with
  | var v => exact varCount_eq_zero.mp hno v ho (sep _ _ (by simpa [cell?] using hc))
  | reg r =>
    -- The register would be read by name, which pins the variable.
    have hreg : varCell locs ident = .reg r.key := by simpa [cell?] using hc.symm
    have hread : b.readsReg r.key = true := by
      simp only [Block.readsReg, List.any_eq_true]
      exact ⟨i, hi, .reg r, hsub _ ho, by simp⟩
    have hpin : b.isPinned locs ident = true := by
      unfold varCell at hreg
      split at hreg
      · rename_i r' st hl
        simp only [Cell.reg.injEq] at hreg
        simp [Block.isPinned, Locations.reg?, hl, hreg, hread]
      · simp at hreg
      · simp at hreg
    simp only [Block.canRemove, Bool.and_eq_true, Bool.not_eq_true'] at h
    rw [hpin] at h
    simp at h
  | _ => simp [cell?] at hc

/-! ## Writing a temporary -/

theorem trunc_trunc (w : Nat) (v : BitVec 64) : trunc w (trunc w v) = trunc w v := by
  unfold trunc
  apply BitVec.eq_of_getLsbD_eq
  intro i hi
  simp only [BitVec.getLsbD_setWidth]
  cases decide (i < 8 * w) <;> simp [hi]

section Results

variable {μ : Type u} {M : Meaning μ} {s : State μ} {i : Instr} {t : Ty} {r : Readings}
  {v : BitVec 64}

/-- An instruction with a fixed result is an ordinary one: it reads its operands and writes its
output. -/
theorem op_of_result (h : result? M i.op t r = some v) :
    isSilent i.op = false ∧ i.op.isBranch = false ∧ i.op ≠ .label := by
  unfold result? at h
  cases hop : i.op <;> simp_all [isArith, isSilent, Opcode.isBranch, Opcode.isCondBranch]

theorem target_of_result (locs : Locations) (h : result? M i.op t r = some v) (s : State μ) :
    (readings M locs s i).target = i.output.bind (memoryRef? M locs s) := by
  obtain ⟨hs, hb, -⟩ := op_of_result h
  simp [readings, hs, hb]

theorem defs_of_direct {o : Operand} (hop : i.op.isBranch = false ∧ i.op ≠ .label)
    (ho : i.output = some o) (hd : isDirect (some o) = true) : i.defs = [o] := by
  unfold Instr.defs
  cases o <;> simp_all [isDirect]

/-- The state after an instruction that writes a register or a variable. -/
theorem exec_direct (M : Meaning μ) (locs : Locations) {o : Operand}
    (hop : i.op.isBranch = false ∧ i.op ≠ .label)
    (ho : i.output = some o) (hd : isDirect (some o) = true) (s : State μ) :
    exec M locs i s =
      let e := outcome M i.op o.ty (readings M locs s i) [shape o] s.mem s.log
      ⟨writeCell M locs s.cells o (e.values 0), e.mem, e.log⟩ := by
  have hty : typeOf i.output = o.ty := by simp [typeOf, ho]
  have hshape : outputShapes i = [shape o] := by
    cases o <;> simp_all [outputShapes, isDirect]
  simp only [exec, hty, hshape, defs_of_direct hop ho hd]
  rfl

theorem result_trunc (h : result? M i.op t r = some v) : trunc t.size v = v := by
  unfold result? at h
  split at h
  · simp only [Option.some.injEq] at h
    rw [← h, trunc_trunc]
  · split at h
    · obtain ⟨x, -, rfl⟩ := Option.map_eq_some_iff.mp h
      exact trunc_trunc _ _
    · split at h
      · simp only [Option.some.injEq] at h
        rw [← h, Meaning.value, trunc_trunc]
      · simp at h

/-- A result that goes to a variable changes the cell of the variable and nothing else. -/
theorem exec_temp (law : M.Lawful) (locs : Locations) (s : State μ) {x : Var}
    (ho : i.output = some (.var x))
    (h : result? M i.op x.ty (readings M locs s i) = some v) :
    AgreeOff (cellsOf locs [x.ident]) (exec M locs i s) s ∧
      trunc x.ty.size ((exec M locs i s).cells (varCell locs x.ident)) = v := by
  have htarget := target_of_result locs h s
  simp only [ho, Option.bind_some, memoryRef?] at htarget
  have hexec := exec_direct M locs (op_of_result h).2 ho rfl s
  have hout : ∀ shapes, outcome M i.op x.ty (readings M locs s i) shapes s.mem s.log =
      ⟨fun _ => v, s.mem, s.log⟩ := by
    intro shapes
    simp [outcome, h, stored, htarget]
  have hty : (Operand.var x).ty = x.ty := rfl
  simp only [hty, hout] at hexec
  rw [hexec]
  constructor
  · refine ⟨fun c hc => ?_, rfl, rfl⟩
    rw [cellsOf_singleton] at hc
    simp [writeCell, cell?, hc]
  · simp only [writeCell, cell?, Function.update_self, hty]
    rw [law.fill, trunc_trunc, result_trunc h]

/-- Two instructions with one output and one result do the same to states that agree off `D`. -/
theorem exec_congr_of_result {D : Cell → Prop} {s' : State μ} {j : Instr} (h : AgreeOff D s s')
    (hout : i.output = j.output)
    (hi : result? M i.op (typeOf i.output) (readings M locs s i) = some v)
    (hj : result? M j.op (typeOf j.output) (readings M locs s' j) = some v)
    (ha : ∀ o ∈ i.output, AddressedDirectly o)
    (ht : ∀ p ∈ outputParts i, ¬ Touches locs D p) :
    AgreeOff D (exec M locs i s) (exec M locs j s') := by
  have hdefs : i.defs = j.defs := by
    obtain ⟨-, hb, hl⟩ := op_of_result hi
    obtain ⟨-, hb', hl'⟩ := op_of_result hj
    simp [Instr.defs, hb, hb', hl, hl', hout]
  have htarget : (readings M locs s i).target = (readings M locs s' j).target := by
    rw [target_of_result locs hi, target_of_result locs hj, ← hout]
    cases ho : i.output with
    | none => rfl
    | some o =>
      refine memoryRef?_congr h (ha o (by simp [ho])) fun p hp => ht p ?_
      simp [outputParts, ho, hp]
  apply exec_congr h hdefs
  rw [hout] at hi ⊢
  simp only [outcome, hi, hj, htarget, h.mem, h.log]

end Results

end Backend.Peephole
