-- Labels in selected code: only a label instruction is selected as a label, so the labels of the
-- code of a closure are those of its instructions.
import Backend.Proofs.Selection.Shape

namespace Backend.Selection

open Machine (Inst labels)

variable {code : List Inst} {d a b : Option Machine.Operand}

/-! ## Moves -/

@[simp] theorem labels_two (op : Machine.Op) (dst src : Machine.Operand) (code : List Inst) :
    labels (two op dst src :: code) = labels code := rfl

@[simp] theorem labels_inst (op : Machine.Op) (dst src : Option Machine.Operand)
    (code : List Inst) : labels (inst op dst src :: code) = labels code := rfl

@[simp] theorem labels_extend (r : Machine.Reg) (src : Machine.Operand) (signed : Bool)
    (code : List Inst) : labels (extend r src signed :: code) = labels code := rfl

@[simp] theorem labels_unary (op : Machine.Op) (dst : Machine.Operand) (code : List Inst) :
    labels (.unary op dst :: code) = labels code := rfl

@[simp] theorem labels_moveRegReg (r s : Machine.Reg) (signed : Bool) :
    labels (moveRegReg r s signed) = [] := by
  unfold moveRegReg
  repeat' split
  all_goals rfl

@[simp] theorem labels_moveRegMem (r : Machine.Reg) (m : Machine.Memory) (signed : Bool) :
    labels (moveRegMem r m signed) = [] := by
  unfold moveRegMem
  repeat' split
  all_goals rfl

@[simp] theorem labels_moveMemReg (m : Machine.Memory) (s : Machine.Reg) (signed : Bool) :
    labels (moveMemReg m s signed) = [] := by
  unfold moveMemReg
  split <;> rfl

theorem labels_moveToXmm {x : Machine.Xmm} {s : Machine.Operand} (h : moveToXmm x s = .ok code) :
    labels code = [] := by
  unfold moveToXmm at h
  split at h
  · cases h
    split <;> rfl
  · cases h
    rfl
  · split at h
    · cases h
    · cases h
      rfl
  · cases h
    split <;> rfl
  · cases h

theorem labels_moveToReg {r : Machine.Reg} {s : Machine.Operand} {signed : Bool}
    (h : moveToReg r s signed = .ok code) : labels code = [] := by
  unfold moveToReg at h
  split at h
  · cases h
    split <;> simp
  · cases h
    simp
  · cases h
    simp
  · cases h
    rfl
  · cases h

theorem labels_moveToMem {m : Machine.Memory} {s : Machine.Operand} {signed : Bool}
    (h : moveToMem m s signed = .ok code) : labels code = [] := by
  unfold moveToMem at h
  split at h
  · cases h
    simp
  · cases h
    split <;> simp
  · cases h
    simp
  · cases h
    split <;> simp
  · cases h

theorem labels_move {signed : Bool} (h : move d a signed = .ok code) : labels code = [] := by
  unfold move at h
  split at h
  · cases h
    rfl
  split at h
  · exact labels_moveToXmm h
  · exact labels_moveToReg h
  · exact labels_moveToMem h
  · cases h

/-! ## Arithmetic -/

theorem labels_binary {op : Machine.Op} {commutative signed : Bool}
    (h : binary op d a b commutative signed = .ok code) : labels code = [] := by
  unfold binary at h
  obtain ⟨load, hload, h⟩ := bind_eq_ok.mp h
  obtain ⟨result, hresult, h⟩ := bind_eq_ok.mp h
  cases h
  simp [labels_move hload, labels_move hresult]

theorem labels_mul {signed : Bool} (h : mul d a b signed = .ok code) : labels code = [] := by
  rcases mul_cases h with ⟨-, load, product, result, hload, hproduct, hresult, rfl⟩ |
    ⟨-, k, load, src, result, -, hsrc, hresult, rfl⟩ | ⟨-, -, h⟩
  · rcases hproduct with ⟨k, -, rfl⟩ | ⟨r, -, rfl⟩
    all_goals simp [labels_move hload, labels_move hresult]
  · have hl : labels load = [] := by
      rcases hsrc with ⟨-, hload, -⟩ | ⟨-, rfl, -⟩
      · exact labels_move hload
      · rfl
    simp [hl, labels_move hresult]
  · exact labels_binary h

theorem labels_divide {op : Opcode} (h : divide op a b = .ok code) : labels code = [] := by
  cases divide_code h <;> rfl

theorem labels_unaryOp {op : Machine.Op} {signed : Bool} (h : unary op d a signed = .ok code) :
    labels code = [] := by
  obtain ⟨load, result, hload, hresult, rfl⟩ := unary_code h
  simp [labels_move hload, labels_move hresult]

theorem labels_intArithmetic {i : Instr} {signed : Bool}
    (h : intArithmetic i d a b signed = .ok code) : labels code = [] := by
  cases intArithmetic_code h with
  | product _ made => exact labels_mul made
  | division _ made => exact labels_divide made
  | unary _ made => exact labels_unaryOp made
  | shift _ _ _ made => exact labels_binary made
  | twoAddress _ _ made => exact labels_binary made

/-! ## Floats -/

theorem labels_loaded {x : Machine.Xmm} {left : Option Machine.Operand}
    (h : LoadedIn x a left code) :
    labels code = [] := by
  rcases h with ⟨-, -, rfl⟩ | ⟨-, hload⟩
  · rfl
  · exact labels_move hload

theorem labels_floatBinary {op : Machine.Op} {commutative : Bool}
    (h : floatBinary op d a b commutative = .ok code) : labels code = [] := by
  obtain ⟨-, -, -, hload, hresult⟩ := floatBinary_code h
  simp [labels_move hload, labels_move hresult]

theorem labels_floatNeg (h : floatNeg d a = .ok code) : labels code = [] := by
  obtain ⟨load, result, hload, hresult, rfl⟩ := floatNeg_code h
  simp [labels_move hload, labels_move hresult]

theorem labels_fused {c : Closure} {i : Instr} (h : fused c i d a b = .ok code) :
    labels code = [] := by
  obtain ⟨-, -, -, -, hload, hfactor, hresult⟩ := fused_code h
  simp [labels_move hload, labels_loaded hfactor, labels_move hresult]

theorem labels_intToFloat {signed : Bool} (h : intToFloat d a signed = .ok code) :
    labels code = [] := by
  cases intToFloat_code h with
  | inPlace _ hresult => simp [labels_move hresult]
  | widened _ hload hresult => simp [labels_move hload, labels_move hresult]

theorem labels_floatToInt {signed : Bool} (h : floatToInt d a signed = .ok code) :
    labels code = [] := by
  cases floatToInt_code h with
  | inPlace => rfl
  | moved _ hresult => simp [labels_move hresult]

theorem labels_floatToFloat (h : floatToFloat d a = .ok code) : labels code = [] := by
  obtain ⟨result, hresult, rfl⟩ := floatToFloat_code h
  simp [labels_move hresult]

/-! ## Comparisons -/

theorem labels_compare {float : Bool} (h : compare a b float = .ok code) : labels code = [] := by
  cases compare_code h with
  | float _ hload => simp [labels_loaded hload]
  | loaded _ hload => simp [labels_move hload]
  | inPlace => rfl

theorem labels_setCond {c : Machine.Cond} (h : setCond c d = .ok code) : labels code = [] := by
  cases setCond_code h with
  | byte => rfl
  | widened hresult => simp [labels_move hresult]

/-! ## Instructions -/

theorem labels_lea {c : Closure} {i : Instr} (h : lea c i d = .ok code) : labels code = [] := by
  obtain ⟨m, -, hcode⟩ := lea_code.mp h
  cases hcode with
  | inPlace => rfl
  | moved _ hresult => simp [labels_move hresult]

theorem labels_clear (h : clear d = .ok code) : labels code = [] := by
  unfold clear at h
  split at h
  all_goals cases h <;> rfl

theorem labels_push (h : push a = .ok code) : labels code = [] := by
  unfold push at h
  split at h
  all_goals cases h <;> rfl

theorem labels_pop (h : pop d = .ok code) : labels code = [] := by
  unfold pop at h
  split at h
  all_goals cases h <;> rfl

theorem labels_call {i : Instr} (h : call i = .ok code) : labels code = [] := by
  cases call_code h <;> rfl

/-- A computation is selected without labels. -/
theorem labels_compute {c : Closure} {i : Instr} (h : compute c i d a b = .ok code) :
    labels code = [] := by
  cases compute_code h with
  | move _ made => exact labels_move made
  | lea _ made => exact labels_lea made
  | clear _ made => exact labels_clear made
  | push _ made => exact labels_push made
  | pop _ made => exact labels_pop made
  | intToFloat _ made => exact labels_intToFloat made
  | floatToInt _ made => exact labels_floatToInt made
  | floatToFloat _ made => exact labels_floatToFloat made
  | branch _ hflags => simp [labels_compare hflags]
  | compare _ hflags hresult => simp [labels_compare hflags, labels_setCond hresult]
  | fused _ made => exact labels_fused made
  | floatNeg _ _ made => exact labels_floatNeg made
  | float _ _ made => exact labels_floatBinary made
  | int _ _ made => exact labels_intArithmetic made

theorem labels_epilogue (c : Closure) : labels (epilogue c) = [] := by
  have hrestore : labels (c.saved.map fun s => two .mov (.reg ⟨s.reg.index, 8⟩)
      (.mem (.ofBase ⟨Machine.rbp, 8⟩ (toDisp s.offset) 8))) = [] := by
    induction c.saved with
    | nil => rfl
    | cons s rest ih => simpa using ih
  unfold epilogue
  simp only [Machine.labels_append, hrestore]
  rfl

/-- The labels of an instruction: the name of a label, and none of any other instruction. -/
theorem mem_labels_instr {c : Closure} {i : Instr} (h : instr c i = .ok code) {name : String} :
    name ∈ labels code ↔
      i.op = .label ∧ ∃ l, i.output = some (.label l) ∧ name = labelName c l := by
  have hnone (hop : i.op ≠ .label) (hlabels : labels code = []) : name ∈ labels code ↔
      i.op = .label ∧ ∃ l, i.output = some (.label l) ∧ name = labelName c l := by
    simp [hlabels, hop]
  cases instr_code h with
  | label op output => simp [op, output]
  | nothing op => exact hnone (by rintro hl; simp [hl] at op) rfl
  | leave op => exact hnone (by rintro hl; simp [hl] at op) (labels_epilogue c)
  | jump op => exact hnone (by simp [op]) rfl
  | call op made => exact hnone (by rintro hl; simp [hl] at op) (labels_call made)
  | compute op _ _ _ made =>
    exact hnone (by rintro hl; simp [hl, isSelectedByOperands] at op) (labels_compute made)

/-- The labels in the code of instructions are the names of the labels among them. -/
theorem mem_labels_instrs {c : Closure} {is : List Instr} (h : instrs c is = .ok code)
    {name : String} : name ∈ labels code ↔
      ∃ i ∈ is, i.op = .label ∧ ∃ l, i.output = some (.label l) ∧ name = labelName c l := by
  induction is generalizing code with
  | nil =>
    cases h
    simp
  | cons i rest ih =>
    obtain ⟨first, more, hfirst, hmore, rfl⟩ := instrs_cons_eq_ok.mp h
    simp only [Machine.labels_append, List.mem_append, mem_labels_instr hfirst, ih hmore,
      List.exists_mem_cons_iff]

end Backend.Selection
