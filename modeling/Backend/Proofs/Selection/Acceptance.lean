-- Which computations selection accepts: each function of selection gives code for operands of the
-- right kinds, and what it refuses is said by the form of the instruction and the places of its
-- operands.
import Backend.Proofs.Selection.Ready

namespace Backend.Selection

open Backend.Lowering
open Backend.Machine (Inst)

/-! ## Moves -/

/-- A register or memory. -/
def IsPlace : Machine.Operand → Prop
  | .reg _ | .xmm _ | .mem _ => True
  | _ => False

/-- A general purpose register or memory. -/
def IsIntPlace : Machine.Operand → Prop
  | .reg _ | .mem _ => True
  | _ => False

/-- No branch target. -/
def IsValue (a : Machine.Operand) : Prop := ∀ t, a ≠ .target t

/-- A register of one or two bytes, which has no move to an SSE register. -/
def IsShort : Machine.Operand → Prop
  | .reg r => r.width < 4
  | _ => False

theorem not_isShort_r11 {w : UInt8} (h : ¬ w < 4) : ¬ IsShort (.reg (r11 w)) := h

theorem IsIntPlace.isPlace {d : Machine.Operand} (h : IsIntPlace d) : IsPlace d := by
  cases d with
  | reg r | mem m => trivial
  | xmm x | imm v | target t => exact h.elim

theorem isValue_of_intKind {a : Machine.Operand} (h : IsIntKind a) : IsValue a := by
  rintro t rfl
  exact h

theorem isValue_of_floatKind {a : Machine.Operand} (h : IsFloatKind a) : IsValue a := by
  rintro t rfl
  exact h

theorem isValue_resize {a : Machine.Operand} (h : IsValue a) (w : UInt8) :
    IsValue (resize a w) := by
  cases a with
  | target t => exact absurd rfl (h t)
  | _ => exact fun _ ht => by cases ht

theorem isFloatKind_resize {a : Machine.Operand} (h : IsFloatKind a) (w : UInt8) :
    IsFloatKind (resize a w) := by
  cases a with
  | xmm x | mem m => trivial
  | reg r | imm v | target t => exact h.elim

section Moves

variable {d a : Machine.Operand}

theorem exists_move (hd : IsPlace d) (ha : IsValue a) (hx : isXmm (some d) = true → ¬ IsShort a)
    (signed : Bool) : ∃ code, move (some d) (some a) signed = .ok code := by
  unfold move
  split
  · exact ⟨_, rfl⟩
  cases a with
  | target t => exact absurd rfl (ha t)
  | reg r =>
    cases d with
    | xmm x => exact ⟨_, if_neg (hx rfl)⟩
    | reg s | mem m => exact ⟨_, rfl⟩
    | imm v | target t => exact hd.elim
  | xmm y | mem y | imm y =>
    cases d with
    | xmm x | reg s | mem m => exact ⟨_, rfl⟩
    | imm v | target t => exact hd.elim

theorem exists_move_int (hd : IsIntPlace d) (ha : IsValue a) (signed : Bool) :
    ∃ code, move (some d) (some a) signed = .ok code := by
  refine exists_move hd.isPlace ha (fun hx => ?_) signed
  cases d with
  | xmm x => exact hd.elim
  | reg r | mem m | imm v | target t => cases hx

theorem exists_move_xmm (x : Machine.Xmm) (ha : IsFloatKind a) (signed : Bool) :
    ∃ code, move (some (.xmm x)) (some a) signed = .ok code := by
  refine exists_move (d := .xmm x) trivial (isValue_of_floatKind ha) (fun _ hs => ?_) signed
  cases a with
  | reg r => exact ha
  | xmm y | mem m | imm v | target t => exact hs

/-- What is moved goes to a place. -/
theorem isPlace_of_move {d a : Option Machine.Operand} {signed : Bool} {code : List Inst}
    (h : move d a signed = .ok code) : ∃ p, d = some p ∧ IsPlace p := by
  unfold move at h
  split at h
  · rename_i hsame
    unfold sameOperand at hsame
    split at hsame <;> first | cases hsame | exact ⟨_, rfl, trivial⟩
  · split at h <;> first | cases h | exact ⟨_, rfl, trivial⟩

/-- What is moved is a value. -/
theorem isValue_of_move {d a : Option Machine.Operand} {signed : Bool} {code : List Inst}
    (h : move d a signed = .ok code) : ∃ m, a = some m ∧ IsValue m := by
  unfold move at h
  split at h
  · rename_i hsame
    unfold sameOperand at hsame
    split at hsame <;> first | cases hsame | exact ⟨_, rfl, fun t ht => by cases ht⟩
  · split at h
    · exact ⟨_, rfl, fun t ht => by cases ht; cases h⟩
    · exact ⟨_, rfl, fun t ht => by cases ht; cases h⟩
    · exact ⟨_, rfl, fun t ht => by cases ht; cases h⟩
    · cases h

end Moves

/-! ## Integers -/

section Integers

variable {d a b : Machine.Operand} {op : Machine.Op} {commutative signed : Bool}

/-- Two sources are combined in a place for integers. -/
theorem exists_binary (hd : IsIntPlace d) (ha : IsValue a) (hb : IsValue b) :
    ∃ code, binary op (some d) (some a) (some b) commutative signed = .ok code := by
  unfold binary
  dsimp only
  generalize hswap : (isGpr (some d) && clobbers (some d) (some b) && commutative &&
    !clobbers (some d) (some a)) = swap
  generalize hp : (if swap = true then
      ((some b : Option Machine.Operand), (some a).map fun o => resize o (opWidth (some d)))
    else (some a, some b)) = p
  have hfirst : ∃ x, p.1 = some x ∧ IsValue x := by
    rw [← hp]
    split
    · exact ⟨b, rfl, hb⟩
    · exact ⟨a, rfl, ha⟩
  have hwork : ∃ x, (if (isGpr (some d) && (swap || !clobbers (some d) p.2)) = true then some d
      else some (.reg (r11 (opWidth (some d))))) = some x ∧ IsIntPlace x ∧ IsValue x := by
    split
    · rename_i hg
      obtain ⟨hg, -⟩ := Bool.and_eq_true_iff.mp hg
      cases d with
      | reg r => exact ⟨_, rfl, trivial, fun t ht => by cases ht⟩
      | mem m => cases hg
      | xmm x | imm v | target t => exact hd.elim
    · exact ⟨_, rfl, trivial, fun t ht => by cases ht⟩
  obtain ⟨x, hx, hxv⟩ := hfirst
  obtain ⟨y, hy, hyp, hyv⟩ := hwork
  rw [hy, hx]
  obtain ⟨load, hload⟩ := exists_move_int hyp hxv signed
  obtain ⟨result, hresult⟩ := exists_move_int hd hyv signed
  rw [hload, hresult]
  exact ⟨_, rfl⟩

theorem exists_workReg (hd : IsIntPlace d) :
    ∃ x, workReg (some d) = some x ∧ IsIntPlace x ∧ IsValue x := by
  unfold workReg
  cases d with
  | reg r => exact ⟨_, rfl, trivial, fun t ht => by cases ht⟩
  | mem m => exact ⟨_, rfl, trivial, fun t ht => by cases ht⟩
  | xmm x | imm v | target t => exact hd.elim

theorem exists_unary (hd : IsIntPlace d) (ha : IsValue a) :
    ∃ code, unary op (some d) (some a) signed = .ok code := by
  obtain ⟨x, hx, hxp, hxv⟩ := exists_workReg hd
  obtain ⟨load, hload⟩ := exists_move_int hxp ha signed
  obtain ⟨result, hresult⟩ := exists_move_int hd hxv signed
  unfold unary
  dsimp only
  rw [hx, hload, hresult]
  exact ⟨_, rfl⟩

/-- A product is refused only if it is one of bytes whose second factor is not in a general purpose
register. -/
theorem exists_mul (hd : IsIntPlace d) (ha : IsValue a) (hb : IsIntKind b)
    (hbyte : opWidth (some d) = 1 → ∀ m, b ≠ .mem m) :
    ∃ code, mul (some d) (some a) (some b) signed = .ok code := by
  unfold mul
  dsimp only
  split
  · rename_i hw
    obtain ⟨load, hload⟩ := exists_move_int (d := .reg (r11 4)) trivial (isValue_resize ha 1) false
    obtain ⟨result, hresult⟩ :=
      exists_move_int (a := .reg (r11 1)) hd (fun t ht => by cases ht) signed
    rw [Option.map_some, hload, hresult]
    cases b with
    | imm k => exact ⟨_, rfl⟩
    | reg r => exact ⟨_, rfl⟩
    | mem m => exact absurd rfl (hbyte (beq_iff_eq.mp hw) m)
    | xmm x | target t => exact hb.elim
  · rw [Option.map_some]
    split
    · obtain ⟨x, hx, hxp, hxv⟩ := exists_workReg hd
      obtain ⟨load, hload⟩ := exists_move_int hxp ha signed
      obtain ⟨result, hresult⟩ := exists_move_int hd hxv signed
      rw [hx, hload, hresult]
      split <;> exact ⟨_, rfl⟩
    · exact exists_binary hd ha (isValue_resize (isValue_of_intKind hb) _)

end Integers

/-! ## Floats -/

section Floats

variable {d a b : Machine.Operand}

theorem exists_floatBinary {op : Machine.Op} {commutative : Bool} (hd : IsPlace d)
    (ha : IsFloatKind a) (hb : IsFloatKind b) :
    ∃ code, floatBinary op (some d) (some a) (some b) commutative = .ok code := by
  unfold floatBinary
  dsimp only
  rw [Option.map_some]
  generalize (isXmm (some d) && clobbers (some d) (some (resize b (opWidth (some d)))) &&
    commutative && !clobbers (some d) (some a)) = swap
  generalize hp : (if swap =
    true then ((some (resize b (opWidth (some d))) : Option Machine.Operand),
      (some a).map fun o => resize o (opWidth (some d)))
    else (some a, some (resize b (opWidth (some d))))) = p
  have hsources : ∃ x y, p = (some x, some y) ∧ IsFloatKind x ∧ IsFloatKind y := by
    rw [← hp]
    split
    · exact ⟨_, _, rfl, isFloatKind_resize hb _, isFloatKind_resize ha _⟩
    · exact ⟨_, _, rfl, ha, isFloatKind_resize hb _⟩
  obtain ⟨x, y, rfl, hx, hy⟩ := hsources
  have hwork : ∃ z : Machine.Xmm,
      (if (isXmm (some d) && (swap || !clobbers (some d) (some y))) = true
      then some d else some (.xmm (xmm15 (opWidth (some d))))) = some (.xmm z) := by
    split
    · rename_i hg
      exact exists_xmm_of_isXmm (Bool.and_eq_true_iff.mp hg).1
    · exact ⟨_, rfl⟩
  obtain ⟨z, hz⟩ := hwork
  have hkind : (!isXmm (some y) && !isMem (some y)) = false := by
    cases y <;> first | rfl | exact hy.elim
  obtain ⟨load, hload⟩ := exists_move_xmm z hx false
  obtain ⟨result, hresult⟩ :=
    exists_move (a := .xmm z) hd (fun t ht => by cases ht) (fun _ hs => hs) false
  dsimp only
  rw [hz, hkind, hload, hresult]
  exact ⟨_, rfl⟩

theorem exists_floatNeg (hd : IsPlace d) (hw : isXmm (some d) = true → ¬ opWidth (some d) < 4)
    (ha : IsValue a) :
    ∃ code, floatNeg (some d) (some a) = .ok code := by
  obtain ⟨load, hload⟩ := exists_move_int (d := .reg (r11 (opWidth (some d)))) trivial ha false
  obtain ⟨result, hresult⟩ :=
    exists_move (a := .reg (r11 (opWidth (some d)))) hd (fun t ht => by cases ht) hw false
  unfold floatNeg
  dsimp only
  rw [hload, hresult]
  exact ⟨_, rfl⟩

theorem exists_workXmm_move (hd : IsPlace d) :
    ∃ x result, workXmm (some d) = some (.xmm x) ∧ move (some d) (some (.xmm x)) false =
      .ok result := by
  obtain ⟨x, hx, -⟩ := exists_xmm_of_worksIn (worksIn_workXmm (d := some d))
  obtain ⟨result, hresult⟩ :=
    exists_move (a := .xmm x) hd (fun t ht => by cases ht) (fun _ hs => hs) false
  exact ⟨x, result, hx, hresult⟩

theorem exists_intToFloat (hd : IsPlace d) (ha : IsValue a) (signed : Bool) :
    ∃ code, intToFloat (some d) (some a) signed = .ok code := by
  obtain ⟨x, result, hx, hresult⟩ := exists_workXmm_move hd
  obtain ⟨load, hload⟩ :=
    exists_move_int (d := .reg (r11 (conversionWidth (some a) signed))) trivial ha signed
  unfold intToFloat
  dsimp only
  rw [hx, hload, hresult]
  split <;> exact ⟨_, rfl⟩

theorem exists_floatToInt (hd : IsPlace d) (a : Option Machine.Operand) (signed : Bool) :
    ∃ code, floatToInt (some d) a signed = .ok code := by
  have hwide : ∀ w : UInt8, ¬ w < 4 → ∃ result, move (some d) (some (.reg (r11 w))) signed =
      .ok result :=
    fun w hw => exists_move hd (fun t ht => by cases ht) (fun _ => not_isShort_r11 hw) signed
  obtain ⟨eight, height⟩ := hwide 8 (by decide)
  obtain ⟨four, hfour⟩ := hwide 4 (by decide)
  unfold floatToInt
  dsimp only
  split
  · rw [height]
    split <;> exact ⟨_, rfl⟩
  · rw [hfour]
    split <;> exact ⟨_, rfl⟩

theorem exists_floatToFloat (hd : IsPlace d) (a : Option Machine.Operand) :
    ∃ code, floatToFloat (some d) a = .ok code := by
  obtain ⟨x, result, hx, hresult⟩ := exists_workXmm_move hd
  unfold floatToFloat
  dsimp only
  rw [hx, hresult]
  exact ⟨_, rfl⟩

end Floats

/-! ## Comparisons and addresses -/

theorem exists_compare {a b : Machine.Operand} {float : Bool} (ha : IsValue a)
    (hfloat : float = true → IsFloatKind a ∧ IsFloatKind b) :
    ∃ code, compare (some a) (some b) float = .ok code := by
  unfold compare
  cases float with
  | false =>
    obtain ⟨load, hload⟩ :=
      exists_move_int (d := .reg (r11 (compareWidth (some a) (some b)))) trivial ha false
    dsimp only
    rw [hload]
    simp only [Bool.false_eq_true, if_false]
    split <;> exact ⟨_, rfl⟩
  | true =>
    obtain ⟨hfa, hfb⟩ := hfloat rfl
    obtain ⟨load, hload⟩ := exists_move_xmm (xmm15 (compareWidth (some a) (some b))) hfa false
    have hkind : (!isXmm (some b) && !isMem (some b)) = false := by
      cases b <;> first | rfl | exact hfb.elim
    dsimp only
    rw [hload, hkind]
    simp only [if_true]
    split <;> exact ⟨_, rfl⟩

theorem exists_setCond {d : Machine.Operand} (hd : IsPlace d) (cond : Machine.Cond) :
    ∃ code, setCond cond (some d) = .ok code := by
  unfold setCond
  split
  · exact ⟨_, rfl⟩
  · have hwide : ¬ max (opWidth (some d)) 4 < 4 := by
      rw [show max (opWidth (some d)) 4 = if opWidth (some d) ≤ 4 then 4 else opWidth (some d)
        from rfl]
      split
      · decide
      · rename_i hle
        exact fun hlt => hle (UInt8.le_of_lt hlt)
    obtain ⟨result, hresult⟩ :=
      exists_move hd (fun t ht => by cases ht) (fun _ => not_isShort_r11 hwide) false
    dsimp only
    rw [hresult]
    exact ⟨_, rfl⟩

/-- The operand has an address that an instruction can compute. -/
def HasAddress (c : Closure) : Option Operand → Prop
  | some (.symbol s) => s.isTls = false
  | some (.indirect base index scale disp t) => ∃ m, memory c base index scale disp t = .ok m
  | _ => False

theorem exists_addressed {o : Option Operand} : (∃ m, Addressed c o m) ↔ HasAddress c o := by
  constructor
  · rintro ⟨m, hshared | hfound⟩
    · exact hshared
    · exact ⟨m, hfound⟩
  · intro h
    cases o with
    | none => exact h.elim
    | some o =>
      cases o with
      | symbol s => exact ⟨_, .symbol h⟩
      | indirect base index scale disp t =>
        obtain ⟨m, hm⟩ := h
        exact ⟨m, .indirect hm⟩
      | _ => exact h.elim

theorem exists_leaCode {d : Option Machine.Operand} {m : Machine.Memory} :
    (∃ code, LeaCode d m code) ↔ ∃ p, d = some p ∧ IsPlace p := by
  constructor
  · rintro ⟨code, ⟨rfl, -⟩ | ⟨-, hresult⟩⟩
    · exact ⟨_, rfl, trivial⟩
    · exact isPlace_of_move hresult
  · rintro ⟨p, rfl, hp⟩
    obtain ⟨result, hresult⟩ := exists_move hp (fun t ht => by cases ht)
      (fun _ => not_isShort_r11 (w := 8) (by decide)) false
    cases hwide : holdsAddress (some p) with
    | false => exact ⟨_, .moved hwide hresult⟩
    | true =>
      cases p with
      | reg r => exact ⟨_, .inPlace rfl (by simpa [holdsAddress] using hwide)⟩
      | _ => cases hwide

/-- An address computation is accepted exactly if it has an address and a place to go to. -/
theorem lea_eq_ok {i : Instr} {d : Option Machine.Operand} :
    (∃ code, lea c i d = .ok code) ↔ HasAddress c i.first ∧ ∃ p, d = some p ∧ IsPlace p := by
  rw [← exists_addressed]
  constructor
  · rintro ⟨code, h⟩
    obtain ⟨m, hm, hcode⟩ := lea_code.mp h
    exact ⟨⟨m, hm⟩, exists_leaCode.mp ⟨code, hcode⟩⟩
  · rintro ⟨⟨m, hm⟩, hplace⟩
    obtain ⟨code, hcode⟩ := exists_leaCode.mpr hplace
    exact ⟨code, lea_code.mpr ⟨m, hm, hcode⟩⟩

/-! ## Fused multiplications -/

theorem not_isShort_of_move {x : Machine.Xmm} {a : Machine.Operand} {signed : Bool}
    {code : List Inst} (h : move (some (.xmm x)) (some a) signed = .ok code) : ¬ IsShort a := by
  intro hs
  cases a with
  | reg r =>
    have hw : r.width < 4 := hs
    simp [move, sameOperand, moveToXmm, hw] at h
  | xmm y | mem m | imm v | target t => exact hs

section Fused

variable {c : Closure} {i : Instr}

/-- The addend can be loaded into an SSE register. -/
def Loads (c : Closure) (addend : Option Operand) : Prop :=
  ∃ m, required c addend = .ok m ∧ IsValue m ∧ ¬ IsShort m

theorem exists_fused {d a : Machine.Operand} (hop : i.op.isFused = true)
    (hfloat : (opType i).isFloat = true) (hd : IsPlace d) (ha : IsFloatKind a)
    (b : Option Machine.Operand) (haddend : Loads c i.addend) :
    ∃ code, fused c i (some d) (some a) b = .ok code := by
  obtain ⟨op, hfused⟩ : ∃ op, fusedOp? i.op = some op := by
    cases hi : i.op <;> simp [hi, Opcode.isFused] at hop <;> exact ⟨_, rfl⟩
  obtain ⟨m, hm, hvalue, hshort⟩ := haddend
  have hwork : ∃ x : Machine.Xmm,
      (if (!isXmm (some d) || clobbers (some d) (some a) || clobbers (some d) b) = true
      then some (.xmm (xmm15 (opWidth (some d)))) else some d) = some (.xmm x) := by
    split
    · exact ⟨_, rfl⟩
    · rename_i hx
      refine exists_xmm_of_isXmm ?_
      cases hd : isXmm (some d) <;> simp_all
  obtain ⟨x, hx⟩ := hwork
  obtain ⟨load, hload⟩ := exists_move (d := .xmm x) trivial hvalue (fun _ => hshort) false
  obtain ⟨factor, hfactor⟩ := exists_move_xmm (xmm14 (opWidth (some d))) ha false
  obtain ⟨result, hresult⟩ :=
    exists_move (a := .xmm x) hd (fun t ht => by cases ht) (fun _ hs => hs) false
  unfold fused
  rw [hfused, hfloat]
  dsimp only
  rw [hm]
  dsimp only [bind, Except.bind]
  rw [hx, hload]
  dsimp only
  split
  · dsimp only [pure, Except.pure]
    rw [hresult]
    exact ⟨_, rfl⟩
  · rw [hfactor]
    dsimp only [pure, Except.pure]
    rw [hresult]
    exact ⟨_, rfl⟩

theorem loads_of_fused {d a b : Option Machine.Operand} {code : List Inst}
    (h : fused c i d a b = .ok code) :
    (opType i).isFloat = true ∧ Loads c i.addend ∧ ∃ p, d = some p ∧ IsPlace p := by
  obtain @⟨f, addend, work, left, load, factor, result, -, hfloat, hadds, hwork, hload, -,
    hresult⟩ :=
    fused_code h
  obtain ⟨x, rfl, -⟩ := exists_xmm_of_worksIn hwork
  obtain ⟨n, hn, hvalue⟩ := isValue_of_move hload
  cases hn
  exact ⟨hfloat, ⟨addend, hadds, hvalue, not_isShort_of_move hload⟩, isPlace_of_move hresult⟩

end Fused

/-! ## Computations -/

section Computations

variable {c : Closure} {i : Instr} {d a b : Option Machine.Operand}

theorem compute_compare (h : i.op.isCompare = true) : compute c i d a b = (do
    let flags ← compare a b (opType i).isFloat
    let result ← setCond (condOf i.op (opType i).isFloat) d
    pure (flags ++ result)) := by
  unfold compute
  cases hi : i.op <;> simp [hi, Opcode.isCompare] at h <;> rfl

theorem compute_fused (h : i.op.isFused = true) : compute c i d a b = fused c i d a b := by
  unfold compute
  cases hi : i.op <;> simp [hi, Opcode.isFused] at h <;> rfl

theorem compute_float (h : i.op.isArithmetic = true) (hfloat : (opType i).isFloat = true) :
    compute c i d a b = if i.op == .neg then floatNeg d a
      else match floatOp? i.op with
        | some op => floatBinary op d a b i.op.isCommutative
        | none => throw (.noFloatForm i.op) := by
  unfold compute
  cases hi : i.op <;> simp [hi, Opcode.isArithmetic] at h <;>
    simp [hfloat, floatOp?, Opcode.isCondBranch, Opcode.isCompare, Opcode.isFused]

theorem compute_int (h : i.op.isArithmetic = true) (hint : (opType i).isFloat = false) :
    compute c i d a b = intArithmetic i d a b (isSigned i.first) := by
  unfold compute
  cases hi : i.op <;> simp [hi, Opcode.isArithmetic] at h <;>
    simp [hint, Opcode.isCondBranch, Opcode.isCompare, Opcode.isFused]

/-- The output of a computation is a place, but for a division of integers, which has two
outputs. -/
theorem isPlace_of_binary {op : Machine.Op} {commutative signed : Bool} {code : List Inst}
    (h : binary op d a b commutative signed = .ok code) : ∃ p, d = some p ∧ IsPlace p := by
  rcases binary_cases h with ⟨r, -, rfl, -⟩ | ⟨r, -, rfl, -⟩ | ⟨load, result, -, hresult, -⟩
  · exact ⟨_, rfl, trivial⟩
  · exact ⟨_, rfl, trivial⟩
  · exact isPlace_of_move hresult

theorem isPlace_of_mul {signed : Bool} {code : List Inst} (h : mul d a b signed = .ok code) :
    ∃ p, d = some p ∧ IsPlace p := by
  rcases mul_cases h with ⟨-, load, product, result, -, -, hresult, -⟩ |
    ⟨-, k, load, src, result, -, -, hresult, -⟩ | ⟨-, -, hbinary⟩
  · exact isPlace_of_move hresult
  · exact isPlace_of_move hresult
  · exact isPlace_of_binary hbinary

theorem isPlace_of_unary {op : Machine.Op} {signed : Bool} {code : List Inst}
    (h : unary op d a signed = .ok code) : ∃ p, d = some p ∧ IsPlace p := by
  obtain ⟨load, result, -, hresult, -⟩ := unary_code h
  exact isPlace_of_move hresult

theorem isPlace_of_floatBinary {op : Machine.Op} {commutative : Bool} {code : List Inst}
    (h : floatBinary op d a b commutative = .ok code) : ∃ p, d = some p ∧ IsPlace p := by
  obtain ⟨-, -, -, -, hresult⟩ := floatBinary_code h
  exact isPlace_of_move hresult

theorem isPlace_of_floatNeg {code : List Inst} (h : floatNeg d a = .ok code) :
    ∃ p, d = some p ∧ IsPlace p := by
  obtain ⟨load, result, -, hresult, -⟩ := floatNeg_code h
  exact isPlace_of_move hresult

theorem isPlace_of_setCond {cond : Machine.Cond} {code : List Inst}
    (h : setCond cond d = .ok code) :
    ∃ p, d = some p ∧ IsPlace p := by
  cases setCond_code h with
  | byte hone =>
    cases d with
    | none => cases hone
    | some p =>
      cases p with
      | reg r | xmm x | mem m => exact ⟨_, rfl, trivial⟩
      | imm v | target t => cases hone
  | widened hresult => exact isPlace_of_move hresult

theorem isPlace_of_floatToInt {signed : Bool} {code : List Inst}
    (h : floatToInt d a signed = .ok code) :
    ∃ p, d = some p ∧ IsPlace p := by
  cases floatToInt_code h with
  | inPlace dst => exact ⟨_, dst, trivial⟩
  | moved _ hresult => exact isPlace_of_move hresult

theorem isPlace_of_intToFloat {signed : Bool} {code : List Inst}
    (h : intToFloat d a signed = .ok code) :
    (∃ m, a = some m ∧ IsValue m) ∧ ∃ p, d = some p ∧ IsPlace p := by
  cases intToFloat_code h with
  | inPlace hwidth hresult =>
    refine ⟨?_, isPlace_of_move hresult⟩
    -- An operand that needs no extension has a width.
    cases a with
    | none => simp [conversionWidth, opWidth] at hwidth
    | some m =>
      refine ⟨m, rfl, ?_⟩
      rintro t rfl
      simp [conversionWidth, opWidth] at hwidth
  | widened _ hload hresult => exact ⟨isValue_of_move hload, isPlace_of_move hresult⟩

theorem isPlace_of_floatToFloat {code : List Inst} (h : floatToFloat d a = .ok code) :
    ∃ p, d = some p ∧ IsPlace p := by
  obtain ⟨result, hresult, -⟩ := floatToFloat_code h
  exact isPlace_of_move hresult

end Computations

end Backend.Selection
