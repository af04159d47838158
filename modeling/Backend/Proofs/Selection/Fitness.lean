-- Instructions whose operands are where values of their types live. Selection has code for such a
-- computation exactly if its operands are fit for it and it multiplies no bytes by memory.
import Backend.Proofs.Selection.Acceptance

namespace Backend.Selection

open Backend.Lowering
open Backend.Machine (Inst)

/-! ## Operands at home -/

/-- The operand is where values of its type live: floats in SSE registers and all else in general
purpose registers. A register is named at the width of its type. -/
structure AtHome (locs : Locations) (o : Operand) : Prop where
  cls : ∀ r, regOf? locs o = some r → (r.cls = .float ↔ o.ty.isFloat = true)
  width : ∀ r, o = .reg r → r.width = widthOf r.ty

instance (locs : Locations) (o : Operand) : Decidable (AtHome locs o) :=
  decidable_of_iff ((regOf? locs o).all (fun r => (r.cls == .float) == o.ty.isFloat) = true ∧
      (match o with
      | .reg r => r.width == widthOf r.ty
      | _ => true) = true) <| by
    have hcls : ∀ r : Reg, ((r.cls == .float) == o.ty.isFloat) = true ↔
        (r.cls = .float ↔ o.ty.isFloat = true) := by
      intro r
      rw [beq_iff_eq, Bool.eq_iff_iff, beq_iff_eq]
    rw [Option.all_eq_true]
    simp only [hcls]
    constructor
    · rintro ⟨hclass, hwidth⟩
      refine ⟨hclass, ?_⟩
      rintro r rfl
      exact beq_iff_eq.mp hwidth
    · rintro ⟨hclass, hwidth⟩
      refine ⟨hclass, ?_⟩
      split
      · exact beq_iff_eq.mpr (hwidth _ rfl)
      · rfl

theorem registerWidth_eq_one {t : Ty} : registerWidth t = 1 ↔ widthOf t = 1 := by
  cases t <;> decide

theorem not_widthOf_lt_of_isFloat {t : Ty} (h : t.isFloat = true) : ¬ widthOf t < 4 := by
  cases t <;> simp [Ty.isFloat] at h <;> decide

section Home

variable {c : Closure} {o : Operand} {m : Machine.Operand}

theorem isFloatKind_of_home (hh : AtHome c.locations o) (hl : ∀ l, o ≠ .label l)
    (hf : o.ty.isFloat = true) (h : operand c o = .ok m) : IsFloatKind m := by
  rcases kind_of_operand h with ⟨r, w, hr, rfl⟩ | ⟨a, rfl⟩ | ⟨l, value, rfl, hv, rfl⟩ | ⟨l, rfl⟩
  · simp [machineReg, (hh.cls r hr).mpr hf, IsFloatKind]
  · trivial
  · cases l with
    | float w x => cases hv
    | string bytes => cases hf
    | bool w => cases hf
    | int w x => cases w <;> cases hf
  · exact absurd rfl (hl l)

theorem isIntKind_of_home (hh : AtHome c.locations o) (hl : ∀ l, o ≠ .label l)
    (hf : o.ty.isFloat = false) (h : operand c o = .ok m) : IsIntKind m := by
  rcases kind_of_operand h with ⟨r, w, hr, rfl⟩ | ⟨a, rfl⟩ | ⟨l, value, rfl, hv, rfl⟩ | ⟨l, rfl⟩
  · have hcls : r.cls = .int := by
      cases hc : r.cls with
      | int => rfl
      | float =>
        have := (hh.cls r hr).mp hc
        rw [hf] at this
        cases this
    simp [machineReg, hcls, IsIntKind]
  · trivial
  · trivial
  · exact absurd rfl (hl l)

theorem isIntPlace_of_home (hh : AtHome c.locations o) (hp : IsPlace m) (hf : o.ty.isFloat = false)
    (h : operand c o = .ok m) : IsIntPlace m := by
  have hl : ∀ l, o ≠ .label l := by
    rintro l rfl
    cases h
    exact hp
  have hkind := isIntKind_of_home hh hl hf h
  cases m with
  | reg r | mem a => trivial
  | xmm x => exact hkind
  | imm v | target t => exact hp

theorem opWidth_machineReg (r : Reg) (w : UInt8) : opWidth (some (machineReg r w)) = w := by
  unfold machineReg
  split <;> rfl

theorem opWidth_frameSlot {offset : Int64} {w : UInt8} (h : frameSlot offset w = .ok m) :
    opWidth (some m) = w := by
  rw [mem_of_frameSlot h]
  rfl

/-- A place has the width of the type of its operand. -/
theorem opWidth_of_home (hh : AtHome c.locations o) (hp : IsPlace m) (h : operand c o = .ok m) :
    opWidth (some m) = widthOf o.ty := by
  cases o with
  | reg r =>
    cases h
    exact (opWidth_machineReg r _).trans (hh.width r rfl)
  | stack offset t => exact opWidth_frameSlot h
  | var v =>
    obtain ⟨l, -, h⟩ := bind_eq_ok.mp h
    split at h
    · cases h
      exact opWidth_machineReg _ _
    · exact opWidth_frameSlot h
  | imm l =>
    simp only [operand] at h
    split at h
    · cases h
      exact hp.elim
    · cases h
  | indirect base index scale disp t =>
    obtain ⟨a, ha, h⟩ := bind_eq_ok.mp h
    cases h
    obtain ⟨b, i, -, -, -, rfl⟩ := memory_eq ha
    rfl
  | symbol s =>
    cases h
    split <;> rfl
  | label l =>
    cases h
    exact hp.elim
  | list items => cases h

end Home

/-! ## Typed instructions -/

/-- The slots whose operands an operation combines into its result or compares. -/
def combined (op : Opcode) : List Slot :=
  if op == .neg || op == .not then [.first]
  else if op.isArithmetic || op.isCompare || op.isFused then [.first, .second]
  else []

/-- The operands are at home, variables are named at one type, and what is combined are values of
the class that the instruction computes in. -/
structure WellTyped (types : String → Ty) (locs : Locations) (i : Instr) : Prop where
  home : ∀ slot : Slot, ∀ o, slot.get i = some o → AtHome locs o
  oneType : ∀ slot : Slot, ∀ v, slot.get i = some (.var v) → v.ty = types v.ident
  sources : ∀ slot ∈ combined i.op, ∃ o, slot.get i = some o ∧ (∀ l, o ≠ .label l) ∧
    o.ty.isFloat = (opType i).isFloat

/-- A branch target. -/
def isLabel : Operand → Bool
  | .label _ => true
  | _ => false

theorem isLabel_eq_false {o : Operand} : isLabel o = false ↔ ∀ l, o ≠ .label l := by
  cases o <;> simp [isLabel]

instance (types : String → Ty) (locs : Locations) (i : Instr) :
    Decidable (WellTyped types locs i) :=
  decidable_of_iff (∀ slot ∈ [Slot.first, .second, .addend, .output],
      (∀ o ∈ (slot.get i).toList, AtHome locs o ∧ ∀ v ∈ o.var?.toList, v.ty = types v.ident) ∧
        (slot ∈ combined i.op → ∃ o ∈ (slot.get i).toList, isLabel o = false ∧
          o.ty.isFloat = (opType i).isFloat)) <| by
    have hslots : ∀ slot : Slot, slot ∈ [Slot.first, .second, .addend, .output] := by
      intro slot
      cases slot <;> decide
    simp only [Option.mem_toList, isLabel_eq_false]
    constructor
    · intro h
      refine ⟨fun slot o ho => ((h slot (hslots slot)).1 o ho).1, fun slot v hv => ?_,
        fun slot => (h slot (hslots slot)).2⟩
      exact ((h slot (hslots slot)).1 _ hv).2 v rfl
    · intro h slot _
      refine ⟨fun o ho => ⟨h.home slot o ho, fun v hv => h.oneType slot v ?_⟩, h.sources slot⟩
      cases o with
      | var w =>
        cases hv
        exact ho
      | _ => cases hv

/-- A division of integers. -/
def DividesInts (i : Instr) : Prop := isDivision i.op = true ∧ (opType i).isFloat = false

theorem not_dividesInts {i : Instr} (h : isDivision i.op = false) : ¬ DividesInts i := by
  rintro ⟨hdiv, -⟩
  rw [h] at hdiv
  cases hdiv

theorem isDivision_eq_false {i : Instr} (h : ¬ DividesInts i) (hint : (opType i).isFloat = false) :
    isDivision i.op = false := by
  cases hd : isDivision i.op with
  | false => rfl
  | true => exact absurd ⟨hd, hint⟩ h

/-- The count of a shift is a literal or in rcx. -/
def HasCount (o : Option Operand) : Prop :=
  (∃ l value, o = some (.imm l) ∧ l.int? = some value) ∨
    ∃ r : Reg, o = some (.reg r) ∧ r.cls = .int ∧ r.index = Machine.rcx

/-- What selection asks of a computation besides its types: its operands have machine forms, and
those with a part of their own are fit for it. -/
structure Fit (c : Closure) (i : Instr) : Prop where
  output : ∃ d, outputOperand c i.output = .ok d
  first : ∃ a, optional c i.first = .ok a
  second : ∃ b, optional c i.second = .ok b
  place : ¬ DividesInts i → ∃ o p, i.output = some o ∧ operand c o = .ok p ∧ IsPlace p
  address : i.op = .lea → HasAddress c i.first
  dividend : DividesInts i → ∃ r :
    Reg, i.first = some (.reg r) ∧ r.cls = .int ∧ r.index = Machine.rax
  count : isShift i.op = true → (opType i).isFloat = false → HasCount i.second
  converted : i.op = .itof → ∃ o m, i.first = some o ∧ operand c o = .ok m ∧ IsValue m
  float : i.op.isArithmetic = true → (opType i).isFloat = true → i.op = .neg ∨
    (floatOp? i.op).isSome = true
  fused : i.op.isFused = true → (opType i).isFloat = true ∧ Loads c i.addend

/-- Most operations ask nothing of a single operand. -/
theorem fit_of_unpinned {c : Closure} {i : Instr} (hpin : isPinned i.op = false)
    (hlea : i.op ≠ .lea) (hitof : i.op ≠ .itof) (houtput : ∃ d, outputOperand c i.output = .ok d)
    (hfirst : ∃ a, optional c i.first = .ok a) (hsecond : ∃ b, optional c i.second = .ok b)
    (hplace : ∃ o p, i.output = some o ∧ operand c o = .ok p ∧ IsPlace p)
    (hfloat : i.op.isArithmetic = true → (opType i).isFloat = true → i.op = .neg ∨
      (floatOp? i.op).isSome = true)
    (hfused : i.op.isFused = true → (opType i).isFloat = true ∧ Loads c i.addend) : Fit c i := by
  obtain ⟨hdiv, hshift⟩ := Bool.or_eq_false_iff.mp hpin
  constructor
  case output => exact houtput
  case first => exact hfirst
  case second => exact hsecond
  case place => exact fun _ => hplace
  case address => exact fun h => absurd h hlea
  case dividend => exact fun h => absurd h (not_dividesInts hdiv)
  case count =>
    intro h
    rw [hshift] at h
    cases h
  case converted => exact fun h => absurd h hitof
  case float => exact hfloat
  case fused => exact hfused

/-- A multiplication of bytes by memory, for which selection has no code. -/
def ByteProduct (c : Closure) (i : Instr) : Prop :=
  i.op = .mul ∧ (∃ o, i.output = some o ∧ registerWidth o.ty = 1) ∧
    ∃ b m, i.second = some b ∧ operand c b = .ok (.mem m)

section Accepted

variable {c : Closure} {i : Instr} {types : String → Ty}

theorem outputOperand_of_operand {o : Operand} {m : Machine.Operand} (h : operand c o = .ok m) :
    outputOperand c (some o) = .ok (some m) :=
  outputOperand_of_optional (optional_of_operand h)

theorem operand_of_outputOperand {o : Option Operand} {m : Machine.Operand}
    (h : outputOperand c o = .ok (some m)) : ∃ p, o = some p ∧ operand c p = .ok m := by
  unfold outputOperand at h
  split at h
  · cases h
  · exact exists_of_optional h

theorem selected_of_computes (h : i.op.computes = true) : isSelectedByOperands i.op = true := by
  cases hi : i.op <;> simp [hi, Opcode.computes, Opcode.isArithmetic, Opcode.isCompare,
    Opcode.isFused, Opcode.isConversion] at h <;> rfl

/-- What is combined has a machine form of the class that the instruction computes in. -/
theorem WellTyped.kind (ht : WellTyped types c.locations i) {slot : Slot}
    (hslot : slot ∈ combined i.op) {a : Option Machine.Operand}
    (ha : optional c (slot.get i) = .ok a) :
    ∃ m, a = some m ∧ IsValue m ∧ ((opType i).isFloat = true → IsFloatKind m) ∧
      ((opType i).isFloat = false → IsIntKind m) := by
  obtain ⟨o, ho, hl, hty⟩ := ht.sources slot hslot
  rw [ho] at ha
  obtain ⟨m, rfl, hm⟩ := eq_some_of_optional ha
  have hfloat : (opType i).isFloat = true → IsFloatKind m := fun hf =>
    isFloatKind_of_home (ht.home slot o ho) hl (hty.trans hf) hm
  have hint : (opType i).isFloat = false → IsIntKind m := fun hf =>
    isIntKind_of_home (ht.home slot o ho) hl (hty.trans hf) hm
  refine ⟨m, rfl, ?_, hfloat, hint⟩
  cases hf : (opType i).isFloat with
  | true => exact isValue_of_floatKind (hfloat hf)
  | false => exact isValue_of_intKind (hint hf)

theorem isValue_of_shiftCount {w : UInt8} {b : Option Machine.Operand} {n : Machine.Operand}
    (h : shiftCount w b = .ok n) : IsValue n := by
  cases shiftCount_form h with
  | literal | cl => exact fun t ht => by cases ht

theorem exists_shiftCount {o : Option Operand} {b : Option Machine.Operand} (h : HasCount o)
    (hb : optional c o = .ok b) (w : UInt8) : ∃ n, shiftCount w b = .ok n := by
  rcases h with ⟨l, value, rfl, hl⟩ | ⟨r, rfl, hcls, hindex⟩
  · simp only [optional, operand, hl] at hb
    cases hb
    exact ⟨_, rfl⟩
  · cases hb
    refine ⟨.reg ⟨Machine.rcx, 1⟩, ?_⟩
    simp [machineReg, hcls, shiftCount, hindex]

theorem exists_divide {o : Option Operand} {r : Reg} {a b : Option Machine.Operand} (op : Opcode)
    (ho : o = some (.reg r)) (hcls : r.cls = .int) (hindex : r.index = Machine.rax)
    (ha : optional c o = .ok a) : ∃ code, divide op a b = .ok code := by
  subst ho
  cases ha
  simp only [machineReg, hcls, divide, hindex, bne_self_eq_false, Bool.false_eq_true, if_false]
  split <;> exact ⟨_, rfl⟩

/-- Integer arithmetic besides divisions has code, but for products of bytes by memory. -/
theorem exists_intArithmetic {d a : Machine.Operand} {b : Option Machine.Operand} {signed : Bool}
    (harith : i.op.isArithmetic = true) (hdiv : isDivision i.op = false) (hd : IsIntPlace d)
    (ha : IsValue a)
    (hb : .second ∈ combined i.op → ∃ m, b = some m ∧ IsIntKind m)
    (hcount : isShift i.op = true → ∃ n, shiftCount (opWidth (some d)) b = .ok n)
    (hbyte : i.op = .mul → opWidth (some d) = 1 → ∀ m, b ≠ some (.mem m)) :
    ∃ code, intArithmetic i (some d) (some a) b signed = .ok code := by
  have hshift : ∀ op, isShift i.op = true → ∃ code, (do
      let count ← shiftCount (opWidth (some d)) b
      binary op (some d) (some a) (some count) false signed) = .ok code := by
    intro op hs
    obtain ⟨n, hn⟩ := hcount hs
    obtain ⟨code, hcode⟩ : ∃ code, binary op (some d) (some a) (some n) false signed = .ok code :=
      exists_binary hd ha (isValue_of_shiftCount hn)
    exact ⟨code, by rw [hn]; exact hcode⟩
  have htwo : ∀ op commutative, .second ∈ combined i.op → ∃ code, binary op (some d) (some a)
      (b.map fun o => resize o (opWidth (some d))) commutative signed = .ok code := by
    intro op commutative hs
    obtain ⟨m, rfl, hm⟩ := hb hs
    exact exists_binary hd ha (isValue_resize (isValue_of_intKind hm) _)
  unfold intArithmetic
  cases hi : i.op <;> simp only [hi, Opcode.isArithmetic, isDivision, Bool.false_eq_true,
    reduceCtorEq] at harith hdiv
  case mul =>
    obtain ⟨m, rfl, hm⟩ := hb (by rw [hi]; decide)
    exact exists_mul hd ha hm fun hw n hn => hbyte hi hw n (congrArg some hn)
  case neg => exact exists_unary hd ha
  case not => exact exists_unary hd ha
  case shl => exact hshift _ (by rw [hi]; rfl)
  case shr => exact hshift _ (by rw [hi]; rfl)
  case sar => exact hshift _ (by rw [hi]; rfl)
  all_goals exact htwo _ _ (by rw [hi]; decide)

theorem combined_first (h : i.op.isArithmetic = true ∨ i.op.isCompare = true ∨
    i.op.isFused = true) :
    Slot.first ∈ combined i.op := by
  unfold combined
  split
  · exact List.mem_singleton_self _
  · rw [if_pos (by simpa [or_assoc] using h)]
    exact List.mem_cons_self

theorem combined_second (h : i.op.isCompare = true ∨ i.op.isFused = true) :
    Slot.second ∈ combined i.op := by
  have hop : (i.op == .neg || i.op == .not) = false := by
    cases hi : i.op <;> simp [hi, Opcode.isCompare, Opcode.isFused] at h <;> rfl
  unfold combined
  rw [hop, if_neg (by decide), if_pos (by simp [or_assoc, h])]
  exact List.mem_cons_of_mem _ (List.mem_singleton_self _)

theorem combined_second_of_floatOp {op : Machine.Op} (h : floatOp? i.op = some op) :
    Slot.second ∈ combined i.op := by
  cases hi : i.op <;> simp [hi, floatOp?] at h <;> decide

/-- Where the output of a computation on integers is: not in an SSE register. -/
theorem WellTyped.isIntPlace (ht : WellTyped types c.locations i)
    (harith : i.op.isArithmetic = true) (hint : (opType i).isFloat = false) {o : Operand}
    {p : Machine.Operand} (ho : i.output = some o)
    (hp : operand c o = .ok p) (hplace : IsPlace p) : IsIntPlace p := by
  refine isIntPlace_of_home (ht.home .output o ho) hplace ?_ hp
  have hop : (!i.op.isCompare && !i.op.isBranch) = true := by
    cases hi : i.op <;> simp [hi, Opcode.isArithmetic] at harith <;> rfl
  unfold opType at hint
  simp only [hop, Bool.true_and, ho, Option.map_some, Option.getD_some] at hint
  split at hint
  · exact hint
  · rename_i hvoid
    have : o.ty = .void := by simpa using hvoid
    rw [this]
    rfl

section Compute

variable {d a b : Option Machine.Operand}

theorem isArithmetic_of_isDivision {op : Opcode} (h : isDivision op = true) :
    op.isArithmetic = true := by
  cases op <;> first | rfl | cases h

theorem compute_division (h : DividesInts i) : compute c i d a b = divide i.op a b := by
  have hdiv := h.1
  rw [compute_int (isArithmetic_of_isDivision hdiv) h.2]
  unfold intArithmetic
  cases hi : i.op <;> simp [hi, isDivision] at hdiv <;> rfl

theorem compute_lea (h : i.op = .lea) : compute c i d a b = lea c i d := by
  unfold compute
  rw [h]

/-- Arithmetic that is fit for selection has code, but for divisions of integers and products of
bytes by memory. -/
theorem exists_arithmetic (ht : WellTyped types c.locations i) (hf : Fit c i)
    (h : i.op.isArithmetic = true) (hdiv : ¬ DividesInts i) (hbyte : ¬ ByteProduct c i)
    {o : Operand} {p : Machine.Operand}
    (ho : i.output = some o) (hp : operand c o = .ok p) (hplace : IsPlace p)
    (ha : optional c i.first = .ok a) (hb : optional c i.second = .ok b) :
    ∃ code, compute c i (some p) a b = .ok code := by
  have hhome := ht.home .output o ho
  obtain ⟨x, rfl, hx, hxfloat, hxint⟩ := ht.kind (combined_first (.inl h)) ha
  cases hfloat : (opType i).isFloat with
  | true =>
    rw [compute_float h hfloat]
    split
    · refine exists_floatNeg hplace (fun hxmm => ?_) hx
      rw [opWidth_of_home hhome hplace hp]
      refine not_widthOf_lt_of_isFloat ?_
      obtain ⟨y, hy⟩ := exists_xmm_of_isXmm hxmm
      cases hy
      cases hty : o.ty.isFloat with
      | true => rfl
      | false => exact (isIntPlace_of_home hhome hplace hty hp).elim
    · rename_i hneg
      rcases hf.float h hfloat with hop | hop
      · exact absurd (beq_iff_eq.mpr hop) hneg
      · obtain ⟨op, hop⟩ := Option.isSome_iff_exists.mp hop
        obtain ⟨y, rfl, -, hyfloat, -⟩ := ht.kind (combined_second_of_floatOp hop) hb
        rw [hop]
        exact exists_floatBinary hplace (hxfloat hfloat) (hyfloat hfloat)
  | false =>
    rw [compute_int h hfloat]
    refine exists_intArithmetic h (isDivision_eq_false hdiv hfloat)
      (ht.isIntPlace h hfloat ho hp hplace) hx (fun hs => ?_)
      (fun hs => exists_shiftCount (hf.count hs hfloat) hb _) fun hmul hw m hm => hbyte ?_
    · obtain ⟨y, rfl, -, -, hyint⟩ := ht.kind hs hb
      exact ⟨y, rfl, hyint hfloat⟩
    · subst hm
      obtain ⟨q, hq, hqm⟩ := exists_of_optional hb
      rw [opWidth_of_home hhome hplace hp] at hw
      exact ⟨hmul, ⟨o, ho, registerWidth_eq_one.mpr hw⟩, q, m, hq, hqm⟩

/-- A conversion that is fit for selection has code. -/
theorem exists_conversion (hf : Fit c i) (h : i.op.isConversion = true) {p : Machine.Operand}
    (hplace : IsPlace p) (ha : optional c i.first = .ok a) :
    ∃ code, compute c i (some p) a b = .ok code := by
  unfold compute
  cases hi : i.op <;> simp only [hi, Opcode.isConversion, Bool.false_eq_true] at h
  case itof =>
    obtain ⟨q, m, hq, hm, hvalue⟩ := hf.converted hi
    obtain rfl : a = some m := by
      rw [hq, optional_of_operand hm] at ha
      exact (Except.ok.inj ha).symm
    exact exists_intToFloat hplace hvalue _
  case ftoi => exact exists_floatToInt hplace a _
  case fext => exact exists_floatToFloat hplace a
  case ftrunc => exact exists_floatToFloat hplace a

end Compute

/-- A computation that is fit for selection has code, but for products of bytes by memory. -/
theorem exists_code (ht : WellTyped types c.locations i) (hf : Fit c i) (hc : i.op.computes = true)
    (hbyte : ¬ ByteProduct c i) : ∃ code, instr c i = .ok code := by
  obtain ⟨d, hd⟩ := hf.output
  obtain ⟨a, ha⟩ := hf.first
  obtain ⟨b, hb⟩ := hf.second
  rw [instr_eq (selected_of_computes hc), hd, ha, hb]
  change ∃ code, compute c i d a b = .ok code
  by_cases hdiv : DividesInts i
  · obtain ⟨r, hfirst, hcls, hindex⟩ := hf.dividend hdiv
    rw [compute_division hdiv]
    exact exists_divide i.op hfirst hcls hindex ha
  obtain ⟨o, p, ho, hp, hplace⟩ := hf.place hdiv
  obtain rfl : d = some p := by
    rw [ho, outputOperand_of_operand hp] at hd
    exact (Except.ok.inj hd).symm
  simp only [Opcode.computes, Bool.or_eq_true, beq_iff_eq] at hc
  rcases hc with (((harith | hcompare) | hfused) | hlea) | hconversion
  · exact exists_arithmetic ht hf harith hdiv hbyte ho hp hplace ha hb
  · obtain ⟨x, rfl, hx, hxfloat, -⟩ := ht.kind (combined_first (.inr (.inl hcompare))) ha
    obtain ⟨y, rfl, -, hyfloat, -⟩ := ht.kind (combined_second (.inl hcompare)) hb
    obtain ⟨flags, hflags⟩ := exists_compare hx fun hfloat => ⟨hxfloat hfloat, hyfloat hfloat⟩
    obtain ⟨result, hresult⟩ := exists_setCond hplace (condOf i.op (opType i).isFloat)
    rw [compute_compare hcompare, hflags, hresult]
    exact ⟨_, rfl⟩
  · obtain ⟨hfloat, hloads⟩ := hf.fused hfused
    obtain ⟨x, rfl, -, hxfloat, -⟩ := ht.kind (combined_first (.inr (.inr hfused))) ha
    rw [compute_fused hfused]
    exact exists_fused hfused hfloat hplace (hxfloat hfloat) b hloads
  · rw [compute_lea hlea]
    exact lea_eq_ok.mpr ⟨hf.address hlea, p, rfl, hplace⟩
  · exact exists_conversion hf hconversion hplace ha

/-! ## What was selected is fit -/

theorem isPlace_of_intArithmetic {d a b : Option Machine.Operand} {signed : Bool} {code : List Inst}
    (hdiv : isDivision i.op = false) (h : intArithmetic i d a b signed = .ok code) :
    ∃ p, d = some p ∧ IsPlace p := by
  cases intArithmetic_code h with
  | product _ made => exact isPlace_of_mul made
  | unary _ made => exact isPlace_of_unary made
  | shift _ _ _ made => exact isPlace_of_binary made
  | twoAddress _ _ made => exact isPlace_of_binary made
  | division op => rcases op with op | op | op | op <;> rw [op] at hdiv <;> cases hdiv

/-- The output of a computation with code is a place, but for a division of integers. -/
theorem isPlace_of_compute {d a b : Option Machine.Operand} {code : List Inst}
    (hc : i.op.computes = true) (hdiv : ¬ DividesInts i) (h : compute c i d a b = .ok code) :
    ∃ p, d = some p ∧ IsPlace p := by
  cases compute_code h with
  | lea _ made => exact (lea_eq_ok.mp ⟨code, made⟩).2
  | intToFloat _ made => exact (isPlace_of_intToFloat made).2
  | floatToInt _ made => exact isPlace_of_floatToInt made
  | floatToFloat _ made => exact isPlace_of_floatToFloat made
  | compare _ _ hresult => exact isPlace_of_setCond hresult
  | fused _ made => exact (loads_of_fused made).2.2
  | floatNeg _ _ made => exact isPlace_of_floatNeg made
  | float _ _ made => exact isPlace_of_floatBinary made
  | int _ hint made => exact isPlace_of_intArithmetic (isDivision_eq_false hdiv hint) made
  | move op | clear op | push op | pop op =>
    rw [op] at hc
    cases hc
  | branch op =>
    have hno : i.op.computes = false := by
      cases hi : i.op <;> rw [hi] at op <;> first | rfl | cases op
    cases hc.symm.trans hno

theorem isValue_of_itof {d a b : Option Machine.Operand} {code : List Inst} (hop : i.op = .itof)
    (h : compute c i d a b = .ok code) : ∃ m, a = some m ∧ IsValue m := by
  simp only [compute, hop] at h
  exact (isPlace_of_intToFloat h).1

theorem floatOp_of_compute {d a b : Option Machine.Operand} {code : List Inst}
    (harith : i.op.isArithmetic = true) (hfloat : (opType i).isFloat = true)
    (h : compute c i d a b = .ok code) : i.op = .neg ∨ (floatOp? i.op).isSome = true := by
  rw [compute_float harith hfloat] at h
  split at h
  · rename_i hop
    exact .inl (beq_iff_eq.mp hop)
  · split at h
    · rename_i op hop
      exact .inr (by rw [hop]; rfl)
    · cases h

theorem shiftCount_of_compute {d a b : Option Machine.Operand} {code : List Inst}
    (hshift : isShift i.op = true) (hint : (opType i).isFloat = false)
    (h : compute c i d a b = .ok code) : ∃ n, shiftCount (opWidth d) b = .ok n := by
  have harith : i.op.isArithmetic = true := by
    cases hi : i.op <;> simp [hi, isShift] at hshift <;> rfl
  rw [compute_int harith hint] at h
  cases intArithmetic_code h with
  | shift _ _ hcount => exact ⟨_, hcount⟩
  | product op =>
    rw [op] at hshift
    cases hshift
  | division op => rcases op with op | op | op | op <;> rw [op] at hshift <;> cases hshift
  | unary op => rcases op with ⟨op, -⟩ | ⟨op, -⟩ <;> rw [op] at hshift <;> cases hshift
  | twoAddress op => rcases op with op | op | op | op | op <;> rw [op] at hshift <;> cases hshift

/-- An operand in a general purpose register is that register, if it is no variable. -/
theorem reg_of_optional {o : Option Operand} {r : Machine.Reg} (hvar : ∀ v, o ≠ some (.var v))
    (h : optional c o = .ok (some (.reg r))) : ∃ s :
    Reg, o = some (.reg s) ∧ s.cls = .int ∧ s.index = r.id := by
  obtain ⟨q, rfl, hq⟩ := exists_of_optional h
  obtain ⟨t, ht, hcls, hid⟩ := reg_of_operand hq
  cases q with
  | reg s =>
    obtain rfl := Option.some.inj ht
    exact ⟨s, rfl, hcls, hid.symm⟩
  | var v => exact absurd rfl (hvar v)
  | _ => cases ht

/-- A count that selection takes is a literal or in rcx, if it is no variable. -/
theorem hasCount_of_shiftCount {o : Option Operand} {w : UInt8} {b : Option Machine.Operand}
    {n : Machine.Operand} (hvar : ∀ v, o ≠ some (.var v)) (hb : optional c o = .ok b)
    (h : shiftCount w b = .ok n) : HasCount o := by
  cases shiftCount_form h with
  | literal value =>
    obtain ⟨q, rfl, hq⟩ := exists_of_optional hb
    obtain ⟨l, rfl, hl⟩ := literal_of_operand hq
    exact .inl ⟨l, value, rfl, hl⟩
  | cl rcx =>
    obtain ⟨s, hs, hcls, hindex⟩ := reg_of_optional hvar hb
    exact .inr ⟨s, hs, hcls, hindex.trans rcx⟩

/-- A dividend that selection takes is rax, if it is no variable. -/
theorem rax_of_divide {o : Option Operand} {op : Opcode} {a b : Option Machine.Operand}
    {code : List Inst} (hvar : ∀ v, o ≠ some (.var v)) (ha : optional c o = .ok a)
    (h : divide op a b = .ok code) :
    ∃ r : Reg, o = some (.reg r) ∧ r.cls = .int ∧ r.index = Machine.rax := by
  cases divide_code h with
  | signed dividend rax | unsigned dividend rax =>
    rw [dividend] at ha
    obtain ⟨s, hs, hcls, hindex⟩ := reg_of_optional hvar ha
    exact ⟨s, hs, hcls, hindex.trans rax⟩

/-- A computation in the form that lowering gives it is fit for selection if it has code. -/
theorem fit_of_ok (hs : Settled i) (hc : i.op.computes = true) {code : List Inst}
    (h : instr c i = .ok code) :
    Fit c i := by
  obtain ⟨d, a, b, hd, ha, hb, h⟩ := instr_eq_compute (selected_of_computes hc) h
  constructor
  case output => exact ⟨d, hd⟩
  case first => exact ⟨a, ha⟩
  case second => exact ⟨b, hb⟩
  case place =>
    intro hdiv
    obtain ⟨p, rfl, hp⟩ := isPlace_of_compute hc hdiv h
    obtain ⟨o, ho, hop⟩ := operand_of_outputOperand hd
    exact ⟨o, p, ho, hop, hp⟩
  case address =>
    intro hlea
    rw [compute_lea hlea] at h
    exact (lea_eq_ok.mp ⟨code, h⟩).1
  case dividend =>
    intro hdiv
    rw [compute_division hdiv] at h
    exact rax_of_divide (hs.dividend hdiv.1 hdiv.2) ha h
  case count =>
    intro hshift hint
    obtain ⟨n, hn⟩ := shiftCount_of_compute hshift hint h
    exact hasCount_of_shiftCount (hs.count hshift) hb hn
  case converted =>
    intro hop
    obtain ⟨m, rfl, hm⟩ := isValue_of_itof hop h
    obtain ⟨q, hq, hqm⟩ := exists_of_optional ha
    exact ⟨q, m, hq, hqm, hm⟩
  case float => exact fun harith hfloat => floatOp_of_compute harith hfloat h
  case fused =>
    intro hfused
    rw [compute_fused hfused] at h
    obtain ⟨hfloat, hloads, -⟩ := loads_of_fused h
    exact ⟨hfloat, hloads⟩

theorem isInt_of_registerWidth {t : Ty} (h : registerWidth t = 1) :
    t ≠ .void ∧ t.isFloat = false := by
  cases t <;> simp [registerWidth, Ty.size] at h <;> decide

/-- A multiplication of bytes by memory has no code. -/
theorem ByteProduct.refused (h : ByteProduct c i) (ht : WellTyped types c.locations i)
    {code : List Inst} :
    instr c i ≠ .ok code := by
  obtain ⟨hop, ⟨o, ho, hwidth⟩, q, m, hq, hm⟩ := h
  intro hcode
  have harith : i.op.isArithmetic = true := by
    rw [hop]
    rfl
  have hint : (opType i).isFloat = false := by
    obtain ⟨hvoid, hint⟩ := isInt_of_registerWidth hwidth
    have hty : opType i = o.ty := by
      simp [opType, hop, ho, hvoid, Opcode.isCompare, Opcode.isBranch, Opcode.isCondBranch]
    rw [hty]
    exact hint
  obtain ⟨d, a, b, hd, ha, hb, hcode⟩ := instr_eq_compute (by rw [hop]; rfl) hcode
  obtain rfl : b = some (.mem m) := by
    rw [hq, optional_of_operand hm] at hb
    exact (Except.ok.inj hb).symm
  obtain ⟨p, rfl, hp⟩ := isPlace_of_compute (by rw [hop]; rfl)
    (by simp [DividesInts, hop, isDivision]) hcode
  have hbyte : opWidth (some p) = 1 := by
    obtain ⟨o', ho', hop'⟩ := operand_of_outputOperand hd
    obtain rfl : o = o' := Option.some.inj (ho.symm.trans ho')
    rw [opWidth_of_home (ht.home .output o ho) hp hop']
    exact registerWidth_eq_one.mp hwidth
  have hmul : mul (some p) a (some (.mem m)) (isSigned i.first) = .ok code := by
    rw [← hcode]
    rw [compute_int harith hint]
    unfold intArithmetic
    rw [hop]
  rcases mul_cases hmul with ⟨-, _, _, _, -, ⟨k, hk, -⟩ | ⟨r, hr, -⟩, -⟩ | ⟨hw, -⟩ | ⟨hw, -⟩
  · cases hk
  · cases hr
  · exact hw hbyte
  · exact hw hbyte

end Accepted

end Backend.Selection
