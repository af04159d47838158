-- Integer division computes what its operation says: the code that lowering and selection give a
-- division leaves the quotient or the remainder in the output and every other variable as it was,
-- wherever the operands are.
import Backend.Proofs.Lowering.Division
import Backend.Proofs.Lowering.Emitted
import Backend.Proofs.Machine.Stack
import Backend.Proofs.Operand.Readable
import Backend.Proofs.Selection.Integer

namespace Backend.Selection

open Backend.Lowering (InPlace Writable isDivision opType divisionLines divisionLoads divisionCore
  divisionSaves divisionSource divisionResult divisionWidth lineAt)
open Backend.Machine (Inst Linkage State Place Assigns convert run steps number
  Representable Divided ChangesOnly Pushed Restored steps_of_run steps_append_of_some
  pushReg popReg)

/-! ## Operations -/

/-- The division takes its operands as signed. -/
def isSignedDivision (op : Opcode) : Bool := op == .sdiv || op == .srem

/-- The operation gives the remainder. -/
def isRemainder (op : Opcode) : Bool := op == .srem || op == .urem

/-- The result of a division of numbers. -/
def divided (op : Opcode) (x y : Int) : Int := if isRemainder op then x.tmod y else x.tdiv y

theorem isDivision_iff {op : Opcode} :
    isDivision op = true ↔ op = .sdiv ∨ op = .udiv ∨ op = .srem ∨ op = .urem := by
  cases op <;> simp [isDivision]

/-! ## Operands -/

/-- The registers that hold no operand: those of the frame and of lowering and selection. -/
def reserved : List Machine.RegId := [Machine.rsp, Machine.rbp, Machine.r10, Machine.r11]

/-- The operand is not in a reserved register. A slot of the frame is addressed by one. -/
def Free : Machine.Operand → Prop
  | .reg r => r.id ∉ reserved
  | .mem m => ∃ disp, m.addr = .regs (some ⟨Machine.rbp, 8⟩) none disp
  | _ => True

/-- A slot lies outside the two words below the stack pointer. -/
def ClearOfStack (l : Linkage) (s : State) (n : Nat) : Machine.Operand → Prop
  | .mem m => ∀ x, (Place.mem (m.addr.eval l s)).covers n x →
      ¬ (Place.mem (s.below 2)).covers (8 * 2) x
  | _ => True

/-- The operand has a machine form, outside the reserved registers and what will be pushed. -/
structure Homed (c : Closure) (l : Linkage) (s : State) (n : Nat) (o : Operand)
    (a : Machine.Operand) : Prop where
  form : operand c o = .ok a
  free : ∀ r, a = .reg r → r.id ∉ reserved
  clear : ClearOfStack l s n a

/-- An operand of the width in a register, a slot of the frame or an immediate. -/
structure DivisionOperand (c : Closure) (l : Linkage) (s : State) (w : UInt8) (o : Operand)
    (a : Machine.Operand) : Prop extends Homed c l s w.toNat o a where
  inPlace : InPlace c o
  size : o.ty.size = w.toNat
  int : IntOperand w a

/-- A narrow operand is brought to the width of the division by the sign of its type, which has to
be that of the operation; an integer has to be one of its width. -/
def Widens (signed : Bool) (w : UInt8) (o : Operand) : Prop :=
  4 ≤ w ∨ match o with
    | .imm l => ∀ v, l.int? = some v → Representable signed (8 * w.toNat) v.toInt
    | o => o.ty.isSigned = signed

theorem frameSlot_free {offset : Int64} {width : UInt8} {a : Machine.Operand}
    (h : frameSlot offset width = .ok a) : Free a := by
  unfold frameSlot at h
  split at h
  · cases h
    exact ⟨_, rfl⟩
  · cases h

/-- A variable is in its register, or else in its slot of the frame. -/
theorem operand_var {c : Closure} {v : Var} {a : Machine.Operand} (h : operand c (.var v) = .ok a) :
    ∃ loc, c.locate? v = some loc ∧
      ((∃ r, loc.reg = some r ∧ a = machineReg r (widthOf v.ty)) ∨
        frameSlot (loc.stack.getD 0) (widthOf v.ty) = .ok a) := by
  rw [operand] at h
  obtain ⟨loc, hloc, h⟩ := bind_eq_ok.mp h
  unfold locate at hloc
  split at hloc
  · cases hloc
    refine ⟨loc, ‹_›, ?_⟩
    split at h
    · exact .inl ⟨_, ‹_›, (Except.ok.inj h).symm⟩
    · exact .inr h
  · cases hloc

theorem free_machineReg {r : Reg} {w : UInt8}
    (hfree : ∀ r', machineReg r w = .reg r' → r'.id ∉ reserved) : Free (machineReg r w) := by
  obtain ⟨index, width, cls, name⟩ := r
  cases cls with
  | int => exact hfree _ rfl
  | float => trivial

theorem free_of_var {c : Closure} {v : Var} {a : Machine.Operand} (h : operand c (.var v) = .ok a)
    (hfree : ∀ r, a = .reg r → r.id ∉ reserved) : Free a := by
  obtain ⟨loc, -, ⟨r, -, rfl⟩ | hslot⟩ := operand_var h
  · exact free_machineReg hfree
  · exact frameSlot_free hslot

/-- An operand in place is in a register or in the frame. -/
theorem free_of_inPlace {c : Closure} {o : Operand} {a : Machine.Operand} (h : InPlace c o)
    (hform : operand c o = .ok a) (hfree : ∀ r, a = .reg r → r.id ∉ reserved) : Free a := by
  cases h with
  | reg r =>
    cases hform
    exact free_machineReg hfree
  | stack offset t => exact frameSlot_free hform
  | var => exact free_of_var hform hfree
  | int =>
    cases hform
    trivial
  | bool =>
    cases hform
    trivial

theorem not_usesReg_of_free {a : Machine.Operand} {id : Machine.RegId} (h : Free a)
    (hid : id ∈ reserved) (hrbp : id ≠ Machine.rbp) : usesReg id a = false := by
  cases a with
  | reg r =>
    have hne : r.id ≠ id := fun e => h (e ▸ hid)
    simpa [usesReg, clobbers] using hne
  | mem m =>
    obtain ⟨disp, hm⟩ := h
    simpa [usesReg, clobbers, hm, addressUses] using Ne.symm hrbp
  | _ => rfl

/-- The address of a slot depends on nothing but rbp. -/
theorem eval_of_free {l : Linkage} {s t : State} {m : Machine.Memory} (h : Free (.mem m))
    (hrbp : t.regs Machine.rbp = s.regs Machine.rbp) : m.addr.eval l t = m.addr.eval l s := by
  obtain ⟨disp, hm⟩ := h
  simp [hm, Machine.Address.eval, hrbp]

/-- Pushed words leave the operand as it was. -/
theorem value_of_pushed {l : Linkage} {s t : State} {k n : Nat} (h : Pushed k s t) (hk : k ≤ 2)
    {a : Machine.Operand} (hfree : Free a) (hclear : ClearOfStack l s n a) (hn : n ≤ 8) :
    a.value l t n = a.value l s n := by
  cases a with
  | reg r =>
    have hne : r.id ≠ Machine.rsp := fun e => hfree (e ▸ List.mem_cons_self)
    simp only [Machine.Operand.value, State.get, h.regs r.id hne]
  | xmm x => simp only [Machine.Operand.value, State.get, h.xmms]
  | mem m =>
    have haddr := eval_of_free (l := l) hfree (h.regs Machine.rbp (by decide))
    simp only [Machine.Operand.value, State.get, haddr]
    refine Machine.readBytes_congr _ _ _ n (by omega) fun x hx => h.mem x fun hlow => ?_
    exact hclear x hx (Machine.covers_below_mono hk (by decide) hlow)
  | _ => rfl

/-- An integer that is one of the width is the number of its low bytes at any larger width. -/
theorem number_imm {signed : Bool} {v : Int64} {n : Nat} (h : Representable signed n v.toInt)
    (hn : n ≤ 64) : number signed (v.toBitVec.setWidth n) = v.toInt := by
  have hv : v.toBitVec = BitVec.ofInt 64 v.toInt := BitVec.ofInt_toInt.symm
  rw [hv, Machine.setWidth_ofInt _ hn]
  exact h

theorem frameSlot_ne_imm {offset : Int64} {width : UInt8} {a : Machine.Operand}
    (h : frameSlot offset width = .ok a) (v : Int64) : a ≠ .imm v := by
  unfold frameSlot at h
  split at h
  · cases h
    simp
  · cases h

theorem machineReg_ne_imm (r : Reg) (w : UInt8) (v : Int64) : machineReg r w ≠ .imm v := by
  unfold machineReg
  split <;> simp

/-- Only an integer is an immediate. -/
theorem imm_of_inPlace {c : Closure} {o : Operand} {v : Int64} (h : InPlace c o)
    (hform : operand c o = .ok (.imm v)) : ∃ l, o = .imm l ∧ l.int? = some v := by
  cases h with
  | reg r => exact absurd (Except.ok.inj hform) (machineReg_ne_imm r _ v)
  | stack offset t => exact absurd rfl (frameSlot_ne_imm hform v)
  | var =>
    obtain ⟨loc, -, ⟨r, -, hr⟩ | hslot⟩ := operand_var hform
    · exact absurd hr.symm (machineReg_ne_imm r _ v)
    · exact absurd rfl (frameSlot_ne_imm hslot v)
  | int width value =>
    cases hform
    exact ⟨_, rfl, rfl⟩
  | bool word =>
    cases hform
    exact ⟨_, rfl, rfl⟩

/-- An operand that is not an immediate has a type of the sign of the division. -/
theorem signed_of_widens {c : Closure} {signed : Bool} {w : UInt8} {o : Operand}
    {a : Machine.Operand} (h : InPlace c o) (hform : operand c o = .ok a)
    (hw : ¬ 4 ≤ w) (hwiden : Widens signed w o) (himm : ∀ v, a ≠ .imm v) :
    o.ty.isSigned = signed := by
  have hsame := hwiden.resolve_left hw
  cases h with
  | int width value => exact absurd (Except.ok.inj hform).symm (himm value)
  | bool word => exact absurd (Except.ok.inj hform).symm (himm word)
  | _ => exact hsame

/-- The number that the division works with is that of the operand. -/
theorem number_widened {l : Linkage} {s : State} {signed : Bool} {w wide : UInt8} {o : Operand}
    {c : Closure} {a : Machine.Operand} (hw : IsWidth w) (hwide : wide.toNat = max w.toNat 4)
    (hinPlace : InPlace c o) (hform : operand c o = .ok a) (hint : IntOperand w a)
    (hwiden : Widens signed w o) :
    number signed (convert o.ty.isSigned wide.toNat (a.value l s (sourceWidth a))) =
      number signed (a.value l s w.toNat) := by
  have h8 := hw.le_eight
  by_cases hlarge : 4 ≤ w
  · have hle : 4 ≤ w.toNat := by simpa [UInt8.le_iff_toNat_le] using hlarge
    have heq : wide.toNat = w.toNat := by omega
    rw [heq, convert_value l s _ hw hint]
  · have hle : w.toNat ≤ wide.toNat := by omega
    cases a with
    | imm v =>
      obtain ⟨lit, rfl, hv⟩ := imm_of_inPlace hinPlace hform
      have hrange := hwiden.resolve_left hlarge v hv
      have hnarrow : ¬ 4 ≤ w.toNat := by simpa [UInt8.le_iff_toNat_le] using hlarge
      have hcut : convert (Operand.imm lit).ty.isSigned wide.toNat
          ((Machine.Operand.imm v).value l s 8) = v.toBitVec.setWidth (8 * wide.toNat) := by
        rw [convert_of_le _ _ (by omega)]
        exact BitVec.setWidth_setWidth_of_le _ (by omega)
      simp only [sourceWidth, hcut]
      exact (number_imm (hrange.mono (by omega)) (by omega)).trans
        (number_imm hrange (by omega)).symm
    | reg r =>
      obtain rfl : r.width = w := hint
      rw [signed_of_widens hinPlace hform hlarge hwiden (by simp)]
      exact Machine.number_convert _ hle
    | mem m =>
      obtain rfl : m.width = w := hint
      rw [signed_of_widens hinPlace hform hlarge hwiden (by simp)]
      exact Machine.number_convert _ hle
    | xmm x => exact absurd hint (by simp [IntOperand])
    | target t => exact absurd hint (by simp [IntOperand])

/-! ## Selected lines -/

theorem exists_move_reg {d : Machine.Reg} {w : UInt8} {src : Machine.Operand} (signed : Bool)
    (h : IntOperand w src) : ∃ code, move (some (.reg d)) (some src) signed = .ok code := by
  unfold move
  split
  · exact ⟨_, rfl⟩
  · cases src with
    | xmm x => exact absurd h (by simp [IntOperand])
    | target t => exact absurd h (by simp [IntOperand])
    | _ => exact ⟨_, rfl⟩

theorem exists_move_mem {d : Machine.Memory} {w : UInt8} {src : Machine.Operand} (signed : Bool)
    (h : IntOperand w src) : ∃ code, move (some (.mem d)) (some src) signed = .ok code := by
  unfold move
  split
  · exact ⟨_, rfl⟩
  · cases src with
    | xmm x => exact absurd h (by simp [IntOperand])
    | target t => exact absurd h (by simp [IntOperand])
    | _ => exact ⟨_, rfl⟩

section Lines

variable {c : Closure} {i : Instr}

theorem instr_move {o o' : Operand} {a d : Machine.Operand} (ho : operand c o = .ok a)
    (ho' : operand c o' = .ok d) : instr c (lineAt i .move (some o) none (some o')) =
      move (some d) (some a) o.ty.isSigned := by
  have hd : outputOperand c (some o') = .ok (some d) :=
    outputOperand_of_optional (by rw [optional, ho']; rfl)
  have ha : optional c (some o) = .ok (some a) := by
    rw [optional, ho]
    rfl
  have hinstr : instr c (lineAt i .move (some o) none (some o')) = (do
      let d ← outputOperand c (some o')
      let a ← optional c (some o)
      let b ← optional c none
      compute c (lineAt i .move (some o) none (some o')) d a b) := rfl
  rw [hinstr, hd, ha]
  rfl

theorem instr_division (hop : isDivision i.op = true) {n : Nat} :
    instr c (lineAt i i.op (some (.reg (gpr Machine.rax n))) (some (.reg (gpr Machine.r10 n)))
      (some (.list [.reg (gpr Machine.rax n), .reg (gpr Machine.rdx n)]))) =
      divide i.op (some (.reg ⟨Machine.rax, UInt8.ofNat n⟩))
        (some (.reg ⟨Machine.r10, UInt8.ofNat n⟩)) := by
  have hty : ∀ id, (Operand.reg (gpr id n)).ty.isFloat = false :=
    fun id => Reg.isFloat_ty (gpr id n)
  unfold lineAt
  generalize i.op = op at hop
  let line : Instr := ⟨op, some (.reg (gpr Machine.rax n)), some (.reg (gpr Machine.r10 n)), none,
    some (.list [.reg (gpr Machine.rax n), .reg (gpr Machine.rdx n)]), i.pos⟩
  have hint : (opType line).isFloat = false := by
    simp only [opType, line, Option.map_some, Option.getD_some]
    split_ifs
    · rfl
    · exact hty _
    · exact hty _
  have hinstr : instr c line = compute c line none (some (.reg ⟨Machine.rax, UInt8.ofNat n⟩))
      (some (.reg ⟨Machine.r10, UInt8.ofNat n⟩)) := by
    rcases isDivision_iff.mp hop with rfl | rfl | rfl | rfl <;> rfl
  rw [hinstr]
  rcases isDivision_iff.mp hop with rfl | rfl | rfl | rfl <;>
    simp [compute, hint, line, intArithmetic, Opcode.isCondBranch, Opcode.isCompare, Opcode.isFused]

theorem instrs_singleton {line : Instr} {code : List Inst} (h : instr c line = .ok code) :
    instrs c [line] = .ok code :=
  instrs_cons_eq_ok.mpr ⟨code, [], h, rfl, (List.append_nil code).symm⟩

theorem instrs_append {xs ys : List Instr} {code more : List Inst} (h : instrs c xs = .ok code)
    (hmore : instrs c ys = .ok more) : instrs c (xs ++ ys) = .ok (code ++ more) :=
  instrs_append_eq_ok.mpr ⟨code, more, h, hmore, rfl⟩

/-- Saving and restoring is selected as it stands. -/
theorem instrs_saves (locs : Locations) :
    instrs c ((divisionSaves locs).map fun r => lineAt i .push (some (.reg r)) none none) =
        .ok ((divisionSaves locs).map fun r => pushReg r.index) ∧
      instrs c ((divisionSaves locs).reverse.map fun r => lineAt i .pop none none (some (.reg r))) =
        .ok ((divisionSaves locs).reverse.map fun r => popReg r.index) := by
  unfold divisionSaves
  simp only [List.filter_cons, List.filter_nil]
  cases locs.occupies regRax <;> cases locs.occupies regRdx <;> exact ⟨rfl, rfl⟩

end Lines

/-! ## The division itself -/

/-- The code of a division of rax by r10. -/
def divisionCode (signed : Bool) (wide : UInt8) : List Inst :=
  let dividend : Machine.Operand := .reg ⟨Machine.rax, wide⟩
  let divisor : Machine.Operand := .reg ⟨Machine.r10, wide⟩
  let rdx : Machine.Operand := .reg ⟨Machine.rdx, 4⟩
  if signed then [inst .cqo dividend none, inst .idiv divisor none]
  else [two .xor rdx rdx, inst .div divisor none]

theorem divide_eq {op : Opcode} (hop : isDivision op = true) (wide : UInt8) :
    divide op (some (.reg ⟨Machine.rax, wide⟩)) (some (.reg ⟨Machine.r10, wide⟩)) =
      .ok (divisionCode (isSignedDivision op) wide) := by
  rcases isDivision_iff.mp hop with rfl | rfl | rfl | rfl <;> rfl

theorem steps_divisionCode {l : Linkage} {signed : Bool} {wide : UInt8} {s : State} {x y : Int}
    (hwide : wide = 4 ∨ wide = 8) (hx : number signed (s.get (.reg Machine.rax) wide.toNat) = x)
    (hy : number signed (s.get (.reg Machine.r10) wide.toNat) = y) (hzero : y ≠ 0)
    (hfits : Representable signed (8 * wide.toNat) (x.tdiv y)) :
    ∃ s', steps l (divisionCode signed wide) s = some s' ∧
      Divided wide.toNat (x.tdiv y) (x.tmod y) s s' := by
  have hwide8 : wide.toNat ≤ 8 := by rcases hwide with rfl | rfl <;> decide
  have hone : wide ≠ 1 := by rcases hwide with rfl | rfl <;> decide
  have hdivisor : Machine.divisorWidth? (.reg ⟨Machine.r10, wide⟩) = some wide.toNat := if_neg hone
  cases signed with
  | true =>
    let s1 := s.fillSign wide.toNat
    have h10 : s1.get (.reg Machine.r10) wide.toNat = s.get (.reg Machine.r10) wide.toNat :=
      Machine.get_setReg_ne s _ (by decide) _
    have hdividend : number true (s1.dividend wide.toNat) = x :=
      (Machine.number_dividend_fillSign s hwide8).trans hx
    obtain ⟨s', hdivide, hdone⟩ :=
      Machine.divided_of_divide hwide8 hdividend ((congrArg _ h10).trans hy) hzero hfits
    refine ⟨s', ?_, hdone.of_setReg_rdx⟩
    have hfill : (inst .cqo (some (.reg ⟨Machine.rax, wide⟩)) none).step l s = some s1 := by
      simp [inst, Inst.step, hone, s1]
    have hdiv : (inst .idiv (some (.reg ⟨Machine.r10, wide⟩)) none).step l s1 = some s' := by
      simp only [inst, Inst.step, hdivisor, Option.bind_eq_bind, Option.bind_some]
      exact hdivide
    simp [divisionCode, steps, hfill, hdiv]
  | false =>
    let s1 := s.setReg Machine.rdx (n := 4) 0
    have hax : s1.get (.reg Machine.rax) wide.toNat = s.get (.reg Machine.rax) wide.toNat :=
      Machine.get_setReg_ne s _ (by decide) _
    have h10 : s1.get (.reg Machine.r10) wide.toNat = s.get (.reg Machine.r10) wide.toNat :=
      Machine.get_setReg_ne s _ (by decide) _
    have hdx : s1.get (.reg Machine.rdx) wide.toNat = 0#(8 * wide.toNat) := by
      rcases hwide with rfl | rfl <;> simp [s1, State.get, State.setReg, Machine.insertLow]
    have hdividend : number false (s1.dividend wide.toNat) = x := by
      rw [Machine.number_dividend_zero hdx, hax, hx]
    obtain ⟨s', hdivide, hdone⟩ :=
      Machine.divided_of_divide hwide8 hdividend ((congrArg _ h10).trans hy) hzero hfits
    refine ⟨s', ?_, hdone.of_setReg_rdx⟩
    have hclear : (two .xor (.reg ⟨Machine.rdx, 4⟩) (.reg ⟨Machine.rdx, 4⟩)).step l s =
        some s1 := by
      have hexec : (two .xor (.reg ⟨Machine.rdx, 4⟩) (.reg ⟨Machine.rdx, 4⟩)).exec l s =
        some (s.setReg Machine.rdx (n := 4)
          (s.get (.reg Machine.rdx) 4 ^^^ s.get (.reg Machine.rdx) 4)) := rfl
      rw [BitVec.xor_self] at hexec
      exact Machine.step_of_exec hexec
    have hdiv : (inst .div (some (.reg ⟨Machine.r10, wide⟩)) none).step l s1 = some s' := by
      simp only [inst, Inst.step, hdivisor, Option.bind_eq_bind, Option.bind_some]
      exact hdivide
    simp [divisionCode, steps, hclear, hdiv]

/-! ## The lines between saving and restoring -/

/-- A division of operands of one width that are in place. -/
structure PlacedDivision (c : Closure) (l : Linkage) (s : State) (w : UInt8) (i : Instr)
    (first second output : Operand) (a b d : Machine.Operand) : Prop where
  op : isDivision i.op = true
  width : IsWidth w
  hasFirst : i.first = some first
  hasSecond : i.second = some second
  hasOutput : i.output = some output
  dividend : DivisionOperand c l s w first a
  divisor : DivisionOperand c l s w second b
  result : DivisionOperand c l s w output d
  widensDividend : Widens (isSignedDivision i.op) w first
  widensDivisor : Widens (isSignedDivision i.op) w second

/-- The number that an operand of a division is taken as. -/
def operandNumber (l : Linkage) (s : State) (w : UInt8) (op : Opcode) (a : Machine.Operand) : Int :=
  number (isSignedDivision op) (a.value l s w.toNat)

section Division

variable {c : Closure} {l : Linkage} {s : State} {w : UInt8} {i : Instr}
  {first second output : Operand} {a b d : Machine.Operand}

theorem DivisionOperand.isFree (h : DivisionOperand c l s w first a) : Free a :=
  free_of_inPlace h.inPlace h.form h.free

theorem divisionWidth_of_placed (h : PlacedDivision c l s w i first second output a b d) :
    divisionWidth i = max w.toNat 4 := by
  have hne : output.ty ≠ .void := by
    intro hvoid
    have hsize := h.result.size
    rw [hvoid] at hsize
    rcases h.width with rfl | rfl | rfl | rfl <;> exact absurd hsize (by decide)
  have hplain : (!i.op.isCompare && !i.op.isBranch) = true := by
    rcases isDivision_iff.mp h.op with hop | hop | hop | hop <;> rw [hop] <;> rfl
  have htype : opType i = output.ty := by
    simp [opType, hplain, h.hasOutput, hne]
  rw [divisionWidth, htype, h.result.size]

/-- A division is done in four or eight bytes. -/
theorem wide_of_placed (h : PlacedDivision c l s w i first second output a b d) :
    (UInt8.ofNat (divisionWidth i)).toNat = max w.toNat 4 ∧
      (UInt8.ofNat (divisionWidth i) = 4 ∨ UInt8.ofNat (divisionWidth i) = 8) := by
  rw [divisionWidth_of_placed h]
  rcases h.width with rfl | rfl | rfl | rfl <;> decide

/-- The operands reach the registers of the division, however many words were pushed before. -/
theorem steps_operands (h : PlacedDivision c l s w i first second output a b d) {wide : UInt8}
    (hnat : wide.toNat = max w.toNat 4) (hwide : wide = 4 ∨ wide = 8) :
    ∃ loadDivisor loadDividend,
      move (some (.reg ⟨Machine.r10, wide⟩)) (some b) second.ty.isSigned = .ok loadDivisor ∧
      move (some (.reg ⟨Machine.rax, wide⟩)) (some a) first.ty.isSigned = .ok loadDividend ∧
      ∀ t k, Pushed k s t → k ≤ 2 → ∃ t', steps l (loadDivisor ++ loadDividend) t = some t' ∧
        ChangesOnly [Machine.rax, Machine.rdx, Machine.r10] t t' ∧
        number (isSignedDivision i.op) (t'.get (.reg Machine.rax) wide.toNat) =
          operandNumber l s w i.op a ∧
        number (isSignedDivision i.op) (t'.get (.reg Machine.r10) wide.toNat) =
          operandNumber l s w i.op b := by
  have hwidth : IsWidth wide := by rcases hwide with rfl | rfl <;> simp [IsWidth]
  obtain ⟨loadDivisor, hdivisor⟩ :=
    exists_move_reg (d := ⟨Machine.r10, wide⟩) second.ty.isSigned h.divisor.int
  obtain ⟨loadDividend, hdividend⟩ :=
    exists_move_reg (d := ⟨Machine.rax, wide⟩) first.ty.isSigned h.dividend.int
  refine ⟨loadDivisor, loadDividend, hdivisor, hdividend, fun t k hpushed hk => ?_⟩
  obtain ⟨t1, hrun1, h1⟩ := run_move_reg l t hwidth h.divisor.int hdivisor
  obtain ⟨t2, hrun2, h2⟩ := run_move_reg l t1 hwidth h.dividend.int hdividend
  have hunused : usesReg Machine.r10 a = false :=
    not_usesReg_of_free h.dividend.isFree (by decide) (by decide)
  have hkept : t2.get (.reg Machine.r10) wide.toNat = t1.get (.reg Machine.r10) wide.toNat :=
    h2.get_of_separate (q := .reg Machine.r10) (by decide : Machine.rax ≠ Machine.r10)
      (by rcases hwide with rfl | rfl <;> decide)
  refine ⟨t2, ?_, ?_, ?_, ?_⟩
  · rw [steps_append_of_some (steps_of_run hrun1), steps_of_run hrun2]
  · exact ((Machine.changesOnly_of_assigns h1).mono (by simp)).trans
      ((Machine.changesOnly_of_assigns h2).mono (by simp))
  · rw [h2.value, number_widened h.width hnat h.dividend.inPlace h.dividend.form h.dividend.int
      h.widensDividend, value_of_not_uses h1 a hunused,
      value_of_pushed hpushed hk h.dividend.isFree h.dividend.clear h.width.le_eight]
    rfl
  · rw [hkept, h1.value, number_widened h.width hnat h.divisor.inPlace h.divisor.form h.divisor.int
      h.widensDivisor,
      value_of_pushed hpushed hk h.divisor.isFree h.divisor.clear h.width.le_eight]
    rfl

theorem operand_gpr (c : Closure) (id : Machine.RegId) (n : Nat) :
    operand c (.reg (gpr id n)) = .ok (.reg ⟨id, UInt8.ofNat n⟩) := rfl

/-- Moving the operands and dividing leaves the result in its register. -/
theorem steps_quotient (h : PlacedDivision c l s w i first second output a b d)
    (hzero : operandNumber l s w i.op b ≠ 0)
    (hfits : Representable (isSignedDivision i.op) (8 * w.toNat)
      ((operandNumber l s w i.op a).tdiv (operandNumber l s w i.op b))) :
    ∃ code, instrs c (divisionLoads i first second) = .ok code ∧
      ∀ t k, Pushed k s t → k ≤ 2 → ∃ t', steps l code t = some t' ∧
        ChangesOnly [Machine.rax, Machine.rdx, Machine.r10] t t' ∧
        t'.get (.reg (divisionResult i).index) (UInt8.ofNat (divisionWidth i)).toNat =
          BitVec.ofInt _ (divided i.op (operandNumber l s w i.op a)
            (operandNumber l s w i.op b)) := by
  obtain ⟨hnat, hwide⟩ := wide_of_placed h
  obtain ⟨loadDivisor, loadDividend, hdivisor, hdividend, hloads⟩ := steps_operands h hnat hwide
  refine ⟨loadDivisor ++ (loadDividend ++
    divisionCode (isSignedDivision i.op) (UInt8.ofNat (divisionWidth i))), ?_,
    fun t k hpushed hk => ?_⟩
  · have hdivide :=
      (instr_division (c := c) (i := i) (n := divisionWidth i) h.op).trans (divide_eq h.op _)
    refine instrs_cons_eq_ok.mpr ⟨_, _,
      (instr_move h.divisor.form (operand_gpr c _ _)).trans hdivisor, ?_, rfl⟩
    refine instrs_cons_eq_ok.mpr ⟨_, _,
      (instr_move h.dividend.form (operand_gpr c _ _)).trans hdividend, ?_, rfl⟩
    exact instrs_singleton hdivide
  · obtain ⟨t1, hrun1, hchanges1, hx, hy⟩ := hloads t k hpushed hk
    obtain ⟨t2, hrun2, hdone⟩ :=
      steps_divisionCode (l := l) hwide hx hy hzero (hfits.mono (by omega))
    refine ⟨t2, ?_, hchanges1.trans ((Machine.changesOnly_of_divided hdone).mono (by simp)), ?_⟩
    · rw [← List.append_assoc, steps_append_of_some hrun1, hrun2]
    · have hresult : (divisionResult i).index = if isRemainder i.op then Machine.rdx
          else Machine.rax := by
        unfold divisionResult isRemainder
        split <;> rfl
      rw [hresult, divided]
      split
      · exact hdone.rdx
      · exact hdone.rax

/-- The code between saving and restoring leaves the result where it is stored from. -/
theorem steps_core (h : PlacedDivision c l s w i first second output a b d) (locs : Locations)
    (hzero : operandNumber l s w i.op b ≠ 0)
    (hfits : Representable (isSignedDivision i.op) (8 * w.toNat)
      ((operandNumber l s w i.op a).tdiv (operandNumber l s w i.op b))) :
    ∃ core, instrs c (divisionCore locs i first second) = .ok core ∧
      ∀ t k, Pushed k s t → k ≤ 2 → ∃ t', steps l core t = some t' ∧
        ChangesOnly [Machine.rax, Machine.rdx, Machine.r10] t t' ∧
        t'.get (.reg (divisionSource locs i).index) (UInt8.ofNat (divisionWidth i)).toNat =
          BitVec.ofInt _ (divided i.op (operandNumber l s w i.op a)
            (operandNumber l s w i.op b)) := by
  obtain ⟨code, hcode, hruns⟩ := steps_quotient h hzero hfits
  unfold divisionCore divisionSource
  split
  · exact ⟨code, by simpa using hcode, hruns⟩
  · obtain ⟨-, hwide⟩ := wide_of_placed h
    have hwidth : IsWidth (UInt8.ofNat (divisionWidth i)) := by
      rcases hwide with hwide | hwide <;> rw [hwide] <;> simp [IsWidth]
    have hform : operand c (.reg (divisionResult i)) =
        .ok (.reg ⟨(divisionResult i).index, UInt8.ofNat (divisionWidth i)⟩) := by
      unfold divisionResult
      split <;> exact operand_gpr c _ _
    have hint : IntOperand (UInt8.ofNat (divisionWidth i))
      (.reg ⟨(divisionResult i).index, UInt8.ofNat (divisionWidth i)⟩) := rfl
    obtain ⟨out, hout⟩ := exists_move_reg (d := ⟨Machine.r10, UInt8.ofNat (divisionWidth i)⟩)
      (Operand.reg (divisionResult i)).ty.isSigned hint
    refine ⟨code ++ out, instrs_append hcode (instrs_singleton ((instr_move hform
      (operand_gpr c _ _)).trans hout)), fun t k hpushed hk => ?_⟩
    obtain ⟨t1, hrun1, hchanges1, hresult⟩ := hruns t k hpushed hk
    obtain ⟨t2, hrun2, h2⟩ := run_move_reg l t1 hwidth hint hout
    refine ⟨t2, ?_, hchanges1.trans ((Machine.changesOnly_of_assigns h2).mono (by simp)), ?_⟩
    · rw [steps_append_of_some hrun1, steps_of_run hrun2]
    · exact h2.value.trans ((convert_self _ _).trans hresult)

theorem place_of_free {s t : State} (h : Free d) (hrbp : t.regs Machine.rbp = s.regs Machine.rbp) :
    d.place? l t = d.place? l s := by
  cases d with
  | mem m => simp only [Machine.Operand.place?, eval_of_free h hrbp]
  | _ => rfl

/-- The register of a variable is saved if it is one of the division. -/
theorem mem_divisionSaves {v : Var} {loc : Location} {r saved : Reg} (hloc : c.locate? v = some loc)
    (hreg : loc.reg = some r) (hsame : r.is saved = true) (hsaved : saved ∈ [regRax, regRdx]) :
    saved ∈ divisionSaves c.locations := by
  refine List.mem_filter.mpr ⟨hsaved, List.any_eq_true.mpr ?_⟩
  obtain ⟨hlookup, -⟩ := Option.filter_eq_some_iff.mp hloc
  obtain ⟨before, after, hsplit, -⟩ := List.lookup_eq_some_iff.mp hlookup
  exact ⟨(v.ident, loc), by simp [hsplit], by simpa [hreg] using hsame⟩

/-- The words that a division pushes. -/
def savedIds (locs : Locations) : List Machine.RegId := (divisionSaves locs).map Reg.index

theorem savedIds_subset (locs : Locations) : savedIds locs ⊆ [Machine.rax, Machine.rdx] := by
  intro id hid
  obtain ⟨r, hr, rfl⟩ := List.mem_map.mp hid
  have := (List.mem_filter.mp hr).1
  simp only [List.mem_cons, List.not_mem_nil, or_false] at this
  rcases this with rfl | rfl <;> simp [regRax, regRdx, gpr]

theorem length_savedIds (locs : Locations) : (savedIds locs).length ≤ 2 := by
  rw [savedIds, List.length_map]
  exact List.length_filter_le _ [regRax, regRdx]

/-- A register that a variable lives in is saved or not one that the division changes. -/
theorem saved_or_untouched {v : Var} {r : Machine.Reg} {n : Nat}
    (h : Homed c l s n (.var v) (.reg r)) :
    r.id ∈ savedIds c.locations ∨ r.id ∉ [Machine.rax, Machine.rdx, Machine.r10] := by
  obtain ⟨loc, hloc, ⟨home, hhome, hr⟩ | hslot⟩ := operand_var h.form
  · obtain ⟨index, width, cls, name⟩ := home
    cases cls with
    | float => cases hr
    | int =>
      cases hr
      have h10 : index ≠ Machine.r10 := fun e => h.free _ rfl (by simp [reserved, e])
      have hsaves : ∀ saved ∈ [regRax, regRdx], index = saved.index →
          index ∈ savedIds c.locations := by
        intro saved hsaved hindex
        refine List.mem_map.mpr ⟨saved, mem_divisionSaves hloc hhome ?_ hsaved, hindex.symm⟩
        simp only [List.mem_cons, List.not_mem_nil, or_false] at hsaved
        rcases hsaved with rfl | rfl <;> simp [Reg.is, Reg.key, hindex, regRax, regRdx, gpr]
      by_cases hax : index = Machine.rax
      · exact .inl (hsaves regRax (by simp) hax)
      by_cases hdx : index = Machine.rdx
      · exact .inl (hsaves regRdx (by simp) hdx)
      · exact .inr (by simp [hax, hdx, h10])
  · unfold frameSlot at hslot
    split at hslot <;> cases hslot

/-- A variable is as it was after what the division changed was restored. -/
theorem get_of_restored {s' t : State} {v : Var} {m : Machine.Operand} {q : Place} {n : Nat}
    (hrestored : Restored (savedIds c.locations) [Machine.rax, Machine.rdx, Machine.r10] s t s')
    (h : Homed c l s n (.var v) m) (hq : m.place? l s = some q) (hn : n ≤ 8) :
    s'.get q n = s.get q n := by
  cases m with
  | reg r =>
    cases hq
    simp only [State.get]
    rcases saved_or_untouched h with hsaved | huntouched
    · rw [hrestored.saved r.id hsaved]
    · rw [hrestored.kept r.id huntouched]
  | xmm x =>
    cases hq
    simp only [State.get, hrestored.xmms]
  | mem mem =>
    cases hq
    refine Machine.readBytes_congr _ _ _ n (by omega) fun x hx => hrestored.mem x fun hlow => ?_
    exact h.clear x hx (Machine.covers_below_mono (length_savedIds _) (by decide) hlow)
  | imm k => cases hq
  | target t => cases hq

/-- The result in its register is stored as one of the width. -/
theorem convert_result {signed : Bool} {n m : Nat} {k : Int} (hn : n ≤ m) (ext : Bool)
    (hfits : Representable signed (8 * n) k) :
    number signed (convert ext n (BitVec.ofInt (8 * m) k)) = k := by
  rw [convert_of_le ext _ hn, Machine.setWidth_ofInt k (by omega)]
  exact hfits

theorem representable_divided {l : Linkage} {s : State} {op : Opcode}
    (hfits : Representable (isSignedDivision op) (8 * w.toNat)
      ((operandNumber l s w op a).tdiv (operandNumber l s w op b))) :
    Representable (isSignedDivision op) (8 * w.toNat)
      (divided op (operandNumber l s w op a) (operandNumber l s w op b)) := by
  unfold divided
  split
  · exact (Machine.representable_number _ _).tmod _
  · exact hfits

theorem widthOf_le (t : Ty) : (widthOf t).toNat ≤ 8 := by
  cases t <;> decide

/-- The register that the result is stored from is not one that is restored before. -/
theorem divisionSource_eq (locs : Locations) (i : Instr) : ∃ id,
    divisionSource locs i = gpr id (divisionWidth i) ∧ id ∉ savedIds locs ∧ id ≠ Machine.rsp := by
  unfold divisionSource savedIds
  split
  · rename_i hempty
    rw [List.isEmpty_iff.mp hempty]
    unfold divisionResult
    split
    · exact ⟨_, rfl, List.not_mem_nil, by decide⟩
    · exact ⟨_, rfl, List.not_mem_nil, by decide⟩
  · exact ⟨_, rfl, fun hin => absurd (savedIds_subset locs hin) (by decide), by decide⟩

/-- An output that can be written is in a register or in memory, which can be moved to. -/
theorem exists_store {r : Machine.Reg} (signed : Bool) (h : DivisionOperand c l s w output d)
    (hwritable : Writable output) : ∃ code, move (some d) (some (.reg r)) signed = .ok code := by
  have hint : IntOperand r.width (.reg r) := rfl
  cases hd : d with
  | reg x => exact exists_move_reg signed hint
  | mem m => exact exists_move_mem signed hint
  | imm v =>
    obtain ⟨lit, rfl, -⟩ := imm_of_inPlace h.inPlace (hd ▸ h.form)
    exact hwritable.elim
  | xmm x => exact absurd (hd ▸ h.int) (by simp [IntOperand])
  | target t => exact absurd (hd ▸ h.int) (by simp [IntOperand])

/-- The words are saved, the code between runs and the words are restored. -/
theorem steps_bracketed (h : PlacedDivision c l s w i first second output a b d)
    (hzero : operandNumber l s w i.op b ≠ 0)
    (hfits : Representable (isSignedDivision i.op) (8 * w.toNat)
      ((operandNumber l s w i.op a).tdiv (operandNumber l s w i.op b))) :
    ∃ core t s', instrs c (divisionCore c.locations i first second) = .ok core ∧
      steps l ((savedIds c.locations).map pushReg ++ core ++
        (savedIds c.locations).reverse.map popReg) s =
        some s' ∧
      Restored (savedIds c.locations) [Machine.rax, Machine.rdx, Machine.r10] s t s' ∧
      s'.get (.reg (divisionSource c.locations i).index) (UInt8.ofNat (divisionWidth i)).toNat =
        BitVec.ofInt _ (divided i.op (operandNumber l s w i.op a)
          (operandNumber l s w i.op b)) := by
  obtain ⟨core, hcore, hruns⟩ := steps_core h c.locations hzero hfits
  have hlen := length_savedIds c.locations
  have hsave : Machine.rsp ∉ savedIds c.locations := fun hin =>
    absurd (savedIds_subset _ hin) (by decide)
  obtain ⟨t, s', hresult, hrestored, hrun⟩ := Machine.steps_saved (s := s) (by decide) hsave
    (by omega) fun t ht => hruns t _ ht hlen
  refine ⟨core, t, s', hcore, hrun, hrestored, ?_⟩
  obtain ⟨id, hsource, hsaved, hrsp⟩ := divisionSource_eq c.locations i
  rw [← hresult, hsource]
  simp only [State.get, gpr, hrestored.given id hsaved hrsp]

/-- The code of a division leaves the result in the output and every variable that is not there as
it was. -/
theorem steps_division (h : PlacedDivision c l s w i first second output a b d)
    (hd : Writable output)
    (hzero : operandNumber l s w i.op b ≠ 0)
    (hfits : Representable (isSignedDivision i.op) (8 * w.toNat)
      ((operandNumber l s w i.op a).tdiv (operandNumber l s w i.op b))) :
    ∃ code p s', instrs c (divisionLines c.locations i first second output) = .ok code ∧
      d.place? l s = some p ∧ steps l code s = some s' ∧
      number (isSignedDivision i.op) (s'.get p w.toNat) =
        divided i.op (operandNumber l s w i.op a) (operandNumber l s w i.op b) ∧
      ∀ v m q, Homed c l s (widthOf v.ty).toNat (.var v) m → m.place? l s = some q →
        p.Separate w.toNat q (widthOf v.ty).toNat →
        s'.get q (widthOf v.ty).toNat = s.get q (widthOf v.ty).toNat := by
  obtain ⟨core, t, s1, hcore, hrun1, hrestored, hvalue⟩ := steps_bracketed h hzero hfits
  obtain ⟨hnat, -⟩ := wide_of_placed h
  obtain ⟨id, hsource, -, -⟩ := divisionSource_eq c.locations i
  let source : Machine.Reg := ⟨id, UInt8.ofNat (divisionWidth i)⟩
  have hform : operand c (.reg (divisionSource c.locations i)) = .ok (.reg source) := by
    rw [hsource, operand_gpr]
  have hint : IntOperand source.width (.reg source) := rfl
  obtain ⟨store, hstore⟩ :=
    exists_store (r := source) (Operand.reg (divisionSource c.locations i)).ty.isSigned h.result hd
  have hunused : usesReg Machine.r11 d = false :=
    not_usesReg_of_free h.result.isFree (by decide) (by decide)
  obtain ⟨p, s2, hp, hrun2, hassigns⟩ :=
    run_move l s1 h.width h.result.int hunused hint hstore
  have hrbp : s1.regs Machine.rbp = s.regs Machine.rbp := hrestored.kept _ (by decide)
  rw [place_of_free h.result.isFree hrbp] at hp
  refine ⟨_, p, s2, instrs_append (instrs_append (instrs_append (instrs_saves c.locations).1 hcore)
    (instrs_saves c.locations).2)
    (instrs_singleton ((instr_move hform h.result.form).trans hstore)),
    hp, ?_, ?_, fun v m q hhome hq hseparate => ?_⟩
  · have hsaves : (savedIds c.locations).map pushReg =
        (divisionSaves c.locations).map fun r => pushReg r.index := List.map_map
    have hpops : (savedIds c.locations).reverse.map popReg =
        (divisionSaves c.locations).reverse.map fun r => popReg r.index := by
      simp [savedIds]
    rw [hsaves, hpops] at hrun1
    rw [steps_append_of_some hrun1, steps_of_run hrun2]
  · have hread : (Machine.Operand.reg source).value l s1 source.width.toNat =
        BitVec.ofInt _ (divided i.op (operandNumber l s w i.op a)
          (operandNumber l s w i.op b)) := by
      rw [← hvalue, hsource]
      rfl
    have hle : w.toNat ≤ source.width.toNat := by
      have : source.width.toNat = max w.toNat 4 := hnat
      omega
    rw [hassigns.value]
    simp only [sourceWidth]
    rw [hread]
    exact convert_result hle _ (representable_divided hfits)
  · have hsize := widthOf_le v.ty
    have hscratch : ∀ r ∈ [Machine.r11], q ≠ .reg r := by
      intro r hr heq
      subst heq
      cases m with
      | reg x =>
        cases hq
        exact hhome.free x rfl (List.mem_singleton.mp hr ▸ by decide)
      | _ => cases hq
    rw [hassigns.get_of_separate_scratch hscratch hseparate (by omega)]
    exact get_of_restored hrestored hhome hq hsize

end Division

/-- A division computes what its operation says, wherever its operands are. Operands of one or two
bytes have to be of a type with the sign of the operation. -/
theorem division_computes_its_operation (l : Linkage) (s : State) (cx : Lowering.Context)
    (st : Lowering.State) (w : UInt8) (first second output : Operand) (a b d : Machine.Operand)
    (h : PlacedDivision st.closure l s w cx.instr first second output a b d)
    (hwritable : Writable output)
    (hzero : operandNumber l s w cx.instr.op b ≠ 0)
    (hfits : Representable (isSignedDivision cx.instr.op) (8 * w.toNat)
      ((operandNumber l s w cx.instr.op a).tdiv (operandNumber l s w cx.instr.op b))) :
    ∃ lines code p s', Lowering.divide cx cx.instr st =
      .ok ((), { st with out := st.out ++ lines }) ∧
      instrs st.closure lines = .ok code ∧ d.place? l s = some p ∧ steps l code s = some s' ∧
      number (isSignedDivision cx.instr.op) (s'.get p w.toNat) = divided cx.instr.op
        (operandNumber l s w cx.instr.op a) (operandNumber l s w cx.instr.op b) ∧
      ∀ v m q, Homed st.closure l s (widthOf v.ty).toNat (.var v) m → m.place? l s = some q →
        p.Separate w.toNat q (widthOf v.ty).toNat →
        s'.get q (widthOf v.ty).toNat = s.get q (widthOf v.ty).toNat := by
  obtain ⟨code, p, s', hcode, hp, hrun, hresult, hkept⟩ := steps_division h hwritable hzero hfits
  exact ⟨_, code, p, s', Lowering.divide_inPlace cx h.hasFirst h.hasSecond h.hasOutput
    h.dividend.inPlace h.divisor.inPlace h.result.inPlace hwritable, hcode, hp, hrun,
    hresult, hkept⟩

/-! ## Divisions of bytes -/

/-- A division of a byte in rdx by one in the frame, with the output in rax. -/
def byteDivision (op : Opcode) (t : Ty) : Instr :=
  .make op (some (.var ⟨"a", t, false, false⟩)) (some (.var ⟨"b", t, false, false⟩))
    (some (.var ⟨"q", t, false, false⟩))

def byteClosure : Closure :=
  ⟨"f", "f", true, .void, [], [],
    [("a", ⟨some regRdx, none⟩), ("b", ⟨none, some (-8)⟩), ("q", ⟨some regRax, none⟩)], [],
    [], 16, []⟩

/-- The slot of the divisor. -/
def byteSlot : Machine.Memory := ⟨.regs (some ⟨Machine.rbp, 8⟩) none (-8), 1⟩

/-- The dividend is in rdx and the divisor, which is two, in the frame. -/
def byteState (dividend : BitVec 64) : State where
  regs r := if r = Machine.rdx then dividend else if r = Machine.rbp then 0x1000
    else if r = Machine.rsp then 0xFF0 else 0
  xmms _ := 0
  mem x := if x = 0xFF8 then 2 else 0

/-- The remainder of minus seven by two as bytes. The dividend keeps its value: rdx is saved. -/
theorem byte_division_keeps_dividend :
    let l : Linkage := ⟨fun _ => 0, fun _ => 0⟩
    let s := byteState 0xF9
    let i := byteDivision .srem .i8
    operandNumber l s 1 .srem (.reg ⟨Machine.rdx, 1⟩) = -7 ∧
    operandNumber l s 1 .srem (.mem byteSlot) = 2 ∧
    ∃ lines code p s', Lowering.divide ⟨[], none, i⟩ i ⟨byteClosure, []⟩ =
    .ok ((), ⟨byteClosure, lines⟩) ∧
      instrs byteClosure lines = .ok code ∧ Machine.Operand.place? l s (.reg ⟨Machine.rax, 1⟩) =
      some p ∧
      steps l code s = some s' ∧ number true (s'.get p 1) = -1 ∧
      s'.get (.reg Machine.rdx) 1 = s.get (.reg Machine.rdx) 1 := by
  intro l s i
  have hclear : ClearOfStack l s 1 (.mem byteSlot) := by
    intro x hx
    have hslot : byteSlot.addr.eval l s = 0xFF8 := by decide
    have hbelow : s.below 2 = 0xFE0 := by decide
    rw [hslot] at hx
    rw [hbelow]
    simp only [Place.covers] at hx ⊢
    bv_omega
  have hx : operandNumber l s 1 .srem (.reg ⟨Machine.rdx, 1⟩) = -7 := by decide
  have hy : operandNumber l s 1 .srem (.mem byteSlot) = 2 := by decide
  have ha : Homed byteClosure l s 1 (.var ⟨"a", .i8, false, false⟩) (.reg ⟨Machine.rdx, 1⟩) :=
    ⟨rfl, by rintro r ⟨⟩; decide, trivial⟩
  have hb : Homed byteClosure l s 1 (.var ⟨"b", .i8, false, false⟩) (.mem byteSlot) :=
    ⟨rfl, by rintro r ⟨⟩, hclear⟩
  have hq : Homed byteClosure l s 1 (.var ⟨"q", .i8, false, false⟩) (.reg ⟨Machine.rax, 1⟩) :=
    ⟨rfl, by rintro r ⟨⟩; decide, trivial⟩
  have hplaced : PlacedDivision byteClosure l s 1 i (.var ⟨"a", .i8, false, false⟩)
      (.var ⟨"b", .i8, false, false⟩) (.var ⟨"q", .i8, false, false⟩) (.reg ⟨Machine.rdx, 1⟩)
      (.mem byteSlot) (.reg ⟨Machine.rax, 1⟩) :=
    ⟨rfl, .inl rfl, rfl, rfl, rfl, ⟨ha, .var rfl, rfl, rfl⟩, ⟨hb, .var rfl, rfl, rfl⟩,
      ⟨hq, .var rfl, rfl, rfl⟩, .inr rfl, .inr rfl⟩
  obtain ⟨lines, code, p, s', hlines, hcode, hp, hrun, hresult, hkept⟩ :=
    division_computes_its_operation l s ⟨[], none, i⟩ ⟨byteClosure,
      []⟩ 1 _ _ _ _ _ _ hplaced trivial (by decide) (by decide)
  refine ⟨hx, hy, lines, code, p, s', hlines, hcode, hp, hrun, hresult.trans (by decide), ?_⟩
  cases hp
  exact hkept ⟨"a", .i8, false, false⟩ _ _ ha rfl (by decide : Machine.rax ≠ Machine.rdx)

/-- Where the type of the bytes has another sign than the division, they are extended by that of the
type: minus one divided by two gives 127 instead of zero. -/
theorem unsigned_bytes_divide_as_unsigned :
    let l : Linkage := ⟨fun _ => 0, fun _ => 0⟩
    let s := byteState 0xFF
    let i := byteDivision .sdiv .u8
    operandNumber l s 1 .sdiv (.reg ⟨Machine.rdx, 1⟩) = -1 ∧
    operandNumber l s 1 .sdiv (.mem byteSlot) = 2 ∧
    divided .sdiv (-1) 2 = 0 ∧
    ∃ lines code s', Lowering.divide ⟨[], none, i⟩ i ⟨byteClosure, []⟩ =
    .ok ((), ⟨byteClosure, lines⟩) ∧
      instrs byteClosure lines = .ok code ∧ steps l code s = some s' ∧
      number true (s'.get (.reg Machine.rax) 1) = 127 := by
  exact ⟨by decide, by decide, by decide, _, _, _, rfl, rfl, rfl, by decide⟩

end Backend.Selection
