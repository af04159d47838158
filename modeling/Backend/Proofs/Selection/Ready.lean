-- Which instructions are selected into code that can be encoded. Their operands have to exist on
-- the machine and to go with the operation, literals have to fit their place, and selection must
-- not exchange a literal with an operand that the output overwrites.
import Backend.Proofs.Lowering.Assignment
import Backend.Proofs.Lowering.Emitted
import Backend.Proofs.Schedule.Coverage
import Backend.Proofs.Selection.Encodable

namespace Backend.Lowering

/-! ## Operands -/

/-- An operand of integer instructions: not in a float register and no label. -/
structure IntForm (locs : Locations) (o : Operand) : Prop where
  reg : ∀ r, regOf? locs o = some r → r.cls = .int
  label : ∀ l, o ≠ .label l

/-- An operand of float instructions: not in a general purpose register, no literal of another type
and no label. -/
structure FloatForm (locs : Locations) (o : Operand) : Prop where
  reg : ∀ r, regOf? locs o = some r → r.cls = .float
  literal : ∀ l, o = .imm l → l.isFloat = true
  label : ∀ l, o ≠ .label l

mutual

/-- The operand exists on the machine: a register has a width, a symbol a name, the parts of an
address are integers, and an index is not the stack pointer and scaled as addresses can be. -/
def WellFormed (locs : Locations) : Operand → Prop
  | .reg r => Machine.IsWidth r.width
  | .imm (.bool word) => Machine.fitsInt32 word = true
  | .symbol s => s.name ≠ ""
  | .indirect base index scale _ _ =>
    WellFormedOption locs base ∧ WellFormedOption locs index ∧
      (∀ o, base = some o ∨ index = some o → IntForm locs o) ∧
      (∀ o, index = some o → regKey? locs o ≠ some regRsp.key) ∧
      (scale = 0 ∨ Machine.IsScale scale)
  | _ => True

/-- The operand exists on the machine, if it is there at all. -/
def WellFormedOption (locs : Locations) : Option Operand → Prop
  | none => True
  | some o => WellFormed locs o

end

/-! ## Instructions -/

/-- Integer operations that work in their output. -/
def isTwoAddress : Opcode → Bool
  | .add | .sub | .mul | .and | .or | .xor => true
  | _ => false

/-- The output or the first source says that the instruction computes with floats. -/
def FloatTyped (i : Instr) : Prop := (opType { i with second := none }).isFloat = true

/-- Both sources are there and in an integer form. -/
def BothInt (locs : Locations) (i : Instr) : Prop :=
  ∃ a b, i.first = some a ∧ i.second = some b ∧ IntForm locs a ∧ IntForm locs b

/-- All operands exist on the machine. -/
def WellPlaced (locs : Locations) (i : Instr) : Prop :=
  ∀ slot : Slot, WellFormedOption locs (slot.get i)

/-- The operands go with the operation. -/
structure Typed (locs : Locations) (i : Instr) : Prop where
  arithmetic : isTwoAddress i.op = true → FloatTyped i ∨ BothInt locs i
  comparison : (i.op.isCompare || i.op.isCondBranch) = true → FloatTyped i ∨ BothInt locs i
  fused : i.op.isFused = true → ∃ o, i.second = some o ∧ FloatForm locs o
  fromInt : i.op = .itof → ∀ o, i.first = some o → IntForm locs o
  fromFloat : i.op = .ftoi ∨ i.op = .fext ∨ i.op = .ftrunc →
    ∃ o, i.first = some o ∧ FloatForm locs o
  branch : i.op.isBranch = true → ∃ l, i.output = some (.label l)

/-- A literal stands before an operand that the output overwrites, so that selection exchanges the
two, and the instruction has no place for the literal behind: a multiplication has none at all,
others have none for a literal of more than 32 bits. Lowering loads operands through r10 and rbp. -/
def Exchanged (locs : Locations) (i : Instr) : Prop :=
  isTwoAddress i.op = true ∧ i.op.isCommutative = true ∧
    ∃ l value o r b, i.first = some (.imm l) ∧ l.int? = some value ∧ i.output = some o ∧
      regOf? locs o = some r ∧ r.cls = .int ∧ i.second = some b ∧
      (readsKey locs r.key b = true ∨ r.key = regR10.key ∨ r.key = regRbp.key) ∧
      (i.op = .mul ∧ registerWidth o.ty ≠ 1 ∨
        registerWidth o.ty = 8 ∧ Machine.fitsInt32 value = false)

/-- An integer literal in the slot fits a sign-extended field of 32 bits. -/
def Narrow (slot : Slot) (i : Instr) : Prop :=
  ∀ l value, slot.get i = some (.imm l) → l.int? = some value → Machine.fitsInt32 value = true

/-- A division of rax by r10. A dividend in the frame is rejected by selection. -/
def DividesRax (i : Instr) : Prop :=
  (∃ offset t, i.first = some (.stack offset t)) ∨
    ∃ w, (w = 4 ∨ w = 8) ∧ i.first = some (.reg (gpr Machine.rax w)) ∧
      i.second = some (.reg (gpr Machine.r10 w))

/-- What lowering leaves: the code selected for the instruction can be encoded. -/
structure Ready (locs : Locations) (i : Instr) : Prop where
  placed : WellPlaced locs i
  typed : Typed locs i
  kept : ¬ Exchanged locs i
  narrow : (isTwoAddress i.op || i.op.isCompare || i.op.isCondBranch) = true → Narrow .second i
  ordered : (i.op.isCompare || i.op.isCondBranch) = true →
    ∀ l, i.first = some (.imm l) → l.int? = none
  pushed : i.op = .push → Narrow .first i
  divided : isDivision i.op = true → (opType i).isFloat = false → DividesRax i

theorem WellPlaced.wellFormed {locs : Locations} {i : Instr} (h : WellPlaced locs i) (slot : Slot)
    {o : Operand} (ho : slot.get i = some o) : WellFormed locs o := by
  have hw := h slot
  rw [ho] at hw
  simpa only [WellFormedOption] using hw

end Backend.Lowering

namespace Backend.Selection

open Backend.Lowering
open Backend.Machine (Inst)

variable {c : Closure}

/-! ## Machine forms -/

theorem isWidth_widthOf (t : Ty) : Machine.IsWidth (widthOf t) := by
  unfold Machine.IsWidth
  cases t <;> decide

theorem reg?_of_locate {v : Var} {l : Location} (h : locate c v = .ok l) :
    c.locations.reg? v.ident = l.reg := by
  simp [Locations.reg?, (Schedule.lookup_of_locate h).1]

theorem sound_machineReg {r : Reg} {w : UInt8} (hw : Machine.IsWidth w) :
    (machineReg r w).Sound := by
  unfold machineReg
  split <;> exact hw

theorem mem_of_frameSlot {offset : Int64} {w : UInt8} {m : Machine.Operand}
    (h : frameSlot offset w = .ok m) :
    m = .mem (.ofBase ⟨Machine.rbp, 8⟩ (toDisp offset) w) := by
  unfold frameSlot at h
  split at h
  · cases h
    rfl
  · cases h

/-- A register of an address is a whole general purpose register that its part names. -/
theorem reg_of_addressReg {part : Option Operand} {r : Option Machine.Reg}
    (h : addressReg c part = .ok r) :
    ∀ s, r = some s → s.width = 8 ∧
      ∃ o t, part = some o ∧ regOf? c.locations o = some t ∧ t.cls = .int ∧ s.id = t.index := by
  intro s hs
  unfold addressReg at h
  split at h
  · cases h
    cases hs
  split at h
  · split at h
    · rename_i t hint
      cases h
      cases hs
      exact ⟨rfl, _, t, rfl, rfl, by simpa using hint, rfl⟩
    · cases h
  · rename_i v
    obtain ⟨l, hl, h⟩ := bind_eq_ok.mp h
    split at h
    · rename_i t ht
      split at h
      · rename_i hint
        cases h
        cases hs
        exact ⟨rfl, _, t, rfl, (reg?_of_locate hl).trans ht, by simpa using hint, rfl⟩
      · cases h
    · cases h
  · cases h

theorem key_of_int {r : Reg} (h : r.cls = .int) : r.key = r.index.toNat := by
  simp [Reg.key, h]

theorem regKey?_of_reg {locs : Locations} {o : Operand} {r : Reg} (h : regOf? locs o = some r) :
    regKey? locs o = some r.key := by
  simp [regKey?_eq_map, h]

/-- A memory operand has the registers of its parts in its address. -/
theorem memory_eq {base index : Option Operand} {scale : UInt8} {disp : Int64} {t : Ty}
    {m : Machine.Memory} (h : memory c base index scale disp t = .ok m) :
    ∃ b i, addressReg c base = .ok b ∧ addressReg c index = .ok i ∧ (b ≠ none ∨ i ≠ none) ∧
      m = ⟨.regs b (i.map fun r => (r, if scale = 0 then 1 else scale)) (toDisp disp),
        widthOf t⟩ := by
  obtain ⟨b, hb, h⟩ := bind_eq_ok.mp h
  obtain ⟨i, hi, h⟩ := bind_eq_ok.mp h
  refine ⟨b, i, hb, hi, ?_⟩
  cases hfit : Machine.fitsInt32 disp with
  | false =>
    simp only [hfit] at h
    cases h
  | true =>
    simp only [hfit] at h
    have hscale : (if (if scale = 0 then 1 else scale) = 0 then 1 else if scale =
        0 then 1 else scale) = if scale = 0 then (1 : UInt8) else scale := by
      split_ifs <;> simp_all
    cases b <;> cases i <;> cases h
    · exact ⟨.inr (by simp), by simp [Machine.Memory.ofScaled]⟩
    · exact ⟨.inl (by simp), rfl⟩
    · exact ⟨.inl (by simp), by simp [Machine.Memory.ofIndex, hscale]⟩

/-- A well-formed address can be encoded. -/
theorem sound_memory {base index : Option Operand} {scale : UInt8} {disp : Int64} {t : Ty}
    {m : Machine.Memory} (hw : WellFormed c.locations (.indirect base index scale disp t))
    (h : memory c base index scale disp t = .ok m) : (Machine.Operand.mem m).Sound := by
  simp only [WellFormed] at hw
  obtain ⟨-, -, -, hsp, hscale⟩ := hw
  obtain ⟨b, i, hb, hi, hne, rfl⟩ := memory_eq h
  refine ⟨isWidth_widthOf t, Machine.Address.encodes_regs ?_ ?_ (hne.imp_right (by simp))⟩
  · exact fun r hr => (reg_of_addressReg hb r hr).1
  · intro r s hr
    obtain ⟨r', hr', heq⟩ := Option.map_eq_some_iff.mp hr
    cases heq
    obtain ⟨hwidth, o, t, ho, hreg, hint, hid⟩ := reg_of_addressReg hi r hr'
    refine ⟨hwidth, fun hrsp => hsp o ho ?_, ?_⟩
    · rw [regKey?_of_reg hreg, key_of_int hint, ← hid, hrsp]
      rfl
    · rcases hscale with rfl | hs
      · exact .inl rfl
      · rwa [if_neg]
        rcases hs with rfl | rfl | rfl | rfl <;> decide

/-- The machine form of a well-formed operand is sound. -/
theorem sound_operand {o : Operand} {m : Machine.Operand} (hw : WellFormed c.locations o)
    (h : operand c o = .ok m) : m.Sound := by
  cases o with
  | reg r =>
    cases h
    exact sound_machineReg (by simpa only [WellFormed] using hw)
  | stack offset t =>
    obtain rfl := mem_of_frameSlot h
    exact ⟨isWidth_widthOf t, encodes_frame _ _⟩
  | var v =>
    obtain ⟨l, -, h⟩ := bind_eq_ok.mp h
    split at h
    · cases h
      exact sound_machineReg (isWidth_widthOf v.ty)
    · obtain rfl := mem_of_frameSlot h
      exact ⟨isWidth_widthOf v.ty, encodes_frame _ _⟩
  | imm l =>
    simp only [operand] at h
    split at h
    · cases h
      trivial
    · cases h
  | indirect base index scale disp t =>
    obtain ⟨a, ha, h⟩ := bind_eq_ok.mp h
    cases h
    exact sound_memory hw ha
  | symbol s =>
    have hname : s.name ≠ "" := by simpa only [WellFormed] using hw
    cases h
    split
    · exact ⟨isWidth_widthOf s.ty, Machine.Address.encodes_tls hname⟩
    · exact ⟨isWidth_widthOf s.ty, Machine.Address.encodes_rip hname⟩
  | label l =>
    cases h
    trivial
  | list items => cases h

/-- The kind of machine operand that an operand which is no register has. -/
theorem kind_of_operand {o : Operand} {m : Machine.Operand} (h : operand c o = .ok m) :
    (∃ r w, regOf? c.locations o = some r ∧ m = machineReg r w) ∨ (∃ a, m = .mem a) ∨
      (∃ l value, o = .imm l ∧ l.int? = some value ∧ m = .imm value) ∨ ∃ l, o = .label l := by
  cases o with
  | reg r =>
    cases h
    exact .inl ⟨r, _, rfl, rfl⟩
  | stack offset t => exact .inr (.inl ⟨_, mem_of_frameSlot h⟩)
  | var v =>
    obtain ⟨l, hl, h⟩ := bind_eq_ok.mp h
    split at h
    · rename_i r hr
      cases h
      exact .inl ⟨r, _, (reg?_of_locate hl).trans hr, rfl⟩
    · exact .inr (.inl ⟨_, mem_of_frameSlot h⟩)
  | imm l =>
    simp only [operand] at h
    split at h
    · rename_i value hl
      cases h
      exact .inr (.inr (.inl ⟨l, value, rfl, hl, rfl⟩))
    · cases h
  | indirect base index scale disp t =>
    obtain ⟨a, -, h⟩ := bind_eq_ok.mp h
    cases h
    exact .inr (.inl ⟨a, rfl⟩)
  | symbol s =>
    cases h
    exact .inr (.inl ⟨_, rfl⟩)
  | label l => exact .inr (.inr (.inr ⟨l, rfl⟩))
  | list items => cases h

theorem isIntKind_of_form {o : Operand} {m : Machine.Operand} (hf : IntForm c.locations o)
    (h : operand c o = .ok m) : IsIntKind m := by
  rcases kind_of_operand h with ⟨r, w, hr, rfl⟩ | ⟨a, rfl⟩ | ⟨l, value, -, -, rfl⟩ | ⟨l, rfl⟩
  · simp [machineReg, hf.reg r hr, IsIntKind]
  · trivial
  · trivial
  · exact absurd rfl (hf.label l)

theorem isFloatKind_of_form {o : Operand} {m : Machine.Operand} (hf : FloatForm c.locations o)
    (h : operand c o = .ok m) : IsFloatKind m := by
  rcases kind_of_operand h with ⟨r, w, hr, rfl⟩ | ⟨a, rfl⟩ | ⟨l, value, rfl, hl, rfl⟩ | ⟨l, rfl⟩
  · simp [machineReg, hf.reg r hr, IsFloatKind]
  · trivial
  · have hfloat := hf.literal l rfl
    cases l <;> simp [Literal.int?, Literal.isFloat] at hl hfloat
  · exact absurd rfl (hf.label l)

/-- An immediate is the value of a literal. -/
theorem literal_of_operand {o : Operand} {value : Int64} (h : operand c o = .ok (.imm value)) :
    ∃ l, o = .imm l ∧ l.int? = some value := by
  rcases kind_of_operand h with ⟨r, w, hr, hm⟩ | ⟨a, hm⟩ | ⟨l, value', rfl, hl, hm⟩ | ⟨l, rfl⟩
  · unfold machineReg at hm
    split at hm <;> cases hm
  · cases hm
  · cases hm
    exact ⟨l, rfl, hl⟩
  · cases h

/-- An operand in a general purpose register is one that is named or the place of a variable. -/
theorem reg_of_operand {o : Operand} {r : Machine.Reg} (h : operand c o = .ok (.reg r)) :
    ∃ t, regOf? c.locations o = some t ∧ t.cls = .int ∧ r.id = t.index := by
  rcases kind_of_operand h with ⟨t, w, ht, hm⟩ | ⟨a, hm⟩ | ⟨l, value, -, -, hm⟩ | ⟨l, rfl⟩
  · unfold machineReg at hm
    split at hm
    · cases hm
    · rename_i hint
      cases hm
      exact ⟨t, ht, hint, rfl⟩
  · cases hm
  · cases hm
  · cases h

/-- An operand that writing a register changes reads the register, or it is in the frame. -/
theorem reads_of_clobbers {o : Operand} {r : Machine.Reg} {m : Machine.Operand}
    (h : operand c o = .ok m) (hc : clobbers (some (.reg r)) (some m) = true) :
    readsKey c.locations r.id.toNat o = true ∨ r.id = Machine.rbp := by
  have hframe : ∀ {offset : Int64} {w : UInt8}, frameSlot offset w = .ok m →
      r.id = Machine.rbp := by
    intro offset w hm
    obtain rfl := mem_of_frameSlot hm
    simp only [clobbers, addressUses, Machine.Memory.ofBase, Option.map_some, Option.getD_some,
      Option.map_none, Option.getD_none, Bool.or_false, beq_iff_eq] at hc
    exact hc.symm
  have hreg : ∀ s : Reg, ∀ w, m = machineReg s w → regOf? c.locations o = some s →
      readsKey c.locations r.id.toNat o = true := by
    rintro s w rfl hs
    rw [readsKey_of_regOf hs]
    unfold machineReg at hc
    split at hc
    · cases hc
    · rename_i hint
      have hid : s.index = r.id := by simpa [clobbers] using hc
      simp [key_of_int hint, hid]
  cases o with
  | reg s =>
    cases h
    exact .inl (hreg s _ rfl rfl)
  | stack offset t => exact .inr (hframe h)
  | var v =>
    obtain ⟨l, hl, h⟩ := bind_eq_ok.mp h
    split at h
    · rename_i s hs
      cases h
      exact .inl (hreg s _ rfl ((reg?_of_locate hl).trans hs))
    · exact .inr (hframe h)
  | imm l =>
    simp only [operand] at h
    split at h
    · cases h
      cases hc
    · cases h
  | indirect base index scale disp t =>
    obtain ⟨a, ha, h⟩ := bind_eq_ok.mp h
    cases h
    obtain ⟨b, i, hb, hi, -, rfl⟩ := memory_eq ha
    have hpart : ∀ {part : Option Operand} {s : Option Machine.Reg}, addressReg c part = .ok s →
        (s.map fun s => s.id == r.id).getD false = true →
        readsKeyOption c.locations r.id.toNat part = true := by
      intro part s hs hid
      cases s with
      | none => cases hid
      | some s =>
        obtain ⟨-, o, t, rfl, hreg, hint, ht⟩ := reg_of_addressReg hs s rfl
        simp only [readsKeyOption]
        rw [readsKey_of_regOf hreg, key_of_int hint, ← ht]
        simpa using congrArg UInt8.toNat (beq_iff_eq.mp hid)
    simp only [clobbers, addressUses, Bool.or_eq_true, Option.map_map] at hc
    refine .inl ?_
    simp only [readsKey, Bool.or_eq_true]
    exact hc.imp (hpart hb) (hpart hi)
  | symbol s =>
    cases h
    split at hc <;> cases hc
  | label l =>
    cases h
    cases hc
  | list items => cases h

/-! ## Instructions -/

variable {i : Instr} {code : List Inst} {d x y : Option Machine.Operand}

theorem eq_some_of_optional {o : Operand} {m : Option Machine.Operand}
    (h : optional c (some o) = .ok m) : ∃ m', m = some m' ∧ operand c o = .ok m' := by
  obtain ⟨m', hm, h⟩ := bind_eq_ok.mp h
  cases h
  exact ⟨m', rfl, hm⟩

theorem exists_of_optional {o : Option Operand} {m : Machine.Operand}
    (h : optional c o = .ok (some m)) : ∃ p, o = some p ∧ operand c p = .ok m := by
  cases o with
  | none => cases h
  | some p =>
    obtain ⟨m', hm, hp⟩ := eq_some_of_optional h
    cases hm
    exact ⟨p, rfl, hp⟩

theorem optional_of_operand {o : Operand} {m : Machine.Operand} (h : operand c o = .ok m) :
    optional c (some o) = .ok (some m) := by
  simp [optional, h, bind, Except.bind]

/-- The machine forms of the operands of a line that has code. -/
theorem operands_of_instr (hop : isSelectedByOperands i.op = true)
    (hsel : instr c i = .ok code) :
    (∀ o, i.first = some o → ∃ a, operand c o = .ok a) ∧
      (∀ o, i.second = some o → ∃ a, operand c o = .ok a) ∧
      ∀ o, i.output = some o → (∀ items, o ≠ .list items) → ∃ a, operand c o = .ok a := by
  obtain ⟨d, x, y, hd, hx, hy, -⟩ := instr_eq_compute hop hsel
  have hexists : ∀ {part : Option Operand} {m : Option Machine.Operand},
      optional c part = .ok m → ∀ o, part = some o → ∃ a, operand c o = .ok a := by
    rintro part m h o rfl
    obtain ⟨a, -, ha⟩ := eq_some_of_optional h
    exact ⟨a, ha⟩
  refine ⟨hexists hx, hexists hy, fun o ho hlist => ?_⟩
  have hplain : optional c i.output = .ok d := by
    rw [ho] at hd ⊢
    unfold outputOperand at hd
    split at hd
    · rename_i items heq
      exact absurd (Option.some.inj heq) (hlist items)
    · exact hd
  exact hexists hplain o ho

theorem soundOption_of_optional {o : Option Operand} {m : Option Machine.Operand}
    (hw : WellFormedOption c.locations o) (h : optional c o = .ok m) :
    SoundOption m := by
  rintro m' rfl
  obtain ⟨p, rfl, hm⟩ := exists_of_optional h
  exact sound_operand (by simpa only [WellFormedOption] using hw) hm

theorem soundOption_of_output {o : Option Operand} {m : Option Machine.Operand}
    (hw : WellFormedOption c.locations o) (h : outputOperand c o = .ok m) :
    SoundOption m := by
  unfold outputOperand at h
  split at h
  · cases h
    rintro m hm
    cases hm
  · exact soundOption_of_optional hw h

/-- The register of an operand is as wide as its type. -/
theorem width_of_operand {o : Operand} {r : Machine.Reg} (hw : WellFormed c.locations o)
    (h : operand c o = .ok (.reg r)) : r.width = UInt8.ofNat (registerWidth o.ty) := by
  obtain ⟨t, ht, hint, -⟩ := reg_of_operand h
  cases o with
  | reg s =>
    cases ht
    simp only [operand, machineReg, hint] at h
    cases h
    have hw : Machine.IsWidth t.width := by simpa only [WellFormed] using hw
    simp only [Operand.ty, Reg.ty, hint]
    rcases hw with h | h | h | h <;> rw [h] <;> rfl
  | var v =>
    obtain ⟨l, hl, h⟩ := bind_eq_ok.mp h
    rw [reg?_of_locate hl |>.symm] at h
    have hlocs : c.locations.reg? v.ident = some t := ht
    simp only [hlocs, machineReg, hint] at h
    cases h
    rfl
  | _ => cases ht

/-- An output in a general purpose register is one that is named or the place of a variable. -/
theorem reg_of_output {o : Option Operand} {r : Machine.Reg}
    (hw : WellFormedOption c.locations o)
    (h : outputOperand c o = .ok (some (.reg r))) :
    ∃ o' t, o = some o' ∧ regOf? c.locations o' = some t ∧ t.cls = .int ∧ r.id = t.index ∧
      r.width = UInt8.ofNat (registerWidth o'.ty) := by
  unfold outputOperand at h
  split at h
  · cases h
  · obtain ⟨p, rfl, hp⟩ := exists_of_optional h
    obtain ⟨t, ht, hint, hid⟩ := reg_of_operand hp
    have hw : WellFormed c.locations p := by simpa only [WellFormedOption] using hw
    exact ⟨p, t, rfl, ht, hint, hid, width_of_operand hw hp⟩

theorem isFloat_of_floatTyped (h : FloatTyped i) : (opType i).isFloat = true := by
  unfold FloatTyped opType at h
  unfold opType
  dsimp only at h ⊢
  split at h
  · rename_i hout
    rwa [if_pos hout]
  · rename_i hout
    rw [if_neg hout]
    split at h
    · rename_i hfirst
      rwa [if_pos hfirst]
    · cases h

/-- A literal that is exchanged with an operand behind it, when selection exchanges them. -/
theorem exchanged_of_clobbers {a b : Operand} {r : Machine.Reg} {y : Machine.Operand}
    {value : Int64} (hr : Ready c.locations i) (hop : isTwoAddress i.op = true)
    (hcom : i.op.isCommutative = true)
    (ha : i.first = some a) (hb : i.second = some b)
    (hd : outputOperand c i.output = .ok (some (.reg r))) (hx : operand c a = .ok (.imm value))
    (hy : operand c b = .ok y) (hc : clobbers (some (.reg r)) (some y) = true)
    (hplace : i.op = .mul ∧ r.width ≠ 1 ∨ r.width = 8 ∧ Machine.fitsInt32 value = false) :
    False := by
  obtain ⟨l, rfl, hl⟩ := literal_of_operand hx
  obtain ⟨o, t, ho, ht, hint, hid, hwidth⟩ := reg_of_output (hr.placed .output) hd
  refine hr.kept ⟨hop, hcom, l, value, o, t, b, ha, hl, ho, ht, hint, hb, ?_, ?_⟩
  · rw [key_of_int hint, ← hid]
    rcases reads_of_clobbers hy hc with hreads | hrbp
    · exact .inl hreads
    · exact .inr (.inr (by rw [hrbp]; rfl))
  · rw [hwidth] at hplace
    refine hplace.imp (fun h => ⟨h.1, fun hone => h.2 (by rw [hone]; rfl)⟩) fun h => ⟨?_, h.2⟩
    cases hty : o.ty <;> rw [hty] at h <;> first | rfl | exact absurd h.1 (by decide)

/-- A multiplication, or an operation with an instruction of its own that works in the output. -/
theorem encoded_twoAddress {signed : Bool} (hr : Ready c.locations i)
    (hop : isTwoAddress i.op = true) (hfloat : (opType i).isFloat = false)
    (hd : outputOperand c i.output = .ok d) (hx : optional c i.first = .ok x)
    (hy : optional c i.second = .ok y)
    (h : (i.op = .mul ∧ mul d x y signed = .ok code) ∨ ∃ f : Machine.Op, f.isAlu = true ∧
      binary f d x (y.map fun o => resize o (opWidth d)) i.op.isCommutative signed = .ok code) :
    Encoded code := by
  obtain ⟨a, b, ha, hb, haf, hbf⟩ := (hr.typed.arithmetic hop).resolve_left fun hf => by
    rw [isFloat_of_floatTyped hf] at hfloat
    cases hfloat
  have hds := soundOption_of_output (hr.placed .output) hd
  rw [ha] at hx
  rw [hb] at hy
  obtain ⟨x, rfl, hxa⟩ := eq_some_of_optional hx
  obtain ⟨y, rfl, hyb⟩ := eq_some_of_optional hy
  have hxs := sound_operand (hr.placed.wellFormed .first ha) hxa
  have hys := sound_operand (hr.placed.wellFormed .second hb) hyb
  have hxk := isIntKind_of_form haf hxa
  have hyk := isIntKind_of_form hbf hyb
  have hfit : ∀ v, y = .imm v → Machine.fitsInt32 v = true := by
    rintro v rfl
    obtain ⟨l, rfl, hl⟩ := literal_of_operand hyb
    exact hr.narrow (by rw [hop]; rfl) l v hb hl
  rcases h with ⟨hmul, h⟩ | ⟨f, halu, h⟩
  -- Both exchanges put a literal where only `Exchanged` would have it.
  · refine encoded_mul hds hxs hys hxk hyk hfit ?_ h
    rintro r v rfl hone rfl -
    by_contra hclob
    exact exchanged_of_clobbers hr hop (by rw [hmul]; rfl) ha hb hd hxa hyb (by simpa using hclob)
      (.inl ⟨hmul, hone⟩)
  · refine encoded_alu halu hds hxs hys hxk hyk hfit ?_ h
    rintro r v hcom rfl rfl hclob h8
    by_contra hv
    exact exchanged_of_clobbers hr hop hcom ha hb hd hxa hyb hclob (.inr ⟨h8, by simpa using hv⟩)

/-- A division of integers. A dividend in the frame is rejected. -/
theorem encoded_division (hr : Ready c.locations i) (hop : isDivision i.op = true)
    (hfloat : (opType i).isFloat = false) (hx : optional c i.first = .ok x)
    (hy : optional c i.second = .ok y) (h : divide i.op x y = .ok code) : Encoded code := by
  rcases hr.divided hop hfloat with ⟨offset, t, hfirst⟩ | ⟨w, hw, hfirst, hsecond⟩
  · rw [hfirst] at hx
    obtain ⟨m, rfl, hm⟩ := eq_some_of_optional hx
    obtain rfl := mem_of_frameSlot hm
    cases h
  · rw [hfirst] at hx
    rw [hsecond] at hy
    cases hx
    cases hy
    refine encoded_divide ?_ (show (Machine.Operand.reg _).IsGprOrMem _ from rfl) h
    rcases hw with rfl | rfl
    · exact .inl rfl
    · exact .inr rfl

theorem encoded_intArithmetic {signed : Bool} (hr : Ready c.locations i)
    (hfloat : (opType i).isFloat = false) (hd : outputOperand c i.output = .ok d)
    (hx : optional c i.first = .ok x) (hy : optional c i.second = .ok y)
    (h : intArithmetic i d x y signed = .ok code) : Encoded code := by
  have hds := soundOption_of_output (hr.placed .output) hd
  have hxs := soundOption_of_optional (hr.placed .first) hx
  cases intArithmetic_code h with
  | product op made =>
    exact encoded_twoAddress hr (by rw [op]; rfl) hfloat hd hx hy (.inl ⟨op, made⟩)
  | twoAddress op found made =>
    have htwo : isTwoAddress i.op = true := by
      rcases op with op | op | op | op | op <;> rw [op] <;> rfl
    refine encoded_twoAddress hr htwo hfloat hd hx hy (.inr ⟨_, ?_, made⟩)
    rcases op with op | op | op | op | op <;> rw [op] at found <;> cases found <;> rfl
  | division op made =>
    refine encoded_division hr ?_ hfloat hx hy made
    rcases op with op | op | op | op <;> rw [op] <;> rfl
  | unary op made => exact encoded_unary (op.imp And.right And.right) hds hxs made
  | shift op found hcount made =>
    refine encoded_shift ?_ hds hxs hcount made
    rcases op with op | op | op <;> rw [op] at found <;> cases found <;> simp

/-- The sources of a comparison of integers. -/
theorem encoded_flags (hr : Ready c.locations i)
    (hop : (i.op.isCompare || i.op.isCondBranch) = true) (hx : optional c i.first = .ok x)
    (hy : optional c i.second = .ok y) (h : compare x y (opType i).isFloat = .ok code) :
    Encoded code := by
  have hxs := soundOption_of_optional (hr.placed .first) hx
  have hys := soundOption_of_optional (hr.placed .second) hy
  refine encoded_compare hxs hys (fun hfloat => ?_) h
  obtain ⟨a, b, ha, hb, haf, hbf⟩ := (hr.typed.comparison hop).resolve_left fun hf => by
    rw [isFloat_of_floatTyped hf] at hfloat
    cases hfloat
  rw [ha] at hx
  rw [hb] at hy
  obtain ⟨m, rfl, hm⟩ := eq_some_of_optional hx
  obtain ⟨n, rfl, hn⟩ := eq_some_of_optional hy
  refine ⟨m, n, rfl, rfl, isIntKind_of_form haf hm, isIntKind_of_form hbf hn, ?_, ?_⟩
  · rintro v rfl
    obtain ⟨l, rfl, hl⟩ := literal_of_operand hm
    cases (hr.ordered hop l ha).symm.trans hl
  · rintro v rfl
    obtain ⟨l, rfl, hl⟩ := literal_of_operand hn
    refine hr.narrow ?_ l v hb hl
    simpa [Bool.or_assoc] using .inr (by simpa using hop)

theorem encoded_compute (hr : Ready c.locations i) (hd : outputOperand c i.output = .ok d)
    (hx : optional c i.first = .ok x) (hy : optional c i.second = .ok y)
    (h : compute c i d x y = .ok code) : Encoded code := by
  have hds := soundOption_of_output (hr.placed .output) hd
  have hxs := soundOption_of_optional (hr.placed .first) hx
  have hys := soundOption_of_optional (hr.placed .second) hy
  have hfromFloat : i.op = .ftoi ∨ i.op = .fext ∨ i.op = .ftrunc →
      ∃ m, x = some m ∧ m.Sound ∧ IsFloatKind m := by
    intro hop
    obtain ⟨o, ho, hf⟩ := hr.typed.fromFloat hop
    rw [ho] at hx
    obtain ⟨m, rfl, hm⟩ := eq_some_of_optional hx
    exact ⟨m, rfl, sound_operand (hr.placed.wellFormed .first ho) hm, isFloatKind_of_form hf hm⟩
  cases compute_code h with
  | move _ made => exact encoded_move hds hxs made
  | lea _ made =>
    exact encoded_lea hds (fun o m ho hm => sound_operand (hr.placed.wellFormed .first ho) hm) made
  | clear _ made => exact encoded_clear hds made
  | push op made =>
    refine encoded_push hxs ?_ made
    rintro v rfl
    obtain ⟨o, ho, hm⟩ := exists_of_optional hx
    obtain ⟨l, rfl, hl⟩ := literal_of_operand hm
    exact hr.pushed op l v ho hl
  | pop _ made => exact encoded_pop hds made
  | intToFloat op made =>
    refine encoded_intToFloat hds hxs ?_ made
    rintro m rfl
    obtain ⟨o, ho, hm⟩ := exists_of_optional hx
    exact isIntKind_of_form (hr.typed.fromInt op o ho) hm
  | floatToInt op made =>
    obtain ⟨m, rfl, hm, hk⟩ := hfromFloat (.inl op)
    exact encoded_floatToInt hds hm hk made
  | floatToFloat op made =>
    obtain ⟨m, rfl, hm, hk⟩ := hfromFloat (.inr op)
    exact encoded_floatToFloat hds hm hk made
  | branch op hflags =>
    refine (encoded_flags hr (by rw [op, Bool.or_true]) hx hy hflags).append ?_
    obtain ⟨l, hl⟩ := hr.typed.branch (by simp [Opcode.isBranch, op])
    rw [hl] at hd
    cases hd
    intro j hj hdirect
    cases List.mem_singleton.mp hj
    cases hdirect
  | compare op hflags hresult =>
    exact (encoded_flags hr (by rw [op, Bool.true_or]) hx hy hflags).append
      (encoded_setCond hds hresult)
  | fused op made =>
    obtain ⟨o, ho, hf⟩ := hr.typed.fused op
    rw [ho] at hy
    obtain ⟨m, rfl, hm⟩ := eq_some_of_optional hy
    refine encoded_fused hds hxs (sound_operand (hr.placed.wellFormed .second ho) hm)
      (isFloatKind_of_form hf hm) ?_ made
    intro z hz
    cases ha : i.addend with
    | none =>
      rw [ha] at hz
      cases hz
    | some o =>
      rw [ha] at hz
      exact sound_operand (hr.placed.wellFormed .addend ha) hz
  | floatNeg _ _ made => exact encoded_floatNeg hds hxs made
  | float found _ made => exact encoded_floatBinary (isScalar_of_float found) hds hxs hys made
  | int _ hint made => exact encoded_intArithmetic hr hint hd hx hy made

/-- The code selected for an instruction that is ready can be encoded. -/
theorem encoded_instr (hr : Ready c.locations i) (h : instr c i = .ok code) : Encoded code := by
  cases instr_code h with
  | nothing => exact encoded_nil
  | label => exact encoded_singleton ⟨_, rfl⟩
  | leave => exact encoded_epilogue c
  | jump op target =>
    obtain ⟨l, hl⟩ := hr.typed.branch (by rw [op]; rfl)
    rw [hl] at target
    cases target
    intro j hj hdirect
    cases List.mem_singleton.mp hj
    cases hdirect
  | call _ made => exact encoded_call made
  | compute _ hd hx hy made => exact encoded_compute hr hd hx hy made

/-- When every instruction is ready, all selected code can be encoded. -/
theorem encoded_instrs {is : List Instr} (hr : ∀ i ∈ is, Ready c.locations i)
    (h : instrs c is = .ok code) : Encoded code := by
  induction is generalizing code with
  | nil =>
    cases h
    exact encoded_nil
  | cons i rest ih =>
    obtain ⟨hi, hrest⟩ := List.forall_mem_cons.mp hr
    unfold instrs at h
    split at h
    · cases h
    · rename_i first hfirst
      obtain ⟨more, hmore, h⟩ := bind_eq_ok.mp h
      cases h
      exact (encoded_instr hi hfirst).append (ih hrest hmore)

end Backend.Selection
