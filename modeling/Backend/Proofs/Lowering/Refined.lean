-- What becomes of the operands of an instruction while they are made encodable: the forms that
-- replace them keep everything that selection asks of them.
import Backend.Proofs.Lowering.Rules
import Backend.Proofs.Selection.Ready

namespace Backend.Lowering

variable {locs : Locations}

/-! ## Operands -/

/-- An operand that may take the place of another: it is as good for the machine, is a literal only
if it is the same one, and reads no other register than r10. -/
structure Becomes (locs : Locations) (o o' : Operand) : Prop where
  wellFormed : WellFormed locs o → WellFormed locs o'
  int : IntForm locs o → IntForm locs o'
  float : FloatForm locs o → FloatForm locs o'
  ty : o.ty.isFloat = true → o'.ty = o.ty
  literal : ∀ l, o' = .imm l → o = .imm l
  reads : ∀ key, readsKey locs key o' = true → readsKey locs key o = true ∨ key = regR10.key

theorem Becomes.refl (o : Operand) : Becomes locs o o :=
  ⟨id, id, id, fun _ => rfl, fun _ h => h, fun _ h => .inl h⟩

theorem Becomes.trans {o o' o'' : Operand} (h : Becomes locs o o') (h' : Becomes locs o' o'') :
    Becomes locs o o'' where
  wellFormed := h'.wellFormed ∘ h.wellFormed
  int := h'.int ∘ h.int
  float := h'.float ∘ h.float
  ty := fun hf => by
    have hty := h.ty hf
    rw [← hty] at hf
    exact (h'.ty hf).trans hty
  literal := fun l hl => h.literal l (h'.literal l hl)
  reads := fun key hk => (h'.reads key hk).elim (h.reads key) .inr

theorem intForm_of_memory {o : Operand} (hreg : regOf? locs o = none) (hlabel : ∀ l, o ≠ .label l) :
    IntForm locs o :=
  ⟨fun r hr => (by rw [hreg] at hr; cases hr), hlabel⟩

theorem floatForm_of_memory {o : Operand} (hreg : regOf? locs o = none)
    (himm : ∀ l, o ≠ .imm l) (hlabel : ∀ l, o ≠ .label l) : FloatForm locs o :=
  ⟨fun r hr => (by rw [hreg] at hr; cases hr), fun l hl => absurd hl (himm l), hlabel⟩

/-- A float literal becomes the symbol of its place in the data. -/
theorem becomes_symbol {l : Literal} {s : Symbol} (hty : s.ty = l.ty) (hname : s.name ≠ "") :
    Becomes locs (.imm l) (.symbol s) where
  wellFormed := fun _ => by simpa only [WellFormed] using hname
  int := fun _ => intForm_of_memory rfl fun l h => by cases h
  float := fun _ => floatForm_of_memory rfl (fun l h => by cases h) fun l h => by cases h
  ty := fun _ => hty
  literal := fun _ h => by cases h
  reads := fun key h => by simp [readsKey, regKey?] at h

theorem isWidth_registerWidth (t : Ty) : Machine.IsWidth (UInt8.ofNat (registerWidth t)) :=
  Selection.isWidth_widthOf t

theorem wellFormed_tempReg (locs : Locations) (t : Ty) : WellFormed locs (.reg (tempReg t)) := by
  simp only [WellFormed]
  exact isWidth_registerWidth t

theorem intForm_tempReg (locs : Locations) (t : Ty) : IntForm locs (.reg (tempReg t)) := by
  refine ⟨fun r hr => ?_, fun l h => by cases h⟩
  cases hr
  rfl

theorem readsKey_tempReg {key : Nat} {t : Ty} (h : readsKey locs key (.reg (tempReg t)) = true) :
    key = regR10.key := by
  have hkey : (tempReg t).key = key := by simpa [readsKey, regKey?] using h
  exact hkey.symm

/-- Other literals are loaded into the temporary register. -/
theorem becomes_tempReg {l : Literal} (hl : l.isFloat = false) (t : Ty) :
    Becomes locs (.imm l) (.reg (tempReg t)) where
  wellFormed := fun _ => wellFormed_tempReg locs t
  int := fun _ => intForm_tempReg locs t
  float := fun h => by
    rw [h.literal l rfl] at hl
    cases hl
  ty := fun h => by
    cases l with
    | float w x => cases hl
    | int w v => cases w <;> cases h
    | string bytes => cases h
    | bool word => cases h
  literal := fun _ h => by cases h
  reads := fun key h => .inr (readsKey_tempReg h)

/-- Any operand may be kept in the frame at its type. -/
theorem becomes_stack {o : Operand} {offset : Int64} {t : Ty} (h : o.ty ≠ .void → t = o.ty) :
    Becomes locs o (.stack offset t) where
  wellFormed := fun _ => by simp only [WellFormed]
  int := fun _ => intForm_of_memory rfl fun l h => by cases h
  float := fun _ => floatForm_of_memory rfl (fun l h => by cases h) fun l h => by cases h
  ty := fun hf => h fun hv => by rw [hv] at hf; cases hf
  literal := fun _ h => by cases h
  reads := fun key h => by simp [readsKey, regKey?] at h

theorem wellFormedOption_none : WellFormedOption locs none := by
  simp only [WellFormedOption]

theorem wellFormedOption_some {o : Operand} :
    WellFormedOption locs (some o) ↔ WellFormed locs o := by
  simp only [WellFormedOption]

theorem readsKeyOption_iff {key : Nat} {part : Option Operand} :
    readsKeyOption locs key part = true ↔ ∃ o, part = some o ∧ readsKey locs key o = true := by
  cases part with
  | none => simp [readsKeyOption]
  | some o => simp [readsKeyOption]

/-- The parts of an address may be dropped, loaded into r10, and an index may become the base. -/
theorem becomes_indirect {base index base' index' : Option Operand} {scale scale' : UInt8}
    {disp disp' : Int64} {t : Ty}
    (hb : ∀ o, base' = some o → base = some o ∨ index = some o ∨ o = .reg (tempReg .i64))
    (hi : ∀ o, index' = some o → index = some o ∨ o = .reg (tempReg .i64))
    (hs : scale' = scale ∨ scale' = 1) :
    Becomes locs (.indirect base index scale disp t) (.indirect base' index' scale' disp' t) where
  wellFormed := fun h => by
    simp only [WellFormed] at h ⊢
    obtain ⟨hbase, hindex, hint, hsp, hscale⟩ := h
    have hpart : ∀ o, base = some o ∨ index = some o ∨ o = .reg (tempReg .i64) →
        WellFormed locs o ∧ IntForm locs o := by
      rintro o (ho | ho | rfl)
      · rw [ho, wellFormedOption_some] at hbase
        exact ⟨hbase, hint o (.inl ho)⟩
      · rw [ho, wellFormedOption_some] at hindex
        exact ⟨hindex, hint o (.inr ho)⟩
      · exact ⟨wellFormed_tempReg locs _, intForm_tempReg locs _⟩
    have hoption : ∀ part : Option Operand, (∀ o, part = some o → WellFormed locs o) →
        WellFormedOption locs part := by
      rintro (_ | o) h
      · exact wellFormedOption_none
      · exact wellFormedOption_some.mpr (h o rfl)
    refine ⟨hoption base' fun o ho => (hpart o (hb o ho)).1,
      hoption index' fun o ho => (hpart o (.inr (hi o ho))).1, ?_, ?_, ?_⟩
    · rintro o (ho | ho)
      · exact (hpart o (hb o ho)).2
      · exact (hpart o (.inr (hi o ho))).2
    · intro o ho
      rcases hi o ho with ho | rfl
      · exact hsp o ho
      · exact (by decide : some (tempReg .i64).key ≠ some regRsp.key)
    · rcases hs with rfl | rfl
      · exact hscale
      · exact .inr (.inl rfl)
  int := fun _ => intForm_of_memory rfl fun l h => by cases h
  float := fun _ => floatForm_of_memory rfl (fun l h => by cases h) fun l h => by cases h
  ty := fun _ => rfl
  literal := fun _ h => by cases h
  reads := fun key h => by
    simp only [readsKey, Bool.or_eq_true, readsKeyOption_iff] at h ⊢
    rcases h with ⟨o, ho, hr⟩ | ⟨o, ho, hr⟩
    · rcases hb o ho with ho | ho | rfl
      · exact .inl (.inl ⟨o, ho, hr⟩)
      · exact .inl (.inr ⟨o, ho, hr⟩)
      · exact .inr (readsKey_tempReg hr)
    · rcases hi o ho with ho | rfl
      · exact .inl (.inr ⟨o, ho, hr⟩)
      · exact .inr (readsKey_tempReg hr)

/-! ## Instructions -/

/-- An output is only replaced by another memory operand of its type. -/
def SameOutput (o o' : Option Operand) : Prop :=
  o' = o ∨ ∃ base index scale disp base' index' scale' disp' t,
    o = some (.indirect base index scale disp t) ∧ o' = some (.indirect base' index' scale' disp' t)

/-- The same operation on operands that took the place of others. -/
structure Refines (locs : Locations) (i i' : Instr) : Prop where
  op : i'.op = i.op
  slots : ∀ slot : Slot, Option.Rel (Becomes locs) (slot.get i) (slot.get i')
  output : SameOutput i.output i'.output

theorem Refines.refl (i : Instr) : Refines locs i i := by
  refine ⟨rfl, fun slot => ?_, .inl rfl⟩
  cases slot.get i with
  | none => exact .none
  | some o => exact .some (.refl o)

theorem SameOutput.trans {o o' o'' : Option Operand} (h : SameOutput o o')
    (h' : SameOutput o' o'') :
    SameOutput o o'' := by
  rcases h with rfl | ⟨b, x, s, d, b', x', s', d', t, rfl, rfl⟩
  · exact h'
  · rcases h' with rfl | ⟨b1, x1, s1, d1, b2, x2, s2, d2, t', heq, rfl⟩
    · exact .inr ⟨b, x, s, d, b', x', s', d', t, rfl, rfl⟩
    · cases heq
      exact .inr ⟨b, x, s, d, b2, x2, s2, d2, t, rfl, rfl⟩

theorem Refines.trans {i i' i'' : Instr} (h : Refines locs i i') (h' : Refines locs i' i'') :
    Refines locs i i'' := by
  refine ⟨h'.op.trans h.op, fun slot => ?_, h.output.trans h'.output⟩
  have hs := h.slots slot
  have hs' := h'.slots slot
  revert hs hs'
  generalize slot.get i = a
  generalize slot.get i' = b
  generalize slot.get i'' = c
  intro hab hbc
  cases hab with
  | none =>
    cases hbc
    exact .none
  | some hab =>
    cases hbc with
    | some hbc => exact .some (hab.trans hbc)

/-- A slot that is taken stays taken. -/
theorem Refines.exists_slot {i i' : Instr} (h : Refines locs i i') {slot : Slot} {o : Operand}
    (ho : slot.get i = some o) : ∃ o', slot.get i' = some o' ∧ Becomes locs o o' := by
  have hs := h.slots slot
  rw [ho] at hs
  generalize slot.get i' = o' at hs ⊢
  cases hs with
  | some hb => exact ⟨_, rfl, hb⟩

/-- A slot that is taken was taken before. -/
theorem Refines.exists_original {i i' : Instr} (h : Refines locs i i') {slot : Slot} {o' : Operand}
    (ho : slot.get i' = some o') : ∃ o, slot.get i = some o ∧ Becomes locs o o' := by
  have hs := h.slots slot
  rw [ho] at hs
  generalize slot.get i = o at hs ⊢
  cases hs with
  | some hb => exact ⟨_, rfl, hb⟩

/-- A literal in a slot was there before. -/
theorem Refines.literal {i i' : Instr} (h : Refines locs i i') {slot : Slot} {l : Literal}
    (hl : slot.get i' = some (.imm l)) : slot.get i = some (.imm l) := by
  obtain ⟨o, ho, hb⟩ := h.exists_original hl
  rw [ho, hb.literal l rfl]

/-- Another operand in one slot. -/
theorem refines_set {i : Instr} {slot : Slot} {o o' : Operand} (ho : slot.get i = some o)
    (hb : Becomes locs o o') (hout : slot = .output → SameOutput (some o) (some o')) :
    Refines locs i (slot.set o' i) := by
  refine ⟨Slot.op_set slot o' i, fun slot' => ?_, ?_⟩
  · by_cases hs : slot = slot'
    · subst hs
      rw [ho, Slot.get_set]
      exact .some hb
    · rw [Slot.get_set_ne hs]
      exact (Refines.refl i).slots slot'
  · cases slot with
    | output =>
      rw [show i.output = some o from ho]
      exact hout rfl
    | _ => exact .inl rfl

/-- The same operand in one slot of both. -/
theorem Refines.set {i i' : Instr} (h : Refines locs i i') {slot : Slot} (hslot : slot ≠ .output)
    (o : Operand) : Refines locs (slot.set o i) (slot.set o i') := by
  refine ⟨?_, fun slot' => ?_, ?_⟩
  · rw [Slot.op_set, Slot.op_set, h.op]
  · by_cases hs : slot = slot'
    · subst hs
      rw [Slot.get_set, Slot.get_set]
      exact .some (.refl o)
    · rw [Slot.get_set_ne hs, Slot.get_set_ne hs]
      exact h.slots slot'
  · cases slot with
    | output => exact absurd rfl hslot
    | _ => exact h.output

/-! ## What is kept -/

theorem WellPlaced.refines {i i' : Instr} (h : WellPlaced locs i) (hr : Refines locs i i') :
    WellPlaced locs i' := by
  intro slot
  cases ho : slot.get i' with
  | none => exact wellFormedOption_none
  | some o' =>
    obtain ⟨o, ho, hb⟩ := hr.exists_original ho
    exact wellFormedOption_some.mpr (hb.wellFormed (h.wellFormed slot ho))

theorem Narrow.refines {slot : Slot} {i i' : Instr} (h : Narrow slot i) (hr : Refines locs i i') :
    Narrow slot i' := fun l value hl hv => h l value (hr.literal hl) hv

theorem SameOutput.ty {o o' : Option Operand} (h : SameOutput o o') :
    o'.map Operand.ty = o.map Operand.ty := by
  rcases h with rfl | ⟨_, _, _, _, _, _, _, _, _, rfl, rfl⟩ <;> rfl

theorem FloatTyped.refines {i i' : Instr} (h : FloatTyped i) (hr : Refines locs i i') :
    FloatTyped i' := by
  unfold FloatTyped opType at h ⊢
  dsimp only at h ⊢
  simp only [hr.op, hr.output.ty]
  split at h
  · rename_i hout
    rwa [if_pos hout]
  · rename_i hout
    rw [if_neg hout]
    cases hfirst : i.first with
    | none =>
      rw [hfirst] at h
      cases h
    | some o =>
      obtain ⟨o', ho', hb⟩ := @Refines.exists_slot _ _ _ hr .first _ hfirst
      rw [hfirst] at h
      rw [show i'.first = some o' from ho']
      simp only [Option.map_some, Option.getD_some] at h ⊢
      split at h
      · rename_i hvoid
        rw [hb.ty h, if_pos hvoid]
        exact h
      · cases h

theorem BothInt.refines {i i' : Instr} (h : BothInt locs i) (hr : Refines locs i i') :
    BothInt locs i' := by
  obtain ⟨a, b, ha, hb, haf, hbf⟩ := h
  obtain ⟨a', ha', hab⟩ := @Refines.exists_slot _ _ _ hr .first _ ha
  obtain ⟨b', hb', hbb⟩ := @Refines.exists_slot _ _ _ hr .second _ hb
  exact ⟨a', b', ha', hb', hab.int haf, hbb.int hbf⟩

theorem Typed.refines {i i' : Instr} (h : Typed locs i) (hr : Refines locs i i') :
    Typed locs i' where
  arithmetic := fun hop => by
    rw [hr.op] at hop
    exact (h.arithmetic hop).imp (fun hf => hf.refines hr) fun hb => hb.refines hr
  comparison := fun hop => by
    rw [hr.op] at hop
    exact (h.comparison hop).imp (fun hf => hf.refines hr) fun hb => hb.refines hr
  fused := fun hop => by
    rw [hr.op] at hop
    obtain ⟨o, ho, hf⟩ := h.fused hop
    obtain ⟨o', ho', hb⟩ := @Refines.exists_slot _ _ _ hr .second _ ho
    exact ⟨o', ho', hb.float hf⟩
  fromInt := fun hop o' ho' => by
    rw [hr.op] at hop
    obtain ⟨o, ho, hb⟩ := @Refines.exists_original _ _ _ hr .first _ ho'
    exact hb.int (h.fromInt hop o ho)
  fromFloat := fun hop => by
    rw [hr.op] at hop
    obtain ⟨o, ho, hf⟩ := h.fromFloat hop
    obtain ⟨o', ho', hb⟩ := @Refines.exists_slot _ _ _ hr .first _ ho
    exact ⟨o', ho', hb.float hf⟩
  branch := fun hop => by
    rw [hr.op] at hop
    obtain ⟨l, hl⟩ := h.branch hop
    rcases hr.output with heq | ⟨_, _, _, _, _, _, _, _, _, heq, -⟩
    · exact ⟨l, heq.trans hl⟩
    · cases heq.symm.trans hl

/-- An exchange of a refined instruction was one before. -/
theorem Exchanged.of_refines {i i' : Instr} (h : Exchanged locs i') (hr : Refines locs i i') :
    Exchanged locs i := by
  obtain ⟨hop, hcom, l, value, o', r, b', hl, hv, ho', hreg, hint, hb', hreads, hplace⟩ := h
  rw [hr.op] at hop hcom hplace
  have ha := @Refines.literal _ _ _ hr .first _ hl
  obtain ⟨b, hb, hbb⟩ := @Refines.exists_original _ _ _ hr .second _ hb'
  refine ⟨hop, hcom, l, value, o', r, b, ha, hv, ?_, hreg, hint, hb, ?_, hplace⟩
  · rcases hr.output with heq | ⟨_, _, _, _, _, _, _, _, _, -, heq⟩
    · rw [← heq, ho']
    · rw [heq] at ho'
      cases ho'
      cases hreg
  · rcases hreads with h | h
    · exact (hbb.reads _ h).imp_right .inl
    · exact .inr h

/-- Operations that are ready whatever their operands are. -/
def isPlain (op : Opcode) : Bool :=
  !(isTwoAddress op || op.isCompare || op.isBranch || op.isFused || isDivision op || op == .push ||
    op == .itof || op == .ftoi || op == .fext || op == .ftrunc)

theorem ready_of_plain {i : Instr} (h : WellPlaced locs i) (hop : isPlain i.op = true) :
    Ready locs i := by
  simp only [isPlain, Opcode.isBranch, Bool.not_eq_true', Bool.or_eq_false_iff,
    beq_eq_false_iff_ne] at hop
  obtain ⟨⟨⟨⟨⟨⟨⟨⟨⟨htwo, hcompare⟩, hcond, hbal⟩, hfused⟩, hdiv⟩, hpush⟩, hitof⟩, hftoi⟩, hfext⟩,
    hftrunc⟩ := hop
  constructor
  · exact h
  · constructor <;> simp_all [Opcode.isBranch]
  · rintro ⟨hop, -⟩
    rw [htwo] at hop
    cases hop
  · simp_all
  · simp_all
  · exact fun hop => absurd hop hpush
  · intro hop
    rw [hdiv] at hop
    cases hop

/-- An instruction is ready when its operands took the place of well-placed ones and its literals
are in their place. -/
theorem ready_of_refines {i i' : Instr} (hi : WellPlaced locs i) (ht : Typed locs i)
    (hx : ¬ Exchanged locs i) (hr : Refines locs i i') (hsecond : Narrow .second i')
    (hpush : i'.op = .push → Narrow .first i')
    (hfirst : (i'.op.isCompare || i'.op.isCondBranch) = true →
      ∀ l, i'.first = some (.imm l) → l.int? = none)
    (hdiv : isDivision i'.op = true → (opType i').isFloat = false → DividesRax i') :
    Ready locs i' :=
  ⟨hi.refines hr, ht.refines hr, fun h => hx (h.of_refines hr), fun _ => hsecond, hfirst,
    hpush, hdiv⟩

end Backend.Lowering
