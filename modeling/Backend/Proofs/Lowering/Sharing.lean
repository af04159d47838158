-- Sharing the temporary register between the operands of an instruction. Each operand that is made
-- encodable stands for the one that was there: it is worth as much, and stays so until the
-- instruction itself is done, because what holds the temporary register moves to a scratch slot
-- before another operand takes it.
import Backend.Proofs.Lowering.Addresses

namespace Backend.Lowering

open Backend.Machine (Place Assigns)

/-! ## Operands that stand for others -/

/-- The operand does in a state for another one in an earlier state, where up to `m` bytes of it are
read and where it says in which type a comparison is done. -/
structure StandsFor (e : Scene) (m : Nat) (s : Machine.State) (o : Operand) (s' : Machine.State)
    (o' : Operand) : Prop where
  worth : ∀ v, e.datum? s o = some v → ∃ v', e.datum? s' o' = some v' ∧ v.Agrees m v'
  width : comparedWidth o' = comparedWidth o
  float : o'.ty.isFloat = o.ty.isFloat
  literal : ∀ l, o' = .imm l → o = .imm l

/-- What holds the temporary register can be moved as it is: a place that is worth what is there. -/
structure Keepable (e : Scene) (s : Machine.State) (o : Operand) : Prop where
  datum : ∃ p, e.datum? s o = some (held s o p)
  width : width o = registerWidth o.ty
  plain : ∀ l, o ≠ .imm l

section StandsFor

variable {e : Scene} {m : Nat} {s s' s'' : Machine.State} {o o' o'' : Operand}

theorem StandsFor.refl : StandsFor e m s o s o :=
  ⟨fun v hv => ⟨v, hv, .refl m v⟩, rfl, rfl, fun _ h => h⟩

theorem StandsFor.trans (h : StandsFor e m s o s' o') (h' : StandsFor e m s' o' s'' o'') :
    StandsFor e m s o s'' o'' where
  worth v hv := by
    obtain ⟨v', hv', ha⟩ := h.worth v hv
    obtain ⟨v'', hv'', ha'⟩ := h'.worth v' hv'
    exact ⟨v'', hv'', ha.trans ha'⟩
  width := h'.width.trans h.width
  float := h'.float.trans h.float
  literal l hl := h.literal l (h'.literal l hl)

/-- An operand that stays as it is goes on standing for the other one. -/
theorem StandsFor.stays (h : StandsFor e m s o s' o') (hd : e.datum? s'' o' = e.datum? s' o') :
    StandsFor e m s o s'' o' where
  worth v hv := by
    rw [hd]
    exact h.worth v hv
  width := h.width
  float := h.float
  literal := h.literal

theorem comparedWidth_of_plain (h : ∀ l, o ≠ .imm l) : comparedWidth o = width o := by
  cases o with
  | imm l => exact absurd rfl (h l)
  | _ => rfl

theorem registerWidth_keptType (t : Ty) : registerWidth (keptType t) = registerWidth t := by
  cases t <;> rfl

/-- A value that went through a place of its own type. -/
theorem agrees_kept {d : Datum} {t : Ty} (hs : d.signed = t.isSigned)
    (hw : d.width = registerWidth t) (hm : m ≤ 8) :
    d.Agrees m ⟨(keptType t).isSigned, registerWidth (keptType t),
      d.brought (registerWidth (keptType t))⟩ := by
  by_cases hvoid : t = .void
  · subst hvoid
    exact d.agrees_brought _ hm
  · have hkept : keptType t = t := by simp [keptType, hvoid]
    rw [hkept, ← hs, ← hw, d.brought_self]
    exact .refl m d

/-- An operand that was moved to the frame. -/
theorem standsFor_kept {v : Datum} {off : Int64} (h : Keepable e s o) (hv : e.datum? s o = some v)
    (hm : m ≤ 8) (step : Assigns (.mem (e.base + off.toBitVec))
      (v.brought (registerWidth (keptType o.ty))) [Machine.r11] s s') :
    StandsFor e m s o s' (.stack off (keptType o.ty)) where
  worth v' hv' := by
    obtain rfl := Option.some.inj (hv.symm.trans hv')
    have hdatum : e.datum? s' (.stack off (keptType o.ty)) = some ⟨(keptType o.ty).isSigned,
        registerWidth (keptType o.ty), v.brought (registerWidth (keptType o.ty))⟩ := by
      rw [← step.value]
      rfl
    obtain ⟨p, hp⟩ := h.datum
    obtain rfl := Option.some.inj (hv.symm.trans hp)
    exact ⟨_, hdatum, agrees_kept rfl h.width hm⟩
  width := by
    rw [comparedWidth_of_plain h.plain, h.width, ← registerWidth_keptType]
    rfl
  float := by
    change (keptType o.ty).isFloat = _
    cases o.ty <;> rfl
  literal l hl := by cases hl

/-- A scratch slot that was taken is outside those that are left. -/
theorem outside_slot {cx : Context} {b : Int64} {k n : Nat} (hb : cx.scratch = some b) (hk : k < 2)
    (hn : n ≤ 8) :
    Outside (e.scratch cx) (k + 1) (.mem (e.base + (b + 8 * Int64.ofNat k).toBitVec)) n := by
  intro x hx a ha hle
  obtain rfl : e.base + b.toBitVec = a := by
    rw [Scene.scratch, hb] at ha
    exact Option.some.inj ha
  rw [slot_address] at hx
  have hlast := (offset_of_slot hk hn hx).2
  omega

theorem stable_slot {cx : Context} {b : Int64} {k : Nat} (hb : cx.scratch = some b) (hk : k < 2)
    (t : Ty) : Stable e (e.scratch cx) (k + 1) s (scratchSlot b k t) := by
  refine Clear.stable ⟨fun p hp => ?_, fun _ _ _ _ _ h => by cases h⟩
  cases hp
  exact outside_slot hb hk (width_le_eight _)

end StandsFor

/-! ## Related operands -/

section Related

variable {α β : Type} {R S : α → β → Prop}

theorem rel_imp (h : ∀ a b, R a b → S a b) {x : Option α} {y : Option β} (hr : Option.Rel R x y) :
    Option.Rel S x y := by
  cases hr with
  | none => exact .none
  | some hab => exact .some (h _ _ hab)

theorem rel_none {x : Option α} (hr : Option.Rel R x none) : Option.Rel S x none := by
  cases hr
  exact .none

/-- Another operand on the right. -/
theorem rel_some {b b' : β} (h : ∀ a, R a b → S a b') {x : Option α}
    (hr : Option.Rel R x (some b)) :
    Option.Rel S x (some b') := by
  cases hr with
  | some hab => exact .some (h _ hab)

theorem rel_left {a : α} {y : Option β} (hr : Option.Rel R (some a) y) :
    ∃ b, y = some b ∧ R a b := by
  cases hr with
  | some hab => exact ⟨_, rfl, hab⟩

theorem rel_right {x : Option α} {b : β} (hr : Option.Rel R x (some b)) :
    ∃ a, x = some a ∧ R a b := by
  cases hr with
  | some hab => exact ⟨_, rfl, hab⟩

end Related

/-! ## Drafts -/

/-- Each source of the draft stands for the one of the instruction, and all but the one that holds
the temporary register are left alone by what is still emitted. -/
structure Covers (e : Scene) (cx : Context) (m : Nat) (s : Machine.State) (i : Instr) (d : Draft)
    (s' : Machine.State) : Prop where
  untouched : Untouched (e.scratch cx) 0 s s'
  op : d.instr.op = i.op
  output : d.instr.output = i.output
  source : ∀ slot, slot ≠ .output → Option.Rel (fun o o' => StandsFor e m s o s' o' ∧
    (d.holder ≠ some slot → Stable e (e.scratch cx) d.spilled s' o')) (slot.get i)
    (slot.get d.instr)

/-- Moreover, the source that holds the temporary register can be moved out of the way. -/
structure Standing (e : Scene) (cx : Context) (m : Nat) (s : Machine.State) (i : Instr) (d : Draft)
    (s' : Machine.State) : Prop extends Covers e cx m s i d s' where
  holder : ∀ slot, d.holder = some slot →
    slot ≠ .output ∧ ∀ o, slot.get d.instr = some o → Keepable e s' o

/-- Making the operand of a slot encodable changes it and the one that held the temporary register,
which is in the frame then. -/
structure Touches (slot : Slot) (d d' : Draft) : Prop where
  others : ∀ other, other ≠ slot → d.holder ≠ some other → other.get d'.instr = other.get d.instr
  literal : ∀ other l, other ≠ slot → other.get d'.instr = some (.imm l) →
    other.get d.instr = some (.imm l)
  holder : d'.holder = d.holder ∨ d'.holder = some slot

theorem Touches.refl (slot : Slot) (d : Draft) : Touches slot d d :=
  ⟨fun _ _ _ => rfl, fun _ _ _ h => h, .inl rfl⟩

theorem Touches.put {slot : Slot} {d d' : Draft} (h : Touches slot d d') (o : Operand) :
    Touches slot d (d'.put slot o) where
  others other hne hh := (Slot.get_set_ne hne.symm o d'.instr).trans (h.others other hne hh)
  literal other l hne hl :=
    h.literal other l hne ((Slot.get_set_ne hne.symm o d'.instr).symm.trans hl)
  holder := h.holder

section Drafts

variable {e : Scene} {cx : Context} {m : Nat} {s s1 s2 s3 : Machine.State} {i : Instr}
  {d d1 : Draft} {slot : Slot}

theorem Reserved.touches (h : Reserved e cx slot d s1 d1 s2) : Touches slot d d1 := by
  cases h with
  | free => exact ⟨fun _ _ _ => rfl, fun _ _ _ h => h, .inr rfl⟩
  | @spilled other o b v _ holder =>
    have hset : ∀ slot', slot' ≠ other →
        slot'.get (other.set (scratchSlot b d.spilled (keptType o.ty)) d.instr) =
        slot'.get d.instr :=
      fun slot' hne => Slot.get_set_ne hne.symm _ d.instr
    refine ⟨fun slot' _ hh => hset slot' fun he => hh ?_, fun slot' l _ hl => ?_, .inr rfl⟩
    · rw [he]
      exact holder
    · by_cases he : slot' = other
      · subst he
        cases (Slot.get_set ..).symm.trans hl
      · exact (hset slot' he).symm.trans hl

/-- The operand that is made encodable is still in its slot. -/
theorem Reserved.get (h : Reserved e cx slot d s1 d1 s2) :
    slot.get d1.instr = slot.get d.instr := by
  cases h with
  | free => rfl
  | spilled holder ne => exact Slot.get_set_ne ne _ d.instr

/-- Taking the temporary register for a slot. -/
theorem Standing.reserved (h : Standing e cx m s i d s1) (hm : m ≤ 8)
    (hr : Reserved e cx slot d s1 d1 s2) : Covers e cx m s i d1 s2 := by
  have hstep := hr.untouched
  have hkept : Untouched (e.scratch cx) 0 s s2 := h.untouched.trans (hstep.mono (Nat.zero_le _))
  cases hr with
  | free hfree =>
    refine ⟨hkept, h.op, h.output, fun slot' hne => ?_⟩
    have hsource := h.source slot' hne
    by_cases hh : d.holder = some slot'
    · -- The register goes over to the slot. Its last holder was the slot itself or is empty.
      rcases hfree slot' hh with rfl | hempty
      · exact rel_imp (fun _ _ hs => ⟨hs.1, fun hne => absurd rfl hne⟩) hsource
      · dsimp only at hsource ⊢
        rw [hempty] at hsource ⊢
        exact rel_none hsource
    · exact rel_imp (fun _ _ hs => ⟨hs.1, fun _ => hs.2 hh⟩) hsource
  | @spilled other o b v _ holder ne operand scratch room datum step =>
    obtain ⟨hother, hkeep⟩ := h.holder other holder
    refine ⟨hkept, (Draft.op_put d other _).trans h.op,
      (Slot.get_set_ne hother _ d.instr).trans h.output, fun slot' hne => ?_⟩
    have hsource := h.source slot' hne
    by_cases hs : other = slot'
    · subst hs
      have hget : other.get (other.set (scratchSlot b d.spilled (keptType o.ty)) d.instr) =
          some (scratchSlot b d.spilled (keptType o.ty)) := Slot.get_set ..
      rw [operand] at hsource
      dsimp only [Draft.put]
      rw [hget]
      refine rel_some (fun o0 hs => ?_) hsource
      exact ⟨hs.1.trans (standsFor_kept (hkeep o operand) datum hm step),
        fun _ => stable_slot scratch room _⟩
    · have hget : slot'.get (other.set (scratchSlot b d.spilled (keptType o.ty)) d.instr) =
          slot'.get d.instr := Slot.get_set_ne hs _ d.instr
      have hfree : d.holder ≠ some slot' := fun hh => hs (Option.some.inj (holder.symm.trans hh))
      dsimp only [Draft.put]
      rw [hget]
      refine rel_imp (fun o0 o' hs => ?_) hsource
      have hstable := hs.2 hfree
      refine ⟨hs.1.stays (hstable s2 hstep).2, fun _ => ?_⟩
      exact (hstable.of_untouched hstep).mono (Nat.le_succ _)

/-- Another operand in a slot that does not hold the temporary register. -/
theorem Standing.put {o o' : Operand} (h : Standing e cx m s i d s1) (hslot : slot ≠ .output)
    (hfree : d.holder ≠ some slot) (ho : slot.get i = some o) (hs : StandsFor e m s o s1 o')
    (hstable : Stable e (e.scratch cx) d.spilled s1 o') :
    Standing e cx m s i (d.put slot o') s1 where
  untouched := h.untouched
  op := (Draft.op_put d slot o').trans h.op
  output := (Slot.get_set_ne hslot o' d.instr).trans h.output
  source slot' hne := by
    by_cases heq : slot = slot'
    · subst heq
      rw [ho, show slot.get (d.put slot o').instr = some o' from Slot.get_set ..]
      exact .some ⟨hs, fun _ => hstable⟩
    · rw [show slot'.get (d.put slot o').instr = slot'.get d.instr from Slot.get_set_ne heq ..]
      exact h.source slot' hne
  holder slot' hh := by
    have hne : slot ≠ slot' := fun heq => hfree (heq ▸ hh)
    rw [show slot'.get (d.put slot o').instr = slot'.get d.instr from Slot.get_set_ne hne ..]
    exact h.holder slot' hh

/-- An operand that holds the temporary register, which was taken for it. -/
theorem Covers.put {o o' : Operand} (h : Covers e cx m s i d s2) (hh : d.holder = some slot)
    (hslot : slot ≠ .output) (rest : Untouched none 0 s2 s3) (ho : slot.get i = some o)
    (hs : StandsFor e m s o s3 o') (hk : Keepable e s3 o') :
    Standing e cx m s i (d.put slot o') s3 where
  untouched := h.untouched.trans rest.of_none
  op := (Draft.op_put d slot o').trans h.op
  output := (Slot.get_set_ne hslot o' d.instr).trans h.output
  source slot' hne := by
    by_cases heq : slot = slot'
    · subst heq
      rw [ho, show slot.get (d.put slot o').instr = some o' from Slot.get_set ..]
      exact .some ⟨hs, fun hfree => absurd hh hfree⟩
    · rw [show slot'.get (d.put slot o').instr = slot'.get d.instr from Slot.get_set_ne heq ..]
      refine rel_imp (fun o0 o1 h1 => ?_) (h.source slot' hne)
      have hfree : d.holder ≠ some slot' := fun h' => heq (Option.some.inj (hh.symm.trans h'))
      have hstable := h1.2 hfree
      exact ⟨h1.1.stays (hstable s3 rest.of_none).2, fun _ => hstable.of_untouched rest.of_none⟩
  holder slot' hh' := by
    obtain rfl := Option.some.inj (hh.symm.trans hh')
    refine ⟨hslot, fun o1 h1 => ?_⟩
    obtain rfl := Option.some.inj ((Slot.get_set ..).symm.trans h1)
    exact hk

end Drafts

/-! ## Sources in the temporary register -/

section Loading

variable {e : Scene} {cx : Context} {m : Nat} {s : Machine.State} {i : Instr} {d : Draft}
  {slot : Slot}

theorem keepable_tempReg (s : Machine.State) (t : Ty) : Keepable e s (.reg (tempReg t)) where
  datum := ⟨.reg Machine.r10, rfl⟩
  width := by cases t <;> rfl
  plain l hl := by cases hl

/-- An operand that was loaded at its own width. -/
theorem standsFor_temp {s1 s2 : Machine.State} {o o' : Operand} {v : Datum}
    (h : StandsFor e m s o s1 o') (hv : e.datum? s1 o' = some v) (hwide : m ≤ registerWidth o'.ty)
    (hcompared : comparedWidth o' = registerWidth o'.ty) (hfloat : o'.ty.isFloat = false)
    (step : Assigns (.reg Machine.r10) (v.brought (width (.reg (tempReg o'.ty)))) [Machine.r11]
      s1 s2) :
    StandsFor e m s o s2 (.reg (tempReg o'.ty)) := by
  refine h.trans ⟨fun v' hv' => ?_, ?_, ?_, fun l hl => by cases hl⟩
  · obtain rfl := Option.some.inj (hv.symm.trans hv')
    have hdatum : e.datum? s2 (.reg (tempReg o'.ty)) = some ⟨(tempReg o'.ty).ty.isSigned,
        width (.reg (tempReg o'.ty)), v.brought (width (.reg (tempReg o'.ty)))⟩ := by
      rw [← step.value]
      rfl
    refine ⟨_, hdatum, v.agrees_brought _ ?_⟩
    rw [width_tempReg]
    exact hwide
  · rw [hcompared]
    exact width_tempReg _
  · rw [hfloat]
    cases o'.ty <;> rfl

theorem works_reserve (hm : m ≤ 8) : Works e (reserveTemp cx slot d) (Standing e cx m s i d)
    fun d1 s2 => Covers e cx m s i d1 s2 ∧ d1.holder = some slot ∧ Touches slot d d1 ∧
      slot.get d1.instr = slot.get d.instr := by
  refine works_each (extends_reserveTemp cx slot d) fun s1 h1 => ?_
  have hv : ∀ other o, d.holder = some other → other ≠ slot → other.get d.instr = some o →
      ∃ v, e.datum? s1 o = some v := by
    intro other o hh _ ho
    obtain ⟨p, hp⟩ := ((h1.holder other hh).2 o ho).datum
    exact ⟨_, hp⟩
  refine (works_reserveTemp slot hv).mono (fun _ h => h) fun d1 s2 hr => ?_
  exact ⟨h1.reserved hm hr, hr.holder, hr.touches, hr.get⟩

/-- The operand of a slot is loaded into the temporary register. -/
theorem works_intoTemp {o o' : Operand} (hm : m ≤ 8) (hslot : slot ≠ .output)
    (ho : slot.get i = some o) (ho' : slot.get d.instr = some o')
    (hvalue : ∃ v, e.datum? s o = some v) (hwide : m ≤ registerWidth o'.ty)
    (hcompared : comparedWidth o' = registerWidth o'.ty) (hfloat : o'.ty.isFloat = false) :
    Works e (intoTemp cx slot d) (Standing e cx m s i d) fun d' s' =>
      Standing e cx m s i d' s' ∧ Touches slot d d' ∧
        slot.get d'.instr = some (.reg (tempReg o'.ty)) := by
  have ht : d.typeAt slot = o'.ty := by simp [Draft.typeAt, ho']
  unfold intoTemp
  rw [ht]
  refine works_bind (works_reserve hm) fun d1 => ?_
  refine works_bind (Q := fun _ s3 => Standing e cx m s i (d1.put slot (.reg (tempReg o'.ty))) s3 ∧
    Touches slot d d1) ?_ fun _ => works_pure fun s3 h3 => ⟨h3.1, h3.2.put _, Slot.get_set ..⟩
  refine works_keep fun s2 h2 => ?_
  obtain ⟨hcovers, hh, htouch, hget⟩ := h2
  rw [hget, ho']
  have hsource := hcovers.source slot hslot
  rw [ho, hget, ho'] at hsource
  obtain ⟨_, heq, hs⟩ := rel_left hsource
  obtain rfl := Option.some.inj heq
  obtain ⟨v, hv⟩ := hvalue
  obtain ⟨v', hv', -⟩ := hs.1.worth v hv
  refine ⟨_, _, _, width_le_eight _, effect?_move hv' (place?_temp s2 _), fun s3 h3 => ⟨?_, htouch⟩⟩
  exact hcovers.put hh hslot (untouched_of_temp h3) ho
    (standsFor_temp hs.1 hv' hwide hcompared hfloat h3) (keepable_tempReg s3 _)

/-- The symbol stands for a literal where the scene has it. -/
def IsPlaced (e : Scene) (l : Literal) (y : Symbol) : Prop :=
  ∃ name, y = ⟨name, true, false, l.ty, some l⟩ ∧ e.imms.lookup l.key = some name

/-- The address of a string is loaded into the temporary register. -/
theorem works_loadString {bytes : List UInt8} {y : Symbol} (hm : m ≤ 8) (hslot : slot ≠ .output)
    (ho : slot.get i = some (.imm (.string bytes))) :
    Works e (reserveTemp cx slot d >>= fun d1 =>
        emit cx .lea (some (.symbol y)) none (some (.reg (tempReg .str))) >>= fun _ =>
          pure (d1.put slot (.reg (tempReg .str))))
      (fun s1 => Standing e cx m s i d s1 ∧ IsPlaced e (.string bytes) y) fun d' s' =>
      Standing e cx m s i d' s' ∧ Touches slot d d' ∧
        ∀ l, slot.get d'.instr = some (.imm l) → l.isInt = true := by
  refine works_bind ((works_reserve hm).and_static _) fun d1 => ?_
  refine works_bind (Q := fun _ s3 => Standing e cx m s i (d1.put slot (.reg (tempReg .str))) s3 ∧
    Touches slot d d1) ?_ fun _ => works_pure fun s3 h3 => ⟨h3.1, h3.2.put _, fun l hl => ?_⟩
  swap
  · cases (Slot.get_set ..).symm.trans hl
  refine works_keep fun s2 h2 => ?_
  obtain ⟨⟨hcovers, hh, htouch, -⟩, name, rfl, hname⟩ := h2
  refine ⟨_, _, _, width_le_eight _, effect?_lea _ (place?_temp s2 .str), fun s3 h3 => ⟨?_, htouch⟩⟩
  refine hcovers.put hh hslot (untouched_of_temp h3) ho ⟨fun v hv => ?_, rfl, rfl,
    fun l hl => by cases hl⟩ (keepable_tempReg s3 _)
  obtain rfl : (⟨false, 8, e.link.symbol name⟩ : Datum) = v := by
    simpa [Scene.datum?, hname] using hv
  have hbits : s3.get (.reg Machine.r10) 8 =
      (⟨false, 8, e.link.symbol name⟩ : Datum).brought 8 := by
    rw [Datum.brought_self ⟨false, 8, e.link.symbol name⟩]
    have hvalue : s3.get (.reg Machine.r10) 8 = (e.link.symbol name).setWidth (8 * 8) := h3.value
    rw [hvalue]
    exact BitVec.setWidth_eq _
  have hdatum : e.datum? s3 (.reg (tempReg .str)) =
      some ⟨true, 8, s3.get (.reg Machine.r10) 8⟩ := rfl
  rw [hbits] at hdatum
  exact ⟨_, hdatum, Datum.agrees_brought _ _ hm⟩

end Loading

/-! ## Suited operands -/

/-- An operand that can share the temporary register: it has a meaning, does not lie in the
temporary registers or the scratch slots, its address can be loaded, and a literal that goes to the
data is there. -/
structure Suited (e : Scene) (cx : Context) (s : Machine.State) (o : Operand) : Prop where
  meaning : ∃ v, e.datum? s o = some v
  clear : Clear e (e.scratch cx) 0 s o
  loadable : ∀ base index scale disp t, o = .indirect base index scale disp t →
    Loadable e.locs base index scale
  data : ∀ l name, o = .imm l → e.imms.lookup l.key = some name →
    Outside (e.scratch cx) 0 (.mem (e.link.symbol name)) (registerWidth l.ty)
  float : ∀ w x name, o = .imm (.float w x) → e.imms.lookup (Literal.float w x).key = some name →
    s.get (.mem (e.link.symbol name)) w.ty.size = (floatBits w x).setWidth _

/-- An integer that does not fit a field of 32 bits is written with the bytes that are read of
it. -/
def Wide (m : Nat) (o : Option Operand) : Prop :=
  ∀ w v, o = some (.imm (.int w v)) → Machine.fitsInt32 v = false → m ≤ registerWidth w.ty

section Suited

variable {e : Scene} {cx : Context} {m : Nat} {s s1 s2 : Machine.State} {i : Instr} {d d' : Draft}
  {slot : Slot} {base index : Option Operand} {scale : UInt8} {disp : Int64} {t : Ty}

/-- A memory operand with a meaning has an address. -/
theorem Suited.exists_address (h : Suited e cx s (.indirect base index scale disp t)) :
    ∃ a, e.address? s base index scale disp = some a := by
  obtain ⟨v, hv⟩ := h.meaning
  obtain ⟨p, hp, -⟩ := Option.map_eq_some_iff.mp hv
  obtain ⟨a, ha, -⟩ := Option.map_eq_some_iff.mp hp
  exact ⟨a, ha⟩

/-- The address stays while the parts are left alone. -/
theorem Suited.address?_eq (h : Suited e cx s (.indirect base index scale disp t))
    (hs : Untouched (e.scratch cx) 0 s s1) :
    e.address? s1 base index scale disp = e.address? s base index scale disp := by
  have hb := base?_of_untouched (e := e) hs fun part hp =>
    h.clear.parts _ _ _ _ _ rfl part (.inl hp)
  have hi := index?_of_untouched (e := e) hs fun part hp =>
    h.clear.parts _ _ _ _ _ rfl part (.inr hp)
  simp only [Scene.address?, hb, hi]

/-- A memory operand at the same address stands for another one. -/
theorem standsFor_indirect {b x : Option Operand} {f : UInt8} {k : Int64} {a : BitVec 64}
    (h : Suited e cx s (.indirect base index scale disp t)) (hs : Untouched (e.scratch cx) 0 s s1)
    (ha : e.address? s base index scale disp = some a) (ha' : e.address? s1 b x f k = some a) :
    StandsFor e m s (.indirect base index scale disp t) s1 (.indirect b x f k t) := by
  have hplace : e.place? s (.indirect base index scale disp t) = some (.mem a) := by
    simp [Scene.place?, ha]
  have hplace' : e.place? s1 (.indirect b x f k t) = some (.mem a) := by
    simp [Scene.place?, ha']
  refine ⟨fun v hv => ⟨v, ?_, .refl m v⟩, rfl, rfl, fun l hl => by cases hl⟩
  have hheld := held_of_untouched hs (h.clear.place _ hplace)
  have hsame : held s1 (.indirect b x f k t) (.mem a) = held s (.indirect base index scale disp t)
      (.mem a) :=
    hheld
  rw [← hv]
  simp [Scene.datum?, hplace, hplace', hsame]

theorem keepable_indirect {b x : Option Operand} {f : UInt8} {k : Int64} {a : BitVec 64}
    (ha : e.address? s b x f k = some a) : Keepable e s (.indirect b x f k t) where
  datum := ⟨.mem a, by simp [Scene.datum?, Scene.place?, ha]⟩
  width := rfl
  plain l hl := by cases hl

/-- What an address that was only folded is made of is left alone. -/
theorem stable_folded {a : BitVec 64} {b x : Option Operand} {f : UInt8} {k : Int64} {n : Nat}
    (h : Suited e cx s (.indirect base index scale disp t))
    (ha : e.address? s base index scale disp = some a) (ha' : e.address? s1 b x f k = some a)
    (hfold : foldAddress base index scale disp = (b, x, f, k)) :
    Stable e (e.scratch cx) n s1 (.indirect b x f k t) := by
  have hplace : e.place? s (.indirect base index scale disp t) = some (.mem a) := by
    simp [Scene.place?, ha]
  obtain ⟨hb, hx, -⟩ := foldAddress_parts hfold
  refine Clear.stable ⟨fun p hp => ?_, fun b' x' f' k' t' heq part hpart p hp => ?_⟩
  · obtain rfl : Place.mem a = p := by
      simpa [Scene.place?, ha'] using hp
    exact (h.clear.place _ hplace).mono (Nat.zero_le n)
  · obtain ⟨rfl, rfl, rfl, rfl, rfl⟩ := Operand.indirect.inj heq
    have horigin : base = some part ∨ index = some part := by
      rcases hpart with hpart | hpart
      · exact (hb part hpart).1
      · exact .inr (hx part hpart)
    rw [place?_part ha horigin s1] at hp
    exact (h.clear.parts _ _ _ _ _ rfl part horigin p hp).mono (Nat.zero_le n)

/-- What making a memory operand encodable does, for each draft that stands for the instruction. -/
theorem works_readdressed (hsuit : Suited e cx s (.indirect base index scale disp t))
    {a : BitVec 64} (ha : e.address? s base index scale disp = some a)
    (h1 : Standing e cx m s i d s1) :
    Works e (address cx slot base index scale disp t d) (fun s => s = s1) fun d' s' =>
      LegalAt e slot base index t a d' s' ∧
        Readdressed e cx slot d s1 (folded base index scale disp t) d' s' := by
  refine works_address ((hsuit.address?_eq h1.untouched).trans ha)
    (hsuit.loadable _ _ _ _ _ rfl) ?_ ?_
  · intro part hpart p hp
    rw [place?_part ha hpart s1] at hp
    exact (hsuit.clear.parts _ _ _ _ _ rfl part hpart p hp).mono (Nat.zero_le _)
  · intro other o hh _ ho
    obtain ⟨p, hp⟩ := ((h1.holder other hh).2 o ho).datum
    exact ⟨_, hp⟩

/-- A memory operand among the sources. -/
theorem works_sourceAddress (hm : m ≤ 8) (hslot : slot ≠ .output) (hfree : d.holder ≠ some slot)
    (ho : slot.get i = some (.indirect base index scale disp t))
    (hsuit : Suited e cx s (.indirect base index scale disp t)) :
    Works e (address cx slot base index scale disp t d) (Standing e cx m s i d) fun d' s' =>
      Standing e cx m s i d' s' ∧ Touches slot d d' ∧
        ∀ l, slot.get d'.instr = some (.imm l) → l.isInt = true := by
  obtain ⟨a, ha⟩ := hsuit.exists_address
  refine works_each (extends_address cx slot base index scale disp t d) fun s1 h1 => ?_
  refine (works_readdressed hsuit ha h1).mono (fun _ h => h) ?_
  rintro d' s' ⟨⟨b, x, f, k, hget, -, -, -, -, haddr, -⟩, hre⟩
  rw [← and_assoc]
  refine ⟨?_, fun l hl => by cases hget.symm.trans hl⟩
  cases hre with
  | folded =>
    rcases hfold : foldAddress base index scale disp with ⟨b', x', f', k'⟩
    have hwhole : folded base index scale disp t = .indirect b x f k t :=
      Option.some.inj ((Slot.get_set ..).symm.trans hget)
    have hparts := hwhole
    rw [folded, hfold] at hparts
    obtain ⟨rfl, rfl, rfl, rfl, -⟩ := Operand.indirect.inj hparts
    rw [hwhole]
    refine ⟨h1.put hslot hfree ho (standsFor_indirect hsuit h1.untouched ha haddr) ?_,
      (Touches.refl slot d).put _⟩
    exact stable_folded hsuit ha haddr hfold
  | loaded o reserved rest =>
    obtain rfl : o = .indirect b x f k t := Option.some.inj ((Slot.get_set ..).symm.trans hget)
    have hcovers := h1.reserved hm reserved
    refine ⟨hcovers.put reserved.holder hslot rest ho ?_ (keepable_indirect haddr),
      reserved.touches.put _⟩
    exact standsFor_indirect hsuit (hcovers.untouched.trans rest.of_none) ha haddr

/-! ## Sources and outputs -/

/-- A symbol that was placed in the data for a literal. -/
theorem clear_placed {l : Literal} {y : Symbol} (h : Suited e cx s (.imm l)) (hy : IsPlaced e l y)
    (s' : Machine.State) : Clear e (e.scratch cx) 0 s' (.symbol y) := by
  obtain ⟨name, rfl, hname⟩ := hy
  refine ⟨fun p hp => ?_, fun _ _ _ _ _ h => by cases h⟩
  cases hp
  exact h.data l name rfl hname

/-- A float literal that was placed in the data. -/
theorem standsFor_float {w : FloatWidth} {x : Float.Binary64} {y : Symbol}
    (h : Suited e cx s (.imm (.float w x))) (hs : Untouched (e.scratch cx) 0 s s1)
    (hy : IsPlaced e (.float w x) y) : StandsFor e m s (.imm (.float w x)) s1 (.symbol y) := by
  have hsame := ((clear_placed h hy s).stable s1 hs).2
  obtain ⟨name, rfl, hname⟩ := hy
  have hbits := h.float w x name rfl hname
  refine ⟨fun v hv => ⟨v, ?_, .refl m v⟩, ?_, rfl, fun l hl => by cases hl⟩
  · rw [hsame, ← hv]
    cases w <;> simp only [Scene.datum?, ← hbits] <;> rfl
  · cases w <;> rfl

/-- A source that is made encodable stands for what it was. -/
theorem works_source {narrow : Bool} (hm : m ≤ 8) (hslot : slot ≠ .output)
    (hpending : slot.get d.instr = slot.get i) (hfree : d.holder ≠ some slot)
    (hsuit : ∀ o, slot.get i = some o → Suited e cx s o)
    (hwide : narrow = true → Wide m (slot.get i)) :
    Works e (source cx slot narrow d) (Standing e cx m s i d) fun d' s' =>
      Standing e cx m s i d' s' ∧ Touches slot d d' ∧
        ∀ l, slot.get d'.instr = some (.imm l) → l.isInt = true := by
  have hself : (∀ l, slot.get d.instr = some (.imm l) → l.isInt = true) →
      Works e (pure d : LowerM Draft) (Standing e cx m s i d) fun d' s' =>
        Standing e cx m s i d' s' ∧ Touches slot d d' ∧
          ∀ l, slot.get d'.instr = some (.imm l) → l.isInt = true :=
    fun h => works_pure fun s1 h1 => ⟨h1, .refl slot d, h⟩
  unfold source
  split
  · rename_i v ho
    refine works_bind (works_locate cx v) fun l => works_pure fun s1 h1 => ⟨h1.1, .refl slot d, ?_⟩
    intro l hl
    cases ho.symm.trans hl
  · rename_i l ho
    have hl : slot.get i = some (.imm l) := hpending.symm.trans ho
    have hs := hsuit _ hl
    split
    · rename_i w x
      refine works_bind (works_materialize _) fun y => works_pure ?_
      rintro s1 ⟨h1, hy⟩
      have hstable := ((clear_placed hs hy s1).stable).mono (Nat.zero_le d.spilled)
      refine ⟨h1.put hslot hfree hl (standsFor_float hs h1.untouched hy) hstable,
        (Touches.refl slot d).put _, fun l' hl' => ?_⟩
      cases (Slot.get_set ..).symm.trans hl'
    · rename_i bytes
      exact works_bind (works_materialize _) fun y => works_loadString hm hslot hl
    · rename_i w v
      split
      · rename_i hbig
        simp only [Bool.and_eq_true, Bool.not_eq_true'] at hbig
        have hfloat : (Literal.int w v).ty.isFloat = false := by cases w <;> rfl
        refine (works_intoTemp hm hslot hl ho hs.meaning
          (hwide hbig.1 w v hl hbig.2) rfl hfloat).mono (fun _ h => h) fun d' s' h => ⟨h.1, h.2.1,
          fun l' hl' => ?_⟩
        cases h.2.2.symm.trans hl'
      · refine hself fun l' hl' => ?_
        cases ho.symm.trans hl'
        rfl
    · refine hself fun l' hl' => ?_
      cases ho.symm.trans hl'
      rfl
  · rename_i base index scale disp t ho
    have hl := hpending.symm.trans ho
    exact works_sourceAddress hm hslot hfree hl (hsuit _ hl)
  · rename_i himm _
    exact hself fun l hl => absurd hl (himm l)

/-- Each source of the draft stands for the one of the instruction. -/
structure Sourceful (e : Scene) (cx : Context) (m : Nat) (s : Machine.State) (i : Instr) (d : Draft)
    (s' : Machine.State) : Prop where
  untouched : Untouched (e.scratch cx) 0 s s'
  op : d.instr.op = i.op
  source : ∀ slot : Slot, slot ≠ .output →
    Option.Rel (fun o o' => StandsFor e m s o s' o') (slot.get i) (slot.get d.instr)

/-- Moreover, the output is the place that it was. -/
structure Finished (e : Scene) (cx : Context) (m : Nat) (s : Machine.State) (i : Instr) (d : Draft)
    (s' : Machine.State) : Prop extends Sourceful e cx m s i d s' where
  output : Option.Rel (fun o o' => e.place? s' o' = e.place? s o ∧ o'.ty = o.ty ∧
    width o' = width o) i.output d.instr.output

theorem Standing.sourceful (h : Standing e cx m s i d s1) : Sourceful e cx m s i d s1 where
  untouched := h.untouched
  op := h.op
  source slot hne := rel_imp (fun _ _ hs => hs.1) (h.source slot hne)

/-- The source that an operand of the draft stands for. -/
theorem Sourceful.exists_source (h : Sourceful e cx m s i d s1) (hslot : slot ≠ .output)
    {o' : Operand} (ho' : slot.get d.instr = some o') :
    ∃ o, slot.get i = some o ∧ StandsFor e m s o s1 o' := by
  have hsource := h.source slot hslot
  rw [ho'] at hsource
  exact rel_right hsource

theorem Standing.finished (h : Standing e cx m s i d s1)
    (hplace : ∀ o, i.output = some o → e.place? s1 o = e.place? s o) :
    Finished e cx m s i d s1 where
  toSourceful := h.sourceful
  output := by
    rw [h.output]
    cases ho : i.output with
    | none => exact .none
    | some o => exact .some ⟨hplace o ho, rfl, rfl⟩

/-- Another operand as the output. -/
theorem Finished.put {o o' : Operand} (h : Finished e cx m s i d s1) (ho : i.output = some o)
    (hplace : e.place? s1 o' = e.place? s o) (hty : o'.ty = o.ty) (hw : width o' = width o) :
    Finished e cx m s i (d.put .output o') s1 where
  untouched := h.untouched
  op := h.op
  source slot hne := by
    rw [show slot.get (d.put .output o').instr = slot.get d.instr from Slot.get_set_ne hne.symm ..]
    exact h.source slot hne
  output := by
    rw [ho]
    exact .some ⟨hplace, hty, hw⟩

/-- When the output has the temporary register, no source has it. -/
theorem Covers.finished (h : Covers e cx m s i d s1) (hh : d.holder = some .output)
    (rest : Untouched none 0 s1 s2)
    (hplace : ∀ o, i.output = some o → e.place? s2 o = e.place? s o) :
    Finished e cx m s i d s2 where
  untouched := h.untouched.trans rest.of_none
  op := h.op
  source slot hne := by
    refine rel_imp (fun o o' hs => ?_) (h.source slot hne)
    have hfree : d.holder ≠ some slot := fun h' => hne (Option.some.inj (h'.symm.trans hh))
    exact hs.1.stays (hs.2 hfree s2 rest.of_none).2
  output := by
    rw [h.output]
    cases ho : i.output with
    | none => exact .none
    | some o => exact .some ⟨hplace o ho, rfl, rfl⟩

/-- The output is made encodable last. -/
theorem works_dest (hm : m ≤ 8) (hsuit : ∀ o, i.output = some o → Suited e cx s o)
    (hout : d.instr.output = i.output) :
    Works e (dest cx .output d) (Standing e cx m s i d) fun d' s' =>
      Finished e cx m s i d' s' ∧ Touches .output d d' := by
  have hself : ∀ s1, Standing e cx m s i d s1 → Finished e cx m s i d s1 ∧ Touches .output d d :=
    fun s1 h1 => ⟨h1.finished fun o ho => ((hsuit o ho).clear.stable s1 h1.untouched).1, .refl _ d⟩
  unfold dest
  split
  · exact works_bind (works_locate cx _) fun _ => works_pure fun s1 h1 => hself s1 h1.1
  · split
    · exact works_fail cx _
    · exact works_pure hself
  · rename_i base index scale disp t ho
    have hl : i.output = some (.indirect base index scale disp t) := hout.symm.trans ho
    have hs := hsuit _ hl
    obtain ⟨a, ha⟩ := hs.exists_address
    refine works_each (extends_address cx .output base index scale disp t d) fun s1 h1 => ?_
    refine (works_readdressed hs ha h1).mono (fun _ h => h) ?_
    rintro d' s' ⟨⟨b, x, f, k, hget, -, -, -, -, haddr, -⟩, hre⟩
    have hplace : e.place? s' (.indirect b x f k t) =
        e.place? s (.indirect base index scale disp t) := by
      simp only [Scene.place?, ha, haddr]
    have hstays : ∀ s2, Untouched (e.scratch cx) 0 s s2 → ∀ o, i.output = some o →
        e.place? s2 o = e.place? s o := fun s2 h2 o ho => ((hsuit o ho).clear.stable s2 h2).1
    cases hre with
    | folded =>
      obtain hwhole : folded base index scale disp t = .indirect b x f k t := Option.some.inj hget
      rw [hwhole]
      refine ⟨(h1.finished (hstays s1 h1.untouched)).put hl hplace rfl rfl,
        (Touches.refl _ d).put _⟩
    | loaded o reserved rest =>
      obtain rfl : o = .indirect b x f k t := Option.some.inj hget
      have hcovers := h1.reserved hm reserved
      refine ⟨(hcovers.finished reserved.holder rest ?_).put hl hplace rfl rfl,
        reserved.touches.put _⟩
      exact hstays s' (hcovers.untouched.trans rest.of_none)
  · exact works_fail cx _
  · exact works_pure hself

end Suited

end Backend.Lowering
