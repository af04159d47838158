-- Making operands encodable leaves operands that the machine finds, in lines whose code the machine
-- runs as they say.
import Backend.Proofs.Lowering.Realized

namespace Backend.Lowering

open Backend.Selection (IsWidth)

/-! ## Lines so far -/

/-- Variables are where they were, and the lines are the earlier ones followed by some that satisfy
`P`. -/
def Built (locs : Locations) (P : Instr → Prop) (out : List Instr) (st : State) : Prop :=
  st.closure.locations = locs ∧ ∃ code, st.out = out ++ code ∧ ∀ i ∈ code, P i

section Built

variable {locs : Locations} {P : Instr → Prop} {out : List Instr}

theorem built_start (st : State) : Built st.closure.locations P st.out st :=
  ⟨rfl, [], by simp, by simp⟩

theorem built_keep {i : Instr} (h : P i) : Maintains (Built locs P out) (keep i) fun _ => True := by
  intro st a st' hok hst
  cases hok
  obtain ⟨hlocs, code, hcode, hall⟩ := hst
  refine ⟨⟨hlocs, code ++ [i], by simp [hcode], fun j hj => ?_⟩, trivial⟩
  rcases List.mem_append.mp hj with hj | hj
  · exact hall j hj
  · cases List.mem_singleton.mp hj
    exact h

/-- Whether a part is in a register is read from where the variables are. -/
theorem built_addressable (cx : Context) (o : Option Operand) :
    Maintains (Built locs P out) (addressable cx o) fun ok => ok = isResident locs o := by
  cases o with
  | none => exact maintains_pure rfl
  | some o =>
    cases o with
    | var v =>
      intro st ok st' hok hst
      obtain ⟨l, st1, hloc, hpure⟩ := run_bind.mp hok
      cases hpure
      unfold locate at hloc
      rw [run_get] at hloc
      cases hl : st.closure.locate? v with
      | none =>
        rw [hl] at hloc
        cases hloc
      | some l' =>
        rw [hl] at hloc
        cases hloc
        refine ⟨hst, ?_⟩
        rw [Closure.locate?, hst.1] at hl
        have hlook := (Option.filter_eq_some_iff.mp hl).1
        cases hr : l.reg <;> simp [isResident, inGpr, regOf?, Locations.reg?, hlook, hr]
    | _ => exact maintains_pure rfl

end Built

/-! ## Operands that can be made encodable -/

/-- What a part of an address can be: what stays in its register, a place that is loaded, or a
literal. -/
structure FitParts (e : Scene) (scratch : Option (BitVec 64)) (s : Machine.State)
    (base index : Option Operand) : Prop where
  stays : ∀ part, base = some part ∨ index = some part → inGpr e.locs part = true →
    FitPart e scratch s part
  loads : ∀ part, base = some part ∨ index = some part → inGpr e.locs part = false →
    (∀ l, part ≠ .imm l) → Usable e scratch s part

/-- The operand can be used and reads none of the registers. -/
structure Admits (e : Scene) (scratch : Option (BitVec 64)) (s : Machine.State)
    (ids : List Machine.RegId) (o : Operand) : Prop extends Usable e scratch s o where
  avoids : ∀ id ∈ ids, readsKey e.locs id.toNat o = false

/-- The operand can be used or made usable, and reads none of the registers. -/
def Proper (e : Scene) (scratch : Option (BitVec 64)) (s : Machine.State)
    (ids : List Machine.RegId) :
    Operand → Prop
  | .indirect base index scale disp t => FitParts e scratch s base index ∧
      Loadable e.locs base index scale ∧
        ∀ id ∈ ids, readsKey e.locs id.toNat (.indirect base index scale disp t) = false
  | o => Admits e scratch s ids o

/-- The operands in some slots can be used, where each slot has registers that its operand must not
read, and the other slots have what they had in the instruction. -/
structure Ahead (e : Scene) (scratch : Option (BitVec 64)) (s : Machine.State)
    (avoid : Slot → List Machine.RegId) (i : Instr) (done : List Slot) (d : Draft) : Prop where
  admits : ∀ slot ∈ done, ∀ o, slot.get d.instr = some o → Admits e scratch s (avoid slot) o
  pending : ∀ slot, slot ∉ done → slot.get d.instr = slot.get i
  op : d.instr.op = i.op

/-- Moreover, one of the slots that are done may hold the temporary register. -/
structure Prepared (e : Scene) (scratch : Option (BitVec 64)) (s : Machine.State)
    (avoid : Slot → List Machine.RegId) (i : Instr) (done : List Slot) (d : Draft) : Prop extends
    Ahead e scratch s avoid i done d where
  holder : ∀ slot, d.holder = some slot → slot ∈ done

/-- Moreover, the temporary register was taken for a slot. -/
structure Claims (e : Scene) (scratch : Option (BitVec 64)) (s : Machine.State)
    (avoid : Slot → List Machine.RegId) (i : Instr) (done : List Slot) (slot : Slot)
    (d : Draft) : Prop
    extends Ahead e scratch s avoid i done d where
  holder : d.holder = some slot

section Prepared

variable {e : Scene} {scratch : Option (BitVec 64)} {s : Machine.State}
  {avoid : Slot → List Machine.RegId} {ids : List Machine.RegId} {i : Instr} {done : List Slot}
  {d : Draft} {slot : Slot} {o : Operand}

theorem prepared_start (e : Scene) (scratch : Option (BitVec 64)) (s : Machine.State)
    (avoid : Slot → List Machine.RegId) (i : Instr) : Prepared e scratch s avoid i [] (.of i) where
  admits _ h := nomatch h
  pending _ _ := rfl
  op := rfl
  holder _ h := nomatch h

/-- An operand is put into a slot. -/
theorem Ahead.put (h : Ahead e scratch s avoid i done d) (ho : Admits e scratch s (avoid slot) o) :
    Ahead e scratch s avoid i (slot :: done) (d.put slot o) where
  admits other hother o' ho' := by
    by_cases heq : slot = other
    · subst heq
      obtain rfl := Option.some.inj ((Slot.get_set ..).symm.trans ho')
      exact ho
    · rw [show other.get (d.put slot o).instr = other.get d.instr
        from Slot.get_set_ne heq ..] at ho'
      exact h.admits other ((List.mem_cons.mp hother).resolve_left fun h => heq h.symm) o' ho'
  pending other hother := by
    obtain ⟨hne, hdone⟩ := not_or.mp (mt List.mem_cons.mpr hother)
    exact (Slot.get_set_ne (fun h => hne h.symm) o d.instr).trans (h.pending other hdone)
  op := (Draft.op_put d slot o).trans h.op

theorem Prepared.put (h : Prepared e scratch s avoid i done d)
    (ho : Admits e scratch s (avoid slot) o) :
    Prepared e scratch s avoid i (slot :: done) (d.put slot o) where
  toAhead := h.toAhead.put ho
  holder other hother := List.mem_cons_of_mem _ (h.holder other hother)

/-- An operand that can be used as it is. -/
theorem Prepared.cons (h : Prepared e scratch s avoid i done d)
    (ho : ∀ o, slot.get d.instr = some o → Admits e scratch s (avoid slot) o) :
    Prepared e scratch s avoid i (slot :: done) d where
  admits other hother := by
    rcases List.mem_cons.mp hother with rfl | hother
    · exact ho
    · exact h.admits other hother
  pending other hother := h.pending other fun hdone => hother (List.mem_cons_of_mem _ hdone)
  op := h.op
  holder other hother := List.mem_cons_of_mem _ (h.holder other hother)

theorem Claims.put (h : Claims e scratch s avoid i done slot d)
    (ho : Admits e scratch s (avoid slot) o) :
    Prepared e scratch s avoid i (slot :: done) (d.put slot o) where
  toAhead := h.toAhead.put ho
  holder other hother := by
    obtain rfl := Option.some.inj (h.holder.symm.trans hother)
    exact List.mem_cons_self

theorem admits_stack (offset : Int64) (t : Ty) : Admits e scratch s ids (.stack offset t) :=
  ⟨⟨.stack _ _, rfl⟩, fun _ _ => rfl⟩

/-- What is in a register outside the temporary ones does not read the scratch register of
selection. -/
theorem readsKey_of_outside {o : Operand} {r : Reg} {n : Nat} (hr : regOf? e.locs o = some r)
    (hint : r.cls = .int) (hout : ∀ p, e.place? s o = some p → Outside scratch 0 p n) :
    readsKey e.locs Machine.r11.toNat o = false := by
  have hne : r.index ≠ Machine.r11 := (hout _ (place?_of_regOf hr hint s)).2
  rw [readsKey_of_regOf hr, Selection.key_of_int hint]
  simpa [UInt8.toNat_inj] using hne

/-- A part that stays in its register is not the scratch register of selection. -/
theorem FitPart.free {part : Operand} (h : FitPart e scratch s part) :
    readsKey e.locs Machine.r11.toNat part = false := by
  rcases h with rfl | ⟨hgpr, -, hout⟩
  · rfl
  · unfold inGpr at hgpr
    cases hr : regOf? e.locs part with
    | none =>
      rw [hr] at hgpr
      cases hgpr
    | some r =>
      rw [hr] at hgpr
      exact readsKey_of_outside hr (by simpa using hgpr) hout

theorem readsKey_indirect {locs : Locations} {key : Nat} {b i : Option Operand} {f : UInt8}
    {k : Int64} {t : Ty} : readsKey locs key (.indirect b i f k t) = false ↔
      ∀ part, b = some part ∨ i = some part → readsKey locs key part = false := by
  have hoption : ∀ o : Option Operand, readsKeyOption locs key o = false ↔
      ∀ part, o = some part → readsKey locs key part = false := by
    intro o
    cases o <;> simp [readsKeyOption]
  simp only [readsKey, Bool.or_eq_false_iff, hoption]
  constructor
  · exact fun h part hp => hp.elim (h.1 part) (h.2 part)
  · exact fun h => ⟨fun part hp => h part (.inl hp), fun part hp => h part (.inr hp)⟩

/-- A memory operand made of parts that stay where they are. -/
theorem admits_indirect {b i : Option Operand} {f : UInt8} {k : Int64} (t : Ty)
    (hfit : Machine.fitsInt32 k = true) (hsome : b.isSome ∨ i.isSome) (hids : Machine.r10 ∉ ids)
    (hparts : ∀ part, b = some part ∨ i = some part → FitPart e scratch s part ∧
      (part = .reg (tempReg .i64) ∨ ∀ id ∈ ids, readsKey e.locs id.toNat part = false)) :
    Admits e scratch s ids (.indirect b i f k t) := by
  refine ⟨⟨.indirect t hfit hsome fun part hp => (hparts part hp).1, ?_⟩, fun id hid => ?_⟩
  · exact readsKey_indirect.mpr fun part hp => (hparts part hp).1.free
  · refine readsKey_indirect.mpr fun part hp => ?_
    rcases (hparts part hp).2 with rfl | havoids
    · have hne : Machine.r10 ≠ id := fun h => hids (h ▸ hid)
      have htemp : readsKey e.locs id.toNat (.reg (tempReg .i64)) =
          (Machine.r10.toNat == id.toNat) := rfl
      rw [htemp]
      simpa [UInt8.toNat_inj] using hne
    · exact havoids id hid

end Prepared

/-! ## Steps -/

theorem foldAddress_noLiteral {base index b i : Option Operand} {scale f : UInt8} {disp k : Int64}
    (h : foldAddress base index scale disp = (b, i, f, k)) : NoLiteral b ∧ NoLiteral i := by
  unfold foldAddress at h
  dsimp only at h
  generalize (if (scale == 0) = true then (1 : UInt8) else scale) = g at h
  unfold NoLiteral
  split at h <;> grind

/-- The operand as it is if it does not take the temporary register. -/
def settled : Operand → Operand
  | .indirect base index scale disp t => folded base index scale disp t
  | o => o

section Steps

variable {e : Scene} {cx : Context} {s : Machine.State} {avoid : Slot → List Machine.RegId}
  {i : Instr} {done : List Slot} {d : Draft} {slot : Slot} {out : List Instr}

/-- After the temporary register was freed, an operand is in a scratch slot, or it did not hold the
register and is what it was. -/
def Spilled (cx : Context) (d d' : Draft) : Prop := ∀ slot o, slot.get d'.instr = some o →
  (d.holder ≠ some slot ∧ slot.get d.instr = some o) ∨
    ∃ b k t, cx.scratch = some b ∧ k < 2 ∧ o = scratchSlot b k t

/-- The operand of the slot holds the temporary register, or only had its literals folded. -/
def HeldOrSettled (slot : Slot) (o : Operand) (d : Draft) : Prop :=
  d.holder = some slot ∨ slot.get d.instr = some (settled o)

/-- What has been emitted for operands so far. -/
abbrev Lines (e : Scene) (cx : Context) (s : Machine.State) (out : List Instr) : State → Prop :=
  Built e.locs (TempLine e cx s) out

theorem built_spill (h : Prepared e (e.scratch cx) s avoid i done d) :
    Maintains (Lines e cx s out) (spill cx d) fun d' =>
      Prepared e (e.scratch cx) s avoid i done d' ∧ d'.holder = none ∧ Spilled cx d d' := by
  unfold spill
  split
  · rename_i hnone
    refine maintains_pure ⟨h, hnone, fun slot o ho => .inl ⟨?_, ho⟩⟩
    rw [hnone]
    exact nofun
  rename_i other hother
  split
  · rename_i hempty
    refine maintains_pure ⟨⟨⟨h.admits, h.pending, h.op⟩, fun _ h => (nomatch h)⟩, rfl,
      fun slot o ho => .inl ⟨fun hslot => ?_, ho⟩⟩
    obtain rfl := Option.some.inj (hother.symm.trans hslot)
    cases hempty.symm.trans ho
  rename_i o ho
  split
  · exact maintains_fail cx _
  rename_i b hb
  split
  · exact maintains_fail cx _
  rename_i hroom
  have hdone := h.holder other hother
  have huse := (h.admits other hdone o ho).toUsable
  refine maintains_bind (built_keep (.keep _ _ huse hb (by omega))) fun _ _ =>
    maintains_pure ⟨⟨?_, ?_⟩, rfl, fun slot o' ho' => ?_⟩
  · have hhome : Admits e (e.scratch cx) s (avoid other)
        (scratchSlot b d.spilled (keptType o.ty)) :=
      admits_stack _ _
    have hput := h.toAhead.put hhome
    refine ⟨fun slot hslot => hput.admits slot (List.mem_cons_of_mem _ hslot), fun slot hslot => ?_,
      hput.op⟩
    refine hput.pending slot fun hin => ?_
    rcases List.mem_cons.mp hin with rfl | hin
    · exact hslot hdone
    · exact hslot hin
  · exact fun _ h => nomatch h
  · by_cases heq : other = slot
    · subst heq
      obtain rfl := Option.some.inj ((Slot.get_set ..).symm.trans ho')
      exact .inr ⟨b, d.spilled, keptType o.ty, hb, by omega, rfl⟩
    · refine .inl ⟨fun hslot => heq (Option.some.inj (hother.symm.trans hslot)), ?_⟩
      exact (Slot.get_set_ne heq _ d.instr).symm.trans ho'

theorem built_reserveTemp (slot : Slot) (h : Prepared e (e.scratch cx) s avoid i done d) :
    Maintains (Lines e cx s out) (reserveTemp cx slot d)
      (Claims e (e.scratch cx) s avoid i done slot) := by
  unfold reserveTemp
  split
  · split
    · exact maintains_pure ⟨⟨h.admits, h.pending, h.op⟩, rfl⟩
    · refine maintains_bind (built_spill h) fun d1 h1 => maintains_pure ⟨?_, rfl⟩
      exact ⟨h1.1.admits, h1.1.pending, h1.1.op⟩
  · exact maintains_pure ⟨⟨h.admits, h.pending, h.op⟩, rfl⟩

/-- A part is loaded. -/
theorem built_loadPart {part : Operand} (h : Usable e (e.scratch cx) s part) :
    Maintains (Lines e cx s out) (emit cx .move (some part) none (some (.reg (tempReg .i64))))
      fun _ => True :=
  built_keep (.load _ _ h)

/-- The parts that folding leaves of an address are loaded or stay in their registers. -/
theorem Proper.parts {ids : List Machine.RegId} {base index b x : Option Operand} {scale f : UInt8}
    {disp k : Int64} {t : Ty}
    (h : Proper e (e.scratch cx) s ids (.indirect base index scale disp t))
    (hfold : foldAddress base index scale disp = (b, x, f, k)) {part : Operand}
    (hpart : b = some part ∨ x = some part) :
    (inGpr e.locs part = true → FitPart e (e.scratch cx) s part ∧ (part = .reg (tempReg .i64) ∨
      ∀ id ∈ ids, readsKey e.locs id.toNat part = false)) ∧
    (inGpr e.locs part = false → Usable e (e.scratch cx) s part) := by
  obtain ⟨hparts, -, havoids⟩ := h
  obtain ⟨hb, hx, -⟩ := foldAddress_parts hfold
  obtain ⟨hlb, hlx⟩ := foldAddress_noLiteral hfold
  have hfrom : base = some part ∨ index = some part := by
    rcases hpart with hp | hp
    · exact (hb part hp).1
    · exact .inr (hx part hp)
  refine ⟨fun hgpr => ⟨hparts.stays part hfrom hgpr, .inr fun id hid => ?_⟩, fun hframe => ?_⟩
  · exact readsKey_indirect.mp (havoids id hid) part hfrom
  · refine hparts.loads part hfrom hframe ?_
    rintro l rfl
    rcases hpart with rfl | rfl
    · exact hlb l rfl
    · exact hlx l rfl

/-- A memory operand is made usable. -/
theorem built_address {base index : Option Operand} {scale : UInt8} {disp : Int64} {t : Ty}
    (hproper : Proper e (e.scratch cx) s (avoid slot) (.indirect base index scale disp t))
    (hids : Machine.r10 ∉ avoid slot) (h : Prepared e (e.scratch cx) s avoid i done d) :
    Maintains (Lines e cx s out) (address cx slot base index scale disp t d) fun d' =>
      Prepared e (e.scratch cx) s avoid i (slot :: done) d' ∧
        HeldOrSettled slot (.indirect base index scale disp t) d' := by
  have htemp : FitPart e (e.scratch cx) s (.reg (tempReg .i64)) ∧
      ((.reg (tempReg .i64) : Operand) = .reg (tempReg .i64) ∨
        ∀ id ∈ avoid slot, readsKey e.locs id.toNat (.reg (tempReg .i64)) = false) :=
          ⟨.inl rfl, .inl rfl⟩
  refine address_rule (K := fun o ok => ok = inGpr e.locs o)
    (R := fun m => Maintains (Lines e cx s out) m fun d' =>
      Prepared e (e.scratch cx) s avoid i (slot :: done) d' ∧
        HeldOrSettled slot (.indirect base index scale disp t) d')
    (S := fun d1 m => Claims e (e.scratch cx) s avoid i done slot d1 →
      Maintains (Lines e cx s out) m fun d' =>
        Prepared e (e.scratch cx) s avoid i (slot :: done) d' ∧
        HeldOrSettled slot (.indirect base index scale disp t) d')
    (fun err _ => maintains_fail cx err) (fun _ err _ _ => maintains_fail cx err)
    (fun o _ hf => maintains_bind (built_addressable cx (some o)) hf)
    (fun _ hf => maintains_bind (built_reserveTemp slot h) hf) ?_ ?_
  · intro b x f k hfold hfit hsome hgpr
    refine maintains_pure ⟨h.put (admits_indirect t hfit hsome hids fun part hp => ?_), .inr ?_⟩
    · exact (hproper.parts hfold hp).1 (hgpr part hp).symm
    · rw [settled, folded, hfold]
      exact Slot.get_set ..
  · intro b x f k hfold hfit lines b' x' f' hload d1 h1
    have hstays : ∀ part, b = some part ∨ x = some part → true = inGpr e.locs part → _ :=
      fun part hp hgpr => (hproper.parts hfold hp).1 hgpr.symm
    have hloads : ∀ part, b = some part ∨ x = some part → false = inGpr e.locs part → _ :=
      fun part hp hgpr => (hproper.parts hfold hp).2 hgpr.symm
    cases hload with
    | base form loaded kept =>
      refine maintains_bind (built_keep ?_) fun _ _ =>
        maintains_pure ⟨h1.put (admits_indirect t hfit (.inl rfl) hids ?_), .inl h1.holder⟩
      · rcases form with ⟨rfl, y, rfl⟩ | rfl
        · exact .address y _
        · exact .load _ _ (hloads _ (.inl rfl) loaded)
      · rintro part (hp | hp)
        · cases hp
          exact htemp
        · exact hstays part (.inr hp) (kept part hp)
    | index loaded kept =>
      refine maintains_bind (built_loadPart (hloads _ (.inr rfl) loaded)) fun _ _ =>
        maintains_pure ⟨h1.put (admits_indirect t hfit (.inr rfl) hids ?_), .inl h1.holder⟩
      rintro part (hp | hp)
      · exact hstays part (.inl hp) (kept part hp)
      · cases hp
        exact htemp
    | sum hbase hindex hnamed =>
      obtain ⟨hb0, hx0, -⟩ := foldAddress_both hfold
      obtain ⟨hlb, hlx⟩ := foldAddress_noLiteral hfold
      obtain ⟨hw, -⟩ := hproper.2.1.scaled _ _ hb0 hx0 (hb0 ▸ hlb)
        (hx0 ▸ hlx) hbase.symm hindex.symm hnamed
      refine sumLines_rule (R := fun m => Maintains (Lines e cx s out) m _)
        (fun _ hm => maintains_bind (built_loadPart (hloads _ (.inr rfl) hindex)) fun _ _ => hm)
        (fun l _ hm => maintains_bind (built_keep (.scale l _)) fun _ _ => hm)
        (fun _ hm => maintains_bind (built_keep (.sum _ (hloads _ (.inl rfl) hbase) hw))
          fun _ _ => hm)
        (maintains_pure ⟨h1.put (admits_indirect t hfit (.inl rfl) hids ?_), .inl h1.holder⟩)
      rintro part (hp | hp) <;> cases hp
      exact htemp

/-- A source that is no literal is made usable. -/
theorem built_source {o : Operand} {narrow : Bool} (ho : slot.get d.instr = some o)
    (hproper : Proper e (e.scratch cx) s (avoid slot) o) (hids : Machine.r10 ∉ avoid slot)
    (h : Prepared e (e.scratch cx) s avoid i done d) :
    Maintains (Lines e cx s out) (source cx slot narrow d) fun d' =>
      Prepared e (e.scratch cx) s avoid i (slot :: done) d' ∧ HeldOrSettled slot o d' := by
  have hself : Admits e (e.scratch cx) s (avoid slot) o → settled o = o →
      Prepared e (e.scratch cx) s avoid i (slot :: done) d ∧
      HeldOrSettled slot o d := fun huse hplain =>
    ⟨h.cons fun o' ho' => Option.some.inj (ho.symm.trans ho') ▸ huse,
      .inr (ho.trans (congrArg some hplain.symm))⟩
  unfold source
  rw [ho]
  cases o with
  | imm l => cases hproper.shaped
  | label l => cases hproper.shaped
  | list items => cases hproper.shaped
  | var v => exact maintains_bind (maintains_locate cx v) fun _ _ =>
    maintains_pure (hself hproper rfl)
  | indirect base index scale disp t => exact built_address hproper hids h
  | _ => exact maintains_pure (hself hproper rfl)

/-- An output is made usable. -/
theorem built_dest {o : Operand} (ho : d.instr.output = some o)
    (hproper : Proper e (e.scratch cx) s (avoid .output) o) (hids : Machine.r10 ∉ avoid .output)
    (h : Prepared e (e.scratch cx) s avoid i done d) :
    Maintains (Lines e cx s out) (dest cx .output d)
      (Prepared e (e.scratch cx) s avoid i (.output :: done)) := by
  have hget : Slot.output.get d.instr = some o := ho
  have hself : Admits e (e.scratch cx) s (avoid .output) o →
      Prepared e (e.scratch cx) s avoid i (.output :: done) d := fun huse =>
    h.cons fun o' ho' => Option.some.inj (hget.symm.trans ho') ▸ huse
  unfold dest
  rw [hget]
  cases o with
  | imm l => cases hproper.shaped
  | label l => cases hproper.shaped
  | list items => cases hproper.shaped
  | var v => exact maintains_bind (maintains_locate cx v) fun _ _ => maintains_pure (hself hproper)
  | indirect base index scale disp t => exact (built_address hproper hids h).mono fun _ h => h.1
  | symbol y =>
    dsimp only
    split
    · exact maintains_fail cx _
    · exact maintains_pure (hself hproper)
  | _ => exact maintains_pure (hself hproper)

end Steps

end Backend.Lowering
