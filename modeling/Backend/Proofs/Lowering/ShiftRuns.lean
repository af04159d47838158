-- What a shift is lowered to, by how its count is supplied, and what the machine does on its code.
-- A literal stays in the instruction, and any other count goes to cl. Where rcx is free, the shift
-- is done in the output once cl has the count; where a variable lives there, rcx is pushed, and the
-- shift is done in the temporary register.
import Backend.Proofs.Lowering.Division
import Backend.Proofs.Lowering.Places
import Backend.Proofs.Lowering.SharedEffects

namespace Backend.Lowering

open Backend.Machine (Place Assigns ChangesOnly Pushed acts convert run steps)
open Backend.Selection (shifted? IntOperand IsWidth Resolves usesReg)

/-! ## Drafts -/

/-- The sources of a shift that counts in cl, and the register that its count goes to. -/
def countedSources (cx : Context) (i : Instr) : LowerM (Draft × Reg) := do
  let d ← source cx .first false (.of i)
  let d ← source cx .second false d
  pure (d, regFor Machine.rcx (d.typeAt .second))

/-- If no variable lives in rcx, the output is made encodable before the count is moved. -/
def freeDraft (cx : Context) (i : Instr) : LowerM (Draft × Reg) :=
  countedSources cx i >>= fun x => dest cx .output x.1 >>= fun d => pure (d, x.2)

/-- If a variable lives in rcx, the temporary register is left to the value. -/
def savedDraft (cx : Context) (i : Instr) : LowerM (Draft × Reg) :=
  countedSources cx i >>= fun x =>
    (if x.1.holder == some .second then spill cx x.1 else pure x.1) >>= fun d => pure (d, x.2)

/-- The low byte of rcx. -/
def cl : Operand := .reg (gpr Machine.rcx 1)

/-- The shift itself, after its count. -/
def freeLines (cx : Context) (d : Draft) (count : Reg) : List Instr :=
  [lineAt cx.instr .move d.instr.second none (some (.reg count)), (d.put .second cl).instr]

/-- The shift in the temporary register between saving and restoring rcx. -/
def savedLines (cx : Context) (d : Draft) (count temp : Reg) : List Instr :=
  [lineAt cx.instr .move d.instr.first none (some (.reg temp)),
    lineAt cx.instr .push (some (.reg regRcx)) none none,
    lineAt cx.instr .move d.instr.second none (some (.reg count)),
    lineAt cx.instr cx.instr.op (some (.reg temp)) (some cl) (some (.reg temp)),
    lineAt cx.instr .pop none none (some (.reg regRcx))]

/-- The result is stored. -/
def storeDraft (cx : Context) (temp : Reg) (output : Option Operand) : Draft :=
  ⟨lineAt cx.instr .move (some (.reg temp)) none output, some .first, 0⟩

section Runs

variable {cx : Context} {st st' : State}

theorem extends_countedSources (cx : Context) (i : Instr) : Extends (countedSources cx i) :=
  extends_bind (extends_source cx _ _ _) fun d => extends_bind (extends_source cx _ _ d) fun _ =>
    extends_pure _

/-- Variables are where they were once the sources are encodable. -/
theorem occupies_countedSources {i : Instr} {x : Draft × Reg} {st1 : State} {r : Reg}
    (h : countedSources cx i st = .ok (x, st1)) :
    st1.closure.locations.occupies r = st.closure.locations.occupies r := by
  obtain ⟨-, hlocs, -⟩ := extends_countedSources cx i st x st1 h
  rw [hlocs]

/-- A shift whose count is no literal starts with its sources. -/
theorem sources_of_shift {i : Instr} (hcount : ∀ l, i.second ≠ some (.imm l)) :
    shift cx i = (countedSources cx i >>= fun x => get >>= fun st =>
      if !st.closure.locations.occupies regRcx then do
        let d ← dest cx .output x.1
        emit cx .move d.instr.second none (some (.reg x.2))
        keep (d.put .second cl).instr
      else
        (if x.1.holder == some .second then spill cx x.1 else pure x.1) >>= fun d => do
          emit cx .move d.instr.first none (some (.reg (tempReg (opType i))))
          emit cx .push (some (.reg regRcx)) none none
          emit cx .move d.instr.second none (some (.reg x.2))
          emit cx i.op (some (.reg (tempReg (opType i)))) (some cl)
            (some (.reg (tempReg (opType i))))
          emit cx .pop none none (some (.reg regRcx))
          store cx (tempReg (opType i)) d.instr.output) := by
  unfold shift countedSources
  dsimp only
  split
  · rename_i l hl
    exact absurd hl (hcount l)
  · simp only [bind_assoc, pure_bind]
    refine bind_congr fun d => bind_congr fun d1 => bind_congr fun st => ?_
    split
    · rfl
    · split <;> rfl

/-- What is emitted for a shift if no variable lives in rcx. -/
theorem shift_of_free {i : Instr} (hcount : ∀ l, i.second ≠ some (.imm l))
    (hfree : st.closure.locations.occupies regRcx = false) (h : shift cx i st = .ok ((), st')) :
    ∃ d r st1, freeDraft cx i st = .ok ((d, r), st1) ∧
      st' = { st1 with out := st1.out ++ freeLines cx d r } := by
  rw [sources_of_shift hcount] at h
  obtain ⟨⟨d, r⟩, st1, hsources, h⟩ := run_bind.mp h
  rw [run_get, occupies_countedSources hsources, hfree] at h
  obtain ⟨d', st2, hdest, h⟩ := run_bind.mp h
  obtain ⟨_, st3, hmove, h⟩ := run_bind.mp h
  cases hmove
  cases h
  refine ⟨d', r, st2, ?_, ?_⟩
  · exact run_bind.mpr ⟨_, st1, hsources, run_bind.mpr ⟨d', st2, hdest, rfl⟩⟩
  · simp [freeLines, lineAt]

/-- What is emitted for a shift if a variable lives in rcx. -/
theorem shift_of_occupied {i : Instr} (hcount : ∀ l, i.second ≠ some (.imm l))
    (hop : i.op = cx.instr.op) (hoccupied : st.closure.locations.occupies regRcx = true)
    (h : shift cx i st = .ok ((), st')) :
    ∃ d r st1 d' st2, savedDraft cx i st = .ok ((d, r), st1) ∧
      dest cx .output (storeDraft cx (tempReg (opType i)) d.instr.output)
        { st1 with out := st1.out ++ savedLines cx d r (tempReg (opType i)) } = .ok (d', st2) ∧
      st' = { st2 with out := st2.out ++ [d'.instr] } := by
  rw [sources_of_shift hcount] at h
  obtain ⟨⟨d, r⟩, st1, hsources, h⟩ := run_bind.mp h
  rw [run_get, occupies_countedSources hsources, hoccupied, if_neg (by decide)] at h
  obtain ⟨d', st2, hspill, h⟩ := run_bind.mp h
  obtain ⟨_, st3, hfirst, h⟩ := run_bind.mp h
  cases hfirst
  obtain ⟨_, st3, hpush, h⟩ := run_bind.mp h
  cases hpush
  obtain ⟨_, st3, hsecond, h⟩ := run_bind.mp h
  cases hsecond
  obtain ⟨_, st3, hshift, h⟩ := run_bind.mp h
  cases hshift
  obtain ⟨_, st3, hpop, h⟩ := run_bind.mp h
  cases hpop
  obtain ⟨d'', st3, hdest, h⟩ := run_bind.mp h
  cases h
  refine ⟨d', r, st2, d'', st3, ?_, ?_, rfl⟩
  · exact run_bind.mpr ⟨_, st1, hsources, run_bind.mpr ⟨d', st2, hspill, rfl⟩⟩
  · rw [← hdest]
    simp [savedLines, lineAt, storeDraft, hop]
    rfl

end Runs

/-! ## Preparing operands -/

/-- The operand is a place that the machine finds without the registers. -/
structure Found (e : Scene) (c : Closure) (s : Machine.State) (ids : List Machine.RegId)
    (o : Operand) (a : Machine.Operand) : Prop extends Denotes e s o a where
  operand : Selection.operand c o = .ok a
  free : usesReg Machine.r11 a = false
  avoids : ∀ id ∈ ids, usesReg id a = false

section Found

variable {e : Scene} {cx : Context} {c : Closure} {s s1 : Machine.State} {ids : List Machine.RegId}
  {o o' : Operand} {a : Machine.Operand} {p q : Place} {n : Nat}

theorem found_of_admits (hlocs : c.locations = e.locs) (h : Admits e (e.scratch cx) s ids o)
    (hs : Untouched (e.scratch cx) 0 s s1) (hrbp : s.regs Machine.rbp = e.base)
    (hids : Machine.rbp ∉ ids)
    (ho : Selection.operand c o = .ok a) : Found e c s1 ids o a where
  toDenotes := denotes_of_usable hlocs h.toUsable hs
    ((hs.regs Machine.rbp (by decide) (by decide)).trans hrbp) ho
  operand := ho
  free := usesReg_eq_false hlocs ho h.free (by decide)
  avoids id hid := usesReg_eq_false hlocs ho (h.avoids id hid) fun hrbp' => hids (hrbp' ▸ hid)

/-- An operand that can be used is no list. -/
theorem Usable.ne_list {scratch : Option (BitVec 64)} (h : Usable e scratch s o)
    (items : List Operand) :
    o ≠ .list items := by
  rintro rfl
  cases h.shaped

theorem Found.resolves (h : Found e c s ids o a) {w : UInt8} (hw : machineWidth o = w) :
    Resolves c w (some o) a :=
  ⟨Selection.optional_of_operand h.operand, hw ▸ h.int, h.free⟩

/-- What the machine reads of the operand. -/
theorem Found.value (h : Found e c s ids o a) (hp : e.place? s o = some p) (n : Nat) :
    a.value e.link s n = s.get p n :=
  value_of_place (h.toDenotes.machine hp) n

theorem brought_held (h : width o = n) : (held s o p).brought n = s.get p n := by
  subst h
  exact Datum.brought_self _

/-- An operand that stands for another one is as wide and holds the same bytes. -/
theorem held_of_standsFor (h : StandsFor e 8 s o s1 o') (hplain : ∀ l, o ≠ .imm l)
    (hq : e.place? s o = some q) (hp : e.place? s1 o' = some p) :
    width o' = width o ∧ s1.get p (width o) = s.get q (width o) := by
  have hplain' : ∀ l, o' ≠ .imm l := fun l hl => hplain l (h.literal l hl)
  have hwidth : width o' = width o := by
    rw [← comparedWidth_of_plain hplain', ← comparedWidth_of_plain hplain, h.width]
  obtain ⟨v, hv, hagrees⟩ := h.worth _ (datum?_of_place hq)
  obtain rfl := Option.some.inj ((datum?_of_place hp).symm.trans hv)
  refine ⟨hwidth, ?_⟩
  rw [← brought_held hwidth, ← brought_held (o := o) rfl]
  exact hagrees.1 _ (width_le_eight o)

/-- The source of a draft that stands for one of the instruction. -/
theorem Sourceful.stands {m : Nat} {i : Instr} {d : Draft} {slot : Slot}
    (h : Sourceful e cx m s i d s1) (hslot : slot ≠ .output) (ho : slot.get i = some o) :
    ∃ o', slot.get d.instr = some o' ∧ StandsFor e m s o s1 o' := by
  have hsource := h.source slot hslot
  rw [ho] at hsource
  exact rel_left (R := fun o o' => StandsFor e m s o s1 o') hsource

/-- The output of a draft. -/
theorem Finished.place {m : Nat} {i : Instr} {d : Draft} (h : Finished e cx m s i d s1)
    (ho : i.output = some o) : ∃ o', d.instr.output = some o' ∧ e.place? s1 o' = e.place? s o ∧
      o'.ty = o.ty ∧ width o' = width o := by
  have houtput := h.output
  rw [ho] at houtput
  exact rel_left houtput

/-- A source of an instruction as the machine finds it in a draft: it holds what it held. -/
structure SourceFound (e : Scene) (c : Closure) (s s1 : Machine.State) (ids : List Machine.RegId)
    (o : Operand) (q : Place) (o' : Operand) (a : Machine.Operand) (p : Place) : Prop extends
    Found e c s1 ids o' a where
  placed : e.place? s1 o' = some p
  width_eq : Lowering.width o' = Lowering.width o
  kept : s1.get p (Lowering.width o) = s.get q (Lowering.width o)

/-- What the machine reads of the source. -/
theorem SourceFound.reads (h : SourceFound e c s s1 ids o q o' a p) :
    a.value e.link s1 (width o) = s.get q (width o) :=
  (h.toFound.value h.placed _).trans h.kept

/-- The output of an instruction as the machine finds it in a draft: the place is the one that it
was. -/
structure OutputFound (e : Scene) (c : Closure) (s s1 : Machine.State) (ids : List Machine.RegId)
    (o o' : Operand) (a : Machine.Operand) (p : Place) : Prop extends Found e c s1 ids o' a where
  placed : e.place? s o = some p
  machine_place : a.place? e.link s1 = some p
  ty_eq : o'.ty = o.ty
  width_eq : Lowering.width o' = Lowering.width o

section Draft

variable {i : Instr} {d : Draft} {slot : Slot} {avoid : Slot → List Machine.RegId}
  {done : List Slot}

theorem exists_sourceFound (hs : Sourceful e cx 8 s i d s1)
    (hprep : Prepared e (e.scratch cx) s avoid i done d) (hdone : slot ∈ done)
    (hslot : slot ≠ .output) (ho : slot.get i = some o) (hplain : ∀ l, o ≠ .imm l)
    (hq : e.place? s o = some q) (hlocs : c.locations = e.locs) (hrbp : s.regs Machine.rbp = e.base)
    (hids : Machine.rbp ∉ avoid slot)
    (hform : ∀ o', slot.get d.instr = some o' → ∃ a, Selection.operand c o' = .ok a) :
    ∃ o' a p, slot.get d.instr = some o' ∧ SourceFound e c s s1 (avoid slot) o q o' a p := by
  obtain ⟨o', ho', hstands⟩ := hs.stands hslot ho
  obtain ⟨a, ha⟩ := hform o' ho'
  have hfound := found_of_admits hlocs (hprep.admits slot hdone o' ho') hs.untouched hrbp hids ha
  obtain ⟨p, hp, -⟩ := hfound.place
  obtain ⟨hwidth, hvalue⟩ := held_of_standsFor hstands hplain hq hp
  exact ⟨o', a, p, ho', hfound, hp, hwidth, hvalue⟩

theorem exists_outputFound (hf : Finished e cx 8 s i d s1)
    (hprep : Prepared e (e.scratch cx) s avoid i done d) (hdone : Slot.output ∈ done)
    (ho : i.output = some o) (hlocs : c.locations = e.locs)
    (hrbp : s.regs Machine.rbp = e.base) (hids : Machine.rbp ∉ avoid .output)
    (hform : ∀ o', d.instr.output = some o' → (∀ items, o' ≠ .list items) → ∃ a,
      Selection.operand c o' = .ok a) :
    ∃ o' a p, d.instr.output = some o' ∧ OutputFound e c s s1 (avoid .output) o o' a p := by
  obtain ⟨o', ho', hplace, hty, hwidth⟩ := hf.place ho
  have hadmits := hprep.admits .output hdone o' ho'
  obtain ⟨a, ha⟩ := hform o' ho' hadmits.toUsable.ne_list
  have hfound := found_of_admits hlocs hadmits hf.untouched hrbp hids ha
  obtain ⟨p, hp, hmachine⟩ := hfound.place
  exact ⟨o', a, p, ho', hfound, hplace.symm.trans hp, hmachine, hty, hwidth⟩

end Draft

end Found

section Kept

variable {l : Machine.Linkage} {s s' : Machine.State} {ids : List Machine.RegId}
  {a : Machine.Operand} {n : Nat}

/-- An operand that uses none of the registers is worth as much after they changed. -/
theorem value_of_changesOnly (hc : ChangesOnly ids s s') (ha : ∀ id ∈ ids, usesReg id a = false)
    (hn : n ≤ 8) :
    a.value l s' n = a.value l s n := by
  refine Selection.value_of_regs a hn (fun r hr => hc.regs r fun hin => ?_)
    (fun r => congrFun hc.xmms r) fun b _ x _ => congrFun hc.mem x
  rw [ha r hin] at hr
  cases hr

/-- The place of an operand in memory that uses none of the registers, and of one in a register. -/
theorem place_of_changesOnly (hc : ChangesOnly ids s s')
    (ha : (∃ id, a.place? l s = some (.reg id)) ∨ ∀ id ∈ ids, usesReg id a = false) :
    a.place? l s' = a.place? l s := by
  rcases ha with ⟨id, hreg⟩ | ha
  · cases a <;> first | rfl | cases hreg
  · refine Selection.place_of_regs a fun r hr => hc.regs r fun hin => ?_
    rw [ha r hin] at hr
    cases hr

/-- An assignment after registers changed. -/
theorem assigns_of_changesOnly {s1 : Machine.State} {scratch : List Machine.RegId} {p : Place}
    {v : BitVec (8 * n)} (hc : ChangesOnly ids s s1) (h : Assigns p v scratch s1 s')
    (hsub : scratch ⊆ ids) :
    Assigns p v ids s s' where
  value := h.value
  regs r hp hr := (h.regs r hp fun hin => hr (hsub hin)).trans (hc.regs r hr)
  xmms r hp := (h.xmms r hp).trans (congrFun hc.xmms r)
  mem x hx := (h.mem x hx).trans (congrFun hc.mem x)

/-- The machine counts a shift modulo a divisor of 256. -/
theorem byte_mod_shiftModulus {k : Nat} (v : BitVec k) (n : Nat) :
    (v.setWidth 8).toNat % Machine.shiftModulus n = v.toNat % Machine.shiftModulus n := by
  rw [BitVec.toNat_setWidth]
  refine Nat.mod_mod_of_dvd _ ?_
  unfold Machine.shiftModulus
  split <;> decide

end Kept

/-- A step that works and whose lines are ones of operands: its code runs, and ends where the lines
end. -/
theorem acts_of_works {α : Type} {e : Scene} {cx : Context} {c : Closure} {s : Machine.State}
    {m : LowerM α} {a : α} {st st' : State} {Q : α → Machine.State → Prop} {R : α → Prop}
    (hworks : Works e m (fun s1 => s1 = s) Q) (hlines : Maintains (Lines e cx s st.out) m R)
    (hok : m st = .ok (a, st')) (hst : st.closure.locations = e.locs)
    (hplaces : e.Places st'.closure)
    (hlocs : c.locations = e.locs) (hrbp : s.regs Machine.rbp = e.base) :
    R a ∧ ∃ lines, st'.out = st.out ++ lines ∧ ∀ code, Selection.instrs c lines = .ok code →
      ∃ s1, acts e.link code s = some s1 ∧ Q a s1 ∧ Untouched (e.scratch cx) 0 s s1 := by
  have hbuilt := built_start (P := TempLine e cx s) st
  rw [hst] at hbuilt
  obtain ⟨⟨-, lines, hout, hall⟩, hr⟩ := hlines st a st' hok hbuilt
  refine ⟨hr, lines, hout, fun code hsel => ?_⟩
  exact acts_of_ensures hlocs hall (.refl s) hrbp hsel
    (hworks.ensures s st a st' lines rfl hok hst hplaces hout)

/-! ## Shifts -/

/-- The operands of a shift: an integer and its output of one width, at places, and a count. -/
structure PlacedShift (e : Scene) (cx : Context) (s : Machine.State) (i : Instr)
    (value output : Operand) :
    Prop where
  hasValue : i.first = some value
  hasOutput : i.output = some output
  hasAddend : i.addend = none
  placedValue : IntegerPlace e cx s value
  placedOutput : IntegerPlace e cx s output
  sameWidth : width value = width output

/-- A shift by a count at a place. -/
structure CountedShift (e : Scene) (cx : Context) (s : Machine.State) (i : Instr)
    (value count output : Operand) : Prop extends PlacedShift e cx s i value output where
  hasCount : i.second = some count
  placedCount : IntegerPlace e cx s count

section Shifts

variable {e : Scene} {cx : Context} {c : Closure} {s s1 : Machine.State} {i : Instr}
  {value count output : Operand} {f : (n : Nat) → BitVec n → Nat → BitVec n}

theorem CountedShift.suited (h : CountedShift e cx s i value count output) :
    ∀ slot : Slot, slot ≠ .output → ∀ o, slot.get i = some o → Suited e cx s o := by
  intro slot hne o ho
  cases slot with
  | first =>
    obtain rfl := Option.some.inj (h.hasValue.symm.trans ho)
    exact h.placedValue.toSuited
  | second =>
    obtain rfl := Option.some.inj (h.hasCount.symm.trans ho)
    exact h.placedCount.toSuited
  | addend => cases h.hasAddend.symm.trans ho
  | output => exact absurd rfl hne

theorem PlacedShift.suitedOutput (h : PlacedShift e cx s i value output) :
    ∀ o, i.output = some o → Suited e cx s o := by
  intro o ho
  obtain rfl := Option.some.inj (h.hasOutput.symm.trans ho)
  exact h.placedOutput.toSuited

/-- The type of a shift is that of its output. -/
theorem opType_shift {o : Operand} (hop : shifted? i.op = some f) (ho : i.output = some o)
    (hint : o.ty.isInteger = true) : opType i = o.ty := by
  have hvoid : o.ty ≠ .void := by
    intro h
    rw [h] at hint
    cases hint
  unfold opType
  cases hi : i.op <;> rw [hi] at hop <;>
    first
    | (cases hop; done)
    | simp [ho, hvoid, Opcode.isCompare, Opcode.isBranch, Opcode.isCondBranch]

/-! ## The instruction itself -/

/-- The code of a shift by cl. -/
theorem run_clShift {l : Machine.Linkage} {w : UInt8} {d a : Machine.Operand} {r : Machine.Reg}
    {code : List Machine.Inst} (hw : IsWidth w) (hop : shifted? i.op = some f)
    (hint : (opType i).isFloat = false)
    (hd : Resolves c w i.output d) (ha : Resolves c w i.first a)
    (hr : Selection.optional c i.second = .ok (some (.reg r))) (hrcx : r.id = Machine.rcx)
    (hsel : Selection.instr c i = .ok code) :
    ∃ p s', d.place? l s = some p ∧ run l code s = some s' ∧
      Assigns p (f _ (a.value l s w.toNat)
        (((s.regs Machine.rcx).setWidth 8).toNat % Machine.shiftModulus w.toNat)) [Machine.r11] s
        s' := by
  obtain ⟨x, y, hx, hy, hcode⟩ :=
    Selection.instr_eq_intArithmetic (Selection.isArithmetic_of_shifted hop)
    hint hd.operand hsel
  obtain rfl := Except.ok.inj (ha.operand.symm.trans hx)
  obtain rfl := Except.ok.inj (hr.symm.trans hy)
  refine Selection.run_shift hw hd.int hd.free ha.int hop (fun o ho => ?_) hcode
  simp only [Selection.shiftCount, hrcx, bne_self_eq_false, Bool.false_eq_true, if_false,
    Except.ok.injEq] at ho
  subst ho
  refine ⟨rfl, fun s1 hval => ?_⟩
  have hcl : (s1.regs Machine.rcx).setWidth 8 = (s.regs Machine.rcx).setWidth 8 := hval 1
  simp [Machine.shiftCount?, hcl]

/-- Cutting or extending a value keeps its low byte. -/
theorem setWidth_convert (ext : Bool) {n k : Nat} (v : BitVec (8 * k)) (hn : 1 ≤ n) (hk : 1 ≤ k) :
    (convert ext n v).setWidth (8 * 1) = v.setWidth (8 * 1) := by
  have hlow := Datum.convert_brought ⟨ext, k, v⟩ false hn
  rw [Selection.convert_of_le _ _ hn] at hlow
  exact hlow.trans (Selection.convert_of_le ext v hk)

/-- A part of rcx that is as wide as a register for some type. -/
def IsCountReg (r : Reg) : Prop := ∃ t, r = gpr Machine.rcx (registerWidth t)

theorem isCountReg_regFor {t : Ty} (h : t.isFloat = false) : IsCountReg (regFor Machine.rcx t) := by
  refine ⟨t, ?_⟩
  rw [regFor, h]
  rfl

/-- Moving the count to rcx leaves its low byte in cl. -/
theorem run_count {l : Machine.Linkage} {o : Operand} {a : Machine.Operand} {r : Reg} {w : UInt8}
    {pos : Position} {code : List Machine.Inst} (hr : IsCountReg r) (hint : IntOperand w a)
    (hwidth : Selection.sourceWidth a = width o) (hpos : 1 ≤ width o)
    (ho : Selection.operand c o = .ok a)
    (hsel : Selection.instr c ⟨.move, some o, none, none, some (.reg r), pos⟩ = .ok code) :
    ∃ s', run l code s = some s' ∧ ChangesOnly [Machine.rcx, Machine.r11] s s' ∧
      (s'.regs Machine.rcx).setWidth 8 = (a.value l s (width o)).setWidth 8 := by
  obtain ⟨t, rfl⟩ := hr
  obtain ⟨p, s', hp, hrun, hassigns⟩ :=
    run_moveOperands (l := l) (s := s) hint (isWidth_registerWidth t)
    (show IntOperand _ (.reg ⟨Machine.rcx, UInt8.ofNat (registerWidth t)⟩) from rfl) ho rfl rfl hsel
  cases hp
  refine ⟨s', hrun, Machine.changesOnly_of_assigns hassigns, ?_⟩
  have hpos' : 1 ≤ (UInt8.ofNat (registerWidth t)).toNat := by
    cases t <;> decide
  have hlow := (hassigns.narrow 1 hpos').value
  rw [setWidth_convert _ _ hpos' (by omega), hwidth] at hlow
  exact hlow

/-! ## Sources -/

/-- The sources of a shift are made usable. -/
theorem built_countedSources {avoid : Slot → List Machine.RegId} {out : List Instr}
    (h : CountedShift e cx s i value count output) (hids : ∀ slot, Machine.r10 ∉ avoid slot)
    (hvalue : ∀ id ∈ avoid .first, readsKey e.locs id.toNat value = false)
    (hcount : ∀ id ∈ avoid .second, readsKey e.locs id.toNat count = false) :
    Maintains (Lines e cx s out) (countedSources cx i) fun x =>
      Prepared e (e.scratch cx) s avoid i [.second, .first] x.1 ∧
        HeldOrSettled .second count x.1 := by
  refine maintains_bind (built_source h.hasValue (h.placedValue.proper hvalue) (hids .first)
    (prepared_start e _ s avoid i)) fun d h1 => ?_
  have hsecond : Slot.second.get d.instr = some count :=
    (h1.1.pending .second (by simp)).trans h.hasCount
  refine maintains_bind (built_source hsecond (h.placedCount.proper hcount) (hids .second) h1.1)
    fun d h2 => maintains_pure h2

theorem works_countedSources (h : CountedShift e cx s i value count output) :
    Works e (countedSources cx i) (fun s1 => s1 = s) fun x s1 => Standing e cx 8 s i x.1 s1 ∧
      IsCountReg x.2 := by
  have hsuit := h.suited
  refine works_bind (works_first (Nat.le_refl 8) (hsuit .first (by decide))
    (stable_of_suited hsuit)) fun d => ?_
  refine works_bind (works_second (Nat.le_refl 8) (hsuit .second (by decide)) fun h => by cases h)
    fun d => ?_
  refine works_pure fun s1 h1 => ⟨h1.standing, isCountReg_regFor ?_⟩
  obtain ⟨o, ho, hstands⟩ :=
    h1.standing.sourceful.stands (show Slot.second ≠ .output by decide) h.hasCount
  rw [Draft.typeAt, ho]
  exact hstands.float.trans h.placedCount.isFloat_eq

/-! ## With rcx free -/

/-- The registers that the operands must not read where the count goes to rcx at once. An output in
a register is written only. -/
def freeAvoids (output : Operand) : Slot → List Machine.RegId
  | .first => [Machine.rcx]
  | .output => match output with
    | .reg _ => []
    | _ => [Machine.rcx]
  | _ => []

/-- The operands do not read rcx, where no variable lives. -/
structure FreeCount (locs : Locations) (value output : Operand) : Prop where
  avoidsCount : readsKey locs Machine.rcx.toNat value = false
  written : (∃ r, output = .reg r) ∨ readsKey locs Machine.rcx.toNat output = false

theorem FreeCount.avoids (h : FreeCount e.locs value output) :
    ∀ id ∈ freeAvoids output .output, readsKey e.locs id.toNat output = false := by
  intro id hid
  rcases h.written with ⟨r, rfl⟩ | houtput
  · cases hid
  · obtain rfl : id = Machine.rcx := by
      cases output <;> first | exact List.mem_singleton.mp hid | cases hid
    exact houtput

theorem r10_notMem_freeAvoids (output : Operand) (slot : Slot) :
    Machine.r10 ∉ freeAvoids output slot := by
  cases slot <;> cases output <;> simp [freeAvoids] <;> decide

theorem rbp_notMem_freeAvoids (output : Operand) (slot : Slot) :
    Machine.rbp ∉ freeAvoids output slot := by
  cases slot <;> cases output <;> simp [freeAvoids] <;> decide

theorem freeAvoids_output (output : Operand) :
    (∃ r, output = .reg r) ∨ freeAvoids output .output = [Machine.rcx] := by
  cases output <;> simp [freeAvoids]

theorem built_freeDraft {out : List Instr} (h : CountedShift e cx s i value count output)
    (hfree : FreeCount e.locs value output) :
    Maintains (Lines e cx s out) (freeDraft cx i) fun x =>
      Prepared e (e.scratch cx) s (freeAvoids output) i [.output, .second, .first] x.1 := by
  have hvalue : ∀ id ∈ freeAvoids output .first, readsKey e.locs id.toNat value = false := by
    intro id hid
    obtain rfl := List.mem_singleton.mp hid
    exact hfree.avoidsCount
  have hids := r10_notMem_freeAvoids output
  refine maintains_bind (built_countedSources h hids hvalue fun _ h => nomatch h) fun x h1 => ?_
  have houtput : x.1.instr.output = some output :=
    (h1.1.pending .output (by simp)).trans h.hasOutput
  refine maintains_bind (built_dest houtput (h.placedOutput.proper hfree.avoids)
    (hids .output) h1.1) fun d h2 => ?_
  exact maintains_pure h2

theorem works_freeDraft (h : CountedShift e cx s i value count output) :
    Works e (freeDraft cx i) (fun s1 => s1 = s) fun x s1 => Finished e cx 8 s i x.1 s1 ∧
      IsCountReg x.2 := by
  refine works_bind (works_countedSources h) fun x => ?_
  refine works_assume ?_ fun hcount => ?_
  · exact extends_bind (extends_dest cx .output x.1) fun d => extends_pure _
  refine works_bind (Q := fun d s1 => Finished e cx 8 s i d s1) ?_ fun d => works_pure fun s1 h1 =>
    ⟨h1, hcount⟩
  refine works_each (extends_dest cx .output x.1) fun s1 h1 => ?_
  refine (works_dest (Nat.le_refl 8) h.suitedOutput h1.output).mono
    (fun s2 h2 => ?_) fun d s2 h2 => h2.1
  rw [h2]
  exact h1

theorem isSelectedByOperands_of_shifted {op : Opcode} (h : shifted? op = some f) :
    Selection.isSelectedByOperands op = true := by
  cases op <;> first | rfl | cases h

/-- With rcx free, the shift is done in the output after the count was moved to rcx. -/
theorem acts_freeLines {d : Draft} {r : Reg} {code : List Machine.Inst} {qv qc : Place}
    (h : CountedShift e cx s i value count output) (hop : shifted? i.op = some f)
    (hfin : Finished e cx 8 s i d s1)
    (hprep : Prepared e (e.scratch cx) s (freeAvoids output) i [.output, .second, .first] d)
    (hr : IsCountReg r)
    (hlocs : c.locations = e.locs) (hrbp : s.regs Machine.rbp = e.base)
    (hqv : e.place? s value = some qv)
    (hqc : e.place? s count = some qc) (hsel : Selection.instrs c (freeLines cx d r) = .ok code) :
    ∃ p s', e.place? s output = some p ∧ acts e.link code s1 = some s' ∧
      Assigns p (f _ (s.get qv (width output))
        ((s.get qc (width count)).toNat % Machine.shiftModulus (width output)))
        [Machine.rcx, Machine.r11] s1 s' := by
  obtain ⟨move, rest, hmove, hrest, rfl⟩ := Selection.instrs_cons_eq_ok.mp hsel
  obtain ⟨shift, last, hshift, hlast, rfl⟩ := Selection.instrs_cons_eq_ok.mp hrest
  cases hlast
  have hop' : shifted? (d.put .second cl).instr.op = some f := by
    rw [← hop, ← hprep.op]
    rfl
  -- Where the machine finds the operands.
  obtain ⟨hform2, -, -⟩ := Selection.operands_of_instr rfl hmove
  obtain ⟨hform1, -, hform3⟩ :=
    Selection.operands_of_instr (isSelectedByOperands_of_shifted hop') hshift
  have hrbp' := rbp_notMem_freeAvoids output
  obtain ⟨o1, a1, p1, ho1, hfound1⟩ :=
    exists_sourceFound hfin.toSourceful hprep (by simp) (by decide)
    (show Slot.first.get i = some value from h.hasValue) h.placedValue.ne_imm hqv hlocs hrbp
    (hrbp' _) hform1
  obtain ⟨o2, a2, p2, ho2, hfound2⟩ :=
    exists_sourceFound hfin.toSourceful hprep (by simp) (by decide)
    (show Slot.second.get i = some count from h.hasCount) h.placedCount.ne_imm hqc hlocs hrbp
    (hrbp' _) hform2
  obtain ⟨o3, a3, p3, ho3, hfound3⟩ :=
    exists_outputFound hfin hprep (by simp) h.hasOutput hlocs hrbp (hrbp' _)
    hform3
  -- The count goes to cl.
  rw [show d.instr.second = some o2 from ho2] at hmove
  have hsource2 : Selection.sourceWidth a2 = width o2 :=
    (sourceWidth_of_place (hfound2.machine hfound2.placed) hfound2.int).trans
      (toNat_machineWidth o2)
  obtain ⟨s2, hrun2, hchanges, hcl⟩ := run_count (l := e.link) (s := s1) hr hfound2.int hsource2
    (hfound2.width_eq ▸ h.placedCount.width_pos) hfound2.operand hmove
  rw [hfound2.width_eq, hfound2.reads] at hcl
  -- The shift itself.
  have hsame : machineWidth o1 = machineWidth o3 := by
    rw [machineWidth, machineWidth, hfound1.width_eq, hfound3.width_eq, h.sameWidth]
  have hinteger : o3.ty.isInteger = true := hfound3.ty_eq ▸ h.placedOutput.integer
  have hint : (opType (d.put .second cl).instr).isFloat = false := by
    rw [opType_shift hop' ho3 hinteger, hfound3.ty_eq]
    exact h.placedOutput.isFloat_eq
  have hresolves3 : Resolves c (machineWidth o3) (d.put .second cl).instr.output a3 := by
    rw [show (d.put .second cl).instr.output = some o3 from ho3]
    exact hfound3.resolves rfl
  have hresolves1 : Resolves c (machineWidth o3) (d.put .second cl).instr.first a1 := by
    rw [show (d.put .second cl).instr.first = some o1 from ho1]
    exact hfound1.resolves hsame
  obtain ⟨p, s', hp, hrun, hassigns⟩ := run_clShift (l := e.link) (s := s2) (r := ⟨Machine.rcx, 1⟩)
    hfound3.width hop' hint hresolves3 hresolves1 rfl rfl hshift
  have hplace : a3.place? e.link s2 = a3.place? e.link s1 := by
    refine place_of_changesOnly hchanges ?_
    rcases freeAvoids_output output with ⟨reg, rfl⟩ | havoids
    · have hreg : e.place? s (.reg reg) = some (.reg reg.index) :=
        congrArg some (place?_machineReg h.placedOutput.addressed.1 reg.width).2
      exact .inl ⟨reg.index, hfound3.machine_place.trans (hfound3.placed.symm.trans hreg)⟩
    · have hrcx := hfound3.avoids Machine.rcx (havoids ▸ List.mem_singleton_self _)
      exact .inr (by simp [hrcx, hfound3.free])
  obtain rfl : p3 = p := Option.some.inj (hfound3.machine_place.symm.trans (hplace.symm.trans hp))
  refine ⟨p3, s', hfound3.placed, ?_, ?_⟩
  · rw [Machine.acts_append_of_some (Machine.acts_of_steps (Machine.steps_of_run hrun2)),
      List.append_nil]
    exact Machine.acts_of_steps (Machine.steps_of_run hrun)
  · have hread : a1.value e.link s2 (width value) = s.get qv (width value) := by
      refine (value_of_changesOnly hchanges ?_ (width_le_eight value)).trans hfound1.reads
      have hrcx := hfound1.avoids Machine.rcx (by simp [freeAvoids])
      simp [hrcx, hfound1.free]
    rw [hcl, byte_mod_shiftModulus, toNat_machineWidth, hfound3.width_eq, ← h.sameWidth, hread]
      at hassigns
    rw [← h.sameWidth]
    exact assigns_of_changesOnly hchanges hassigns (by simp)

/-! ## With a variable in rcx -/

/-- The count is moved after a push. -/
def savedAvoids : Slot → List Machine.RegId
  | .second => [Machine.rsp]
  | _ => []

/-- rcx can be saved: neither the count nor the output nor a scratch slot is in the pushed word, and
the count does not read the stack pointer. -/
structure SavedCount (e : Scene) (cx : Context) (s : Machine.State) (count output : Operand) :
    Prop where
  clearCount : Clear e (stackWords s) 1 s count
  clearOutput : Clear e (stackWords s) 1 s output
  clearSlots : ∀ a, e.scratch cx = some a → Outside (stackWords s) 1 (.mem a) 16
  avoidsStack : readsKey e.locs Machine.rsp.toNat count = false

/-- The operand is the one that was given, or a scratch slot. -/
def SettledOrSlot (cx : Context) (given o : Operand) : Prop :=
  o = settled given ∨ ∃ b k t, cx.scratch = some b ∧ k < 2 ∧ o = scratchSlot b k t

theorem built_savedDraft {out : List Instr} (h : CountedShift e cx s i value count output)
    (hsaved : SavedCount e cx s count output) :
    Maintains (Lines e cx s out) (savedDraft cx i) fun x =>
      Prepared e (e.scratch cx) s savedAvoids i [.second, .first] x.1 ∧
        ∀ o, x.1.instr.second = some o → SettledOrSlot cx count o := by
  have hcount : ∀ id ∈ savedAvoids .second, readsKey e.locs id.toNat count = false := by
    intro id hid
    obtain rfl := List.mem_singleton.mp hid
    exact hsaved.avoidsStack
  have hids : ∀ slot, Machine.r10 ∉ savedAvoids slot := by
    intro slot
    cases slot <;> decide
  refine maintains_bind (built_countedSources h hids (fun _ h => nomatch h) hcount) fun x h1 => ?_
  refine maintains_bind (Q := fun d => Prepared e (e.scratch cx) s savedAvoids i [.second,
    .first] d ∧
    ∀ o, d.instr.second = some o → SettledOrSlot cx count o) ?_ fun d hd => maintains_pure hd
  split
  · rename_i hholder
    have hholder : x.1.holder = some .second := by simpa using hholder
    refine (built_spill h1.1).mono fun d hd => ⟨hd.1, fun o ho => ?_⟩
    rcases hd.2.2 .second o ho with ⟨hne, -⟩ | hslot
    · exact absurd hholder hne
    · exact .inr hslot
  · rename_i hholder
    have hholder : x.1.holder ≠ some .second := by simpa using hholder
    refine maintains_pure ⟨h1.1, fun o ho => .inl ?_⟩
    exact Option.some.inj (ho.symm.trans (h1.2.resolve_left hholder))

/-- The sources stand for what they were, and the count does not depend on the temporary
register. -/
structure CountStands (e : Scene) (cx : Context) (s : Machine.State) (i : Instr) (x : Draft × Reg)
    (s1 : Machine.State) : Prop where
  sourceful : Sourceful e cx 8 s i x.1 s1
  stable : ∀ o, x.1.instr.second = some o → Stable e none 0 s1 o
  count : IsCountReg x.2

theorem works_savedDraft (h : CountedShift e cx s i value count output) :
    Works e (savedDraft cx i) (fun s1 => s1 = s) (CountStands e cx s i) := by
  refine works_bind (works_countedSources h) fun x => ?_
  have hext : Extends (if x.1.holder == some .second then spill cx x.1 else pure x.1) := by
    split
    · exact extends_spill cx x.1
    · exact extends_pure _
  refine works_assume (extends_bind hext fun d => extends_pure _) fun hcount => ?_
  refine works_bind (Q := fun d s1 => Sourceful e cx 8 s i d s1 ∧
    ∀ o, d.instr.second = some o → Stable e none 0 s1 o) ?_ fun d => works_pure fun s1 h1 => ⟨h1.1,
    h1.2, hcount⟩
  refine works_each hext fun s1 h1 => ?_
  have hstable : ∀ {d : Draft} {s2 : Machine.State}, Covers e cx 8 s i d s2 →
      d.holder ≠ some .second →
      ∀ o, d.instr.second = some o → Stable e none 0 s2 o := by
    intro d s2 hcovers hne o ho
    have hsource := hcovers.source .second (by decide)
    rw [show Slot.second.get d.instr = some o from ho] at hsource
    obtain ⟨o', -, hs⟩ := rel_right hsource
    exact fun s3 h3 => hs.2 hne s3 h3.of_none
  split
  · rename_i hholder
    have hholder : x.1.holder = some .second := by simpa using hholder
    obtain ⟨o, ho, -⟩ := h1.sourceful.stands (show Slot.second ≠ .output by decide) h.hasCount
    obtain ⟨p, hp⟩ := ((h1.holder .second hholder).2 o ho).datum
    refine (works_spill hholder ho hp).mono (fun s2 h2 => h2) ?_
    rintro d s2 ⟨b, hb, hroom, rfl, hstep⟩
    have hreserved : Reserved e cx .output x.1 s1 _ s2 :=
      .spilled hholder (by decide) ho hb hroom hp hstep
    have hcovers := h1.reserved (Nat.le_refl 8) hreserved
    refine ⟨⟨hcovers.untouched, hcovers.op, fun slot hne => ?_⟩, fun o ho => ?_⟩
    · exact rel_imp (fun _ _ hs => hs.1) (hcovers.source slot hne)
    · exact hstable hcovers (by simp) o ho
  · rename_i hholder
    have hholder : x.1.holder ≠ some .second := by simpa using hholder
    refine works_pure fun s2 h2 => ?_
    rw [h2]
    exact ⟨h1.sourceful, hstable h1.toCovers hholder⟩

theorem toNat_registerWidth (t : Ty) : (UInt8.ofNat (registerWidth t)).toNat = registerWidth t := by
  cases t <;> rfl

/-- The shift in the temporary register after its count was moved to rcx. -/
theorem steps_savedCore {l : Machine.Linkage} {o : Operand} {a : Machine.Operand} {r : Reg}
    {w : UInt8} {op : Opcode} {t : Ty} {pos : Position} {move shift : List Machine.Inst}
    (hr : IsCountReg r)
    (hint : IntOperand w a) (hwidth : Selection.sourceWidth a = width o) (hpos : 1 ≤ width o)
    (ho : Selection.operand c o = .ok a) (hop : shifted? op = some f)
    (hmove : Selection.instr c ⟨.move, some o, none, none, some (.reg r), pos⟩ = .ok move)
    (hshift : Selection.instr c ⟨op, some (.reg (tempReg t)), some cl, none,
      some (.reg (tempReg t)), pos⟩ =
      .ok shift) :
    ∃ s', steps l (move ++ shift) s = some s' ∧
      ChangesOnly [Machine.r10, Machine.rcx, Machine.r11] s s' ∧
      s'.get (.reg Machine.r10) (registerWidth t) = f _ (s.get (.reg Machine.r10) (registerWidth t))
        ((a.value l s (width o)).toNat % Machine.shiftModulus (registerWidth t)) := by
  obtain ⟨s1, hrun1, hchanges, hcl⟩ := run_count (l := l) (s := s) hr hint hwidth hpos ho hmove
  have hinteger : (Operand.reg (tempReg t)).ty.isInteger = true := by
    cases t <;> rfl
  have hfloat : (opType ⟨op, some (.reg (tempReg t)), some cl, none, some (.reg (tempReg t)),
      pos⟩).isFloat =
      false := by
    rw [opType_shift (i := ⟨op, _, _, _, _, _⟩) hop rfl hinteger]
    cases t <;> rfl
  have htemp : Resolves c (UInt8.ofNat (registerWidth t)) (some (.reg (tempReg t)))
      (.reg ⟨Machine.r10, UInt8.ofNat (registerWidth t)⟩) := ⟨rfl, rfl, rfl⟩
  obtain ⟨p, s2, hp, hrun2, hassigns⟩ := run_clShift (l := l) (s := s1) (r := ⟨Machine.rcx, 1⟩)
    (isWidth_registerWidth t) hop hfloat htemp htemp rfl rfl hshift
  cases hp
  refine ⟨s2, ?_, ?_, ?_⟩
  · rw [Machine.steps_append_of_some (Machine.steps_of_run hrun1), Machine.steps_of_run hrun2]
  · exact (hchanges.mono (by simp)).trans ((Machine.changesOnly_of_assigns hassigns).mono (by simp))
  · have hvalue := hassigns.value
    have hkept : (Machine.Operand.reg ⟨Machine.r10, UInt8.ofNat (registerWidth t)⟩).value l s1
        (UInt8.ofNat (registerWidth t)).toNat =
        s.get (.reg Machine.r10) (UInt8.ofNat (registerWidth t)).toNat :=
      congrArg (BitVec.setWidth _) (hchanges.regs Machine.r10 (by decide))
    rw [hkept, hcl, byte_mod_shiftModulus, toNat_registerWidth] at hvalue
    exact hvalue

/-- The place of the count is outside the pushed word. -/
theorem outside_count {o : Operand} {p : Place} (h : CountedShift e cx s i value count output)
    (hsaved : SavedCount e cx s count output) (ho : SettledOrSlot cx count o)
    (hs : Untouched (e.scratch cx) 0 s s1)
    (hwidth : width o = width count) (hp : e.place? s1 o = some p) :
    Outside (stackWords s) 1 p (width o) := by
  rcases ho with rfl | ⟨b, k, t, hb, hk, rfl⟩
  · rw [hwidth]
    exact hsaved.clearCount.place p ((h.placedCount.place?_settled hs).symm.trans hp)
  · cases hp
    intro x hx
    have hscratch : e.scratch cx = some (e.base + b.toBitVec) := by
      rw [Scene.scratch, hb]
      rfl
    rw [slot_address] at hx
    have hoff := offset_of_slot hk (width_le_eight _) hx
    refine hsaved.clearSlots _ hscratch x ?_
    change (x - (e.base + b.toBitVec)).toNat < 16
    omega

/-- The code of the shift in the temporary register: the load of the value, and moving the count and
shifting between a push and a pop. -/
theorem code_savedLines {d : Draft} {r temp : Reg} {code : List Machine.Inst}
    (hsel : Selection.instrs c (savedLines cx d r temp) = .ok code) : ∃ load move shift,
      Selection.instr c (lineAt cx.instr .move d.instr.first none (some (.reg temp))) = .ok load ∧
      Selection.instr c (lineAt cx.instr .move d.instr.second none (some (.reg r))) = .ok move ∧
      Selection.instr c (lineAt cx.instr cx.instr.op (some (.reg temp)) (some cl)
        (some (.reg temp))) = .ok shift ∧
      code = load ++ ([Machine.rcx].map Machine.pushReg ++ (move ++ shift) ++
        [Machine.rcx].reverse.map Machine.popReg) := by
  obtain ⟨load, _, hload, h1, rfl⟩ := Selection.instrs_cons_eq_ok.mp hsel
  obtain ⟨_, _, hpush, h2, rfl⟩ := Selection.instrs_cons_eq_ok.mp h1
  obtain ⟨move, _, hmove, h3, rfl⟩ := Selection.instrs_cons_eq_ok.mp h2
  obtain ⟨shift, _, hshift, h4, rfl⟩ := Selection.instrs_cons_eq_ok.mp h3
  obtain ⟨_, _, hpop, h5, rfl⟩ := Selection.instrs_cons_eq_ok.mp h4
  cases h5
  cases hpush
  cases hpop
  exact ⟨load, move, shift, hload, hmove,
    hshift, by simp [Machine.pushReg, Machine.popReg, regRcx, gpr]⟩

/-- With a variable in rcx, the shift is done in the temporary register between saving and restoring
rcx. -/
theorem acts_savedLines {x : Draft × Reg} {code : List Machine.Inst} {qv qc : Place}
    (h : CountedShift e cx s cx.instr value count output) (hsaved : SavedCount e cx s count output)
    (hop : shifted? cx.instr.op = some f) (hstands : CountStands e cx s cx.instr x s1)
    (hprep : Prepared e (e.scratch cx) s savedAvoids cx.instr [.second, .first] x.1)
    (hcount : ∀ o, x.1.instr.second = some o → SettledOrSlot cx count o)
    (hlocs : c.locations = e.locs) (hrbp : s.regs Machine.rbp = e.base)
    (hqv : e.place? s value = some qv)
    (hqc : e.place? s count = some qc)
    (hsel : Selection.instrs c (savedLines cx x.1 x.2 (tempReg output.ty)) = .ok code) :
    ∃ s2 s3, acts e.link code s1 = some s3 ∧ Untouched none 0 s1 s2 ∧
      Untouched (stackWords s) 1 s2 s3 ∧
      s3.get (.reg Machine.r10) (width output) = f _ (s.get qv (width output))
        ((s.get qc (width count)).toNat % Machine.shiftModulus (width output)) := by
  obtain ⟨o2, ho2, hstands2⟩ :=
    hstands.sourceful.stands (show Slot.second ≠ .output by decide) h.hasCount
  change x.1.instr.second = some o2 at ho2
  obtain ⟨load, move, shift, hload, hmove, hshift, rfl⟩ := code_savedLines hsel
  rw [ho2] at hmove
  -- Where the machine finds the sources.
  obtain ⟨hform1, -, -⟩ := Selection.operands_of_instr rfl hload
  obtain ⟨hform2, -, -⟩ := Selection.operands_of_instr rfl hmove
  obtain ⟨o1, a1, p1, ho1, hfound1⟩ :=
    exists_sourceFound hstands.sourceful hprep (by simp) (by decide)
    (show Slot.first.get cx.instr = some value from h.hasValue) h.placedValue.ne_imm hqv hlocs hrbp
    (by decide)
    hform1
  obtain ⟨a2, ha2⟩ := hform2 o2 rfl
  -- The value goes to the temporary register.
  rw [show x.1.instr.first = some o1 from ho1] at hload
  have huntouched := hstands.sourceful.untouched
  have hwidth := h.placedOutput.width_eq
  have hsame : machineWidth o1 = UInt8.ofNat (registerWidth output.ty) := by
    rw [machineWidth, hfound1.width_eq, h.sameWidth, hwidth]
  obtain ⟨p, s2, hp, hrun1, hassigns⟩ :=
    run_moveOperands (l := e.link) (s := s1) (hsame ▸ hfound1.int)
    (isWidth_registerWidth output.ty)
    (show IntOperand _ (.reg ⟨Machine.r10, UInt8.ofNat (registerWidth output.ty)⟩) from rfl)
    hfound1.operand rfl
    rfl hload
  cases hp
  have htemp : Untouched none 0 s1 s2 := untouched_of_temp hassigns
  have hloaded : s2.get (.reg Machine.r10) (width output) = s.get qv (width output) := by
    have hvalue := hassigns.value
    rw [Selection.convert_value e.link s1 _ (isWidth_registerWidth output.ty) (hsame ▸ hfound1.int),
      toNat_registerWidth, ← hwidth, ← h.sameWidth, hfound1.reads, h.sameWidth] at hvalue
    exact hvalue
  -- The count is where it was.
  have hkept : Untouched (e.scratch cx) 0 s s2 := huntouched.trans htemp.of_none
  have hfound2 := found_of_admits hlocs (hprep.admits .second (by simp) o2 ho2) hkept hrbp
    (by decide) ha2
  obtain ⟨p2, hp2, -⟩ := hfound2.place
  have hstable := hstands.stable o2 ho2 s2 htemp
  obtain ⟨hwidth2, hvalue2⟩ :=
    held_of_standsFor (hstands2.stays hstable.2) h.placedCount.ne_imm hqc hp2
  have houtside := outside_count h hsaved (hcount o2 ho2) hkept hwidth2 hp2
  have hstack : stackWords s2 = stackWords s := by
    rw [stackWords, hkept.regs Machine.rsp (by decide) (by decide), stackWords]
  have hsource2 : Selection.sourceWidth a2 = width o2 :=
    (sourceWidth_of_place (hfound2.machine hp2) hfound2.int).trans (toNat_machineWidth o2)
  have hcore : ∀ t, Pushed [Machine.rcx].length s2 t → ∃ t', steps e.link (move ++ shift) t =
      some t' ∧
      ChangesOnly [Machine.r10, Machine.rcx, Machine.r11] t t' ∧
      t'.get (.reg Machine.r10) (width output) = f _ (s.get qv (width output))
        ((s.get qc (width count)).toNat % Machine.shiftModulus (width output)) := by
    intro t hpushed
    obtain ⟨t', hsteps, hchanges, hvalue⟩ :=
      steps_savedCore (l := e.link) (s := t) hstands.count hfound2.int
      hsource2 (hwidth2 ▸ h.placedCount.width_pos) ha2 hop hmove hshift
    refine ⟨t', hsteps, hchanges, ?_⟩
    have hread : a2.value e.link t (width o2) = s2.get p2 (width o2) := by
      refine (value_of_pushedWord hpushed (hfound2.avoids _ (by simp [savedAvoids]))
        (width_le_eight o2) fun p hp => ?_).trans (hfound2.value hp2 _)
      obtain rfl := Option.some.inj ((hfound2.machine hp2).symm.trans hp)
      rw [hstack]
      exact houtside
    have hword : t.get (.reg Machine.r10) (width output) =
        s2.get (.reg Machine.r10) (width output) :=
      congrArg (BitVec.setWidth _) (hpushed.regs Machine.r10 (by decide))
    rw [hread, ← hwidth, hword, hloaded, hwidth2, hvalue2] at hvalue
    exact hvalue
  obtain ⟨t, s3, hresult, hrestored, hrun⟩ := Machine.steps_saved
    (by decide : Machine.rsp ∉ [Machine.r10, Machine.rcx, Machine.r11])
    (by decide : Machine.rsp ∉ [Machine.rcx])
    (by decide) hcore
  refine ⟨s2, s3, ?_, htemp, ?_, ?_⟩
  · rw [Machine.acts_append_of_some (Machine.acts_of_steps (Machine.steps_of_run hrun1))]
    exact Machine.acts_of_steps hrun
  · rw [← hstack]
    exact untouched_of_restored hrestored
  · rw [← hresult]
    exact congrArg (BitVec.setWidth _) (hrestored.given Machine.r10 (by decide) (by decide))

end Shifts

end Backend.Lowering
