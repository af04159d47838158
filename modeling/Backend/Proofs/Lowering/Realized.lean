-- What the machine does on the code of the lines that make operands encodable: it finds the
-- operands where the lines say they are, and changes what the lines change. So a run of the lines
-- is a run of the code that selection gives for them.
import Backend.Proofs.Lowering.Addresses
import Backend.Proofs.Machine.Implicit
import Backend.Proofs.Selection.Ready

namespace Backend.Machine

/-! ## Taking addresses -/

/-- The state after an instruction, where taking an address has a meaning too. -/
def Inst.act (l : Linkage) (s : State) : Inst → Option State
  | .op .lea _ (some (.reg r)) (some (.mem m)) none =>
    some (s.setReg r.id (n := r.width.toNat) ((m.addr.eval l s).setWidth _))
  | i => i.step l s

/-- The state after a list of instructions. -/
def acts (l : Linkage) : List Inst → State → Option State
  | [], s => some s
  | i :: rest, s => do acts l rest (← i.act l s)

/-- The meaning of the other instructions is the same. -/
theorem act_of_step {l : Linkage} {s s' : State} {i : Inst} (h : i.step l s = some s') :
    i.act l s = some s' := by
  unfold Inst.act
  split
  · simp [Inst.step, Inst.exec, Op.binary?, Op.shift?] at h
  · exact h

theorem acts_append_of_some {l : Linkage} {xs ys : List Inst} {s s1 : State}
    (h : acts l xs s = some s1) : acts l (xs ++ ys) s = acts l ys s1 := by
  induction xs generalizing s with
  | nil =>
    cases h
    rfl
  | cons i rest ih =>
    simp only [List.cons_append, acts] at h ⊢
    cases hi : i.act l s with
    | none =>
      rw [hi] at h
      cases h
    | some s2 =>
      rw [hi] at h
      exact ih h

theorem acts_of_steps {l : Linkage} {code : List Inst} {s s' : State}
    (h : steps l code s = some s') :
    acts l code s = some s' := by
  induction code generalizing s with
  | nil => exact h
  | cons i rest ih =>
    simp only [steps] at h
    cases hi : i.step l s with
    | none =>
      rw [hi] at h
      cases h
    | some s2 =>
      rw [hi] at h
      simp only [acts, act_of_step hi]
      exact ih h

end Backend.Machine

namespace Backend.Lowering

open Backend.Machine (Place Assigns convert run steps acts)
open Backend.Selection (IntOperand IsWidth usesReg widthOf machineReg)

/-! ## Operands of the machine -/

/-- The width of an operand for the machine. -/
def machineWidth (o : Operand) : UInt8 := UInt8.ofNat (width o)

theorem toNat_machineWidth (o : Operand) : (machineWidth o).toNat = width o := by
  have hle := width_le_eight o
  unfold machineWidth
  rw [UInt8.toNat_ofNat']
  omega

/-- The machine finds the operand where the scene says it is. -/
structure Denotes (e : Scene) (s : Machine.State) (o : Operand) (a : Machine.Operand) : Prop where
  place : ∃ p, e.place? s o = some p ∧ a.place? e.link s = some p
  int : IntOperand (machineWidth o) a
  width : IsWidth (machineWidth o)

section Denotes

variable {e : Scene} {s : Machine.State} {o : Operand} {a : Machine.Operand} {p : Place}

theorem Denotes.machine (h : Denotes e s o a) (hp : e.place? s o = some p) :
    a.place? e.link s = some p := by
  obtain ⟨p', hp', ha⟩ := h.place
  rw [hp] at hp'
  rw [ha, hp']

/-- A machine operand is worth what is at its place. -/
theorem value_of_place {l : Machine.Linkage} (h : a.place? l s = some p) (n : Nat) :
    a.value l s n = s.get p n := by
  cases a with
  | imm v => cases h
  | target t => cases h
  | _ =>
    cases h
    rfl

theorem sourceWidth_of_place {w : UInt8} {l : Machine.Linkage} (h : a.place? l s = some p)
    (hint : IntOperand w a) : Selection.sourceWidth a = w.toNat := by
  cases a with
  | reg r => exact congrArg UInt8.toNat hint
  | mem m => exact congrArg UInt8.toNat hint
  | xmm x => exact absurd hint (by simp [IntOperand])
  | imm v => cases h
  | target t => cases h

/-- What is at a place is worth what is held there. -/
theorem datum?_of_place (hp : e.place? s o = some p) : e.datum? s o = some (held s o p) := by
  cases o with
  | imm l => cases hp
  | _ => simp only [Scene.datum?, hp, Option.map_some]

end Denotes

/-! ## Usable operands -/

/-- A part of an address that stays what it is: the temporary register, or a general purpose
register that the part fills and that nothing is emitted for. -/
def FitPart (e : Scene) (scratch : Option (BitVec 64)) (s : Machine.State) (part : Operand) :
    Prop :=
  part = .reg (tempReg .i64) ∨ inGpr e.locs part = true ∧ Holds e s part ∧
    ∀ p, e.place? s part = some p → Outside scratch 0 p (width part)

/-- The operand has the form of a place that integer instructions can use. -/
inductive Shaped (e : Scene) (scratch : Option (BitVec 64)) (s : Machine.State) : Operand → Prop
  | reg {r : Reg} (int : r.cls = .int) (width : IsWidth r.width) : Shaped e scratch s (.reg r)
  | var {v : Var} (int : ∀ r, e.locs.reg? v.ident = some r → r.cls = .int) :
      Shaped e scratch s (.var v)
  | stack (offset : Int64) (t : Ty) : Shaped e scratch s (.stack offset t)
  | symbol (y : Symbol) : Shaped e scratch s (.symbol y)
  | indirect {b i : Option Operand} {f : UInt8} {k : Int64} (t : Ty)
      (fits : Machine.fitsInt32 k = true) (some : b.isSome ∨ i.isSome)
      (parts : ∀ part, b = .some part ∨ i = .some part →
        FitPart e scratch s part) : Shaped e scratch s (.indirect b i f k t)

/-- Moreover, the operand does not read the scratch register of selection. -/
structure Usable (e : Scene) (scratch : Option (BitVec 64)) (s : Machine.State) (o : Operand) :
    Prop where
  shaped : Shaped e scratch s o
  free : readsKey e.locs Machine.r11.toNat o = false

section Usable

variable {e : Scene} {c : Closure} {scratch : Option (BitVec 64)} {s0 s : Machine.State}
  {o : Operand} {a : Machine.Operand}

theorem usesReg_eq_false {id : Machine.RegId} (hlocs : c.locations = e.locs)
    (ho : Selection.operand c o = .ok a) (h : readsKey e.locs id.toNat o = false)
    (hid : id ≠ Machine.rbp) : usesReg id a = false := by
  by_contra hu
  have hclobbers : Selection.clobbers (some (.reg ⟨id, 8⟩)) (some a) = true := by
    simpa [usesReg] using hu
  rcases Selection.reads_of_clobbers ho hclobbers with hreads | hrbp
  · rw [hlocs, h] at hreads
    cases hreads
  · exact hid hrbp

theorem Usable.isWidth (h : Usable e scratch s0 o) : IsWidth (machineWidth o) := by
  cases h.shaped with
  | reg int hw =>
    rename_i r
    change IsWidth (UInt8.ofNat (min r.width.toNat 8))
    rcases hw with hw | hw | hw | hw <;> rw [hw] <;> simp [IsWidth]
  | _ => exact isWidth_registerWidth _

theorem machineWidth_reg {r : Reg} (hw : IsWidth r.width) : machineWidth (.reg r) = r.width := by
  change UInt8.ofNat (min r.width.toNat 8) = r.width
  rcases hw with hw | hw | hw | hw <;> rw [hw] <;> rfl

/-- A slot of the frame is below or above the frame pointer. -/
theorem place?_frameSlot {offset : Int64} {w : UInt8} (hrbp : s.regs Machine.rbp = e.base)
    (h : Selection.frameSlot offset w = .ok a) :
    a.place? e.link s = some (.mem (e.base + offset.toBitVec)) ∧ IntOperand w a := by
  unfold Selection.frameSlot at h
  split at h
  · rename_i hfit
    cases h
    refine ⟨?_, rfl⟩
    have heval : (Machine.Address.regs (some ⟨Machine.rbp, 8⟩) none (Selection.toDisp offset)).eval
        e.link s = e.base + offset.toBitVec := by
      simp only [Machine.Address.eval, Option.map_some, Option.map_none, Option.getD_some,
        Option.getD_none, hrbp, signExtend_toDisp hfit]
      exact congrArg (· + offset.toBitVec) (BitVec.add_zero e.base)
    exact congrArg (fun x => some (Place.mem x)) heval
  · cases h

theorem place?_machineReg {r : Reg} (hint : r.cls = .int) (w : UInt8) :
    machineReg r w = .reg ⟨r.index, w⟩ ∧ r.place = .reg r.index := by
  unfold machineReg Reg.place
  rw [hint]
  exact ⟨rfl, rfl⟩

theorem FitPart.resident {part : Operand} (h : FitPart e scratch s0 part) :
    inGpr e.locs part = true := by
  rcases h with rfl | h
  · rfl
  · exact h.1

/-- A part goes on filling its register. -/
theorem FitPart.holds {part : Operand} (h : FitPart e scratch s0 part)
    (hs : Untouched scratch 0 s0 s) :
    Holds e s part := by
  rcases h with rfl | ⟨-, hholds, hout⟩
  · exact holds_temp s
  · exact hholds.of_untouched hs hout

/-- The machine finds an operand that can be used, as long as nothing but the temporary registers
and the scratch slots changes. -/
theorem denotes_of_usable (hlocs : c.locations = e.locs) (h : Usable e scratch s0 o)
    (hs : Untouched scratch 0 s0 s) (hrbp : s.regs Machine.rbp = e.base)
    (ho : Selection.operand c o = .ok a) : Denotes e s o a := by
  have hwidth := h.isWidth
  cases h.shaped with
  | reg hint hw =>
    rename_i r
    obtain ⟨hm, hp⟩ := place?_machineReg hint r.width
    cases ho
    rw [hm]
    refine ⟨⟨.reg r.index, ?_, rfl⟩, ?_, hwidth⟩
    · exact congrArg some hp
    · rw [machineWidth_reg hw]
      rfl
  | var hint =>
    rename_i v
    obtain ⟨loc, hloc, ho⟩ := bind_eq_ok.mp ho
    have hreg := Selection.reg?_of_locate hloc
    obtain ⟨hlook, hplaced⟩ := Option.filter_eq_some_iff.mp
      (show (c.locations.lookup v.ident).filter Location.isPlaced = some loc by
        unfold Selection.locate at hloc
        split at hloc
        · cases hloc
          assumption
        · cases hloc)
    rw [hlocs] at hreg hlook
    obtain ⟨reg, stack⟩ := loc
    cases reg with
    | some r =>
      obtain ⟨hm, hp⟩ := place?_machineReg (hint r hreg) (widthOf v.ty)
      cases ho
      rw [hm]
      refine ⟨⟨.reg r.index, ?_, rfl⟩, rfl, hwidth⟩
      rw [← hp]
      simp only [Scene.place?, Setting.home?, hlook]
    | none =>
      cases stack with
      | none => cases hplaced
      | some offset =>
        obtain ⟨hm, hint⟩ := place?_frameSlot (e := e) hrbp ho
        refine ⟨⟨_, ?_, hm⟩, hint, hwidth⟩
        simp only [Scene.place?, Setting.home?, hlook]
        rfl
  | stack offset t =>
    obtain ⟨hm, hint⟩ := place?_frameSlot (e := e) hrbp ho
    exact ⟨⟨_, rfl, hm⟩, hint, hwidth⟩
  | symbol y =>
    cases ho
    refine ⟨⟨_, rfl, ?_⟩, ?_, hwidth⟩
    · unfold Scene.symbolAddress
      split <;> rfl
    · split <;> rfl
  | indirect t hfit hsome hparts =>
    rename_i b i f k
    have hresident : ∀ o, b = some o ∨ i = some o → inGpr e.locs o = true := fun o ho =>
      (hparts o ho).resident
    have hholds : ∀ o, b = some o ∨ i = some o → Holds e s o := fun o ho => (hparts o ho).holds hs
    have hb : isResident e.locs b = true := by
      cases b with
      | none => rfl
      | some o => exact hresident o (.inl rfl)
    have hi : isResident e.locs i = true := by
      cases i with
      | none => rfl
      | some o => exact hresident o (.inr rfl)
    obtain ⟨rb, -, -, hwb, -⟩ := addressReg_of_isResident hlocs hb fun o ho => hholds o (.inl ho)
    obtain ⟨ri, -, -, -, hwi⟩ := addressReg_of_isResident hlocs hi fun o ho => hholds o (.inr ho)
    obtain ⟨x, hx⟩ : ∃ x, e.address? s b i f k = some x := by
      simp only [Scene.address?, hwb, hwi]
      exact ⟨_, rfl⟩
    obtain ⟨m, hm, heval⟩ := exists_memory (t := t) hlocs hfit hsome hb hi hholds hx
    obtain rfl := Except.ok.inj (hm.symm.trans ho)
    refine ⟨⟨.mem x, ?_, ?_⟩, ?_, hwidth⟩
    · simp only [Scene.place?, hx, Option.map_some]
    · simp only [Machine.Operand.place?, heval]
    · obtain ⟨m', hm', hmem⟩ := bind_eq_ok.mp hm
      cases hmem
      obtain ⟨_, _, _, _, _, rfl⟩ := Selection.memory_eq hm'
      rfl

end Usable

/-! ## Lines -/

/-- The lines that make operands encodable: loads, scaling and sums in the temporary register, and
moves to the scratch slots. -/
inductive TempLine (e : Scene) (cx : Context) (s : Machine.State) : Instr → Prop
  | load {o : Operand} (t : Ty) (pos : Position) (usable : Usable e (e.scratch cx) s o) :
      TempLine e cx s ⟨.move, some o, none, none, some (.reg (tempReg t)), pos⟩
  | address (y : Symbol) (pos : Position) :
      TempLine e cx s ⟨.lea, some (.symbol y), none, none, some (.reg (tempReg .i64)), pos⟩
  | scale (k : Int64) (pos : Position) : TempLine e cx s ⟨.shl, some (.reg (tempReg .i64)),
      some (.imm (.ofInt .i8 k)), none, some (.reg (tempReg .i64)), pos⟩
  | sum {o : Operand} (pos : Position) (usable : Usable e (e.scratch cx) s o) (wide : width o = 8) :
      TempLine e cx s ⟨.add, some (.reg (tempReg .i64)), some o, none,
        some (.reg (tempReg .i64)), pos⟩
  | keep {o : Operand} {b : Int64} {k : Nat} (t : Ty) (pos : Position)
      (usable : Usable e (e.scratch cx) s o) (scratch : cx.scratch = some b) (room : k < 2) :
      TempLine e cx s ⟨.move, some o, none, none, some (scratchSlot b k t), pos⟩

section Lines

variable {e : Scene} {cx : Context} {c : Closure} {s0 s : Machine.State} {o o' : Operand}
  {a a' : Machine.Operand} {p p' : Place} {pos : Position} {code : List Machine.Inst}

/-- The code of a move between integer operands, by their machine forms. -/
theorem run_moveOperands {l : Machine.Linkage} {w w' : UInt8} (hint : IntOperand w a)
    (hw : IsWidth w') (hint' : IntOperand w' a') (ho : Selection.operand c o = .ok a)
    (ho' : Selection.operand c o' = .ok a')
    (hfree : usesReg Machine.r11 a' = false)
    (hsel : Selection.instr c ⟨.move, some o, none, none, some o', pos⟩ = .ok code) :
    ∃ p s', a'.place? l s = some p ∧ run l code s = some s' ∧
      Assigns p (convert o.ty.isSigned w'.toNat (a.value l s (Selection.sourceWidth a)))
      [Machine.r11] s s' := by
  obtain ⟨d, x, y, hd, hx, -, hcode⟩ := Selection.instr_eq_compute rfl hsel
  have houtput : Selection.optional c (some o') = .ok (some a') := by
    simp [Selection.optional, ho', bind, Except.bind]
  have hfirst : Selection.optional c (some o) = .ok (some a) := by
    simp [Selection.optional, ho, bind, Except.bind]
  obtain rfl := Except.ok.inj ((Selection.outputOperand_of_optional houtput).symm.trans hd)
  obtain rfl := Except.ok.inj (hfirst.symm.trans hx)
  have hmove : Selection.move (some a') (some a) o.ty.isSigned = .ok code := hcode
  exact Selection.run_move l s hw hint' hfree hint hmove

/-- The code of a move between operands that the machine finds. -/
theorem run_moveLine (h : Denotes e s o a) (h' : Denotes e s o' a') (hp : e.place? s o = some p)
    (hp' : e.place? s o' = some p') (ho : Selection.operand c o = .ok a)
    (ho' : Selection.operand c o' = .ok a') (hfree : usesReg Machine.r11 a' = false)
    (hsel : Selection.instr c ⟨.move, some o, none, none, some o', pos⟩ = .ok code) :
    ∃ s', run e.link code s = some s' ∧
      Assigns p' ((held s o p).brought (width o')) [Machine.r11] s s' := by
  obtain ⟨q, s', hq, hrun, hassigns⟩ :=
    run_moveOperands (l := e.link) (s := s) h.int h'.width h'.int ho ho' hfree hsel
  obtain rfl := Option.some.inj ((h'.machine hp').symm.trans hq)
  refine ⟨s', hrun, ?_⟩
  have hvalue : convert o.ty.isSigned (machineWidth o').toNat
      (a.value e.link s (Selection.sourceWidth a)) =
      (held s o p).brought (machineWidth o').toNat := by
    rw [value_of_place (h.machine hp), sourceWidth_of_place (h.machine hp) h.int,
      toNat_machineWidth o]
    rfl
  rw [hvalue, toNat_machineWidth] at hassigns
  exact hassigns

/-- The temporary register is where it is. -/
theorem usable_temp (e : Scene) (scratch : Option (BitVec 64)) (s0 : Machine.State) (t : Ty) :
    Usable e scratch s0 (.reg (tempReg t)) :=
  ⟨.reg rfl (isWidth_registerWidth t), by cases t <;> rfl⟩

/-- A load of the temporary register or a move to a scratch slot. -/
theorem run_moveTo {n : Nat} {v : BitVec (8 * n)} {o' : Operand} (hlocs : c.locations = e.locs)
    (h : Usable e (e.scratch cx) s0 o) (h' : Usable e (e.scratch cx) s0 o')
    (hs : Untouched (e.scratch cx) 0 s0 s) (hrbp : s.regs Machine.rbp = e.base)
    (heff : e.effect? s ⟨.move, some o, none, none, some o', pos⟩ = some (.assign p n v))
    (hsel : Selection.instr c ⟨.move, some o, none, none, some o', pos⟩ = .ok code) :
    ∃ s', run e.link code s = some s' ∧ Assigns p v [Machine.r11] s s' ∧ e.place? s o' = some p ∧
      n = width o' := by
  have hlist : ∀ items, o' ≠ .list items := by
    rintro items rfl
    cases h'.shaped
  obtain ⟨hfirst, -, houtput⟩ := Selection.operands_of_instr rfl hsel
  obtain ⟨a, ha⟩ := hfirst o rfl
  obtain ⟨a', ha'⟩ := houtput o' rfl hlist
  have hden := denotes_of_usable hlocs h hs hrbp ha
  have hden' := denotes_of_usable hlocs h' hs hrbp ha'
  obtain ⟨q, hq, -⟩ := hden.place
  obtain ⟨q', hq', -⟩ := hden'.place
  rw [effect?_move (datum?_of_place hq) hq'] at heff
  cases heff
  have hfree := usesReg_eq_false hlocs ha' h'.free (by decide)
  obtain ⟨s', hrun, hassigns⟩ := run_moveLine hden hden' hq hq' ha ha' hfree hsel
  exact ⟨s', hrun, hassigns, hq', rfl⟩

/-- Taking the address of a symbol. -/
theorem acts_addressLine {y : Symbol} {n : Nat} {v : BitVec (8 * n)}
    (heff : e.effect? s ⟨.lea, some (.symbol y), none, none, some (.reg (tempReg .i64)), pos⟩ =
      some (.assign p n v))
    (hsel : Selection.instr c ⟨.lea, some (.symbol y), none, none,
      some (.reg (tempReg .i64)), pos⟩ =
      .ok code) :
    p = .reg Machine.r10 ∧ ∃ s', acts e.link code s = some s' ∧ Assigns p v [Machine.r11] s s' := by
  rw [effect?_lea y (place?_temp s .i64)] at heff
  cases heff
  refine ⟨rfl, ?_⟩
  by_cases hy : y.isTls = true
  · simp [Selection.instr, Selection.outputOperand, Selection.optional, Selection.operand,
      Selection.compute, Selection.lea, hy, bind, Except.bind, throw, throwThe,
      MonadExceptOf.throw] at hsel
  · have hy' : y.isTls = false := by simpa using hy
    have hcode : code = [Selection.inst .lea (some (.reg ⟨Machine.r10, 8⟩))
        (some (.mem (.ofRip y.name 8)))] := by
      simp [Selection.instr, Selection.outputOperand, Selection.optional, Selection.operand,
        Selection.compute, Selection.lea, hy', bind, Except.bind, pure, Except.pure, tempReg, gpr,
        machineReg, registerWidth, Ty.size] at hsel
      exact hsel.symm
    subst hcode
    refine ⟨_, rfl, ?_⟩
    have haddr : e.symbolAddress y = e.link.symbol y.name := by simp [Scene.symbolAddress, hy']
    rw [haddr]
    exact Machine.assigns_setReg s Machine.r10 _ (Nat.le_refl 8) _

/-- The code of a shift by a literal. -/
theorem run_literalShift {i : Instr} {w : UInt8} {k : Int64}
    {f : (n : Nat) → BitVec n → Nat → BitVec n} (hw : IsWidth w)
    (hop : Selection.shifted? i.op = some f) (hint : (opType i).isFloat = false)
    (hd : Selection.Resolves c w i.output a') (ha : Selection.Resolves c w i.first a)
    (hk : Selection.optional c i.second = .ok (some (.imm k)))
    (hsel : Selection.instr c i = .ok code) :
    ∃ p s', a'.place? e.link s = some p ∧ run e.link code s = some s' ∧
      Assigns p (f _ (a.value e.link s w.toNat) (k.toBitVec.toNat % (8 * w.toNat))) [Machine.r11] s
      s' := by
  obtain ⟨x, y, hx, hy, hcode⟩ := Selection.instr_eq_intArithmetic
    (Selection.isArithmetic_of_shifted hop) hint hd.operand hsel
  obtain rfl := Except.ok.inj (ha.operand.symm.trans hx)
  obtain rfl := Except.ok.inj (hk.symm.trans hy)
  rw [← Selection.shiftCount_literal hw k]
  refine Selection.run_shift hw hd.int hd.free ha.int hop ?_ hcode
  rintro o ⟨⟩
  exact ⟨rfl, fun _ _ => rfl⟩

/-- The temporary register in the machine form of a line. -/
theorem resolves_temp (c : Closure) : Selection.Resolves c 8 (some (.reg (tempReg .i64)))
    (.reg ⟨Machine.r10, 8⟩) := ⟨rfl, rfl, rfl⟩

/-- The index is scaled in the temporary register. -/
theorem run_scaleLine {k : Int64} {n : Nat} {v : BitVec (8 * n)}
    (heff : e.effect? s ⟨.shl, some (.reg (tempReg .i64)), some (.imm (.ofInt .i8 k)), none,
      some (.reg (tempReg .i64)), pos⟩ = some (.assign p n v))
    (hsel : Selection.instr c ⟨.shl, some (.reg (tempReg .i64)), some (.imm (.ofInt .i8 k)), none,
      some (.reg (tempReg .i64)), pos⟩ = .ok code) :
    p = .reg Machine.r10 ∧ ∃ s', run e.link code s = some s' ∧ Assigns p v [Machine.r11] s s' := by
  rw [effect?_shlTemp k rfl] at heff
  cases heff
  obtain ⟨p, s', hp, hrun, hassigns⟩ := run_literalShift (e := e) (s := s) (k := k)
    (f := fun _ x j => x <<< j) (.inr (.inr (.inr rfl))) rfl rfl (resolves_temp c)
    (resolves_temp c) rfl hsel
  cases hp
  refine ⟨rfl, s', hrun, ?_⟩
  have hvalue : (Machine.Operand.reg ⟨Machine.r10, 8⟩).value e.link s 8 = s.regs Machine.r10 :=
    BitVec.setWidth_eq _
  rw [← hvalue]
  exact hassigns

/-- The base is added in the temporary register. -/
theorem run_sumLine {n : Nat} {v : BitVec (8 * n)} (hlocs : c.locations = e.locs)
    (h : Usable e (e.scratch cx) s0 o) (hwide : width o = 8) (hs : Untouched (e.scratch cx) 0 s0 s)
    (hrbp : s.regs Machine.rbp = e.base)
    (heff : e.effect? s ⟨.add, some (.reg (tempReg .i64)), some o, none,
      some (.reg (tempReg .i64)), pos⟩ =
      some (.assign p n v))
    (hsel : Selection.instr c ⟨.add, some (.reg (tempReg .i64)), some o, none,
      some (.reg (tempReg .i64)), pos⟩ = .ok code) :
    p = .reg Machine.r10 ∧ ∃ s', run e.link code s = some s' ∧ Assigns p v [Machine.r11] s s' := by
  obtain ⟨-, hsecond, -⟩ := Selection.operands_of_instr rfl hsel
  obtain ⟨a, ha⟩ := hsecond o rfl
  have hden := denotes_of_usable hlocs h hs hrbp ha
  obtain ⟨q, hq, -⟩ := hden.place
  have hself : (held s o q).brought 8 = s.get q 8 := by
    have hbrought := (held s o q).brought_self
    change (held s o q).brought (width o) = s.get q (width o) at hbrought
    rwa [hwide] at hbrought
  rw [effect?_addTemp rfl (datum?_of_place hq) (Nat.le_of_eq hwide.symm) hself] at heff
  cases heff
  refine ⟨rfl, ?_⟩
  have hint : IntOperand 8 a := by
    have hw : machineWidth o = 8 := by rw [machineWidth, hwide]; rfl
    rw [← hw]
    exact hden.int
  obtain ⟨x, y, hx, hy, hcode⟩ :=
    Selection.instr_eq_intArithmetic (c := c) (d := .reg ⟨Machine.r10, 8⟩)
    rfl rfl rfl hsel
  have hsum : Selection.optional c (some o) = .ok (some a) := by
    simp [Selection.optional, ha, bind, Except.bind]
  obtain rfl := Except.ok.inj ((resolves_temp c).operand.symm.trans hx)
  obtain rfl := Except.ok.inj (hsum.symm.trans hy)
  obtain ⟨p, s', hp, hrun, hassigns⟩ := Selection.run_arithmetic (l := e.link) (s := s)
    (.inr (.inr (.inr rfl))) (resolves_temp c).int (resolves_temp c).free (resolves_temp c).int hint
    (usesReg_eq_false hlocs ha h.free (by decide)) rfl hcode
  cases hp
  refine ⟨s', hrun, ?_⟩
  have hvalue : (Machine.Operand.reg ⟨Machine.r10, 8⟩).value e.link s 8 = s.regs Machine.r10 :=
    BitVec.setWidth_eq _
  rw [← hvalue, ← value_of_place (hden.machine hq) 8]
  exact hassigns

/-- The code of a line does what the line does, and nothing else. -/
theorem acts_tempLine {i : Instr} {n : Nat} {v : BitVec (8 * n)} (hline : TempLine e cx s0 i)
    (hlocs : c.locations = e.locs) (hs : Untouched (e.scratch cx) 0 s0 s)
    (hrbp : s.regs Machine.rbp = e.base) (heff : e.effect? s i = some (.assign p n v))
    (hsel : Selection.instr c i = .ok code) :
    ∃ s', acts e.link code s = some s' ∧ Assigns p v [Machine.r11] s s' ∧
      Untouched (e.scratch cx) 0 s s' := by
  have htemp : ∀ {s'}, p = .reg Machine.r10 → Assigns p v [Machine.r11] s s' →
      Untouched (e.scratch cx) 0 s s' := by
    rintro s' rfl hassigns
    exact (untouched_of_temp hassigns (j := 0)).of_none
  have hplain : ∀ {s'}, run e.link code s = some s' → acts e.link code s = some s' := fun hrun =>
    Machine.acts_of_steps (Machine.steps_of_run hrun)
  cases hline with
  | load t pos usable =>
    obtain ⟨s', hrun, hassigns, hp, -⟩ :=
      run_moveTo hlocs usable (usable_temp e _ s0 t) hs hrbp heff hsel
    exact ⟨s', hplain hrun, hassigns, htemp (Option.some.inj hp).symm hassigns⟩
  | address y pos =>
    obtain ⟨hp, s', hacts, hassigns⟩ := acts_addressLine heff hsel
    exact ⟨s', hacts, hassigns, htemp hp hassigns⟩
  | scale k pos =>
    obtain ⟨hp, s', hrun, hassigns⟩ := run_scaleLine heff hsel
    exact ⟨s', hplain hrun, hassigns, htemp hp hassigns⟩
  | sum pos usable wide =>
    obtain ⟨hp, s', hrun, hassigns⟩ := run_sumLine hlocs usable wide hs hrbp heff hsel
    exact ⟨s', hplain hrun, hassigns, htemp hp hassigns⟩
  | keep t pos usable scratch room =>
    obtain ⟨s', hrun, hassigns, hp, hn⟩ :=
      run_moveTo hlocs usable ⟨.stack _ t, rfl⟩ hs hrbp heff hsel
    obtain rfl := (Option.some.inj hp).symm
    refine ⟨s', hplain hrun, hassigns, ?_⟩
    exact (untouched_of_slot scratch room (hn ▸ width_le_eight _) hassigns).mono (Nat.zero_le _)

end Lines

/-- The code of lines ends where the lines end. -/
theorem acts_of_ensures {e : Scene} {cx : Context} {c : Closure} {s0 s : Machine.State}
    {lines : List Instr} {code : List Machine.Inst} {Q : Machine.State → Prop}
    (hlocs : c.locations = e.locs)
    (hlines : ∀ i ∈ lines, TempLine e cx s0 i) (hs : Untouched (e.scratch cx) 0 s0 s)
    (hrbp : s0.regs Machine.rbp = e.base) (hsel : Selection.instrs c lines = .ok code)
    (h : Ensures e lines s Q) :
    ∃ s', acts e.link code s = some s' ∧ Q s' ∧ Untouched (e.scratch cx) 0 s0 s' := by
  induction lines generalizing s code with
  | nil =>
    cases hsel
    exact ⟨s, rfl, h, hs⟩
  | cons i rest ih =>
    obtain ⟨hi, hrest⟩ := List.forall_mem_cons.mp hlines
    obtain ⟨p, n, v, -, heff, hnext⟩ := h
    obtain ⟨first, more, hfirst, hmore, rfl⟩ := Selection.instrs_cons_eq_ok.mp hsel
    have hrbp' : s.regs Machine.rbp = e.base := (hs.regs _ (by decide) (by decide)).trans hrbp
    obtain ⟨s1, hrun, hassigns, hstep⟩ := acts_tempLine hi hlocs hs hrbp' heff hfirst
    obtain ⟨s2, hrun2, hq, huntouched⟩ := ih hrest (hs.trans hstep) hmore (hnext s1 hassigns)
    exact ⟨s2, by rw [Machine.acts_append_of_some hrun, hrun2], hq, huntouched⟩

end Backend.Lowering
