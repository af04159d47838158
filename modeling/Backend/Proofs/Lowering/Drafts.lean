-- Making operands encodable: every step refines the instruction it works on, and what it emits is
-- ready for selection.
import Backend.Proofs.Closure.Literals
import Backend.Proofs.Lowering.Refined

namespace Backend.Lowering

/-! ## States -/

/-- What lowering relies on in its closure. -/
structure Sane (c : Closure) : Prop where
  named : ∀ p ∈ c.imms, p.2 ≠ ""
  frame : c.frame ≤ 2147483647
  saved : ∀ s ∈ c.saved, Machine.IsWidth s.reg.width

/-- All instructions lowered so far are ready for selection. -/
structure Lowered (locs : Locations) (s : State) : Prop where
  ready : ∀ i ∈ s.out, Ready locs i
  sane : Sane s.closure

section Steps

variable {locs : Locations} {cx : Context}

theorem maintains_keep {i : Instr} (h : Ready locs i) :
    Maintains (Lowered locs) (keep i) fun _ => True := by
  intro s a s' hs hI
  cases hs
  refine ⟨⟨fun j hj => ?_, hI.sane⟩, trivial⟩
  rcases List.mem_append.mp hj with hj | hj
  · exact hI.ready j hj
  · cases List.mem_singleton.mp hj
    exact h

theorem maintains_emit {op : Opcode} {first second output : Option Operand}
    (hop : isPlain op = true) (hfirst : WellFormedOption locs first)
    (hsecond : WellFormedOption locs second) (houtput : WellFormedOption locs output) :
    Maintains (Lowered locs) (emit cx op first second output) fun _ => True := by
  refine maintains_keep (ready_of_plain (fun slot => ?_) hop)
  cases slot with
  | first => exact hfirst
  | second => exact hsecond
  | addend => exact wellFormedOption_none
  | output => exact houtput

theorem maintains_materialize (l : Literal) :
    Maintains (Lowered locs) (materialize l) fun s => s.ty = l.ty ∧ s.name ≠ "" := by
  intro s a s' hs hI
  cases hs
  dsimp only [Closure.materialize]
  split
  · rename_i name hname
    refine ⟨hI, rfl, ?_⟩
    obtain ⟨before, after, himms, -⟩ := List.lookup_eq_some_iff.mp hname
    exact hI.sane.named (l.key, name) (by rw [himms]; simp)
  · refine ⟨⟨hI.ready, ⟨?_, hI.sane.frame, hI.sane.saved⟩⟩, rfl, s.closure.freshName_ne⟩
    intro p hp
    rcases List.mem_append.mp hp with hp | hp
    · exact hI.sane.named p hp
    · cases List.mem_singleton.mp hp
      exact s.closure.freshName_ne

/-! ## The temporary register -/

theorem maintains_spill {d : Draft} (hd : WellPlaced locs d.instr)
    (hout : d.holder ≠ some .output) :
    Maintains (Lowered locs) (spill cx d) fun d' => Refines locs d.instr d'.instr ∧
      d'.holder = none ∧ ∀ slot, d.holder ≠ some slot → slot.get d'.instr = slot.get d.instr := by
  unfold spill
  split
  · rename_i hh
    exact maintains_pure ⟨.refl _, hh, fun _ _ => rfl⟩
  · rename_i slot hh
    split
    · exact maintains_pure ⟨.refl _, rfl, fun _ _ => rfl⟩
    · rename_i o ho
      split
      · exact maintains_fail cx _
      split
      · exact maintains_fail cx _
      · have hstack : ∀ offset t, WellFormedOption locs (some (.stack offset t)) := by
          intro offset t
          simp only [WellFormedOption, WellFormed]
        have hmove := wellFormedOption_some.mpr (hd.wellFormed slot ho)
        refine maintains_bind
          (maintains_emit rfl hmove wellFormedOption_none (hstack _ _)) fun _ _ => ?_
        refine maintains_pure ⟨refines_set ho (becomes_stack fun hv => ?_) ?_, rfl, ?_⟩
        · exact if_neg (by simpa using hv)
        · rintro rfl
          exact absurd hh hout
        · intro slot' hs
          refine Slot.get_set_ne ?_ _ _
          rintro rfl
          exact hs hh

theorem maintains_reserveTemp {d : Draft} (slot : Slot) (hd : WellPlaced locs d.instr)
    (hout : d.holder ≠ some .output) :
    Maintains (Lowered locs) (reserveTemp cx slot d) fun d' => Refines locs d.instr d'.instr ∧
      d'.holder = some slot ∧ slot.get d'.instr = slot.get d.instr := by
  have hself : Maintains (Lowered locs) (pure { d with holder := some slot } : LowerM Draft)
      fun d' => Refines locs d.instr d'.instr ∧ d'.holder = some slot ∧
        slot.get d'.instr = slot.get d.instr := maintains_pure ⟨.refl _, rfl, rfl⟩
  unfold reserveTemp
  split
  · rename_i other hh
    split
    · exact hself
    · rename_i hne
      refine maintains_bind (maintains_spill hd hout) fun d' h => maintains_pure ⟨h.1, rfl, ?_⟩
      refine h.2.2 slot ?_
      rw [hh]
      rintro hs
      cases hs
      exact hne (beq_self_eq_true slot)
  · exact hself

/-- The operand of a slot that is loaded: the other slots are refined. -/
theorem maintains_intoTemp {d : Draft} (slot : Slot) (hd : WellPlaced locs d.instr)
    (hout : d.holder ≠ some .output) :
    Maintains (Lowered locs) (intoTemp cx slot d) fun d' => d'.holder = some slot ∧
      ∃ i, Refines locs d.instr i ∧ slot.get i = slot.get d.instr ∧
        d'.instr = slot.set (.reg (tempReg (d.typeAt slot))) i := by
  unfold intoTemp
  refine maintains_bind (maintains_reserveTemp slot hd hout) fun d1 h1 => ?_
  have hreg := wellFormedOption_some.mpr (wellFormed_tempReg locs (d.typeAt slot))
  refine maintains_bind (maintains_emit rfl (hd.refines h1.1 slot) wellFormedOption_none hreg)
    fun _ _ => ?_
  exact maintains_pure ⟨h1.2.1, d1.instr, h1.1, h1.2.2, rfl⟩

/-- A literal that is no float is loaded. -/
theorem maintains_intoTemp_literal {d : Draft} {slot : Slot} {l : Literal}
    (hd : WellPlaced locs d.instr) (hout : d.holder ≠ some .output) (hslot : slot ≠ .output)
    (ho : slot.get d.instr = some (.imm l)) (hl : l.isFloat = false) :
    Maintains (Lowered locs) (intoTemp cx slot d) fun d' => Refines locs d.instr d'.instr ∧
      d'.holder ≠ some .output ∧ ∃ r, slot.get d'.instr = some (.reg r) := by
  refine (maintains_intoTemp slot hd hout).mono fun d' h => ?_
  obtain ⟨hh, i, hi, hget, heq⟩ := h
  rw [heq]
  refine ⟨hi.trans (refines_set (hget.trans ho) (becomes_tempReg hl _) fun h => absurd h hslot), ?_,
    _, Slot.get_set _ _ _⟩
  rw [hh]
  exact fun h => hslot (Option.some.inj h)

/-! ## Addresses -/

/-- Folding literals into the displacement may drop the parts, make the index the base, and unscale
it. -/
theorem foldAddress_parts {base index base' index' : Option Operand} {scale scale' : UInt8}
    {disp disp' : Int64} (h : foldAddress base index scale disp = (base', index', scale', disp')) :
    (∀ o, base' = some o → (base = some o ∨ index = some o) ∧ ∀ l, o ≠ .imm l) ∧
      (∀ o, index' = some o → index = some o) ∧ (scale' = scale ∨ scale' = 1) := by
  unfold foldAddress at h
  dsimp only at h
  have hscale : (if (scale == 0) = true then (1 : UInt8) else scale) = scale ∨
      (if (scale == 0) = true then (1 : UInt8) else scale) = 1 := by
    split
    · exact .inr rfl
    · exact .inl rfl
  generalize (if (scale == 0) = true then (1 : UInt8) else scale) = factor at hscale h
  split at h <;> grind

/-- An integer operand is added to a register. -/
theorem ready_addition {op : Opcode} {r : Reg} {o : Operand} {pos : Position}
    (hop : op = .add ∨ op = .sub) (hr : WellFormed locs (.reg r)) (hint : r.cls = .int)
    (ho : WellFormed locs o) (hform : IntForm locs o)
    (hfit : ∀ l value, o = .imm l → l.int? = some value → Machine.fitsInt32 value = true) :
    Ready locs ⟨op, some (.reg r), some o, none, some (.reg r), pos⟩ := by
  have hreg : IntForm locs (.reg r) :=
    ⟨fun t ht => (by cases ht; exact hint), fun l h => by cases h⟩
  have hboth : BothInt locs ⟨op, some (.reg r), some o, none, some (.reg r), pos⟩ :=
    ⟨_, _, rfl, rfl, hreg, hform⟩
  have hother : op.isCompare = false ∧ op.isCondBranch = false ∧ op.isBranch = false ∧
      op.isFused = false ∧ isDivision op = false ∧ op ≠ .itof ∧ op ≠ .ftoi ∧ op ≠ .fext ∧
      op ≠ .ftrunc ∧ op ≠ .push := by
    rcases hop with rfl | rfl <;> decide
  obtain ⟨hcompare, hcond, hbranch, hfused, hdiv, hitof, hftoi, hfext, hftrunc, hpush⟩ := hother
  constructor
  · intro slot
    cases slot with
    | first => exact wellFormedOption_some.mpr hr
    | second => exact wellFormedOption_some.mpr ho
    | addend => exact wellFormedOption_none
    | output => exact wellFormedOption_some.mpr hr
  · constructor <;> simp_all
  · rintro ⟨-, -, l, value, _, _, _, h, -⟩
    cases h
  · intro _ l value hl hv
    exact hfit l value (Option.some.inj hl) hv
  · simp_all
  · exact fun h => absurd h hpush
  · intro h
    rw [hdiv] at h
    cases h

/-- A memory operand may have parts of its folded address or the temporary register. -/
theorem becomes_folded {base index base' index' b x : Option Operand} {scale scale' s : UInt8}
    {disp disp' k : Int64} {t : Ty}
    (h : foldAddress base index scale disp = (base', index', scale', disp'))
    (hb : ∀ o, b = some o → base' = some o ∨ o = .reg (tempReg .i64))
    (hx : ∀ o, x = some o → index' = some o ∨ o = .reg (tempReg .i64)) (hs : s = scale' ∨ s = 1) :
    Becomes locs (.indirect base index scale disp t) (.indirect b x s k t) := by
  obtain ⟨hbase, hindex, hscale⟩ := foldAddress_parts h
  refine becomes_indirect ?_ ?_ ?_
  · intro o ho
    rcases hb o ho with h | h
    · exact (hbase o h).1.imp_right .inl
    · exact .inr (.inr h)
  · exact fun o ho => (hx o ho).imp_left (hindex o)
  · rcases hs with rfl | h
    · exact hscale
    · exact .inr h

/-- Another address in a slot that has taken the temporary register. -/
theorem maintains_putAddress {slot : Slot} {base index b x : Option Operand} {scale s : UInt8}
    {disp k : Int64} {t : Ty} {d d1 : Draft}
    (ho : slot.get d.instr = some (.indirect base index scale disp t))
    (h1 : Refines locs d.instr d1.instr ∧ d1.holder = some slot ∧
      slot.get d1.instr = slot.get d.instr)
    (hb : Becomes locs (.indirect base index scale disp t) (.indirect b x s k t)) :
    Maintains (Lowered locs) (pure (d1.put slot (.indirect b x s k t)) : LowerM Draft) fun d' =>
      Refines locs d.instr d'.instr ∧ (slot ≠ .output → d'.holder ≠ some .output) := by
  obtain ⟨hr, hh, hget⟩ := h1
  refine maintains_pure ⟨hr.trans (refines_set (hget.trans ho) hb fun _ => ?_), fun hne => ?_⟩
  · exact .inr ⟨_, _, _, _, _, _, _, _, _, rfl, rfl⟩
  · rw [show (d1.put slot (.indirect b x s k t)).holder = d1.holder from rfl, hh]
    exact fun h => hne (Option.some.inj h)

/-- A memory operand whose address is made of registers takes the place of the one it was. -/
theorem maintains_address {slot : Slot} {base index : Option Operand} {scale : UInt8} {disp : Int64}
    {t : Ty} {d : Draft} (hd : WellPlaced locs d.instr) (hout : d.holder ≠ some .output)
    (ho : slot.get d.instr = some (.indirect base index scale disp t)) :
    Maintains (Lowered locs) (address cx slot base index scale disp t d) fun d' =>
      Refines locs d.instr d'.instr ∧ (slot ≠ .output → d'.holder ≠ some .output) := by
  have hw := hd.wellFormed slot ho
  simp only [WellFormed] at hw
  obtain ⟨hbase, hindex, hint, -, -⟩ := hw
  have hpart : ∀ o, base = some o ∨ index = some o → WellFormed locs o := by
    rintro o (rfl | rfl)
    · exact wellFormedOption_some.mp hbase
    · exact wellFormedOption_some.mp hindex
  have htemp : WellFormedOption locs (some (.reg (tempReg .i64))) :=
    wellFormedOption_some.mpr (wellFormed_tempReg locs _)
  have hisTemp : ∀ o, some (Operand.reg (tempReg .i64)) = some o → o = .reg (tempReg .i64) :=
    fun o h => (Option.some.inj h).symm
  refine address_rule (K := fun _ _ => True) (R := fun m => Maintains (Lowered locs) m fun d' =>
      Refines locs d.instr d'.instr ∧ (slot ≠ .output → d'.holder ≠ some .output))
    (S := fun d1 m => (Refines locs d.instr d1.instr ∧ d1.holder = some slot ∧
      slot.get d1.instr = slot.get d.instr) → Maintains (Lowered locs) m fun d' =>
        Refines locs d.instr d'.instr ∧ (slot ≠ .output → d'.holder ≠ some .output))
    (fun err _ => maintains_fail cx err) (fun _ err _ _ => maintains_fail cx err)
    (fun o _ h => maintains_bind (maintains_inRegister cx o) fun ok _ => h ok trivial)
    (fun _ h => maintains_bind (maintains_reserveTemp slot hd hout) h) ?_ ?_
  · intro b x f k hfold _ _ _
    refine maintains_pure ⟨refines_set ho ?_ fun _ => ?_, fun _ => hout⟩
    · exact becomes_folded hfold (fun _ h => .inl h) (fun _ h => .inl h) (.inl rfl)
    · exact .inr ⟨_, _, _, _, _, _, _, _, _, rfl, rfl⟩
  · -- r10 takes the index, the base or their sum, whichever the other part allows.
    intro b x f k hfold _ lines b' x' f' hload d1 h1
    obtain ⟨hb, hx, -⟩ := foldAddress_parts hfold
    have hload' {op : Opcode} (hop : op = .lea ∨ op = .move) {part : Operand}
        (h : WellFormed locs part) : Maintains (Lowered locs)
          (emit cx op (some part) none (some (.reg (tempReg .i64)))) fun _ => True := by
      rcases hop with rfl | rfl
      · exact maintains_emit rfl (wellFormedOption_some.mpr h) wellFormedOption_none htemp
      · exact maintains_emit rfl (wellFormedOption_some.mpr h) wellFormedOption_none htemp
    cases hload with
    | base form =>
      refine maintains_bind (hload' (form.imp_left And.left) (hpart _ (hb _ rfl).1)) fun _ _ =>
        maintains_putAddress ho h1 ?_
      exact becomes_folded hfold (fun o h => .inr (hisTemp o h)) (fun _ h => .inl h) (.inl rfl)
    | index =>
      refine maintains_bind (hload' (.inr rfl) (hpart _ (.inr (hx _ rfl)))) fun _ _ =>
        maintains_putAddress ho h1 ?_
      exact becomes_folded hfold (fun _ h => .inl h) (fun o h => .inr (hisTemp o h)) (.inl rfl)
    | @sum b x f =>
      obtain ⟨hbase, hliteral⟩ := hb b rfl
      have hadd : Maintains (Lowered locs) (emit cx .add (some (.reg (tempReg .i64))) (some b)
          (some (.reg (tempReg .i64)))) fun _ => True :=
        maintains_keep (ready_addition (.inl rfl) (wellFormed_tempReg locs _) rfl (hpart b hbase)
          (hint b hbase) fun l value hl _ => absurd hl (hliteral l))
      have hscale (l : Int64) : Maintains (Lowered locs) (emit cx .shl (some (.reg (tempReg .i64)))
          (some (.imm (.ofInt .i8 l))) (some (.reg (tempReg .i64)))) fun _ => True := by
        refine maintains_emit rfl htemp ?_ htemp
        rw [wellFormedOption_some]
        simp [Literal.ofInt, Ty.size, WellFormed]
      refine sumLines_rule (R := fun m => Maintains (Lowered locs) m _)
        (fun _ h => maintains_bind (hload' (.inr rfl) (hpart x (.inr (hx x rfl)))) fun _ _ => h)
        (fun l _ h => maintains_bind (hscale l) fun _ _ => h)
        (fun _ h => maintains_bind hadd fun _ _ => h) (maintains_putAddress ho h1 ?_)
      exact becomes_folded hfold (fun o h => .inr (hisTemp o h)) (fun o h => by cases h) (.inr rfl)

/-! ## Sources and outputs -/

/-- What making a source encodable leaves. -/
structure Sourced (locs : Locations) (slot : Slot) (narrow : Bool) (d d' : Draft) : Prop where
  refines : Refines locs d.instr d'.instr
  holder : d'.holder ≠ some .output
  narrow : narrow = true → Narrow slot d'.instr

theorem narrow_of_not_literal {slot : Slot} {i : Instr} (h : ∀ l, slot.get i ≠ some (.imm l)) :
    Narrow slot i := fun l _ hl => absurd hl (h l)

theorem maintains_source {slot : Slot} (hslot : slot ≠ .output) (narrow : Bool) {d : Draft}
    (hd : WellPlaced locs d.instr) (hout : d.holder ≠ some .output) :
    Maintains (Lowered locs) (source cx slot narrow d) (Sourced locs slot narrow d) := by
  have hother : ∀ d', Refines locs d.instr d'.instr → d'.holder ≠ some .output →
      (∀ l, slot.get d'.instr ≠ some (.imm l)) → Sourced locs slot narrow d d' :=
    fun d' hr hh h => ⟨hr, hh, fun _ => narrow_of_not_literal h⟩
  unfold source
  split
  · rename_i v ho
    refine maintains_bind (maintains_locate cx _) fun _ _ => maintains_pure ?_
    exact hother d (.refl _) hout fun l hl => by cases ho.symm.trans hl
  · rename_i l ho
    split
    · refine maintains_bind (maintains_materialize _) fun symbol hsymbol => maintains_pure ?_
      refine hother _ (refines_set ho (becomes_symbol hsymbol.1 hsymbol.2)
        fun h => absurd h hslot) hout fun l hl => ?_
      cases (Slot.get_set slot _ d.instr).symm.trans hl
    · refine maintains_bind (maintains_materialize _) fun symbol hsymbol => ?_
      refine maintains_bind (maintains_reserveTemp slot hd hout) fun d1 h1 => ?_
      have hname : WellFormedOption locs (some (.symbol symbol)) := by
        rw [wellFormedOption_some]
        simpa only [WellFormed] using hsymbol.2
      have htemp := wellFormedOption_some.mpr (wellFormed_tempReg locs .str)
      refine maintains_bind (maintains_emit rfl hname wellFormedOption_none htemp) fun _ _ => ?_
      refine maintains_pure (hother _ ?_ ?_ fun l hl => ?_)
      · exact h1.1.trans (refines_set (h1.2.2.trans ho) (becomes_tempReg rfl _)
          fun h => absurd h hslot)
      · rw [show (d1.put slot (.reg (tempReg .str))).holder = d1.holder from rfl, h1.2.1]
        exact fun h => hslot (Option.some.inj h)
      · cases (Slot.get_set slot _ d1.instr).symm.trans hl
    · rename_i w value
      split
      · refine (maintains_intoTemp_literal hd hout hslot ho rfl).mono fun d' h => ?_
        obtain ⟨hr, hh, r, hget⟩ := h
        exact hother d' hr hh fun l hl => by cases hget.symm.trans hl
      · rename_i hfit
        refine maintains_pure ⟨.refl _, hout, fun hnarrow l v hl hv => ?_⟩
        cases ho.symm.trans hl
        cases hv
        simpa [hnarrow] using hfit
    · rename_i word
      refine maintains_pure ⟨.refl _, hout, fun _ l v hl hv => ?_⟩
      cases ho.symm.trans hl
      cases hv
      simpa only [WellFormed] using hd.wellFormed slot ho
  · rename_i ho
    refine (maintains_address hd hout ho).mono fun d' h => ?_
    refine hother d' h.1 (h.2 hslot) fun l hl => ?_
    obtain ⟨o, ho', hb⟩ := h.1.exists_original hl
    cases ho.symm.trans ho'
    cases hb.literal l rfl
  · rename_i himm _
    refine maintains_pure (hother d (.refl _) hout fun l hl => ?_)
    exact himm l hl

theorem maintains_dest {d : Draft} (hd : WellPlaced locs d.instr) (hout : d.holder ≠ some .output) :
    Maintains (Lowered locs) (dest cx .output d) fun d' => Refines locs d.instr d'.instr := by
  have hself : Maintains (Lowered locs) (pure d : LowerM Draft) fun d' =>
      Refines locs d.instr d'.instr := maintains_pure (.refl _)
  unfold dest
  split
  · exact maintains_bind (maintains_locate cx _) fun _ _ => hself
  · split
    · exact maintains_fail cx _
    · exact hself
  · rename_i ho
    exact (maintains_address hd hout ho).mono fun d' h => h.1
  · exact maintains_fail cx _
  · exact hself

theorem maintains_store {value : Reg} {output : Option Operand} (hv : WellFormed locs (.reg value))
    (ho : WellFormedOption locs output) :
    Maintains (Lowered locs) (store cx value output) fun _ => True := by
  unfold store
  have hi : WellPlaced locs ⟨.move, some (.reg value), none, none, output, cx.instr.pos⟩ := by
    intro slot
    cases slot with
    | first => exact wellFormedOption_some.mpr hv
    | second => exact wellFormedOption_none
    | addend => exact wellFormedOption_none
    | output => exact ho
  refine maintains_bind (maintains_dest hi ?_) fun d hd => ?_
  · dsimp only
    split <;> simp
  · refine maintains_keep (ready_of_plain (hi.refines hd) ?_)
    rw [hd.op]
    rfl

end Steps

end Backend.Lowering
