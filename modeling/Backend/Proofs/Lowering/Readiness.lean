-- Lowering an instruction leaves instructions that are ready for selection, if its operands go with
-- its operation and no literal is exchanged.
import Backend.Proofs.Lowering.Drafts

namespace Backend.Lowering

variable {locs : Locations} {cx : Context}

/-! ## Instructions whose operands only have to be encodable -/

theorem WellPlaced.set {i : Instr} (h : WellPlaced locs i) (slot : Slot) {o : Operand}
    (ho : WellFormed locs o) : WellPlaced locs (slot.set o i) := by
  intro slot'
  by_cases hs : slot = slot'
  · subst hs
    rw [Slot.get_set]
    exact wellFormedOption_some.mpr ho
  · rw [Slot.get_set_ne hs]
    exact h slot'

theorem wellPlaced_make {op : Opcode} {first second output : Option Operand} {pos : Position}
    (hfirst : WellFormedOption locs first) (hsecond : WellFormedOption locs second)
    (houtput : WellFormedOption locs output) :
    WellPlaced locs ⟨op, first, second, none, output, pos⟩ := by
  intro slot
  cases slot with
  | first => exact hfirst
  | second => exact hsecond
  | addend => exact wellFormedOption_none
  | output => exact houtput

theorem isFloat_of_isInt {l : Literal} (h : l.isInt = true) : l.isFloat = false := by
  cases l <;> first | rfl | cases h

/-- Afterwards the first operand is no literal with an integer value. -/
theorem maintains_intImmediate {d : Draft} (hd : WellPlaced locs d.instr)
    (hout : d.holder ≠ some .output) :
    Maintains (Lowered locs) (intImmediateIntoTemp cx .first d) fun d' =>
      Refines locs d.instr d'.instr ∧ d'.holder ≠ some .output ∧
        ∀ l, d'.instr.first = some (.imm l) → l.int? = none := by
  unfold intImmediateIntoTemp
  split
  · rename_i l ho
    split
    · rename_i hint
      refine (maintains_intoTemp_literal hd hout (by decide) ho (isFloat_of_isInt hint)).mono ?_
      rintro d' ⟨hr, hh, r, hget⟩
      exact ⟨hr, hh, fun l hl => by cases hget.symm.trans hl⟩
    · rename_i hint
      refine maintains_pure ⟨.refl _, hout, fun l' hl => ?_⟩
      cases ho.symm.trans hl
      simpa [Literal.isInt] using hint
  · rename_i himm
    exact maintains_pure ⟨.refl _, hout, fun l hl => absurd hl (himm l)⟩

/-- An instruction with the temporary register as second operand. -/
def loadedSecond (t : Ty) (i : Instr) : Instr := Slot.second.set (.reg (tempReg t)) i

theorem Typed.loadedSecond {i : Instr} (h : Typed locs i) (hop : i.op = .mul) (t : Ty) :
    Typed locs (loadedSecond t i) := by
  have hmul : (Lowering.loadedSecond t i).op = .mul := hop
  constructor
  · intro _
    refine (h.arithmetic (by rw [hop]; rfl)).imp id ?_
    rintro ⟨a, b, ha, -, haf, -⟩
    exact ⟨a, _, ha, rfl, haf, intForm_tempReg locs t⟩
  · intro h
    rw [hmul] at h
    cases h
  · intro h
    rw [hmul] at h
    cases h
  · intro h
    rw [hmul] at h
    cases h
  · intro h
    rw [hmul] at h
    rcases h with h | h | h <;> cases h
  · intro h
    rw [hmul] at h
    cases h

/-- Loading the second operand makes no exchange. -/
theorem Exchanged.of_loadedSecond {i : Instr} {t : Ty} {b : Operand} (hb : i.second = some b)
    (h : Exchanged locs (loadedSecond t i)) : Exchanged locs i := by
  obtain ⟨hop, hcom, l, value, o, r, b', hl, hv, ho, hreg, hint, hb', hreads, hplace⟩ := h
  refine ⟨hop, hcom, l, value, o, r, b, hl, hv, ho, hreg, hint, hb, .inr ?_, hplace⟩
  rcases hreads with h | h
  · cases hb'
    exact .inl (readsKey_tempReg h)
  · exact h

/-- A division of floats still computes with floats, or has its dividend in the frame. -/
theorem dividesRax_of_floatOrFrame {i : Instr} (h : FloatOrFrame i)
    (hfloat : (opType i).isFloat = false) : DividesRax i := by
  rcases h with h | h
  · rw [hfloat] at h
    cases h
  · exact .inl h

theorem Maintains.and_emits {α : Type} {I : State → Prop} {m : LowerM α} {Q R : α → Prop}
    (h : Maintains I m Q) (h' : Emits (fun _ => True) m R) : Maintains I m fun a => Q a ∧ R a := by
  intro s a s' hs hI
  obtain ⟨hI', hq⟩ := h s a s' hs hI
  exact ⟨hI', hq, (h' s a s' hs fun _ _ => trivial).2⟩

/-- The output is made encodable last. -/
theorem maintains_finish {i : Instr} {d : Draft} (hi : WellPlaced locs i) (ht : Typed locs i)
    (hx : ¬ Exchanged locs i) (hr : Refines locs i d.instr) (hout : d.holder ≠ some .output)
    (hsecond : Narrow .second d.instr) (hpush : i.op = .push → Narrow .first d.instr)
    (hfirst : (i.op.isCompare || i.op.isCondBranch) = true →
      ∀ l, d.instr.first = some (.imm l) → l.int? = none)
    (hdiv : isDivision i.op = true → FloatOrFrame d.instr) :
    Maintains (Lowered locs) (do keep (← dest cx .output d).instr) fun _ => True := by
  have htrue : ∀ i : Instr, Unpinned i → (fun _ : Instr => True) i := fun _ _ => trivial
  refine maintains_bind ((maintains_dest (hi.refines hr) hout).and_emits (emits_dest htrue cx d))
    fun d' hd => maintains_keep ?_
  obtain ⟨hd, hfollows⟩ := hd
  have hop : d'.instr.op = i.op := hd.op.trans hr.op
  refine ready_of_refines hi ht hx (hr.trans hd) (hsecond.refines hd) ?_ ?_ ?_
  · intro h
    rw [hop] at h
    exact (hpush h).refines hd
  · intro h l hl
    rw [hop] at h
    exact hfirst h l (@Refines.literal _ _ _ hd .first l hl)
  · intro h
    rw [hop] at h
    exact dividesRax_of_floatOrFrame (hfollows.kind hout (hdiv h))

theorem maintains_generic {i : Instr} (hi : WellPlaced locs i) (ht : Typed locs i)
    (hx : ¬ Exchanged locs i) (hop : (i.op.isCompare || i.op.isCondBranch) = false)
    (hdiv : isDivision i.op = true → (opType i).isFloat = true) :
    Maintains (Lowered locs) (generic cx i) fun _ => True := by
  have htrue : ∀ i : Instr, Unpinned i → (fun _ : Instr => True) i := fun _ _ => trivial
  have hfirst : ∀ d : Draft, (i.op.isCompare || i.op.isCondBranch) = true →
      ∀ l, d.instr.first = some (.imm l) → l.int? = none := by
    intro d h
    rw [hop] at h
    cases h
  have hof : (Draft.of i).holder ≠ some .output := by simp [Draft.of]
  unfold generic
  refine maintains_bind ((maintains_source (by decide) (i.op == .push) hi hof).and_emits
    (emits_source htrue cx (by decide) _ _)) fun d1 h1 => ?_
  obtain ⟨h1, f1⟩ := h1
  have hi1 := hi.refines h1.refines
  refine maintains_bind ((maintains_source (by decide) true hi1 h1.holder).and_emits
    (emits_source htrue cx (by decide) _ d1)) fun d2 h2 => ?_
  obtain ⟨h2, f2⟩ := h2
  have hi2 := hi1.refines h2.refines
  refine maintains_bind ((maintains_source (by decide) true hi2 h2.holder).and_emits
    (emits_source htrue cx (by decide) _ d2)) fun d3 h3 => ?_
  obtain ⟨h3, f3⟩ := h3
  have hi3 := hi2.refines h3.refines
  have hr : Refines locs i d3.instr := (h1.refines.trans h2.refines).trans h3.refines
  have hsecond : Narrow .second d3.instr := (h2.narrow rfl).refines h3.refines
  have hpush : i.op = .push → Narrow .first d3.instr := by
    intro h
    have hn := h1.narrow (by rw [h]; rfl)
    exact (hn.refines h2.refines).refines h3.refines
  have hkind : isDivision i.op = true → FloatOrFrame d3.instr := fun h =>
    f3.1.kind h2.holder (f2.1.kind h1.holder (f1.1.kind hof (.inl (hdiv h))))
  refine maintains_bind maintains_get fun st _ => ?_
  split
  · rename_i hitof
    rw [beq_iff_eq] at hitof
    refine maintains_bind (maintains_intImmediate hi3 h3.holder) fun d4 h4 => ?_
    obtain ⟨h4, hout, -⟩ := h4
    refine maintains_finish hi ht hx (hr.trans h4) hout (hsecond.refines h4)
      (fun h => (hpush h).refines h4) (hfirst d4) fun h => ?_
    rw [hitof] at h
    cases h
  split
  · rename_i hmul
    simp only [Bool.and_eq_true, beq_iff_eq] at hmul
    obtain ⟨⟨⟨hmul, -⟩, -⟩, hmemory⟩ := hmul
    obtain ⟨b, hb⟩ : ∃ b, i.second = some b := by
      cases hs : d3.instr.second with
      | none =>
        rw [hs] at hmemory
        cases hmemory
      | some b' =>
        obtain ⟨b, hb, -⟩ := @Refines.exists_original _ _ _ hr .second _ hs
        exact ⟨b, hb⟩
    -- A register in the place of the second source is no part of the source instruction, so what
    -- follows refines the instruction that has it.
    refine maintains_bind (maintains_intoTemp .second hi3 h3.holder) fun d4 h4 => ?_
    obtain ⟨hh, i', hi', -, heq⟩ := h4
    have hr4 : Refines locs (loadedSecond (d3.typeAt .second) i) d4.instr := by
      rw [heq]
      exact (hr.trans hi').set (by decide) _
    refine maintains_finish (hi.set .second (wellFormed_tempReg locs _)) (ht.loadedSecond hmul _)
      (fun h => hx (h.of_loadedSecond hb)) hr4 (by rw [hh]; decide) ?_ ?_ (hfirst d4) ?_
    · rw [heq]
      refine narrow_of_not_literal fun l hl => ?_
      rw [Slot.get_set] at hl
      cases hl
    · intro h
      cases hmul.symm.trans h
    · intro h
      have hdivision : isDivision i.op = true := h
      rw [hmul] at hdivision
      cases hdivision
  · rw [pure_bind]
    exact maintains_finish hi ht hx hr h3.holder hsecond hpush (hfirst d3) hkind

/-! ## Moves, comparisons and returns -/

theorem maintains_move {i : Instr} (hi : WellPlaced locs i) (hop : i.op = .move) :
    Maintains (Lowered locs) (move cx i) fun _ => True := by
  have hlast : ∀ d : Draft, WellPlaced locs d.instr → d.holder ≠ some .output →
      isPlain d.instr.op = true → Maintains (Lowered locs) (do
        let d ← source cx .first false d
        let d ← dest cx .output d
        keep d.instr) fun _ => True := by
    intro d hd hout hplain
    refine maintains_bind (maintains_source (by decide) false hd hout) fun d1 h1 => ?_
    have hd1 := hd.refines h1.refines
    refine maintains_bind (maintains_dest hd1 h1.holder) fun d2 h2 => maintains_keep ?_
    refine ready_of_plain (hd1.refines h2) ?_
    rw [h2.op, h1.refines.op]
    exact hplain
  have hplain : isPlain i.op = true := by rw [hop]; rfl
  have hself := hlast (.of i) hi (by simp [Draft.of]) hplain
  unfold move
  dsimp only
  split
  · rename_i l hl
    split
    · refine maintains_bind (maintains_materialize _) fun symbol hsymbol => ?_
      rw [pure_bind]
      refine hlast _ ?_ (by simp [Draft.of]) rfl
      intro slot
      cases slot with
      | first =>
        refine wellFormedOption_some.mpr ?_
        simpa only [WellFormed] using hsymbol.2
      | second => exact hi .second
      | addend => exact hi .addend
      | output => exact hi .output
    · split
      · rw [pure_bind]
        exact hself
      · have hload : Maintains (Lowered locs) (do
            let d ← intoTemp cx .first (.of i)
            let d ← source cx .first false d
            let d ← dest cx .output d
            keep d.instr) fun _ => True := by
          refine maintains_bind (maintains_intoTemp_literal hi (by simp [Draft.of])
            (by decide) hl rfl) fun d hd => hlast d (hi.refines hd.1) hd.2.1 ?_
          rw [hd.1.op]
          exact hplain
        split
        · refine maintains_bind (maintains_inRegister cx _) fun direct _ => ?_
          split
          · rw [pure_bind]
            exact hself
          · exact hload
        · rw [pure_bind]
          exact hload
    · rw [pure_bind]
      exact hself
  · rw [pure_bind]
    exact hself

theorem isComparison_swapped (op : Opcode) :
    (op.swapped.isCompare || op.swapped.isCondBranch) = (op.isCompare || op.isCondBranch) := by
  cases op <;> rfl

theorem isComparison_literalSecond (i : Instr) :
    ((literalSecond i).op.isCompare || (literalSecond i).op.isCondBranch) =
      (i.op.isCompare || i.op.isCondBranch) := by
  unfold literalSecond
  split
  · exact isComparison_swapped i.op
  · rfl

theorem WellPlaced.literalSecond {i : Instr} (h : WellPlaced locs i) :
    WellPlaced locs (literalSecond i) := by
  unfold Lowering.literalSecond
  split
  · intro slot
    cases slot with
    | first => exact h .second
    | second => exact h .first
    | addend => exact h .addend
    | output => exact h .output
  · exact h

theorem not_exchanged_of_comparison {i : Instr} (h : (i.op.isCompare || i.op.isCondBranch) = true) :
    ¬ Exchanged locs i := by
  rintro ⟨htwo, -⟩
  cases hop : i.op <;> rw [hop] at h htwo <;>
    first | exact absurd h (by decide) | exact absurd htwo (by decide)

theorem maintains_compare {i : Instr} (hi : WellPlaced locs i) (ht : Typed locs (literalSecond i))
    (hop : (i.op.isCompare || i.op.isCondBranch) = true) :
    Maintains (Lowered locs) (compare cx i) fun _ => True := by
  have hi := hi.literalSecond
  rw [← isComparison_literalSecond] at hop
  unfold compare
  dsimp only
  generalize literalSecond i = j at hi ht hop
  have hx := @not_exchanged_of_comparison locs j hop
  have hother : isDivision j.op = false ∧ j.op ≠ .push := by
    cases hj : j.op <;> rw [hj] at hop <;> first | exact ⟨rfl, by decide⟩ | cases hop
  refine maintains_bind (maintains_source (by decide) false hi (by simp [Draft.of]))
    fun d1 h1 => ?_
  have hi1 := hi.refines h1.refines
  refine maintains_bind (maintains_source (by decide) true hi1 h1.holder) fun d2 h2 => ?_
  have hi2 := hi1.refines h2.refines
  refine maintains_bind (maintains_intImmediate hi2 h2.holder) fun d3 h3 => ?_
  obtain ⟨h3, hout, hliteral⟩ := h3
  have hr : Refines locs j d3.instr := (h1.refines.trans h2.refines).trans h3
  have hsecond : Narrow .second d3.instr := (h2.narrow rfl).refines h3
  split
  · refine maintains_finish hi ht hx hr hout hsecond (fun h => absurd h hother.2)
      (fun _ => hliteral) fun h => ?_
    rw [hother.1] at h
    cases h
  · rw [pure_bind]
    refine maintains_keep (ready_of_refines hi ht hx hr hsecond ?_ (fun _ => hliteral) ?_)
    · intro h
      rw [hr.op] at h
      exact absurd h hother.2
    · intro h
      rw [hr.op, hother.1] at h
      cases h

theorem wellFormed_regFor (locs : Locations) (id : Machine.RegId) (t : Ty) :
    WellFormed locs (.reg (regFor id t)) := by
  simp only [WellFormed]
  unfold regFor
  split <;> exact isWidth_registerWidth t

theorem maintains_ret {i : Instr} (hi : WellPlaced locs i) :
    Maintains (Lowered locs) (ret cx i) fun _ => True := by
  unfold ret
  split
  · exact maintains_emit rfl wellFormedOption_none wellFormedOption_none wellFormedOption_none
  · rename_i value hvalue
    have hreg := wellFormedOption_some.mpr (wellFormed_regFor locs 0 value.ty)
    have hv := wellFormedOption_some.mpr (hi.wellFormed .first hvalue)
    refine maintains_bind (maintains_move (wellPlaced_make hv wellFormedOption_none hreg) rfl)
      fun _ _ => ?_
    exact maintains_emit rfl hreg wellFormedOption_none wellFormedOption_none

/-! ## Divisions and shifts -/

theorem wellFormed_gpr (locs : Locations) (id : Machine.RegId) {w : Nat} (h : w = 4 ∨ w = 8) :
    WellFormed locs (.reg (gpr id w)) := by
  simp only [WellFormed]
  rcases h with rfl | rfl
  · exact .inr (.inr (.inl rfl))
  · exact .inr (.inr (.inr rfl))

theorem wellFormedOption_list (locs : Locations) (items : List Operand) :
    WellFormedOption locs (some (.list items)) := by
  simp only [WellFormedOption, WellFormed]

/-- A push of an operand that is no wide literal. -/
theorem maintains_push {o : Operand} (ho : WellFormed locs o)
    (hfit : ∀ l value, o = .imm l → l.int? = some value → Machine.fitsInt32 value = true) :
    Maintains (Lowered locs) (emit cx .push (some o) none none) fun _ => True := by
  have hi : WellPlaced locs ⟨.push, some o, none, none, none, cx.instr.pos⟩ :=
    wellPlaced_make (wellFormedOption_some.mpr ho) wellFormedOption_none wellFormedOption_none
  refine maintains_keep (ready_of_refines hi ?_ ?_ (.refl _) ?_ ?_ ?_ ?_)
  · constructor <;> intro h <;> rcases h with h | h | h <;> cases h
  · rintro ⟨h, -⟩
    cases h
  · exact narrow_of_not_literal fun l h => by cases h
  · exact fun _ l value hl hv => hfit l value (Option.some.inj hl) hv
  · intro h
    cases h
  · intro h
    cases h

theorem maintains_pushReg {r : Reg} (hr : WellFormed locs (.reg r)) :
    Maintains (Lowered locs) (emit cx .push (some (.reg r)) none none) fun _ => True :=
  maintains_push hr fun l value h => by cases h

/-- The division that rax and r10 are loaded for. -/
theorem ready_division {op : Opcode} {w : Nat} {output : List Operand} {pos : Position}
    (hop : isDivision op = true) (hw : w = 4 ∨ w = 8) :
    Ready locs ⟨op, some (.reg (gpr Machine.rax w)), some (.reg (gpr Machine.r10 w)), none,
      some (.list output), pos⟩ := by
  have hother : isTwoAddress op = false ∧ op.isCompare = false ∧ op.isCondBranch = false ∧
      op.isBranch = false ∧ op.isFused = false ∧ op ≠ .itof ∧ op ≠ .ftoi ∧ op ≠ .fext ∧
      op ≠ .ftrunc ∧ op ≠ .push := by
    cases op <;> first | (refine ⟨rfl, rfl, rfl, rfl, rfl, ?_⟩; decide) | cases hop
  obtain ⟨htwo, hcompare, hcond, hbranch, hfused, hitof, hftoi, hfext, hftrunc, hpush⟩ := hother
  constructor
  · exact wellPlaced_make (wellFormedOption_some.mpr (wellFormed_gpr locs Machine.rax hw))
      (wellFormedOption_some.mpr (wellFormed_gpr locs Machine.r10 hw))
      (wellFormedOption_list locs output)
  · constructor <;> simp_all
  · rintro ⟨h, -⟩
    rw [htwo] at h
    cases h
  · simp_all
  · simp_all
  · exact fun h => absurd h hpush
  · exact fun _ _ => .inr ⟨w, hw, rfl, rfl⟩

theorem divisionWidth_cases (t : Ty) : max t.size 4 = 4 ∨ max t.size 4 = 8 := by
  cases t <;> decide

theorem maintains_divide {i : Instr} (hi : WellPlaced locs i) (hop : isDivision i.op = true) :
    Maintains (Lowered locs) (divide cx i) fun _ => True := by
  have hw := divisionWidth_cases (opType i)
  have hgpr : ∀ id, WellFormedOption locs (some (.reg (gpr id (max (opType i).size 4)))) :=
    fun id => wellFormedOption_some.mpr (wellFormed_gpr locs id hw)
  have hmove : ∀ {o : Option Operand} (id : Machine.RegId), WellFormedOption locs o →
      Maintains (Lowered locs)
        (emit cx .move o none (some (.reg (gpr id (max (opType i).size 4))))) fun _ => True :=
    fun id ho => maintains_emit rfl ho wellFormedOption_none (hgpr id)
  unfold divide
  dsimp only
  refine maintains_bind (maintains_source (by decide) false hi (by simp [Draft.of])) fun d1 h1 => ?_
  have hi1 := hi.refines h1.refines
  refine maintains_bind (maintains_source (by decide) false hi1 h1.holder) fun d2 h2 => ?_
  have hi2 := hi1.refines h2.refines
  refine maintains_join (Q := fun d => WellPlaced locs d.instr)
    ((maintains_spill hi2 h2.holder).mono fun d h => hi2.refines h.1) (maintains_pure hi2)
    fun d3 hi3 => ?_
  refine maintains_bind maintains_get fun st _ => ?_
  have hsaved : ∀ r ∈ [regRax, regRdx].filter st.closure.locations.occupies,
      WellFormed locs (.reg r) := by
    intro r hr
    have hr := List.mem_of_mem_filter hr
    simp only [List.mem_cons, List.not_mem_nil, or_false] at hr
    rcases hr with rfl | rfl <;> exact wellFormed_gpr locs _ (.inr rfl)
  refine maintains_bind (maintains_each fun r hr => maintains_pushReg (hsaved r hr)) fun _ _ => ?_
  refine maintains_bind (hmove _ (hi3 .second)) fun _ _ => ?_
  refine maintains_bind (hmove _ (hi3 .first)) fun _ _ => ?_
  refine maintains_bind (maintains_keep (ready_division hop hw)) fun _ _ => ?_
  have hresult : ∀ r : Bool, WellFormedOption locs (some (.reg (if r = true then
      gpr Machine.rdx (max (opType i).size 4) else gpr Machine.rax (max (opType i).size 4)))) := by
    intro r
    split <;> exact hgpr _
  have hrestore : Maintains (Lowered locs) (forIn
      ([regRax, regRdx].filter st.closure.locations.occupies).reverse PUnit.unit fun r _ => do
        emit cx .pop none none (some (.reg r))
        pure (ForInStep.yield PUnit.unit)) fun _ => True :=
    maintains_each fun r hr => maintains_emit rfl wellFormedOption_none wellFormedOption_none
      (wellFormedOption_some.mpr (hsaved r (List.mem_reverse.mp hr)))
  have hstore : ∀ o, d3.instr.output = some o → Maintains (Lowered locs)
      (store cx (if ([regRax, regRdx].filter st.closure.locations.occupies).isEmpty = true
        then (if (i.op == .srem || i.op == .urem) = true then
          gpr Machine.rdx (max (opType i).size 4) else gpr Machine.rax (max (opType i).size 4))
        else gpr Machine.r10 (max (opType i).size 4)) (some o)) fun _ => True := by
    intro o ho
    refine maintains_store ?_ (by rw [← ho]; exact hi3 .output)
    split
    · exact wellFormedOption_some.mp (hresult _)
    · exact wellFormed_gpr locs _ hw
  split
  · refine maintains_when (fun _ => ?_) (maintains_bind hrestore fun _ _ => ?_)
    · exact hmove _ (hresult _)
    split
    · exact hstore _ ‹_›
    · exact maintains_pure trivial
  · split
    · exact hstore _ ‹_›
    · exact maintains_pure trivial

/-- A shift by cl. -/
theorem maintains_shift {i : Instr} (hi : WellPlaced locs i)
    (hop : i.op = .shl ∨ i.op = .shr ∨ i.op = .sar) :
    Maintains (Lowered locs) (shift cx i) fun _ => True := by
  have hplain : isPlain i.op = true := by
    rcases hop with h | h | h <;> rw [h] <;> rfl
  have hcl : WellFormed locs (.reg (gpr Machine.rcx 1)) := by
    simp only [WellFormed]
    exact .inl rfl
  unfold shift
  dsimp only
  split
  · rename_i l hl
    have hset : { i with second := some (.imm (literalCount (opType i) l)) } =
        Slot.second.set (.imm (literalCount (opType i) l)) i := rfl
    rw [hset]
    have hcount : WellFormed locs (.imm (literalCount (opType i) l)) := by
      simp [literalCount, Literal.ofInt, Ty.size, WellFormed]
    have hready := @ready_of_plain locs _ (hi.set .second hcount) hplain
    refine maintains_generic hready.placed hready.typed hready.kept ?_ ?_
    · rcases hop with h | h | h <;>
        rw [show (Slot.second.set (.imm (literalCount (opType i) l)) i).op = i.op from rfl,
          h] <;> rfl
    · intro h
      rw [show (Slot.second.set (.imm (literalCount (opType i) l)) i).op = i.op from rfl] at h
      rcases hop with hi | hi | hi <;> rw [hi] at h <;> cases h
  · refine maintains_bind (maintains_source (by decide) false hi (by simp [Draft.of]))
      fun d1 h1 => ?_
    have hi1 := hi.refines h1.refines
    refine maintains_bind (maintains_source (by decide) false hi1 h1.holder) fun d2 h2 => ?_
    have hi2 := hi1.refines h2.refines
    have hcount := wellFormedOption_some.mpr
      (wellFormed_regFor locs Machine.rcx (d2.typeAt .second))
    refine maintains_bind maintains_get fun st _ => ?_
    split
    · refine maintains_bind (maintains_dest hi2 h2.holder) fun d3 h3 => ?_
      have hi3 := hi2.refines h3
      refine maintains_bind (maintains_emit rfl (hi3 .second) wellFormedOption_none hcount)
        fun _ _ => ?_
      refine maintains_keep (ready_of_plain (hi3.set .second hcl) ?_)
      rw [Draft.op_put, h3.op, h2.refines.op, h1.refines.op]
      exact hplain
    · refine maintains_join (Q := fun d => WellPlaced locs d.instr)
        ((maintains_spill hi2 h2.holder).mono fun d h => hi2.refines h.1) (maintains_pure hi2)
        fun d3 hi3 => ?_
      have htemp := wellFormedOption_some.mpr (wellFormed_tempReg locs (opType i))
      have hrcx := wellFormed_gpr locs Machine.rcx (.inr rfl)
      refine maintains_bind (maintains_emit rfl (hi3 .first) wellFormedOption_none htemp)
        fun _ _ => ?_
      refine maintains_bind (maintains_pushReg hrcx) fun _ _ => ?_
      refine maintains_bind (maintains_emit rfl (hi3 .second) wellFormedOption_none hcount)
        fun _ _ => ?_
      refine maintains_bind (maintains_emit hplain htemp (wellFormedOption_some.mpr hcl) htemp)
        fun _ _ => ?_
      refine maintains_bind (maintains_emit rfl wellFormedOption_none wellFormedOption_none
        (wellFormedOption_some.mpr hrcx)) fun _ _ => ?_
      exact maintains_store (wellFormed_tempReg locs _) (hi3 .output)

end Backend.Lowering
