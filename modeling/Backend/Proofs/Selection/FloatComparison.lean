-- Comparisons of floats with a literal as the first source, which are done with the literal second
-- and the operation turned around, and the same comparisons with the literal in a variable. The two
-- differ on unordered pairs.
import Backend.Proofs.Selection.Comparison

namespace Backend.Selection

open Backend.Lowering (Comparable InPlace Writable opType order? holdsFor isLiteral isWide
  literalSecond lineAt floatBits run_bind materialize value_of_place)
open Backend.Machine (Inst Linkage State Place Assigns run Cpu Flags runTo runTo_cons runTo_of_run)

/-! ## Operands -/

/-- A float of the width in an SSE register or in memory. The last SSE register is scratch. -/
def Scalar (w : UInt8) : Machine.Operand → Prop
  | .xmm x => x.width = w ∧ x.id ≠ 15
  | .mem m => m.width = w
  | _ => False

/-- A float in a register or a slot of the frame. -/
structure ScalarOperand (c : Closure) (w : UInt8) (o : Operand) (a : Machine.Operand) : Prop where
  form : operand c o = .ok a
  inPlace : InPlace c o
  float : o.ty.isFloat = true
  scalar : Scalar w a

section Code

variable {l : Linkage} {w : UInt8} {a b : Machine.Operand}

/-- A scalar in memory is loaded into the scratch register. -/
theorem next_load {s : State} {f : Option Flags} {m : Machine.Memory} (id : Machine.RegId)
    (hw : w = 4 ∨ w = 8) :
    (two .movs (.xmm ⟨id, w⟩) (.mem (m.sized w))).next l ⟨s, f⟩ =
      some ⟨s.setXmm id ((s.get (.mem (m.addr.eval l s)) w.toNat).setWidth 64), f⟩ ∧
    Assigns (.xmm id) (s.get (.mem (m.addr.eval l s)) w.toNat) []
      s (s.setXmm id ((s.get (.mem (m.addr.eval l s)) w.toNat).setWidth 64)) := by
  have hle : w.toNat ≤ 8 := by rcases hw with rfl | rfl <;> decide
  refine ⟨?_, ?_, fun _ _ _ => rfl, fun r hr => ?_, fun _ _ => rfl⟩
  · have hnext : (two .movs (.xmm ⟨id, w⟩) (.mem (m.sized w))).next l ⟨s, f⟩ =
        (do some ⟨← Machine.copyScalar l s (.xmm ⟨id, w⟩) (.mem (m.sized w)), f⟩) := rfl
    have hcopy : Machine.copyScalar l s (.xmm ⟨id, w⟩) (.mem (m.sized w)) =
        some (s.setXmm id ((s.get (.mem (m.addr.eval l s)) w.toNat).setWidth 64)) := if_pos rfl
    rw [hnext, hcopy]
    rfl
  · simp only [State.get, Machine.State.setXmm, Function.update_self]
    rw [BitVec.setWidth_setWidth_of_le _ (by omega), BitVec.setWidth_eq]
  · exact Function.update_of_ne (fun h => hr (congrArg Place.xmm h.symm)) _ _

/-- The comparison itself, when its first operand is in a register. -/
theorem next_ucomis {s : State} {f : Option Flags} (id : Machine.RegId) (hb : Scalar w b) :
    (inst .ucomis (some (.xmm ⟨id, w⟩)) (some (resize b w))).next l ⟨s, f⟩ =
      some ⟨s, some (.ofOrder (order? true false (s.get (.xmm id) w.toNat)
        (b.value l s w.toNat)))⟩ := by
  cases b with
  | xmm x => exact if_pos (by simp [Machine.Operand.scalarAt, resize])
  | mem m => exact if_pos (by simp [Machine.Operand.scalarAt, resize, Machine.Memory.sized])
  | reg r => exact hb.elim
  | imm v => exact hb.elim
  | target t => exact hb.elim

/-- The code of a comparison of floats leaves the flags of how they compare. It changes no general
purpose register and no memory. -/
theorem compare_runs_scalar (l : Linkage) (hw : w = 4 ∨ w = 8) (ha : Scalar w a) (hb : Scalar w b) :
    ∃ code, compare (some a) (some b) true = .ok code ∧ ∀ s f rest, ∃ s', s'.regs = s.regs ∧
      s'.mem = s.mem ∧
      runTo l (code ++ rest) ⟨s, f⟩ = runTo l rest
        ⟨s', some (.ofOrder (order? true false (a.value l s w.toNat) (b.value l s w.toNat)))⟩ := by
  have hpos : w ≠ 0 := by rcases hw with rfl | rfl <;> decide
  have hb' : (!isXmm (some b) && !isMem (some b)) = false := by
    cases b <;> first | rfl | exact hb.elim
  have hstep : ∀ (id : Machine.RegId) (s : State) (f : Option Flags) (rest : List Inst),
      runTo l ([inst .ucomis (some (.xmm ⟨id, w⟩)) (some (resize b w))] ++ rest) ⟨s, f⟩ =
      runTo l rest
        ⟨s, some (.ofOrder (order? true false (s.get (.xmm id) w.toNat)
          (b.value l s w.toNat)))⟩ := by
    intro id s f rest
    rw [List.singleton_append, runTo_cons (by rintro c t ⟨⟩), next_ucomis id hb]
    rfl
  cases a with
  | xmm x =>
    obtain ⟨id, width⟩ := x
    obtain ⟨rfl, -⟩ : width = w ∧ id ≠ 15 := ha
    have hwidth : compareWidth (some (.xmm ⟨id, width⟩)) (some b) = width :=
      if_neg (by simpa [opWidth] using hpos)
    have hleft : isXmm (some (.xmm ⟨id, width⟩)) = true := rfl
    refine ⟨[inst .ucomis (some (.xmm ⟨id, width⟩)) (some (resize b width))], ?_,
      fun s f rest => ?_⟩
    · unfold compare
      simp only [hwidth, if_true, hleft, pure_bind, hb', Bool.false_eq_true, if_false]
      rfl
    · exact ⟨s, rfl, rfl, hstep id s f rest⟩
  | mem m =>
    have hm : m.width = w := ha
    have hwidth : compareWidth (some (.mem m)) (some b) = w :=
      (if_neg (by simpa [opWidth, hm] using hpos)).trans hm
    have hleft : isXmm (some (.mem m)) = false := rfl
    refine ⟨two .movs (.xmm ⟨15, w⟩) (.mem (m.sized w)) ::
      [inst .ucomis (some (.xmm ⟨15, w⟩)) (some (resize b w))], ?_, fun s f rest => ?_⟩
    · unfold compare
      simp only [hwidth, if_true, hleft, Bool.false_eq_true, if_false, move, sameOperand, moveToXmm,
        bind, Except.bind, pure, Except.pure, hb']
      rfl
    · obtain ⟨hload, h1⟩ := next_load (l := l) (s := s) (f := f) (m := m) 15 hw
      -- The second operand is not the scratch register, so the load leaves it as it was.
      have hle : w.toNat ≤ 8 := by rcases hw with rfl | rfl <;> decide
      have hkept : b.value l (s.setXmm 15 ((s.get (.mem (m.addr.eval l s)) w.toNat).setWidth 64))
          w.toNat =
          b.value l s w.toNat := by
        cases b with
        | xmm x => exact h1.get_of_separate (q := .xmm x.id) (fun h => hb.2 h.symm) (by omega)
        | mem m' => rfl
        | _ => exact hb.elim
      refine ⟨s.setXmm 15 ((s.get (.mem (m.addr.eval l s)) w.toNat).setWidth 64), rfl, rfl, ?_⟩
      rw [List.cons_append, runTo_cons (by rintro c t ⟨⟩), hload]
      refine (hstep 15 _ f rest).trans ?_
      rw [hkept, h1.value]
      rfl
  | reg r => exact ha.elim
  | imm v => exact ha.elim
  | target t => exact ha.elim

/-- The code of a move of a float in memory. -/
theorem move_runs_scalar (l : Linkage) (hw : w = 4 ∨ w = 8) {m : Machine.Memory} (hm : m.width = w)
    (signed : Bool) (ha : Scalar w a) (hu : NotAddressed [Machine.r11] a) :
    ∃ code, move (some a) (some (.mem m)) signed = .ok code ∧ ∀ s f rest, ∃ s' f' p,
      a.place? l s = some p ∧
      runTo l (code ++ rest) ⟨s, f⟩ = runTo l rest ⟨s', f'⟩ ∧
      Assigns p (s.get (.mem (m.addr.eval l s)) w.toNat) [Machine.r11] s s' := by
  have hint : IsWidth w := by rcases hw with rfl | rfl <;> simp [IsWidth]
  cases a with
  | xmm x =>
    obtain ⟨id, width⟩ := x
    obtain ⟨rfl, -⟩ : width = w ∧ id ≠ 15 := ha
    refine ⟨[two .movs (.xmm ⟨id, width⟩) (.mem (m.sized width))], rfl, fun s f rest => ?_⟩
    obtain ⟨hload, h1⟩ := next_load (l := l) (s := s) (f := f) (m := m) id hw
    refine ⟨_, f, _, rfl, ?_, h1.weaken⟩
    rw [List.singleton_append, runTo_cons (by rintro c t ⟨⟩), hload]
    rfl
  | mem d =>
    have hd : d.width = w := ha
    have hsource : IntOperand w (.mem m) := hm
    obtain ⟨code, hcode⟩ := exists_move_mem (d := d) signed hsource
    refine ⟨code, hcode, fun s f rest => ?_⟩
    obtain ⟨s', hrun, h1⟩ := run_move_mem l s (hd ▸ hint) (hu _ (by decide)) hsource hcode
    obtain ⟨f', hf'⟩ := runTo_of_run (f := f) hrun rest
    subst hd
    refine ⟨s', f', _, rfl, hf', ?_⟩
    have hvalue := convert_value l s signed hint hsource
    rw [hvalue] at h1
    exact h1
  | reg r => exact ha.elim
  | imm v => exact ha.elim
  | target t => exact ha.elim

end Code

/-! ## Literals -/

section Literal

variable (cx : Lowering.Context) {st : Lowering.State} {c : Closure} {lit : Literal}

/-- A literal that is placed in the data moves no operand. -/
theorem operand_materialize (c : Closure) (lit : Literal) (o : Operand) :
    operand (c.materialize lit).2 o = operand c o := by
  unfold Closure.materialize
  dsimp only
  split
  · rfl
  · cases o <;> rfl

theorem inPlace_materialize {o : Operand} (h : InPlace c o) (lit : Literal) :
    InPlace (c.materialize lit).2 o := by
  cases h with
  | var placed =>
    refine .var (l := _) (Eq.trans ?_ placed)
    unfold Closure.materialize
    dsimp only
    split <;> rfl
  | reg r => exact .reg r
  | stack offset t => exact .stack offset t
  | int width value => exact .int width value
  | bool word => exact .bool word

/-- The symbol of a literal has its type and is not one of a thread. -/
theorem operand_symbol (c c' : Closure) (lit : Literal) :
    operand c' (.symbol (c.materialize lit).1) =
    .ok (.mem (.ofRip (c.materialize lit).1.name (widthOf lit.ty))) := by
  unfold Closure.materialize
  dsimp only
  split <;> rfl

theorem run_materialize (lit : Literal) (st : Lowering.State) : materialize lit st =
    .ok ((st.closure.materialize lit).1,
      { st with closure := (st.closure.materialize lit).2 }) := rfl

/-- A move of a float literal becomes one of its place in the data. -/
theorem move_float {fw : FloatWidth} {x : Float.Binary64} {v : Operand}
    (hfirst : cx.instr.first = some (.imm (.float fw x))) (houtput : cx.instr.output = some v)
    (hv : InPlace st.closure v) (hw : Writable v) :
    Lowering.move cx cx.instr st = .ok ((), ⟨(st.closure.materialize (.float fw x)).2, st.out ++
      [{ cx.instr with first := some (.symbol (st.closure.materialize (.float fw x)).1) }]⟩) := by
  obtain ⟨variadic, scratch, ⟨op, first, second, addend, output, pos⟩⟩ := cx
  cases hfirst
  cases houtput
  refine run_bind.mpr ⟨.of ⟨op, _, second, addend, some v, pos⟩, st, rfl, ?_⟩
  refine run_bind.mpr ⟨_, _, run_bind.mpr ⟨_, _, run_materialize _ st, rfl⟩, ?_⟩
  exact run_bind.mpr ⟨_, _, Lowering.dest_inPlace _ _ rfl (inPlace_materialize hv _) hw, rfl⟩

/-- A comparison with a float literal as its first source is turned around. -/
theorem compare_float {fw : FloatWidth} {x : Float.Binary64} {o output : Operand}
    (hfirst : cx.instr.first = some (.imm (.float fw x))) (hsecond : cx.instr.second = some o)
    (ho : InPlace st.closure o) (hlit : isLiteral (some o) = false)
    (houtput : cx.instr.op.isCompare = true →
      cx.instr.output = some output ∧ InPlace st.closure output ∧ Writable output) :
    Lowering.compare cx cx.instr st = .ok ((), ⟨(st.closure.materialize (.float fw x)).2, st.out ++
      [{ cx.instr with
          op := cx.instr.op.swapped, first := some o,
          second := some (.symbol (st.closure.materialize (.float fw x)).1) }]⟩) := by
  obtain ⟨variadic, scratch, ⟨op, first, second, addend, out, pos⟩⟩ := cx
  cases hfirst
  cases hsecond
  have hswap : literalSecond ⟨op, some (.imm (.float fw x)), some o, addend, out, pos⟩ =
      ⟨op.swapped, some o, some (.imm (.float fw x)), addend, out, pos⟩ := by
    unfold literalSecond
    rw [hlit]
    rfl
  let d : Lowering.Draft := ⟨⟨op.swapped, some o,
    some (.symbol (st.closure.materialize (.float fw x)).1), addend, out, pos⟩, none, 0⟩
  rw [Lowering.compare_eq, hswap]
  refine run_bind.mpr ⟨d, { st with closure := (st.closure.materialize (.float fw x)).2 }, ?_, rfl⟩
  refine run_bind.mpr ⟨_, st, Lowering.source_inPlace _ rfl ho, ?_⟩
  refine run_bind.mpr ⟨_, _, run_bind.mpr ⟨_, _, run_materialize _ st, rfl⟩, ?_⟩
  refine run_bind.mpr ⟨_, _, Lowering.intImmediate_first _ _ rfl hlit, ?_⟩
  dsimp only [Lowering.Draft.put, Lowering.Draft.of, Lowering.Slot.set]
  rw [Lowering.isCompare_swapped]
  by_cases hcompare : op.isCompare = true
  · obtain ⟨rfl, hin, hw⟩ := houtput hcompare
    rw [if_pos hcompare]
    exact Lowering.dest_inPlace _ _ rfl (inPlace_materialize hin _) hw
  · rw [if_neg hcompare]
    rfl

end Literal

/-! ## The two forms -/

section Forms

variable {l : Linkage} {c : Closure} {w : UInt8} {o o' v output : Operand} {a b d : Machine.Operand}

theorem ScalarOperand.not_literal (h : ScalarOperand c w o a) :
    isLiteral (some o) = false ∧ Writable o := by
  have hfloat := h.float
  cases h.inPlace with
  | int width value => cases width <;> cases hfloat
  | bool word => cases hfloat
  | _ => exact ⟨rfl, trivial⟩

theorem ScalarOperand.materialize (h : ScalarOperand c w o a) (lit : Literal) :
    ScalarOperand (c.materialize lit).2 w o a :=
  ⟨(operand_materialize c lit o).trans h.form, inPlace_materialize h.inPlace lit, h.float, h.scalar⟩

theorem PlacedOutput.materialize {op : Opcode} (h : PlacedOutput c op o d) (lit : Literal) :
    PlacedOutput (c.materialize lit).2 op o d :=
  ⟨h.compares, (operand_materialize c lit o).trans h.form, h.accepts,
    fun hop => ⟨inPlace_materialize (h.inPlace hop).1 lit, (h.inPlace hop).2⟩⟩

/-- The outcome does not depend on the scratch registers before. -/
theorem Tells.after (ids : List Machine.RegId) {holds : Bool} {s s1 s2 : State}
    {exit : Option Machine.Target} (hregs : ∀ r, r ∉ ids → s1.regs r = s.regs r)
    (hu : NotAddressed ids d) (h : Tells l d holds s1 s2 exit) : Tells l d holds s s2 exit :=
  ⟨h.exit, fun p hp => h.value p ((place_of_notAddressed hregs hu).trans hp)⟩

/-- A scalar is in an SSE register or in memory. -/
theorem Scalar.place_ne {s : State} {p : Place} (h : Scalar w a) (hp : a.place? l s = some p)
    (r : Machine.RegId) : p ≠ .reg r := by
  cases a <;> first | exact h.elim | (cases hp; nofun)

theorem Scalar.exists_place (h : Scalar w a) (s : State) : ∃ p, a.place? l s = some p := by
  cases a <;> first | exact h.elim | exact ⟨_, rfl⟩

/-- What the code of a comparison of floats says of the flags, with its condition. -/
theorem scalar_runs (l : Linkage) {i : Instr} (hw : w = 4 ∨ w = 8)
    (hresult : PlacedOutput c i.op output d) (hfirst : i.first = some o)
    (hsecond : i.second = some o') (houtput : i.output = some output)
    (ho : operand c o = .ok a) (ho' : operand c o' = .ok b) (hfloat : o.ty.isFloat = true)
    (ha : Scalar w a)
    (hb : Scalar w b) : ∃ code, instr c i = .ok code ∧ ∀ s f, ∃ m exit,
      runTo l code ⟨s, f⟩ = some (m, exit) ∧ Tells l d ((condOf i.op true).holds
        (.ofOrder (order? true false (a.value l s w.toNat) (b.value l s w.toNat)))) s m.state
        exit := by
  have htype : (opType i).isFloat = true := by
    have hvoid : (o.ty != .void) = true := by
      cases hty : o.ty <;> rw [hty] at hfloat <;> first | rfl | cases hfloat
    have hsources : (!i.op.isCompare && !i.op.isBranch) = false := by
      have hop := hresult.compares
      cases hi : i.op <;> rw [hi] at hop <;> first | rfl | cases hop
    simp only [opType, hsources, Bool.false_and, Bool.false_eq_true, if_false, hfirst,
      Option.map_some, Option.getD_some, hvoid, if_true, hfloat]
  obtain ⟨flags, hflags, hruns⟩ := compare_runs_scalar l hw ha hb
  obtain ⟨rest, hrest, houtcome⟩ :=
    outcome_runs l i.op true hresult.accepts (hresult.notAddressed.mono (by decide))
  refine ⟨flags ++ rest, ?_, fun s f => ?_⟩
  · rw [instr_comparison hresult.compares (by rw [houtput, optional, hresult.form]; rfl)
      (by rw [hfirst, optional, ho]; rfl) (by rw [hsecond, optional, ho']; rfl), htype,
      hflags, hrest]
    rfl
  · obtain ⟨s1, hregs, -, hrun⟩ := hruns s f rest
    obtain ⟨m, exit, hrun', hanswer⟩ := houtcome s1
      (.ofOrder (order? true false (a.value l s w.toNat) (b.value l s w.toNat)))
    exact ⟨m, exit, hrun.trans hrun',
      Tells.after [] (fun r _ => congrFun hregs r)
      (hresult.notAddressed.mono (by simp)) hanswer.toTells⟩

/-- A comparison of a float literal with an operand, and a variable that the literal can be moved
into. -/
structure PlacedFloats (c : Closure) (fw : FloatWidth) (x : Float.Binary64) (i : Instr)
    (o v output : Operand) (a b d : Machine.Operand) : Prop where
  hasFirst : i.first = some (.imm (.float fw x))
  hasSecond : i.second = some o
  hasOutput : i.output = some output
  other : ScalarOperand c (widthOf fw.ty) o b
  home : ScalarOperand c (widthOf fw.ty) v a
  result : PlacedOutput c i.op output d

/-- The literal is moved into the variable. -/
def literalMove (fw : FloatWidth) (x : Float.Binary64) (i : Instr) (v : Operand) : Instr :=
  ⟨.move, some (.imm (.float fw x)), none, none, some v, i.pos⟩

variable {fw : FloatWidth} {x : Float.Binary64} {i : Instr} {cx : Lowering.Context}
  {st : Lowering.State}

theorem widthOf_float (fw : FloatWidth) : widthOf fw.ty = 4 ∨ widthOf fw.ty = 8 := by
  cases fw
  · exact .inl rfl
  · exact .inr rfl

/-- The place of the literal in the data. -/
def literalPlace (l : Linkage) (c : Closure) (fw : FloatWidth) (x : Float.Binary64) : Place :=
  .mem (l.symbol (c.materialize (.float fw x)).1.name)

/-- The bits of the literal. -/
def literalValue (fw : FloatWidth) (x : Float.Binary64) : BitVec (8 * (widthOf fw.ty).toNat) :=
  (floatBits fw x).setWidth _

theorem literal_form (l : Linkage) (hi : cx.instr = i)
    (h : PlacedFloats st.closure fw x i o v output a b d) :
    ∃ lines code, Lowering.instr cx st =
        .ok ((), ⟨(st.closure.materialize (.float fw x)).2, st.out ++ lines⟩) ∧
      instrs (st.closure.materialize (.float fw x)).2 lines = .ok code ∧ ∀ s f,
        s.get (literalPlace l st.closure fw x) _ = literalValue fw x → ∃ m exit,
          runTo l code ⟨s, f⟩ = some (m, exit) ∧ Tells l d ((condOf i.op.swapped true).holds
            (.ofOrder (order? true false (b.value l s (widthOf fw.ty).toNat) (literalValue fw x))))
            s m.state exit := by
  subst hi
  have hlower := compare_float cx h.hasFirst h.hasSecond h.other.inPlace h.other.not_literal.1
    fun hop => ⟨h.hasOutput, h.result.inPlace hop⟩
  rw [← Lowering.instr_comparison h.result.compares] at hlower
  have hb := h.other.materialize (.float fw x)
  let last : Instr := { cx.instr with
    op := cx.instr.op.swapped, first := some o,
    second := some (.symbol (st.closure.materialize (.float fw x)).1) }
  have hplace : Scalar (widthOf fw.ty) (.mem (.ofRip (st.closure.materialize (.float fw x)).1.name
    (widthOf (Literal.float fw x).ty))) := rfl
  obtain ⟨code, hcode, hruns⟩ := scalar_runs l (i := last) (widthOf_float fw)
    (h.result.materialize (.float fw x)).swap rfl rfl h.hasOutput hb.form
    (operand_symbol _ _ _) hb.float
    hb.scalar hplace
  refine ⟨_, code, hlower, instrs_singleton hcode, fun s f hs => ?_⟩
  obtain ⟨m, exit, hrun, htells⟩ := hruns s f
  refine ⟨m, exit, hrun, ?_⟩
  rw [← hs]
  exact htells

theorem variable_form (l : Linkage) (hi : cx.instr = i)
    (h : PlacedFloats st.closure fw x i o v output a b d) :
    ∃ lines code, (do
        let r ← Lowering.instr { cx with instr := literalMove fw x i v } st
        Lowering.instr { cx with instr := { i with first := some v } } r.2) =
          .ok ((), ⟨(st.closure.materialize (.float fw x)).2, st.out ++ lines⟩) ∧
      instrs (st.closure.materialize (.float fw x)).2 lines = .ok code ∧ ∀ s f,
        s.get (literalPlace l st.closure fw x) _ = literalValue fw x →
        (∀ p q, a.place? l s = some p → b.place? l s = some q →
          p.Separate (widthOf fw.ty).toNat q (widthOf fw.ty).toNat) → ∃ m exit,
          runTo l code ⟨s, f⟩ = some (m, exit) ∧ Tells l d ((condOf i.op true).holds
            (.ofOrder (order? true false (literalValue fw x) (b.value l s (widthOf fw.ty).toNat))))
            s m.state exit := by
  subst hi
  let c' := (st.closure.materialize (.float fw x)).2
  let symbol := (st.closure.materialize (.float fw x)).1
  let move : Instr := { literalMove fw x cx.instr v with first := some (.symbol symbol) }
  let last : Instr := { cx.instr with first := some v }
  have hv : ScalarOperand c' _ v a := h.home.materialize (.float fw x)
  have hb : ScalarOperand c' _ o b := h.other.materialize (.float fw x)
  have hresult : PlacedOutput c' last.op output d := h.result.materialize (.float fw x)
  have hunmoved : NotAddressed worked a := notAddressed_of_inPlace hv.inPlace hv.form
  have hmove : Lowering.instr { cx with instr := literalMove fw x cx.instr v } st =
      .ok ((), ⟨c', st.out ++ [move]⟩) :=
    move_float { cx with instr := literalMove fw x cx.instr v } rfl rfl h.home.inPlace
      h.home.not_literal.2
  have hcompare : Lowering.instr { cx with instr := last } ⟨c', st.out ++ [move]⟩ =
      .ok ((), ⟨c', st.out ++ [move] ++ [last]⟩) := by
    have hnone : literalSecond last = last := by
      unfold literalSecond
      rw [show last.first = some v from rfl, hv.not_literal.1]
      rfl
    have hnarrow : isWide o = false := by
      have hlit := hb.not_literal.1
      unfold isWide
      split
      · cases hlit
      · rfl
    have hinstr : Lowering.instr { cx with instr := last } =
        Lowering.compare { cx with instr := last } last :=
      Lowering.instr_comparison hresult.compares
    have hlines := Lowering.compare_inPlace { cx with instr := last } ⟨c',
      st.out ++ [move]⟩ 0 hnone rfl h.hasSecond (fun hop => ⟨h.hasOutput, hresult.inPlace hop⟩)
      (.inPlace hv.inPlace) (.inPlace hb.inPlace) fun hlit =>
        absurd (hv.not_literal.1.symm.trans hlit) (by decide)
    rw [hinstr, hlines]
    unfold Lowering.comparisonLines
    rw [hv.not_literal.1, hnarrow]
  let m : Machine.Memory := .ofRip symbol.name (widthOf fw.ty)
  obtain ⟨moves, hmoves, hmoving⟩ :=
    move_runs_scalar l (m := m) (widthOf_float fw) rfl (Operand.symbol symbol).ty.isSigned
    hv.scalar (hunmoved.mono (by decide))
  obtain ⟨code, hcode, hruns⟩ :=
    scalar_runs l (i := last) (widthOf_float fw) hresult rfl h.hasSecond h.hasOutput
    hv.form hb.form hv.float hv.scalar hb.scalar
  have hmovecode : instr c' move = .ok moves :=
    (instr_move (operand_symbol _ _ _) hv.form).trans hmoves
  refine ⟨[move] ++ [last], moves ++ code, ?_,
    instrs_append (instrs_singleton hmovecode) (instrs_singleton hcode),
    fun s f hs hseparate => ?_⟩
  · rw [hmove]
    exact hcompare.trans (by rw [List.append_assoc])
  · obtain ⟨s1, f1, p, hp, hrun1, h1⟩ := hmoving s f code
    obtain ⟨q, hq⟩ := hb.scalar.exists_place (l := l) s
    obtain ⟨cpu, exit, hrun2, htells⟩ := hruns s1 f1
    have hle : (widthOf fw.ty).toNat ≤ 8 := widthOf_le fw.ty
    have hregs : ∀ r, r ∉ [Machine.r11] → s1.regs r = s.regs r := fun r hr =>
      h1.regs r (hv.scalar.place_ne hp r) hr
    have hother : NotAddressed worked b := notAddressed_of_inPlace hb.inPlace hb.form
    have hplace : a.place? l s1 = some p :=
      (place_of_notAddressed hregs (hunmoved.mono (by decide))).trans hp
    have hplace' : b.place? l s1 = some q :=
      (place_of_notAddressed hregs (hother.mono (by decide))).trans hq
    have hx : a.value l s1 (widthOf fw.ty).toNat = literalValue fw x :=
      (value_of_place hplace _).trans (h1.value.trans hs)
    have hy : b.value l s1 (widthOf fw.ty).toNat = b.value l s (widthOf fw.ty).toNat := by
      rw [value_of_place hplace', value_of_place hq]
      exact h1.get_of_separate_scratch (fun r _ => hb.scalar.place_ne hq r) (hseparate p q hp hq)
        (by omega)
    refine ⟨cpu, exit, hrun1.trans hrun2, ?_⟩
    rw [hx, hy] at htells
    exact htells.after [Machine.r11] hregs (hresult.notAddressed.mono (by decide))

end Forms

/-! ## Where the two forms agree -/

/-- A comparison of floats with a literal as its first source and the same comparison with the
literal moved into a variable first are both lowered and selected, and their outcomes are the same
exactly when the floats are ordered or the comparison is one for equality. The variable is not where
the other operand is, and the literal is in the data. -/
theorem literal_and_variable_agree_iff (l : Linkage) (cx : Lowering.Context) (st : Lowering.State)
    {fw : FloatWidth} {x : Float.Binary64} {o v output : Operand} {a b d : Machine.Operand}
    (h : PlacedFloats st.closure fw x cx.instr o v output a b d) :
    ∃ lines code lines' code',
      Lowering.instr cx st = .ok ((), ⟨(st.closure.materialize (.float fw x)).2, st.out ++ lines⟩) ∧
      instrs (st.closure.materialize (.float fw x)).2 lines = .ok code ∧
      (do let r ← Lowering.instr { cx with instr := literalMove fw x cx.instr v } st
          Lowering.instr { cx with instr := { cx.instr with first := some v } } r.2) =
        .ok ((), ⟨(st.closure.materialize (.float fw x)).2, st.out ++ lines'⟩) ∧
      instrs (st.closure.materialize (.float fw x)).2 lines' = .ok code' ∧
      ∀ s f, s.get (literalPlace l st.closure fw x) _ = literalValue fw x →
        (∀ p q, a.place? l s = some p → b.place? l s = some q →
          p.Separate (widthOf fw.ty).toNat q (widthOf fw.ty).toNat) →
        ∃ m exit holds m' exit' holds', runTo l code ⟨s, f⟩ = some (m, exit) ∧
        Tells l d holds s m.state exit ∧
          runTo l code' ⟨s, f⟩ = some (m', exit') ∧ Tells l d holds' s m'.state exit' ∧
          (holds = holds' ↔
            (order? true false (literalValue fw x)
              (b.value l s (widthOf fw.ty).toNat)).isSome = true ∨
              cx.instr.op.swapped = cx.instr.op) := by
  obtain ⟨lines, code, hlines, hcode, hruns⟩ := literal_form l rfl h
  obtain ⟨lines', code', hlines', hcode', hruns'⟩ := variable_form l rfl h
  refine ⟨lines, code, lines', code', hlines, hcode, hlines', hcode', fun s f hs hseparate => ?_⟩
  obtain ⟨m, exit, hrun, htells⟩ := hruns s f hs
  obtain ⟨m', exit', hrun', htells'⟩ := hruns' s f hs hseparate
  refine ⟨m, exit, _, m', exit', _, hrun, htells, hrun', htells', ?_⟩
  rw [Lowering.order?_swap]
  exact Machine.condOf_swapped_iff h.result.compares _

/-- One as a literal. -/
def one : Float.Binary64 := ⟨0x3ff0000000000000⟩

/-- The comparison of one with a float in an SSE register. -/
def oneLess : Instr :=
  .make .slt (some (.imm (.float .w64 one))) (some (.var ⟨"x", .f64, false, false⟩))
    (some (.var ⟨"t", .bool, false, false⟩))

def floatClosure : Closure :=
  ⟨"f", "f", true, .void, [], [], [("x", ⟨some (xmm 1 8), none⟩), ("v", ⟨none, some (-8)⟩),
    ("t", ⟨some regRax, none⟩)], [], [], 16, []⟩

/-- The float is in its register and the bits of one are in the data. -/
def floatState (x : BitVec 64) : State where
  regs r := if r = Machine.rbp then 0x1000 else 0
  xmms r := if r = 1 then x else 0
  mem a := if a = 0x2006 then 0xf0 else if a = 0x2007 then 0x3f else 0

/-- One is less than two in both forms. -/
theorem forms_agree_on_two :
    let l : Linkage := ⟨fun _ => 0x2000, fun _ => 0⟩
    let c := (floatClosure.materialize (.float .w64 one)).2
    let v : Operand := .var ⟨"v", .f64, false, false⟩
    ∃ lines code lines' code' m m',
      Lowering.instr ⟨[], none, oneLess⟩ ⟨floatClosure, []⟩ = .ok ((), ⟨c, lines⟩) ∧
      instrs c lines = .ok code ∧
      (do let r ← Lowering.instr ⟨[], none, literalMove .w64 one oneLess v⟩ ⟨floatClosure, []⟩
          Lowering.instr ⟨[], none, { oneLess with first := some v }⟩ r.2) = .ok ((), ⟨c, lines'⟩) ∧
      instrs c lines' = .ok code' ∧
      runTo l code ⟨floatState 0x4000000000000000, none⟩ = some (m, none) ∧
      runTo l code' ⟨floatState 0x4000000000000000, none⟩ = some (m', none) ∧
      m.state.get (.reg Machine.rax) 1 = m'.state.get (.reg Machine.rax) 1 := by
  intro l c v
  have hx : ScalarOperand floatClosure 8 (.var ⟨"x", .f64, false, false⟩) (.xmm ⟨1, 8⟩) :=
    ⟨rfl, .var rfl, rfl, rfl, by decide⟩
  have hv : ScalarOperand floatClosure 8 (.var ⟨"v", .f64, false, false⟩)
      (.mem ⟨.regs (some ⟨Machine.rbp, 8⟩) none (-8), 8⟩) := ⟨rfl, .var rfl, rfl, rfl⟩
  have hplaced : PlacedFloats floatClosure .w64 one oneLess _ _
      (.var ⟨"t", .bool, false, false⟩) _ _ (.reg ⟨Machine.rax, 1⟩) :=
    ⟨rfl, rfl, rfl, hx, hv, ⟨rfl, rfl, .inl rfl, fun _ => ⟨.var rfl, trivial⟩⟩⟩
  obtain ⟨lines, code, lines', code', hlines, hcode, hlines', hcode', hruns⟩ :=
    literal_and_variable_agree_iff l ⟨[], none, oneLess⟩ ⟨floatClosure, []⟩ hplaced
  obtain ⟨m, exit, holds, m', exit', holds', hrun, htells, hrun', htells', hiff⟩ :=
    hruns (floatState 0x4000000000000000) none (by decide) (by rintro p q ⟨⟩ ⟨⟩; trivial)
  have hsame : holds = holds' := hiff.mpr (.inl (by decide))
  have hexit : exit = none := htells.exit.trans (ite_self none)
  have hexit' : exit' = none := htells'.exit.trans (ite_self none)
  subst hexit hexit' hsame
  exact ⟨lines, code, lines', code', m, m', hlines, hcode, hlines', hcode', hrun, hrun',
    (htells.value _ rfl).trans (htells'.value _ rfl).symm⟩

/-- Where the float is no number, one is not less than it, but as the value of a variable it is. -/
theorem forms_differ_on_unordered :
    let l : Linkage := ⟨fun _ => 0x2000, fun _ => 0⟩
    let c := (floatClosure.materialize (.float .w64 one)).2
    let v : Operand := .var ⟨"v", .f64, false, false⟩
    ∃ lines code lines' code' m m',
      Lowering.instr ⟨[], none, oneLess⟩ ⟨floatClosure, []⟩ = .ok ((), ⟨c, lines⟩) ∧
      instrs c lines = .ok code ∧
      (do let r ← Lowering.instr ⟨[], none, literalMove .w64 one oneLess v⟩ ⟨floatClosure, []⟩
          Lowering.instr ⟨[], none, { oneLess with first := some v }⟩ r.2) = .ok ((), ⟨c, lines'⟩) ∧
      instrs c lines' = .ok code' ∧
      runTo l code ⟨floatState 0x7ff8000000000000, none⟩ = some (m, none) ∧
      m.state.get (.reg Machine.rax) 1 = 0 ∧
      runTo l code' ⟨floatState 0x7ff8000000000000, none⟩ = some (m', none) ∧
      m'.state.get (.reg Machine.rax) 1 = 1 := by
  exact ⟨_, _, _, _, _, _, rfl, rfl, rfl, rfl, rfl, by decide, rfl, by decide⟩

end Backend.Selection
