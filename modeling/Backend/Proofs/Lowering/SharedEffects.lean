-- An instruction whose operands share the temporary register does what it did before: a move,
-- integer arithmetic without a third source, a comparison or a conditional branch.
import Backend.Proofs.Lowering.ScratchRoom
import Backend.Proofs.Lowering.Sharing

namespace Backend.Lowering

open Backend.Machine (Place Assigns)
open Backend.Selection (arithmetic? complement? shifted?)

/-! ## Effects of instructions that are done with -/

/-- Up to how many bytes of the sources an instruction reads. -/
def readWidth (i : Instr) : Nat :=
  if i.op.isCompare || i.op.isCondBranch then ((leading? i).map comparedWidth).getD 0
  else (i.output.map width).getD 0

theorem comparedWidth_le_eight (o : Operand) : comparedWidth o ≤ 8 := by
  cases o with
  | imm l => exact registerWidth_le_eight _
  | _ =>
    rw [comparedWidth_of_plain fun l h => by cases h]
    exact width_le_eight _

theorem readWidth_le_eight (i : Instr) : readWidth i ≤ 8 := by
  unfold readWidth
  split
  · cases leading? i with
    | none => exact Nat.zero_le 8
    | some o => exact comparedWidth_le_eight o
  · cases i.output with
    | none => exact Nat.zero_le 8
    | some o => exact width_le_eight o

section Effects

variable {e : Scene} {cx : Context} {m : Nat} {s s1 : Machine.State} {i : Instr} {d : Draft}

/-- The source in a slot is worth as much as it was. -/
theorem Sourceful.worth (h : Sourceful e cx m s i d s1) {slot : Slot} (hslot : slot ≠ .output)
    {v : Datum} (hv : e.source? s (slot.get i) = some v) :
    ∃ v', e.source? s1 (slot.get d.instr) = some v' ∧ v.Agrees m v' := by
  have hsource := h.source slot hslot
  generalize slot.get i = x at hsource hv
  generalize slot.get d.instr = y at hsource ⊢
  cases hsource with
  | none => cases hv
  | some hs => exact hs.worth v hv

/-- The value of arithmetic with two sources. -/
theorem computed?_arithmetic {f : (n : Nat) → BitVec n → BitVec n → BitVec n}
    (hop : arithmetic? i.op = some f) (n : Nat) :
    e.computed? s i n = (e.source? s i.first).bind fun v => (v.low? n).bind fun x =>
      (e.source? s i.second).bind fun w => (w.low? n).bind fun y => some (f _ x y) := by
  obtain ⟨op, first, second, addend, output, pos⟩ := i
  cases op <;> cases hop <;> rfl

/-- The value of arithmetic with one source. -/
theorem computed?_complement {f : (n : Nat) → BitVec n → BitVec n} (hop : complement? i.op = some f)
    (n : Nat) : e.computed? s i n = (e.source? s i.first).bind fun v => (v.low? n).bind fun x =>
      some (f _ x) := by
  obtain ⟨op, first, second, addend, output, pos⟩ := i
  cases op <;> cases hop <;> rfl

theorem computed?_move (hop : i.op = .move) (n : Nat) :
    e.computed? s i n = (e.source? s i.first).map fun v => v.brought n := by
  obtain ⟨op, first, second, addend, output, pos⟩ := i
  cases hop
  rfl

theorem exists_integerOperation {op : Opcode} (h : isIntegerOperation op = true) :
    (∃ f, arithmetic? op = some f) ∨ arithmetic? op = none ∧ ∃ f, complement? op = some f := by
  cases op <;>
    first
    | exact .inl ⟨_, rfl⟩
    | exact .inr ⟨rfl, _, rfl⟩
    | cases h

/-- The same value is computed from sources that stand for the others. -/
theorem Sourceful.computed (h : Sourceful e cx m s i d s1)
    (hop : i.op = .move ∨ isIntegerOperation i.op = true) {n : Nat} (hn : n ≤ m)
    {x : BitVec (8 * n)}
    (hx : e.computed? s i n = some x) : e.computed? s1 d.instr n = some x := by
  have hfirst : ∀ v, e.source? s i.first = some v → ∃ v', e.source? s1 d.instr.first = some v' ∧
      v.Agrees m v' := fun v hv => h.worth (show Slot.first ≠ .output by decide) hv
  have hsecond : ∀ v, e.source? s i.second = some v → ∃ v', e.source? s1 d.instr.second = some v' ∧
      v.Agrees m v' := fun v hv => h.worth (show Slot.second ≠ .output by decide) hv
  rcases hop with hmove | hop
  · rw [computed?_move hmove] at hx
    obtain ⟨v, hv, rfl⟩ := Option.map_eq_some_iff.mp hx
    obtain ⟨v', hv', ha⟩ := hfirst v hv
    rw [computed?_move (h.op.trans hmove), hv']
    exact congrArg some (ha.1 n hn)
  rcases exists_integerOperation hop with ⟨f, hf⟩ | ⟨-, f, hf⟩
  · rw [computed?_arithmetic hf] at hx
    simp only [Option.bind_eq_some_iff] at hx
    obtain ⟨v, hv, a, ha, w, hw, b, hb, hx⟩ := hx
    obtain ⟨v', hv', hav⟩ := hfirst v hv
    obtain ⟨w', hw', haw⟩ := hsecond w hw
    rw [computed?_arithmetic (by rw [h.op]; exact hf)]
    simp only [hv', hw', hav.low? hn ha, haw.low? hn hb, Option.bind_some]
    exact hx
  · rw [computed?_complement hf] at hx
    simp only [Option.bind_eq_some_iff] at hx
    obtain ⟨v, hv, a, ha, hx⟩ := hx
    obtain ⟨v', hv', hav⟩ := hfirst v hv
    rw [computed?_complement (by rw [h.op]; exact hf)]
    simp only [hv', hav.low? hn ha, Option.bind_some]
    exact hx

theorem isLiteral_eq_false {o : Option Operand} (h : ∀ l, o ≠ some (.imm l)) :
    isLiteral o = false := by
  rcases o with _ | o
  · rfl
  · cases o with
    | imm l => exact absurd rfl (h l)
    | _ => rfl

/-- The comparison has the same outcome for operands that stand for the others, if the first one is
no literal afterwards. -/
theorem Sourceful.compared (h : Sourceful e cx m s i d s1) (hlead : leading? i = i.first)
    (hfirst : ∀ l, d.instr.first ≠ some (.imm l))
    (hm : ∀ o, i.first = some o → comparedWidth o ≤ m) {b : Bool} (hb : e.compared? s i = some b) :
    e.compared? s1 d.instr = some b := by
  have hlead' : leading? d.instr = d.instr.first := by
    rw [leading?, isLiteral_eq_false hfirst, Bool.false_and, if_neg Bool.false_ne_true]
  unfold Scene.compared? at hb ⊢
  rw [hlead] at hb
  rw [hlead', h.op]
  simp only [bind, Option.bind_eq_some_iff] at hb
  obtain ⟨o, ho, v, hv, x, hx, w, hw, y, hy, hb⟩ := hb
  obtain ⟨v', hv', hav⟩ := h.worth (show Slot.first ≠ .output by decide) hv
  obtain ⟨w', hw', haw⟩ := h.worth (show Slot.second ≠ .output by decide) hw
  obtain ⟨o', ho', hs⟩ : ∃ o', d.instr.first = some o' ∧ StandsFor e m s o s1 o' := by
    have hsource := h.source .first (by decide)
    change Option.Rel _ i.first d.instr.first at hsource
    rw [ho] at hsource
    obtain ⟨o', ho', hs⟩ := rel_left hsource
    exact ⟨o', ho', hs⟩
  change e.source? s1 d.instr.first = some v' at hv'
  change e.source? s1 d.instr.second = some w' at hw'
  have hn := hm o ho
  rw [ho'] at hv'
  simp only [ho', hv', hw', bind, Option.bind_some, hs.float]
  rw [hs.width, hav.low? hn hx, Option.bind_some, haw.low? hn hy]
  exact hb

/-- What a finished instruction gives its output. -/
theorem Finished.assign (h : Finished e cx m s i d s1) {f f' : (n : Nat) → Option (BitVec (8 * n))}
    (hf : ∀ o, i.output = some o → ∀ v, f (width o) = some v → f' (width o) = some v) {eff : Effect}
    (heff : e.assign? s i f = some eff) : e.assign? s1 d.instr f' = some eff := by
  unfold Scene.assign? at heff ⊢
  simp only [bind, Option.bind_eq_some_iff] at heff
  obtain ⟨o, ho, p, hp, v, hv, heff⟩ := heff
  have houtput := h.output
  rw [ho] at houtput
  generalize d.instr.output = z at houtput ⊢
  cases houtput with
  | some hs =>
    obtain ⟨hplace, -, hwidth⟩ := hs
    simp only [bind, Option.bind_some, hplace, hp]
    rw [hwidth, hf o ho v hv]
    exact heff

/-! ## Exchanged comparisons -/

theorem leading?_literalSecond (i : Instr) :
    leading? (literalSecond i) = (literalSecond i).first ∧
      leading? i = (literalSecond i).first := by
  unfold literalSecond leading?
  by_cases h : (isLiteral i.first && !isLiteral i.second) = true
  · have hne : (isLiteral i.second && !isLiteral i.first) = false := by
      simp only [Bool.and_eq_true, Bool.not_eq_true'] at h
      simp [h.2]
    simp only [h, if_true, hne, Bool.false_eq_true, if_false, and_self]
  · simp only [h, Bool.false_eq_true, if_false, and_self]

/-- A comparison with its operands exchanged has the same outcome. -/
theorem compared?_literalSecond : e.compared? s (literalSecond i) = e.compared? s i := by
  obtain ⟨hlead, hlead'⟩ := leading?_literalSecond i
  unfold Scene.compared?
  rw [hlead, hlead']
  by_cases h : (isLiteral i.first && !isLiteral i.second) = true
  · have hswap : literalSecond i =
        { i with op := i.op.swapped, first := i.second, second := i.first } :=
      if_pos h
    rw [hswap]
    simp only [bind]
    cases hsecond : i.second with
    | none => rfl
    | some o =>
      simp only [Option.bind_some]
      cases hv : e.source? s i.first with
      | none => cases hw : e.source? s (some o) <;> simp
      | some v =>
        cases hw : e.source? s (some o) with
        | none => simp
        | some w =>
          simp only [Option.bind_some]
          cases v.low? (comparedWidth o) with
          | none => cases w.low? (comparedWidth o) <;> rfl
          | some x =>
            cases w.low? (comparedWidth o) with
            | none => rfl
            | some y =>
              simp only [Option.bind_some]
              rw [isUnsignedComparison_swapped, order?_swap, holdsFor_swapped]
  · have hsame : literalSecond i = i := if_neg h
    rw [hsame]

theorem isCompare_swapped (op : Opcode) : op.swapped.isCompare = op.isCompare := by
  cases op <;> rfl

theorem isCondBranch_swapped (op : Opcode) : op.swapped.isCondBranch = op.isCondBranch := by
  cases op <;> rfl

theorem output_literalSecond (i : Instr) : (literalSecond i).output = i.output := by
  unfold literalSecond
  split <;> rfl

theorem isCompare_literalSecond (i : Instr) : (literalSecond i).op.isCompare = i.op.isCompare := by
  unfold literalSecond
  split
  · exact isCompare_swapped i.op
  · rfl

theorem isCondBranch_literalSecond (i : Instr) :
    (literalSecond i).op.isCondBranch = i.op.isCondBranch := by
  unfold literalSecond
  split
  · exact isCondBranch_swapped i.op
  · rfl

/-! ## Effects of drafts -/

/-- What is emitted for the operands leaves all but the temporary registers and the scratch slots as
it was, and then the instruction of the draft does what the other one did. -/
def Does (e : Scene) (cx : Context) (s : Machine.State) (i : Instr) (d : Draft)
    (s' : Machine.State) : Prop :=
  Untouched (e.scratch cx) 0 s s' ∧ ∀ eff, e.effect? s i = some eff →
    e.effect? s' d.instr = some eff

/-- The effect of a move or an integer operation. -/
theorem effect?_computed (hop : i.op = .move ∨ isIntegerOperation i.op = true) :
    e.effect? s i = if i.op.isArithmetic && !((i.output.map fun o => o.ty.isInteger).getD false)
      then none
      else e.assign? s i (e.computed? s i) := by
  obtain ⟨op, first, second, addend, output, pos⟩ := i
  rcases hop with hop | hop
  · cases hop
    rfl
  · cases op <;> first | (cases hop; done) | rfl

theorem effect?_of_move (hop : i.op = .move) : e.effect? s i = e.assign? s i (e.computed? s i) := by
  obtain ⟨op, first, second, addend, output, pos⟩ := i
  cases hop
  rfl

/-- The effect of a comparison that stores its outcome. -/
theorem effect?_compare (hop : i.op.isCompare = true) : e.effect? s i =
    e.assign? s i fun n => (e.compared? s i).map fun b => BitVec.ofNat (8 * n) b.toNat := by
  obtain ⟨op, first, second, addend, output, pos⟩ := i
  cases op <;> first | (cases hop; done) | rfl

/-- The effect of a conditional branch. -/
theorem effect?_branch (hop : i.op.isCondBranch = true) :
    e.effect? s i = (e.compared? s i).map (.jump i.output) := by
  obtain ⟨op, first, second, addend, output, pos⟩ := i
  cases op <;> first | (cases hop; done) | rfl

theorem readWidth_computed (hop : i.op = .move ∨ isIntegerOperation i.op = true) :
    readWidth i = (i.output.map width).getD 0 := by
  obtain ⟨op, first, second, addend, output, pos⟩ := i
  rcases hop with hop | hop
  · cases hop
    rfl
  · cases op <;> first | (cases hop; done) | rfl

theorem readWidth_comparison (hop : (i.op.isCompare || i.op.isCondBranch) = true) :
    readWidth i = ((leading? i).map comparedWidth).getD 0 := if_pos hop

/-- A move or an integer operation does what it did. -/
theorem Finished.does (h : Finished e cx (readWidth i) s i d s1)
    (hop : i.op = .move ∨ isIntegerOperation i.op = true) : Does e cx s i d s1 := by
  refine ⟨h.untouched, fun eff heff => ?_⟩
  have hguard : (d.instr.output.map fun o => o.ty.isInteger) = i.output.map fun o =>
      o.ty.isInteger := by
    have houtput := h.output
    generalize i.output = x at houtput
    generalize d.instr.output = y at houtput
    cases houtput with
    | none => rfl
    | some hs => simp only [Option.map_some, hs.2.1]
  rw [effect?_computed hop] at heff
  rw [effect?_computed (by rw [h.op]; exact hop), h.op, hguard]
  split at heff
  · cases heff
  · rename_i hint
    rw [if_neg hint]
    refine h.assign (fun o ho v hv => h.computed hop ?_ hv) heff
    rw [readWidth_computed hop, ho]
    exact Nat.le_refl _

/-- A comparison or a conditional branch has the same outcome. -/
theorem Sourceful.outcome (h : Sourceful e cx (readWidth i) s i d s1)
    (hop : (i.op.isCompare || i.op.isCondBranch) = true) (hlead : leading? i = i.first)
    (hfirst : ∀ l, d.instr.first ≠ some (.imm l)) {b : Bool} (hb : e.compared? s i = some b) :
    e.compared? s1 d.instr = some b := by
  refine h.compared hlead hfirst (fun o ho => ?_) hb
  rw [readWidth_comparison hop, hlead, ho]
  exact Nat.le_refl _

/-- A comparison that stores its outcome does what it did. -/
theorem Finished.does_compare (h : Finished e cx (readWidth i) s i d s1)
    (hop : i.op.isCompare = true) (hlead : leading? i = i.first)
    (hfirst : ∀ l, d.instr.first ≠ some (.imm l)) :
    Does e cx s i d s1 := by
  refine ⟨h.untouched, fun eff heff => ?_⟩
  rw [effect?_compare hop] at heff
  rw [effect?_compare (by rw [h.op]; exact hop)]
  refine h.assign (fun o ho v hv => ?_) heff
  obtain ⟨b, hb, rfl⟩ := Option.map_eq_some_iff.mp hv
  rw [h.outcome (by rw [hop, Bool.true_or]) hlead hfirst hb]
  rfl

/-- A conditional branch jumps where it did. -/
theorem Sourceful.does_branch (h : Sourceful e cx (readWidth i) s i d s1)
    (hout : d.instr.output = i.output) (hop : i.op.isCondBranch = true)
    (hlead : leading? i = i.first)
    (hfirst : ∀ l, d.instr.first ≠ some (.imm l)) : Does e cx s i d s1 := by
  refine ⟨h.untouched, fun eff heff => ?_⟩
  rw [effect?_branch hop] at heff
  rw [effect?_branch (by rw [h.op]; exact hop), hout]
  obtain ⟨b, hb, rfl⟩ := Option.map_eq_some_iff.mp heff
  rw [h.outcome (by rw [hop, Bool.or_true]) hlead hfirst hb]
  rfl

/-! ## Making the operands encodable -/

theorem standing_start
    (hstable : ∀ slot : Slot, slot ≠ .output → ∀ o, slot.get i = some o →
      Stable e (e.scratch cx) 0 s o) :
    Standing e cx m s i (.of i) s where
  untouched := .refl s
  op := rfl
  output := rfl
  source slot hne := by
    have hs := hstable slot hne
    change Option.Rel _ (slot.get i) (slot.get i)
    generalize slot.get i = x at hs ⊢
    cases x with
    | none => exact .none
    | some o => exact .some ⟨.refl, fun _ => hs o rfl⟩
  holder slot hh := by cases hh

theorem stable_of_suited
    (hsuit : ∀ slot : Slot, slot ≠ .output → ∀ o, slot.get i = some o → Suited e cx s o) :
    ∀ slot : Slot, slot ≠ .output → ∀ o, slot.get i = some o → Stable e (e.scratch cx) 0 s o :=
  fun slot hne o ho => (hsuit slot hne o ho).clear.stable

/-- What the first source leaves for the others. -/
structure FirstStands (e : Scene) (cx : Context) (m : Nat) (s : Machine.State) (i : Instr)
    (d : Draft) (s1 : Machine.State) : Prop where
  standing : Standing e cx m s i d s1
  touches : Touches .first (.of i) d
  literal : ∀ l, d.instr.first = some (.imm l) → l.isInt = true

theorem works_first (hm : m ≤ 8) (hsuit : ∀ o, i.first = some o → Suited e cx s o)
    (hstable : ∀ slot : Slot, slot ≠ .output → ∀ o, slot.get i = some o →
      Stable e (e.scratch cx) 0 s o) :
    Works e (source cx .first false (.of i)) (fun s1 => s1 = s) (FirstStands e cx m s i) := by
  have hfirst : ∀ o, Slot.first.get i = some o → Suited e cx s o := hsuit
  refine (works_source hm (by decide) rfl (fun h => by cases h) hfirst fun h => by cases h).mono
    (fun s1 h1 => ?_) fun d s1 h => ⟨h.1, h.2.1, h.2.2⟩
  rw [h1]
  exact standing_start hstable

/-- Both sources stand for the ones that were there. Of literals only integers are left. -/
structure BothStand (e : Scene) (cx : Context) (m : Nat) (s : Machine.State) (i : Instr) (d : Draft)
    (s1 : Machine.State) : Prop where
  standing : Standing e cx m s i d s1
  literal : ∀ l, d.instr.first = some (.imm l) → l.isInt = true

theorem works_second {narrow : Bool} (hm : m ≤ 8) (hsuit : ∀ o, i.second = some o → Suited e cx s o)
    (hwide : narrow = true → Wide m i.second) {d : Draft} :
    Works e (source cx .second narrow d) (FirstStands e cx m s i d) (BothStand e cx m s i) := by
  refine works_each (extends_source cx .second narrow d) fun s1 h1 => ?_
  have hfree : d.holder ≠ some .second := by
    rcases h1.touches.holder with hh | hh <;> rw [hh] <;> intro h <;> cases h
  have hpending : Slot.second.get d.instr = Slot.second.get i :=
    h1.touches.others .second (by decide) fun h => by cases h
  have hsecond : ∀ o, Slot.second.get i = some o → Suited e cx s o := hsuit
  refine (works_source hm (by decide) hpending hfree hsecond hwide).mono
    (fun s2 h2 => ?_) fun d' s2 h2 => ⟨h2.1, fun l hl => ?_⟩
  · rw [h2]
    exact h1.standing
  · exact h1.literal l (h2.2.1.literal .first l (by decide) hl)

/-- Where a literal was the first source of a comparison, it is in the temporary register. -/
theorem works_firstLoaded (hm : m ≤ 8)
    (hsuit : ∀ slot : Slot, slot ≠ .output → ∀ o, slot.get i = some o → Suited e cx s o)
    (hread : ∀ l, i.first = some (.imm l) → m ≤ registerWidth l.ty) {d : Draft} :
    Works e (intImmediateIntoTemp cx .first d) (BothStand e cx m s i d) fun d' s' =>
      Standing e cx m s i d' s' ∧ ∀ l, d'.instr.first ≠ some (.imm l) := by
  refine works_each (extends_intImmediateIntoTemp cx .first d) fun s1 h1 => ?_
  unfold intImmediateIntoTemp
  split
  · rename_i l hl
    change d.instr.first = some (.imm l) at hl
    have hint := h1.literal l hl
    rw [if_pos hint]
    obtain ⟨o, ho, hs⟩ := h1.standing.sourceful.exists_source
      (show Slot.first ≠ .output by decide) hl
    obtain rfl := hs.literal l rfl
    have hfloat : l.ty.isFloat = false := by
      cases l with
      | int w v => cases w <;> rfl
      | bool => rfl
      | _ => cases hint
    refine (works_intoTemp hm (by decide) ho hl (hsuit .first (by decide) _ ho).meaning
      (hread l ho) rfl hfloat).mono (fun s2 h2 => ?_) fun d' s2 h2 => ⟨h2.1, fun l' hl' => ?_⟩
    · rw [h2]
      exact h1.standing
    · cases h2.2.2.symm.trans hl'
  · rename_i hno
    refine works_pure fun s2 h2 => ?_
    rw [h2]
    exact ⟨h1.standing, fun l hl => hno l hl⟩

/-- A comparison or a conditional branch. -/
theorem works_compareDraft (hop : (i.op.isCompare || i.op.isCondBranch) = true)
    (hlead : leading? i = i.first)
    (hsuit : ∀ slot : Slot, slot ≠ .output → ∀ o, slot.get i = some o → Suited e cx s o)
    (hout : i.op.isCompare = true → ∀ o, i.output = some o → Suited e cx s o)
    (hwide : Wide (readWidth i) i.second) :
    Works e (compareDraft cx i) (fun s1 => s1 = s) (Does e cx s i) := by
  have hm := readWidth_le_eight i
  have hread : ∀ l, i.first = some (.imm l) → readWidth i ≤ registerWidth l.ty := by
    intro l hl
    rw [readWidth_comparison hop, hlead, hl]
    exact Nat.le_refl _
  unfold compareDraft
  refine works_bind (works_first hm (hsuit .first (by decide)) (stable_of_suited hsuit))
    fun d1 => ?_
  refine works_bind (works_second hm (hsuit .second (by decide)) fun _ => hwide) fun d2 => ?_
  refine works_bind (works_firstLoaded hm hsuit hread) fun d3 => ?_
  split
  · rename_i hcompare
    refine works_each (extends_dest cx .output d3) fun s1 h1 => ?_
    refine (works_dest hm (hout hcompare) h1.1.output).mono (fun s2 h2 => ?_) fun d4 s2 h2 => ?_
    · rw [h2]
      exact h1.1
    · refine h2.1.does_compare hcompare hlead fun l hl => h1.2 l ?_
      exact h2.2.literal .first l (by decide) hl
  · rename_i hbranch
    refine works_pure fun s1 h1 => ?_
    have hcond : i.op.isCondBranch = true := by
      simpa [hbranch] using hop
    exact h1.1.sourceful.does_branch h1.1.output hcond hlead h1.2

/-- An operand in memory has the width of its type. -/
theorem comparedWidth_of_memory {locs : Locations} {o : Operand}
    (h : memoryResident locs (some o) = true) :
    comparedWidth o = registerWidth o.ty := by
  cases o with
  | imm l => cases h
  | reg r => cases h
  | _ => rfl

/-- A place of one byte has no more bytes. -/
theorem width_of_byte {o : Operand} {p : Place} (hp : e.place? s o = some p) (h : o.ty.size = 1) :
    width o = 1 := by
  cases o with
  | imm l => cases hp
  | label => cases hp
  | list => cases hp
  | reg r =>
    have hbyte : r.width.toNat = 1 := by
      change r.ty.size = 1 at h
      unfold Reg.ty at h
      split at h
      · unfold Ty.ofIntWidth at h
        split at h
        · rename_i hw
          have hw' : (r.width.toNat : Int) = 1 := by simpa using hw
          omega
        · split at h
          · cases h
          · split at h <;> cases h
      · unfold Ty.ofFloatWidth at h
        split at h <;> cases h
    change min r.width.toNat 8 = 1
    omega
  | _ =>
    change registerWidth _ = 1
    unfold registerWidth
    simp only [Operand.ty] at h ⊢
    simp [h]

/-- A multiplication computes in the type of its output. -/
theorem opType_mul {o : Operand} (hop : i.op = .mul) (ho : i.output = some o)
    (hvoid : o.ty ≠ .void) :
    opType i = o.ty := by
  unfold opType
  simp [hop, ho, hvoid, Opcode.isCompare, Opcode.isBranch, Opcode.isCondBranch]

/-- A factor of one byte that is in memory is loaded before a multiplication. -/
theorem works_loadFactor (hm : m ≤ 8) (hitof : i.op ≠ .itof)
    (hsuit : ∀ slot : Slot, slot ≠ .output → ∀ o, slot.get i = some o → Suited e cx s o)
    (hfloat : ∀ o, i.second = some o → o.ty.isFloat = false)
    (hbyte : ∃ o, i.output = some o ∧ o.ty ≠ .void ∧ (o.ty.size = 1 → m ≤ 1)) {d : Draft} :
    Works e (loadFactor cx i d) (BothStand e cx m s i d) fun d' s' =>
      Standing e cx m s i d' s' := by
  refine works_each (extends_loadFactor cx i d) fun s1 h1 => ?_
  unfold loadFactor
  dsimp only
  rw [if_neg (by simpa using hitof)]
  refine works_bind works_get fun st => ?_
  split
  · rename_i hc
    simp only [Bool.and_eq_true, beq_iff_eq] at hc
    obtain ⟨⟨⟨hmul, hsize⟩, -⟩, hmem⟩ := hc
    obtain ⟨o', ho'⟩ : ∃ o', Slot.second.get d.instr = some o' := by
      cases ho : Slot.second.get d.instr with
      | none =>
        rw [show d.instr.second = none from ho] at hmem
        cases hmem
      | some o' => exact ⟨o', rfl⟩
    obtain ⟨o, ho, hs⟩ := h1.standing.sourceful.exists_source
      (show Slot.second ≠ .output by decide) ho'
    have hone : m ≤ registerWidth o'.ty := by
      have hpos : 1 ≤ registerWidth o'.ty := by cases o'.ty <;> decide
      obtain ⟨out, hout, hvoid, hm1⟩ := hbyte
      rw [opType_mul (h1.standing.op.trans hmul) (h1.standing.output.trans hout) hvoid] at hsize
      exact (hm1 hsize).trans hpos
    have hfloat' : o'.ty.isFloat = false := hs.float.trans (hfloat o ho)
    rw [show d.instr.second = some o' from ho'] at hmem
    refine (works_intoTemp hm (by decide) ho ho' (hsuit .second (by decide) o ho).meaning hone
      (comparedWidth_of_memory hmem) hfloat').mono (fun s2 h2 => ?_) fun d' s2 h2 => h2.1
    rw [h2.1]
    exact h1.standing
  · refine works_pure fun s2 h2 => ?_
    rw [h2.1]
    exact h1.standing

/-- An instruction that stores a value has a place for it. -/
theorem exists_place {f : (n : Nat) → Option (BitVec (8 * n))} {eff : Effect}
    (h : e.assign? s i f = some eff) : ∃ o p, i.output = some o ∧ e.place? s o = some p := by
  unfold Scene.assign? at h
  simp only [bind, Option.bind_eq_some_iff] at h
  obtain ⟨o, ho, p, hp, -⟩ := h
  exact ⟨o, p, ho, hp⟩

/-- An integer operation. -/
theorem works_genericDraft (hop : isIntegerOperation i.op = true) (hadd : i.addend = none)
    (hsuit : ∀ slot : Slot, slot ≠ .output → ∀ o, slot.get i = some o → Suited e cx s o)
    (hout : ∀ o, i.output = some o → Suited e cx s o) (hwide : Wide (readWidth i) i.second)
    (hfloat : ∀ o, i.second = some o → o.ty.isFloat = false) {eff : Effect}
    (heff : e.effect? s i = some eff) :
    Works e (genericDraft cx i) (fun s1 => s1 = s) (Does e cx s i) := by
  have hm := readWidth_le_eight i
  have hitof : i.op ≠ .itof := by
    intro h
    rw [h] at hop
    cases hop
  have hpush : (i.op == .push) = false := by
    cases hc : i.op <;> rw [hc] at hop <;> first | rfl | cases hop
  have harith : i.op.isArithmetic = true := by
    cases hc : i.op <;> rw [hc] at hop <;> first | rfl | cases hop
  have hbyte : ∃ o, i.output = some o ∧ o.ty ≠ .void ∧ (o.ty.size = 1 → readWidth i ≤ 1) := by
    rw [effect?_computed (.inr hop)] at heff
    split at heff
    · cases heff
    · rename_i hint
      obtain ⟨o, p, ho, hp⟩ := exists_place heff
      refine ⟨o, ho, fun hvoid => hint ?_, fun hsize => ?_⟩
      · rw [harith, ho]
        simp [hvoid, Ty.isInteger]
      · rw [readWidth_computed (.inr hop), ho]
        exact Nat.le_of_eq (width_of_byte hp hsize)
  unfold genericDraft
  rw [hpush]
  refine works_bind (works_first hm (hsuit .first (by decide)) (stable_of_suited hsuit))
    fun d1 => ?_
  refine works_bind (works_second hm (hsuit .second (by decide)) fun _ => hwide) fun d2 => ?_
  refine works_bind (Q := fun d3 s3 => BothStand e cx (readWidth i) s i d3 s3) ?_ fun d3 => ?_
  · -- There is no third source.
    refine works_each (extends_source cx .addend true d2) fun s1 h1 => ?_
    have hnone : Slot.addend.get d2.instr = none := by
      have hsource := h1.standing.source .addend (by decide)
      rw [show Slot.addend.get i = none from hadd] at hsource
      generalize Slot.addend.get d2.instr = y at hsource
      cases hsource
      rfl
    rw [source_none hnone]
    exact works_pure fun s2 h2 => h2 ▸ h1
  refine works_bind (works_loadFactor hm hitof hsuit hfloat hbyte) fun d4 => ?_
  refine works_each (extends_dest cx .output d4) fun s1 h1 => ?_
  refine (works_dest hm hout h1.output).mono (fun s2 h2 => ?_) fun d5 s2 h2 => h2.1.does (.inr hop)
  rw [h2]
  exact h1

/-! ## Moves -/

/-- A move that starts with its own operands. -/
theorem works_plainMove (hop : i.op = .move)
    (hsuit : ∀ slot : Slot, slot ≠ .output → ∀ o, slot.get i = some o → Suited e cx s o)
    (hout : ∀ o, i.output = some o → Suited e cx s o) :
    Works e (source cx .first false (.of i) >>= fun d => dest cx .output d) (fun s1 => s1 = s)
      (Does e cx s i) := by
  have hm := readWidth_le_eight i
  refine works_bind (works_first hm (hsuit .first (by decide)) (stable_of_suited hsuit))
    fun d1 => ?_
  refine works_each (extends_dest cx .output d1) fun s1 h1 => ?_
  refine (works_dest hm hout h1.standing.output).mono (fun s2 h2 => ?_) fun d2 s2 h2 =>
    h2.1.does (.inl hop)
  rw [h2]
  exact h1.standing

/-- A move of an integer that no store can hold goes through the temporary register. -/
theorem works_loadedMove (hop : i.op = .move) {w : IntWidth} {v : Int64}
    (hfirst : i.first = some (.imm (.int w v)))
    (hsuit : ∀ slot : Slot, slot ≠ .output → ∀ o, slot.get i = some o → Suited e cx s o)
    (hout : ∀ o, i.output = some o → Suited e cx s o) (hread : readWidth i ≤ registerWidth w.ty) :
    Works e (intoTemp cx .first (.of i) >>= fun d => source cx .first false d >>= fun d =>
      dest cx .output d) (fun s1 => s1 = s) (Does e cx s i) := by
  have hm := readWidth_le_eight i
  have hfloat : (Literal.int w v).ty.isFloat = false := by cases w <;> rfl
  have hget : Slot.first.get i = some (.imm (.int w v)) := hfirst
  have hload : Works e (intoTemp cx .first (.of i)) (fun s1 => s1 = s) fun d s1 =>
      Standing e cx (readWidth i) s i d s1 ∧ Touches .first (.of i) d ∧
        Slot.first.get d.instr = some (.reg (tempReg (Literal.int w v).ty)) := by
    have hread' : readWidth i ≤ registerWidth (Operand.imm (.int w v)).ty := hread
    refine (works_intoTemp hm (by decide) hget hget (hsuit .first (by decide) _ hget).meaning
      hread' rfl hfloat).mono (fun s1 h1 => ?_) fun _ _ h => h
    rw [h1]
    exact standing_start (stable_of_suited hsuit)
  refine works_bind hload fun d1 => ?_
  refine works_each ?_ fun s1 h1 => ?_
  · exact extends_bind (extends_source cx _ _ d1) fun d => extends_dest cx _ d
  rw [source_reg h1.2.2, pure_bind]
  refine (works_dest hm hout h1.1.output).mono (fun s2 h2 => ?_) fun d2 s2 h2 =>
    h2.1.does (.inl hop)
  rw [h2]
  exact h1.1

/-- What stands in the data for a literal is an operand that can share the temporary register. -/
theorem suited_placed {l : Literal} {y : Symbol} (h : Suited e cx s (.imm l))
    (hy : IsPlaced e l y) :
    Suited e cx s (.symbol y) where
  meaning := ⟨_, rfl⟩
  clear := clear_placed h hy s
  loadable _ _ _ _ _ h := by cases h
  data _ _ h := by cases h
  float _ _ _ h := by cases h

/-- A move of a string gives the output the address of its place in the data. -/
theorem works_stringMove (hop : i.op = .move) {bytes : List UInt8}
    (hfirst : i.first = some (.imm (.string bytes)))
    (hsuit : ∀ slot : Slot, slot ≠ .output → ∀ o, slot.get i = some o → Suited e cx s o)
    (hout : ∀ o, i.output = some o → Suited e cx s o) (y : Symbol) :
    Works e (dest cx .output (.of { i with op := .lea, first := some (.symbol y) }))
      (fun s1 => s1 = s ∧ IsPlaced e (.string bytes) y) (Does e cx s i) := by
  have hget : Slot.first.get i = some (.imm (.string bytes)) := hfirst
  refine works_assume (extends_dest cx _ _) fun hy => ?_
  let j : Instr := { i with op := .lea, first := some (.symbol y) }
  have hsuit' : ∀ slot : Slot, slot ≠ .output → ∀ o, slot.get j = some o → Suited e cx s o := by
    intro slot hne o ho
    cases slot with
    | first =>
      cases ho
      exact suited_placed (hsuit .first (by decide) _ hget) hy
    | second => exact hsuit .second hne o ho
    | addend => exact hsuit .addend hne o ho
    | output => exact absurd rfl hne
  have hdest : Works e (dest cx .output (.of j)) (Standing e cx 8 s j (.of j)) fun d s1 =>
      Finished e cx 8 s j d s1 ∧ Touches .output (.of j) d := works_dest (Nat.le_refl 8) hout rfl
  refine hdest.mono (fun s1 h1 => ?_) fun d s1 h1 => ?_
  · rw [h1]
    exact standing_start (stable_of_suited hsuit')
  obtain ⟨hfin, htouch⟩ := h1
  refine ⟨hfin.untouched, fun eff heff => ?_⟩
  have hlea : d.instr.first = some (.symbol y) :=
    htouch.others .first (by decide) fun h => by cases h
  have heffect : e.effect? s1 d.instr = e.assign? s1 d.instr fun n =>
      some ((e.symbolAddress y).setWidth (8 * n)) := by
    have hop' : d.instr.op = .lea := hfin.op
    generalize d.instr = x at hlea hop'
    obtain ⟨op, first, second, addend, output, pos⟩ := x
    cases hop'
    cases hlea
    rfl
  rw [effect?_of_move hop] at heff
  rw [heffect]
  refine hfin.assign (fun o ho v hv => ?_) heff
  obtain ⟨name, rfl, hname⟩ := hy
  rw [computed?_move hop, hfirst] at hv
  have hdatum : e.source? s (some (.imm (.string bytes))) =
      some ⟨false, 8, e.link.symbol name⟩ := by
    simp [Scene.source?, Scene.datum?, hname]
  rw [hdatum] at hv
  have hbrought : (⟨false, 8, e.link.symbol name⟩ : Datum).brought (width o) =
      (e.link.symbol name).setWidth (8 * width o) :=
    Selection.convert_of_le false _ (width_le_eight o)
  rw [← hv]
  exact congrArg some hbrought.symm

/-- A move does what it did, unless an integer that no store can hold is written with fewer bytes
than are stored. -/
theorem works_moveDraft (hop : i.op = .move)
    (hsuit : ∀ slot : Slot, slot ≠ .output → ∀ o, slot.get i = some o → Suited e cx s o)
    (hout : ∀ o, i.output = some o → Suited e cx s o)
    (hwide : ∀ o, i.output = some o → inGpr e.locs o = false → Wide (readWidth i) i.first)
    {eff : Effect} (heff : e.effect? s i = some eff) :
    Works e (moveDraft cx i) (fun s1 => s1 = s) (Does e cx s i) := by
  obtain ⟨o, p, ho, -⟩ : ∃ o p, i.output = some o ∧ e.place? s o = some p := by
    rw [effect?_of_move hop] at heff
    exact exists_place heff
  have hplain := works_plainMove hop hsuit hout
  unfold moveDraft moveStart
  split
  · rename_i l hl
    split
    · rename_i bytes
      rw [bind_assoc]
      refine works_bind (works_materialize _) fun y => ?_
      rw [pure_bind, source_symbol rfl, pure_bind]
      exact works_stringMove hop hl hsuit hout y
    · rename_i w v
      split
      · exact hplain
      · rename_i hbig
        rw [ho]
        dsimp only
        rw [bind_assoc]
        refine works_bind (works_addressable (some o)) fun direct => ?_
        cases direct with
        | true => exact hplain.mono (fun s1 h1 => h1.1) fun _ _ h => h
        | false =>
          have hext : Extends (intoTemp cx .first (.of i) >>= fun d => source cx .first false d >>=
              fun d => dest cx .output d) := by
            refine extends_bind (extends_intoTemp cx _ _) fun d => ?_
            exact extends_bind (extends_source cx _ _ d) fun d => extends_dest cx _ d
          refine works_assume hext fun hnot => ?_
          have hread := hwide o ho hnot.symm w v hl (by simpa using hbig)
          exact works_loadedMove hop hl hsuit hout hread
    · exact hplain
  · exact hplain

/-! ## Soundness -/

/-- The integers that do not fit a field of 32 bits and go through the temporary register are
written with the bytes that are read of them: the second source, or the first one of a move that
does not go to a general purpose register. -/
structure WideLiterals (locs : Locations) (i : Instr) : Prop where
  move : i.op = .move → ∀ o, i.output = some o → inGpr locs o = false → Wide (readWidth i) i.first
  integer : isIntegerOperation i.op = true → Wide (readWidth i) i.second
  comparison : (i.op.isCompare || i.op.isCondBranch) = true →
    Wide (readWidth i) (literalSecond i).second

/-- The operands of the instruction can share the temporary register. -/
structure Shareable (e : Scene) (cx : Context) (s : Machine.State) (i : Instr) : Prop where
  source : ∀ slot : Slot, slot ≠ .output → ∀ o, slot.get i = some o → Suited e cx s o
  output : i.op.isCondBranch = false → ∀ o, i.output = some o → Suited e cx s o
  integer : isIntegerOperation i.op = true → ∀ o, i.second = some o → o.ty.isFloat = false
  wide : WideLiterals e.locs i

theorem readWidth_literalSecond (hop : (i.op.isCompare || i.op.isCondBranch) = true) :
    readWidth (literalSecond i) = readWidth i := by
  obtain ⟨hlead, hlead'⟩ := leading?_literalSecond i
  have hop' : ((literalSecond i).op.isCompare || (literalSecond i).op.isCondBranch) = true := by
    rw [isCompare_literalSecond, isCondBranch_literalSecond, hop]
  rw [readWidth_comparison hop, readWidth_comparison hop', hlead, hlead']

theorem effect?_literalSecond (hop : (i.op.isCompare || i.op.isCondBranch) = true) :
    e.effect? s (literalSecond i) = e.effect? s i := by
  rcases (Bool.or_eq_true _ _).mp hop with hcompare | hbranch
  · rw [effect?_compare hcompare, effect?_compare (by rw [isCompare_literalSecond, hcompare])]
    unfold Scene.assign?
    rw [output_literalSecond, compared?_literalSecond]
  · rw [effect?_branch hbranch, effect?_branch (by rw [isCondBranch_literalSecond, hbranch]),
      output_literalSecond, compared?_literalSecond]

theorem source_literalSecond {P : Operand → Prop}
    (h : ∀ slot : Slot, slot ≠ .output → ∀ o, slot.get i = some o → P o) :
    ∀ slot : Slot, slot ≠ .output → ∀ o, slot.get (literalSecond i) = some o → P o := by
  unfold literalSecond
  split
  · intro slot hne o ho
    cases slot with
    | first => exact h .second (by decide) o ho
    | second => exact h .first (by decide) o ho
    | addend => exact h .addend hne o ho
    | output => exact absurd rfl hne
  · exact h

/-- Every draft does what its instruction did. -/
theorem works_sharedDraft (hi : isShared i = true) (h : Shareable e cx s i) {eff : Effect}
    (heff : e.effect? s i = some eff) :
    Works e (sharedDraft cx i) (fun s1 => s1 = s) (Does e cx s i) := by
  obtain ⟨hop, hadd⟩ := Bool.and_eq_true_iff.mp hi
  have hnone : i.addend = none := Option.isNone_iff_eq_none.mp hadd
  unfold sharedDraft
  split
  · rename_i hmove
    have hmove' : i.op = .move := by simpa using hmove
    exact works_moveDraft hmove' h.source (h.output (by rw [hmove']; rfl)) (h.wide.move hmove') heff
  split
  · rename_i hint
    have hbranch : i.op.isCondBranch = false := by
      cases hc : i.op <;> rw [hc] at hint <;> first | rfl | cases hint
    exact works_genericDraft hint hnone h.source (h.output hbranch) (h.wide.integer hint)
      (h.integer hint) heff
  · rename_i hmove hint
    have hcomparison : (i.op.isCompare || i.op.isCondBranch) = true := by
      simpa [hmove, hint] using hop
    have hcomparison' : ((literalSecond i).op.isCompare || (literalSecond i).op.isCondBranch) =
        true := by
      rw [isCompare_literalSecond, isCondBranch_literalSecond, hcomparison]
    have hwide := h.wide.comparison hcomparison
    rw [← readWidth_literalSecond hcomparison] at hwide
    refine (works_compareDraft hcomparison' (leading?_literalSecond i).1
      (source_literalSecond h.source) (fun hcompare o ho => ?_) hwide).mono
      (fun _ h => h) fun d s1 hd => ⟨hd.1, fun eff heff => ?_⟩
    · rw [isCompare_literalSecond] at hcompare
      rw [output_literalSecond] at ho
      refine h.output ?_ o ho
      cases hc : i.op <;> rw [hc] at hcompare <;> first | rfl | cases hcompare
    · exact hd.2 eff (by rw [effect?_literalSecond hcomparison]; exact heff)

end Effects

/-- What is fixed while an instruction of the closure is lowered. -/
def contextFor (variadic : List String) (c : Closure) (i : Instr) : Context :=
  ⟨variadic, (layout c).2, i⟩

/-- Lowering a move, an integer operation, a comparison or a conditional branch never runs out of
scratch slots. When it succeeds, the lines before the last one leave everything but the temporary
registers and the scratch slots as it was, and the last one does what the instruction does on its
own operands. -/
theorem shared_temp_is_sound {c : Closure} {b : Block} {i : Instr} (hb : b ∈ c.blocks)
    (hi : i ∈ b.ops) (hshared : isShared i = true) (variadic : List String) (st : State) :
    (∀ err, instr (contextFor variadic c i) st = .error err → ∀ o, err.defect ≠ .noScratch o) ∧
      ∀ st', instr (contextFor variadic c i) st = .ok ((), st') →
        ∃ pre last, st'.out = st.out ++ pre ++ [last] ∧
          ∀ (e : Scene) (s : Machine.State) (eff : Effect), st.closure.locations = e.locs →
            e.Places st'.closure → Shareable e (contextFor variadic c i) s i →
            e.effect? s i = some eff →
              Ensures e pre s fun s1 => Untouched (e.scratch (contextFor variadic c i)) 0 s s1 ∧
                e.effect? s1 last = some eff := by
  refine ⟨(hasRoom_instr hb hi hshared variadic st).2, fun st' hok => ?_⟩
  rw [instr_eq (contextFor variadic c i) hshared] at hok
  obtain ⟨d, st1, hdraft, hkeep⟩ := run_bind.mp hok
  obtain ⟨⟨pre, hpre⟩, -⟩ := extends_sharedDraft (contextFor variadic c i) i st d st1 hdraft
  cases hkeep
  refine ⟨pre, d.instr, ?_, fun e s eff hlocs hplaces hshare heff => ?_⟩
  · dsimp only
    rw [hpre]
  · refine ((works_sharedDraft hshared hshare heff).ensures s st d st1 pre rfl hdraft hlocs hplaces
      hpre).mono fun s1 h1 => ⟨h1.1, h1.2 eff heff⟩

/-! ## Instances -/

/-- Three pointers and a word in the frame, and memory in which all bytes are one. -/
def frameScene : Scene :=
  ⟨⟨⟨fun _ => 0, fun _ => 0⟩, [("p", ⟨none, some (-8)⟩), ("q", ⟨none, some (-16)⟩),
    ("r", ⟨none, some (-24)⟩), ("m", ⟨none, some (-32)⟩)], 0x1000⟩, []⟩

def frameState : Machine.State := ⟨fun _ => 0, fun _ => 0, fun _ => 1⟩

/-- The memory at a pointer in the frame. -/
def pointed (ident : String) : Operand :=
  .indirect (some (.var ⟨ident, .ptr, false, false⟩)) none 1 0 .i64

/-- Each of the operands needs the temporary register. -/
def pointedSum : Instr := .make .add (some (pointed "p")) (some (pointed "q")) (some (pointed "r"))

/-- The literal is written with four bytes and stored with eight. -/
def narrowLiteral : Instr :=
  .make .move (some (.imm (.int .w32 3000000000))) none (some (.var ⟨"m", .u64, false, false⟩))

def frameClosure : Closure :=
  ⟨"f", "f", true, .void, [], [⟨"entry", [pointedSum, narrowLiteral], [], [], [], []⟩],
    frameScene.locs, [], [], 0, []⟩

theorem outside_of_distance {a b : BitVec 64} {k n : Nat} (h : 16 ≤ (b - a).toNat)
    (hn : (b - a).toNat + n ≤ 2 ^ 64) : Outside (some a) k (.mem b) n := by
  intro x hx a' ha _
  obtain rfl := Option.some.inj ha
  have hlt : (x - b).toNat < n := hx
  have hsplit : x - a = (x - b) + (b - a) := by
    apply BitVec.eq_of_toNat_eq
    simp only [BitVec.toNat_sub, BitVec.toNat_add]
    omega
  rw [hsplit, BitVec.toNat_add]
  omega

/-- A pointer in the frame can be loaded. -/
theorem suited_pointed {ident : String} (off : Int64) {cx : Context}
    (hscratch : frameScene.scratch cx = some 0xfd0)
    (hplace : frameScene.place? frameState (pointed ident) = some (.mem 0x0101010101010101))
    (hhome : frameScene.home? (.var ⟨ident, .ptr, false, false⟩) =
      some (.mem (frameScene.base + off.toBitVec)))
    (hoff : 16 ≤ (frameScene.base + off.toBitVec - 0xfd0).toNat ∧
      (frameScene.base + off.toBitVec - 0xfd0).toNat + 8 ≤ 2 ^ 64) :
    Suited frameScene cx frameState (pointed ident) where
  meaning := ⟨held frameState (pointed ident) (.mem 0x0101010101010101), by
    change (frameScene.place? frameState (pointed ident)).map _ = _
    rw [hplace]
    rfl⟩
  clear := by
    rw [hscratch]
    refine ⟨fun p hp => ?_, fun base index scale disp t heq part hpart p hp => ?_⟩
    · obtain rfl := Option.some.inj (hplace.symm.trans hp)
      exact outside_of_distance (n := 8) (by decide) (by decide)
    · obtain ⟨rfl, rfl, -⟩ := Operand.indirect.inj heq
      rcases hpart with hpart | hpart
      · cases hpart
        obtain rfl := Option.some.inj (hhome.symm.trans hp)
        exact outside_of_distance hoff.1 hoff.2
      · cases hpart
  loadable base index scale disp t heq := by
    obtain ⟨rfl, rfl, rfl, -⟩ := Operand.indirect.inj heq
    exact ⟨fun y hy => (by cases hy), fun b i _ hi => (by cases hi)⟩
  data l name h := by cases h
  float w x name h := by cases h

theorem shareable_pointedSum :
    Shareable frameScene (contextFor [] frameClosure pointedSum) frameState pointedSum := by
  have hp : Suited frameScene (contextFor [] frameClosure pointedSum) frameState (pointed "p") :=
    suited_pointed (-8) rfl rfl rfl (by decide)
  have hq : Suited frameScene (contextFor [] frameClosure pointedSum) frameState (pointed "q") :=
    suited_pointed (-16) rfl rfl rfl (by decide)
  have hr : Suited frameScene (contextFor [] frameClosure pointedSum) frameState (pointed "r") :=
    suited_pointed (-24) rfl rfl rfl (by decide)
  refine ⟨fun slot hne o ho => ?_, fun _ o ho => ?_, fun _ o ho => ?_, ?_⟩
  · cases slot with
    | first => exact Option.some.inj ho ▸ hp
    | second => exact Option.some.inj ho ▸ hq
    | addend => cases ho
    | output => exact absurd rfl hne
  · exact Option.some.inj ho ▸ hr
  · cases ho
    rfl
  · exact ⟨fun h => (by cases h), fun _ w v h => (by cases h), fun h => (by cases h)⟩

/-- The three addresses share the temporary register: both sources are in scratch slots when the sum
is stored. -/
theorem shared_temp_is_sound_three_pointers :
    ∃ st' pre last, instr (contextFor [] frameClosure pointedSum) ⟨frameClosure, []⟩ =
      .ok ((), st') ∧
      st'.out = pre ++ [last] ∧ pre.length = 5 ∧
        Ensures frameScene pre frameState fun s1 => frameScene.effect? s1 last =
          some (.assign (.mem 0x0101010101010101) 8 0x0202020202020202) := by
  obtain ⟨st', hok⟩ : ∃ st', instr (contextFor [] frameClosure pointedSum) ⟨frameClosure, []⟩ =
      .ok ((), st') := ⟨_, rfl⟩
  have hplaces : frameScene.Places st'.closure := by
    cases hok
    exact fun _ _ h => h
  obtain ⟨pre, last, hout, hrun⟩ := (shared_temp_is_sound (c := frameClosure) List.mem_cons_self
    List.mem_cons_self rfl [] ⟨frameClosure, []⟩).2 st' hok
  have hlines : st'.out.length = 6 := by
    cases hok
    rfl
  refine ⟨st', pre, last, hok, hout, ?_, ?_⟩
  · rw [hout] at hlines
    simpa using hlines
  · exact (hrun frameScene frameState _ rfl hplaces shareable_pointedSum rfl).mono fun s1 h1 => h1.2

/-- An integer that goes through the temporary register at its own width is extended by its sign,
not stored as the number that it is. -/
theorem narrow_literal_is_sign_extended :
    ∃ st' load last, instr (contextFor [] frameClosure narrowLiteral) ⟨frameClosure, []⟩ =
      .ok ((), st') ∧
      st'.out = [load, last] ∧
      frameScene.effect? frameState narrowLiteral = some (.assign (.mem 0xfe0) 8 3000000000) ∧
      ¬ Ensures frameScene [load] frameState fun s1 =>
        frameScene.effect? s1 last = some (.assign (.mem 0xfe0) 8 3000000000) := by
  refine ⟨_, _, _, rfl, rfl, rfl, ?_⟩
  rintro ⟨p, n, v, -, heff, hrun⟩
  cases heff
  obtain ⟨s1, h1⟩ := Machine.exists_assigns frameState (.reg Machine.r10) (n := 4)
    (3000000000 : BitVec 32) (by decide)
  have hlast := hrun s1 h1.weaken
  have hvalue : s1.get (.reg Machine.r10) 4 = (3000000000 : BitVec 32) := h1.value
  have hmove : some (Effect.assign (.mem 0xfe0) 8
      ((⟨true, 4, s1.get (.reg Machine.r10) 4⟩ : Datum).brought 8)) =
      some (.assign (.mem 0xfe0) 8 3000000000) := hlast
  rw [hvalue] at hmove
  injection hmove with hmove
  injection hmove with _ _ hbits
  exact absurd hbits (by decide)

end Backend.Lowering
