-- The lines that a comparison or a conditional branch is lowered to when its operands need no
-- address in a register: at most one literal, as the second operand and narrow, stays as it is.
import Backend.Proofs.Lowering.Division
import Backend.Proofs.Lowering.ScratchRoom

namespace Backend.Lowering

/-- An operand in place or one at the address of a symbol. -/
inductive Comparable (c : Closure) : Operand → Prop
  | inPlace {o : Operand} (h : InPlace c o) : Comparable c o
  | symbol (y : Symbol) : Comparable c (.symbol y)

/-- An integer that no field of 32 bits holds. -/
def isWide : Operand → Bool
  | .imm (.int _ value) => !Machine.fitsInt32 value
  | _ => false

/-- The temporary register in place of an operand. -/
def temporaryOf (o : Operand) : Operand := .reg (tempReg o.ty)

/-- The scratch slot in place of the temporary register. -/
def spilledOf (base : Int64) (o : Operand) : Operand :=
  .stack base (if (temporaryOf o).ty == .void then .i64 else (temporaryOf o).ty)

section Lines

variable (cx : Context)

/-- An operand is loaded into the temporary register. -/
def loadLine (o : Operand) : Instr := lineAt cx.instr .move (some o) none (some (temporaryOf o))

/-- The lines of a comparison whose literal, if there is but one, is the second operand. A first
literal and a wide second one go through the temporary register, which is moved to the scratch slot
if both need it. -/
def comparisonLines (base : Int64) (i : Instr) (first second : Operand) : List Instr :=
  match isLiteral (some first), isWide second with
  | false, false => [i]
  | false, true => [loadLine cx second, { i with second := some (temporaryOf second) }]
  | true, false => [loadLine cx first, { i with first := some (temporaryOf first) }]
  | true, true =>
    [loadLine cx second, lineAt cx.instr .move (some (temporaryOf second)) none
      (some (spilledOf base second)), loadLine cx first,
      { i with first := some (temporaryOf first), second := some (spilledOf base second) }]

variable (st : State)

theorem source_comparable {slot : Slot} {d : Draft} {o : Operand}
    (hslot : slot.get d.instr = some o) (h : Comparable st.closure o) :
    source cx slot false d st = .ok (d, st) := by
  cases h with
  | inPlace h => exact source_inPlace cx hslot h
  | symbol y =>
    unfold source
    rw [hslot]
    rfl

/-- A wide literal goes to the temporary register where it has to be narrow. -/
theorem source_narrow {i : Instr} {o : Operand} (hslot : i.second = some o)
    (h : Comparable st.closure o) :
    source cx .second true (.of i) st =
      if isWide o then .ok (⟨{ i with second := some (temporaryOf o) }, some .second, 0⟩,
        { st with out := st.out ++ [loadLine cx o] })
      else .ok (.of i, st) := by
  obtain ⟨op, a, b, c, out, pos⟩ := i
  cases hslot
  cases h with
  | symbol y => rfl
  | inPlace h =>
    cases h with
    | var placed => exact run_bind.mpr ⟨_, st, locate_placed cx placed, rfl⟩
    | int width value =>
      cases hfit : Machine.fitsInt32 value with
      | false => simp only [source, Slot.get, Draft.of, isWide, hfit]; rfl
      | true => simp only [source, Slot.get, Draft.of, isWide, hfit]; rfl
    | _ => rfl

theorem intImmediate_first {d : Draft} {o : Operand} (hslot : d.instr.first = some o)
    (h : isLiteral (some o) = false) : intImmediateIntoTemp cx .first d st = .ok (d, st) := by
  unfold intImmediateIntoTemp
  simp only [Slot.get, hslot]
  cases o <;> first | rfl | cases h

/-- A literal goes to the temporary register when nothing else is there. -/
theorem intImmediate_first_free {i : Instr} {o : Operand} (hslot : i.first = some o)
    (hc : Comparable st.closure o) (h : isLiteral (some o) = true) :
    intImmediateIntoTemp cx .first (.of i) st =
      .ok (⟨{ i with first := some (temporaryOf o) }, some .first, 0⟩,
        { st with out := st.out ++ [loadLine cx o] }) := by
  obtain ⟨op, a, b, c, out, pos⟩ := i
  cases hslot
  cases hc with
  | symbol y => cases h
  | inPlace hc => cases hc <;> first | rfl | cases h

/-- What the temporary register held for the second operand is moved out of the way of the first
one. -/
theorem intImmediate_first_taken {i : Instr} {base : Int64} {o : Operand} (o' : Operand)
    (hslot : i.first = some o) (hc : Comparable st.closure o) (h : isLiteral (some o) = true)
    (hscratch : cx.scratch = some base) :
    intImmediateIntoTemp cx .first ⟨{ i with second := some (temporaryOf o') },
      some .second, 0⟩ st =
      .ok (⟨{ i with first := some (temporaryOf o), second := some (spilledOf base o') },
        some .first, 1⟩, { st with out := st.out ++
          [lineAt cx.instr .move (some (temporaryOf o')) none (some (spilledOf base o')),
            loadLine cx o] }) := by
  obtain ⟨op, a, b, c, out, pos⟩ := i
  obtain ⟨variadic, scratch, instr⟩ := cx
  cases hslot
  cases hscratch
  have hzero : spilledOf (base + 8 * Int64.ofNat 0) o' = spilledOf base o' := by simp
  have hspill : ∀ st : State, spill ⟨variadic, some base, instr⟩
      ⟨⟨op, some o, some (temporaryOf o'), c, out, pos⟩, some .second, 0⟩ st =
        .ok (⟨⟨op, some o, some (spilledOf base o'), c, out, pos⟩, none, 1⟩,
          { st with out := st.out ++
            [lineAt instr .move (some (temporaryOf o')) none (some (spilledOf base o'))] }) := by
    intro st
    rw [← hzero]
    rfl
  have htemp : ∀ (l : Literal), o = .imm l → intoTemp ⟨variadic, some base, instr⟩ .first
      ⟨⟨op, some o, some (temporaryOf o'), c, out, pos⟩, some .second, 0⟩ st =
        .ok (⟨⟨op, some (temporaryOf o), some (spilledOf base o'), c, out, pos⟩, some .first, 1⟩,
          { st with out := st.out ++ [lineAt instr .move (some (temporaryOf o')) none
            (some (spilledOf base o')), loadLine ⟨variadic, some base, instr⟩ o] }) := by
    intro l hl
    refine run_bind.mpr ⟨_, _, run_bind.mpr ⟨_, _, hspill st, rfl⟩, ?_⟩
    refine run_bind.mpr ⟨(), _, rfl, ?_⟩
    simp only [List.append_assoc, List.cons_append, List.nil_append]
    rfl
  cases hc with
  | symbol y => cases h
  | inPlace hc => cases hc <;> first | exact htemp _ rfl | cases h

theorem dest_inPlace {d : Draft} {o : Operand} (hslot : d.instr.output = some o)
    (h : InPlace st.closure o) (hw : Writable o) : dest cx .output d st = .ok (d, st) := by
  unfold dest
  simp only [Slot.get, hslot]
  cases h with
  | var placed => exact run_bind.mpr ⟨_, st, locate_placed cx placed, rfl⟩
  | int => exact hw.elim
  | bool => exact hw.elim
  | _ => rfl

theorem run_keep (i : Instr) (st : State) :
    keep i st = .ok ((), { st with out := st.out ++ [i] }) := rfl

/-- A comparison whose operands are in place or symbols. -/
theorem compare_inPlace (base : Int64) {i : Instr} {first second output : Operand}
    (hi : literalSecond cx.instr = i) (hfirst : i.first = some first)
    (hsecond : i.second = some second)
    (houtput : i.op.isCompare = true → i.output = some output ∧ InPlace st.closure output ∧
      Writable output)
    (hf : Comparable st.closure first) (hs : Comparable st.closure second)
    (hscratch : isLiteral (some first) = true → isWide second = true → cx.scratch = some base) :
    compare cx cx.instr st =
      .ok ((), { st with out := st.out ++ comparisonLines cx base i first second }) := by
  -- The output is in place too, so the draft stays what the sources made it.
  have hdest : ∀ (d : Draft) (out : List Instr), d.instr.output = i.output →
      (if i.op.isCompare then dest cx .output d else pure d) { st with out := out } =
        .ok (d, { st with out := out }) := by
    intro d out hout
    by_cases hcompare : i.op.isCompare = true
    · obtain ⟨ho, hin, hw⟩ := houtput hcompare
      rw [if_pos hcompare]
      exact dest_inPlace cx { st with out := out } (hout.trans ho) hin hw
    · rw [if_neg hcompare]
      rfl
  have hsource : source cx .first false (.of i) st = .ok (.of i, st) :=
    source_comparable cx st hfirst hf
  have hnarrow := source_narrow cx st hsecond hs
  rw [compare_eq, hi]
  unfold compareDraft comparisonLines
  cases hwide : isWide second with
  | false =>
    rw [hwide] at hnarrow
    cases hlit : isLiteral (some first) with
    | false =>
      have himm := intImmediate_first cx st (d := .of i) hfirst hlit
      refine run_bind.mpr ⟨_, _, run_bind.mpr ⟨_, st, hsource, run_bind.mpr ⟨_, st, hnarrow,
        run_bind.mpr ⟨_, st, himm, hdest _ _ rfl⟩⟩⟩, rfl⟩
    | true =>
      have himm := intImmediate_first_free cx st hfirst hf hlit
      refine run_bind.mpr ⟨_, _, run_bind.mpr ⟨_, st, hsource, run_bind.mpr ⟨_, st, hnarrow,
        run_bind.mpr ⟨_, _, himm, hdest _ _ rfl⟩⟩⟩, ?_⟩
      simp [run_keep]
  | true =>
    rw [hwide] at hnarrow
    cases hlit : isLiteral (some first) with
    | false =>
      have himm := intImmediate_first cx { st with out := st.out ++ [loadLine cx second] }
        (d := ⟨{ i with second := some (temporaryOf second) }, some .second, 0⟩) hfirst hlit
      refine run_bind.mpr ⟨_, _, run_bind.mpr ⟨_, st, hsource, run_bind.mpr ⟨_, _, hnarrow,
        run_bind.mpr ⟨_, _, himm, hdest _ _ rfl⟩⟩⟩, ?_⟩
      simp [run_keep]
    | true =>
      have himm := intImmediate_first_taken cx { st with out := st.out ++ [loadLine cx second] }
        second hfirst hf hlit (hscratch hlit hwide)
      refine run_bind.mpr ⟨_, _, run_bind.mpr ⟨_, st, hsource, run_bind.mpr ⟨_, _, hnarrow,
        run_bind.mpr ⟨_, _, himm, hdest _ _ rfl⟩⟩⟩, ?_⟩
      simp [run_keep]

end Lines

end Backend.Lowering
