-- Comparisons: the flags that they set, the conditions that are read from the flags, and code that
-- ends in a conditional jump. A comparison of floats one of which is no number sets zero, parity
-- and carry.
import Backend.Proofs.Lowering.Evaluation
import Backend.Proofs.Machine.Implicit

namespace Backend.Machine

open Backend.Lowering (order? holdsFor isUnsignedComparison)

/-! ## Flags -/

/-- The flags that conditions are read from. -/
structure Flags where
  carry : Bool
  parity : Bool
  zero : Bool
  sign : Bool
  overflow : Bool

/-- The flags after the second number was subtracted from the first. -/
def Flags.ofDifference {n : Nat} (x y : BitVec n) : Flags where
  carry := x.ult y
  parity := ((List.range 8).countP fun k => (x - y).getLsbD k) % 2 == 0
  zero := x == y
  sign := (x - y).msb
  overflow := x.ssubOverflow y

/-- The flags after two floats that compare like this. -/
def Flags.ofOrder : Option Ordering → Flags
  | none => ⟨true, true, true, false, false⟩
  | some .lt => ⟨true, false, false, false, false⟩
  | some .eq => ⟨false, false, true, false, false⟩
  | some .gt => ⟨false, false, false, false, false⟩

/-- The condition holds of the flags. An odd code says the contrary of the even one before it. -/
def Cond.holds (c : Cond) (f : Flags) : Bool :=
  let plain := match c.code.toNat / 2 with
    | 0 => f.overflow
    | 1 => f.carry
    | 2 => f.zero
    | 3 => f.carry || f.zero
    | 4 => f.sign
    | 5 => f.parity
    | 6 => f.sign != f.overflow
    | _ => f.zero || f.sign != f.overflow
  plain != (c.code.toNat % 2 == 1)

/-- The sign of a difference that did not overflow says which number is less; one that did has the
other sign. -/
theorem sign_ne_overflow {n : Nat} (x y : BitVec n) :
    ((x - y).msb != x.ssubOverflow y) = decide (x.toInt < y.toInt) := by
  by_cases hover : x.ssubOverflow y = true
  · have hsigns := BitVec.ssubOverflow_eq x y
    rw [hover] at hsigns ⊢
    have hx := BitVec.msb_eq_toInt (x := x)
    have hy := BitVec.msb_eq_toInt (x := y)
    cases hmx : x.msb <;> cases hmy : y.msb <;> cases hd :
      (x - y).msb <;> rw [hmx, hmy, hd] at hsigns <;>
      first | (cases hsigns; done) | skip
    · rw [hmx, eq_comm, decide_eq_false_iff_not] at hx
      rw [hmy, eq_comm, decide_eq_true_eq] at hy
      exact (decide_eq_false (by omega)).symm
    · rw [hmx, eq_comm, decide_eq_true_eq] at hx
      rw [hmy, eq_comm, decide_eq_false_iff_not] at hy
      exact (decide_eq_true (by omega)).symm
  · have hint := BitVec.toInt_sub_of_not_ssubOverflow hover
    simp only [Bool.not_eq_true] at hover
    rw [hover, BitVec.msb_eq_toInt, hint, Bool.bne_false]
    exact decide_eq_decide.mpr (by omega)

/-- The condition of an integer comparison says how the numbers compare. -/
theorem intCond_holds {op : Opcode} (hop : (op.isCompare || op.isCondBranch) = true) {n : Nat}
    (x y : BitVec (8 * n)) : (Selection.intCond op).holds (.ofDifference x y) =
      holdsFor op (order? false (isUnsignedComparison op) x y) := by
  have hless : x.ult y = true → (x == y) = false := by
    intro h
    rw [BitVec.ult_eq_decide, decide_eq_true_eq] at h
    exact beq_eq_false_iff_ne.mpr fun heq => Nat.lt_irrefl _ (heq ▸ h)
  have hsless : decide (x.toInt < y.toInt) = true → (x == y) = false := by
    intro h
    rw [decide_eq_true_eq] at h
    exact beq_eq_false_iff_ne.mpr fun heq => Int.lt_irrefl _ (heq ▸ h)
  have hunsigned : Ord.compare x.toNat y.toNat =
      if x.ult y then .lt else if x == y then .eq else .gt := by
    simp only [BitVec.ult_eq_decide, beq_iff_eq, decide_eq_true_eq, BitVec.toNat_eq]
    rfl
  have hsigned : Ord.compare x.toInt y.toInt =
      if decide (x.toInt < y.toInt) then .lt else if x == y then .eq else .gt := by
    simp only [beq_iff_eq, decide_eq_true_eq, ← BitVec.toInt_inj]
    rfl
  simp only [order?, hunsigned, hsigned, Flags.ofDifference, Cond.holds, sign_ne_overflow]
  generalize x.ult y = unsigned at hless
  generalize decide (x.toInt < y.toInt) = signed at hsless
  generalize (x == y) = equal at hless hsless
  cases op <;> first
    | (cases hop; done)
    | (cases unsigned <;> cases signed <;> cases equal <;> first | rfl | simp at hless hsless)

/-- A comparison of floats with its operands swapped says the same of them, unless they are
unordered and the comparison is not one for equality. -/
theorem condOf_swapped_iff {op : Opcode} (hop : (op.isCompare || op.isCondBranch) = true)
    (o : Option Ordering) : (Selection.condOf op.swapped true).holds
    (.ofOrder (o.map Ordering.swap)) =
      (Selection.condOf op true).holds (.ofOrder o) ↔ o.isSome = true ∨ op.swapped = op := by
  rcases o with _ | o
  · cases op <;> first | (cases hop; done) | decide
  · cases o <;> cases op <;> first | (cases hop; done) | decide

/-! ## Processors -/

/-- Registers and memory with the flags, where something is known of them. -/
structure Cpu where
  state : State
  flags : Option Flags

/-- The width of an integer comparison: that of the first operand. One of the operands may be
memory, the second a number that fits a field of 32 bits. -/
def differenceWidth? (x y : Operand) : Option Nat :=
  let fits := match y with
    | .imm v => fitsInt32 v
    | _ => true
  match x, y with
  | .mem _, .mem _ => none
  | .reg r, y => if y.readableAt r.width.toNat && fits then some r.width.toNat else none
  | .mem m, y => if y.readableAt m.width.toNat && fits then some m.width.toNat else none
  | _, _ => none

/-- A float instruction can read the operand at the width. -/
def Operand.scalarAt (w : UInt8) : Operand → Bool
  | .xmm x => x.width == w
  | .mem m => m.width == w
  | _ => false

/-- An SSE register after a write to its scalar part. -/
def State.setXmm (s : State) (id : RegId) (v : BitVec 64) : State :=
  { s with xmms := Function.update s.xmms id v }

/-- The state after a scalar is copied. From memory and from a general purpose register the rest of
an SSE register is cleared; from another one it stays. -/
def copyScalar (l : Linkage) (s : State) (dst src : Operand) : Option State :=
  match dst, src with
  | .xmm d, .xmm x =>
    if x.width = d.width then
      let kept := s.xmms d.id >>> (8 * d.width.toNat) <<< (8 * d.width.toNat)
      some (s.setXmm d.id (kept ||| (src.value l s d.width.toNat).setWidth 64))
    else none
  | .xmm d, .mem m =>
    if m.width = d.width then some (s.setXmm d.id ((src.value l s d.width.toNat).setWidth 64))
      else none
  | .mem m, .xmm x =>
    if x.width = m.width then some (s.store (m.addr.eval l s) (src.value l s m.width.toNat))
      else none
  | _, _ => none

/-- The state after bits are copied between the register classes, as many as the general purpose
register has, four or eight bytes. -/
def copyBits (l : Linkage) (s : State) (dst src : Operand) : Option State :=
  match dst, src with
  | .xmm d, .reg r =>
    if 4 ≤ r.width then some (s.setXmm d.id ((src.value l s r.width.toNat).setWidth 64)) else none
  | .reg r, .xmm _ => if 4 ≤ r.width then some (s.setReg r.id (src.value l s r.width.toNat))
    else none
  | _, _ => none

/-- Arithmetic leaves the flags as it computes, which is of no interest here; the other instructions
leave them as they are. -/
def Op.keepsFlags : Op → Bool
  | .mov | .movzx | .movsx | .lea | .not | .push | .pop | .cqo | .movs | .movq => true
  | _ => false

/-- The processor after an instruction, where comparisons and what reads flags have a meaning
too. -/
def Inst.next (l : Linkage) (m : Cpu) : Inst → Option Cpu
  | .op .cmp _ (some x) (some y) none => do
    let n ← differenceWidth? x y
    some ⟨m.state, some (.ofDifference (x.value l m.state n) (y.value l m.state n))⟩
  | .op .ucomis _ (some (.xmm x)) (some y) none =>
    if y.scalarAt x.width then
      let n := x.width.toNat
      some ⟨m.state, some (.ofOrder
        (order? true false (m.state.get (.xmm x.id) n) (y.value l m.state n)))⟩
    else none
  | .op .setcc c (some d) none none => do
    let f ← m.flags
    if gprWidth? (some d) = some 1 then
      some ⟨← update l m.state d fun n _ => BitVec.ofNat (8 * n) (c.holds f).toNat, m.flags⟩
    else none
  | .op .movs _ (some d) (some a) none => do some ⟨← copyScalar l m.state d a, m.flags⟩
  | .op .movq _ (some d) (some a) none => do some ⟨← copyBits l m.state d a, m.flags⟩
  | .op f c d a b => do
    some ⟨← (Inst.op f c d a b).step l m.state, if f.keepsFlags then m.flags else none⟩
  | .label _ _ _ => none

/-- The processor after a list of instructions or at a jump in it that is taken, with the target of
the jump. -/
def runTo (l : Linkage) : List Inst → Cpu → Option (Cpu × Option Target)
  | [], m => some (m, none)
  | .op .jcc c (some (.target t)) none none :: rest, m => do
    let f ← m.flags
    if c.holds f then some (m, some t) else runTo l rest m
  | i :: rest, m => do runTo l rest (← i.next l m)

section Runs

variable {l : Linkage} {m m1 : Cpu} {xs ys : List Inst}

theorem runTo_cons {i : Inst} (h : ∀ c t, i ≠ .op .jcc c (some (.target t)) none none)
    (rest : List Inst) (m : Cpu) : runTo l (i :: rest) m = (i.next l m).bind (runTo l rest) :=
  runTo.eq_3 _ _ _ _ h

theorem next_of_exec {i : Inst} {s s' : State} {f : Option Flags} (h : i.exec l s = some s') :
    ∃ f', i.next l ⟨s, f⟩ = some ⟨s', f'⟩ := by
  unfold Inst.next
  split
  case h_6 => exact ⟨_, by rw [step_of_exec h]; rfl⟩
  all_goals simp [Inst.exec, Op.binary?, Op.unary?, Op.shift?] at h

theorem runTo_cons_of_exec {i : Inst} {s s' : State} {f : Option Flags} (h : i.exec l s = some s')
    (rest : List Inst) : ∃ f', runTo l (i :: rest) ⟨s, f⟩ = runTo l rest ⟨s', f'⟩ := by
  obtain ⟨f', hf⟩ := next_of_exec (f := f) h
  refine ⟨f', ?_⟩
  have hjump : ∀ c t, i = .op .jcc c (some (.target t)) none none → False := by
    rintro c t rfl
    cases h
  rw [runTo_cons hjump, hf]
  rfl

/-- Code without comparisons goes on to what follows it. -/
theorem runTo_of_run {s s' : State} {f : Option Flags} (h : run l xs s = some s')
    (rest : List Inst) :
    ∃ f', runTo l (xs ++ rest) ⟨s, f⟩ = runTo l rest ⟨s', f'⟩ := by
  induction xs generalizing s f with
  | nil =>
    cases h
    exact ⟨f, rfl⟩
  | cons i xs ih =>
    simp only [run] at h
    cases hi : i.exec l s with
    | none =>
      rw [hi] at h
      cases h
    | some s1 =>
      rw [hi] at h
      obtain ⟨f1, h1⟩ := runTo_cons_of_exec (f := f) hi (xs ++ rest)
      obtain ⟨f', h'⟩ := ih (f := f1) h
      exact ⟨f', h1.trans h'⟩

end Runs

end Backend.Machine
