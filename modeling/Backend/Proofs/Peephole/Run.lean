-- Peephole optimisation keeps the meaning of blocks. A rule that applies anywhere in a block keeps
-- what the block does, so sweeps and whole runs do, as long as no float multiplication is fused.
import Backend.Proofs.Peephole.Fusions

namespace Backend.Peephole

universe u

/-! ## One rule -/

/-- Every rule replaces the first instructions by one that does the same. -/
theorem rule_window {rule : Rule} (hrule : rule ∈ defaultRules) {st : Setting} {b : Block}
    {ops ops' : List Instr} (done : List Instr) (suit : Suitable st.locations b.ops)
    (hops : b.ops = done ++ ops) (h : rule st b ops = some ops') :
    ∃ old new rest, ops = old ++ rest ∧ ops' = new :: rest ∧
      Window.{u} st.locations b.liveOut old new rest := by
  cases application_of_rule hrule h with
  | @lea ops f hf =>
    obtain ⟨mul, add, between, t, cur, fu⟩ := leaFusion?_eq_some hf
    exact ⟨mul :: (between ++ [add]), f.instr, f.rest, by simp [fu.ops], rfl,
      lea_window suit fu hops⟩
  | @mulAdd mul next new rest hnew =>
    exact ⟨[mul, next], new, rest, rfl, rfl, mulAdd_window suit hops hnew⟩
  | double found =>
    cases found with
    | second op two =>
      exact ⟨[_], _, _, rfl, rfl, double_window suit hops op two (.inl ⟨rfl, rfl⟩)⟩
    | first op two =>
      exact ⟨[_], _, _, rfl, rfl, double_window suit hops op two (.inr ⟨rfl, rfl⟩)⟩
    | moved op move two temp factors =>
      obtain ⟨y, hxy, hy⟩ := factors
      exact ⟨[_, _], _, _, rfl, rfl, double_moved_window suit hops op move two temp hxy hy⟩
  | @retarget op mv new rest hnew =>
    exact ⟨[op, mv], new, rest, rfl, rfl, retarget_window suit hops hnew⟩
  | @substitute mv op new rest hnew =>
    exact ⟨[mv, op], new, rest, rfl, rfl, substitute_window suit hops hnew⟩

/-! ## Blocks -/

/-- The instructions may stand for others: they are still suitable for the rules, and end alike
unless a float multiplication was fused. -/
structure Refines (locs : Locations) (liveOut : List String) (ops ops' : List Instr) : Prop where
  suitable : Suitable locs ops'
  fusions : floatFusions ops ≤ floatFusions ops'
  same : floatFusions ops' = floatFusions ops → ∀ {μ : Type u} (M : Meaning μ), M.Lawful → ∀ s,
    SameEnd locs liveOut (runBlock M locs ops s) (runBlock M locs ops' s)

theorem Refines.refl {locs : Locations} {liveOut : List String} {ops : List Instr}
    (suit : Suitable locs ops) : Refines.{u} locs liveOut ops ops :=
  ⟨suit, le_refl _, fun _ _ M _ s => SameEnd.refl locs liveOut (runBlock M locs ops s)⟩

theorem Refines.trans {locs : Locations} {liveOut : List String} {p q r : List Instr}
    (h : Refines.{u} locs liveOut p q) (h' : Refines.{u} locs liveOut q r) :
    Refines.{u} locs liveOut p r := by
  refine ⟨h'.suitable, h.fusions.trans h'.fusions, fun heq _ M law s => ?_⟩
  have hle := h.fusions
  have hle' := h'.fusions
  exact SameEnd.trans locs (h.same (by omega) M law s) (h'.same (by omega) M law s)

/-- The step lemma: a window keeps what the whole block does. -/
theorem Window.refines {locs : Locations} {liveOut : List String} {done old rest : List Instr}
    {new : Instr} (w : Window.{u} locs liveOut old new rest)
    (suit : Suitable locs (done ++ (old ++ rest))) :
    Refines.{u} locs liveOut (done ++ (old ++ rest)) (done ++ new :: rest) := by
  have hfusions := w.fusions
  simp only [floatFusions_cons, floatFusions_nil] at hfusions
  refine ⟨⟨suit.separate, fun i hi => ?_, fun i hi j hj v hv v' hv' => ?_⟩, ?_,
    fun heq μ M law s => ?_⟩
  · simp only [List.mem_append, List.mem_cons] at hi
    rcases hi with hi | rfl | hi
    · exact suit.regular i (by simp [hi])
    · exact w.regular
    · exact suit.regular i (by simp [hi])
  · have hold : ∀ i ∈ done ++ new :: rest, ∀ v ∈ namedVars i,
        ∃ j ∈ done ++ (old ++ rest), v ∈ namedVars j := by
      intro i hi v hv
      simp only [List.mem_append, List.mem_cons] at hi
      rcases hi with hi | rfl | hi
      · exact ⟨i, by simp [hi], hv⟩
      · obtain ⟨j, hj, hvj⟩ := w.named v hv
        exact ⟨j, by simp [hj], hvj⟩
      · exact ⟨i, by simp [hi], hv⟩
    obtain ⟨i', hi', hv⟩ := hold i hi v hv
    obtain ⟨j', hj', hv'⟩ := hold j hj v' hv'
    exact suit.oneType i' hi' j' hj' v hv v' hv'
  · simp only [floatFusions_append, floatFusions_cons]
    omega
  · simp only [floatFusions_append, floatFusions_cons] at heq
    obtain ⟨idents, hlive, huntouched, hrun⟩ := w.replaces (by
      simp only [floatFusions_cons, floatFusions_nil]
      omega)
    have hend := runBlock_frame (M := M) (hrun μ M law (runBlock M locs done s))
      (fun i hi => (suit.regular i (by simp [hi])).addresses) huntouched
    rw [← runBlock_append, ← runBlock_cons, ← runBlock_append, ← runBlock_append] at hend
    refine ⟨fun ident hident => hend.cells _ ?_, hend.mem, hend.log⟩
    rintro ⟨other, hother, hcell⟩
    exact hlive other hother (suit.separate _ _ hcell ▸ hident)

/-- What a run does to one block. -/
def BlockRefines (locs : Locations) (b b' : Block) : Prop :=
  b'.liveOut = b.liveOut ∧
    (Suitable locs b.ops → Refines.{u} locs b.liveOut b.ops b'.ops)

theorem BlockRefines.trans {locs : Locations} {b b' b'' : Block}
    (h : BlockRefines.{u} locs b b') (h' : BlockRefines.{u} locs b' b'') :
    BlockRefines.{u} locs b b'' := by
  refine ⟨h'.1.trans h.1, fun suit => (h.2 suit).trans ?_⟩
  rw [← h.1]
  exact h'.2 (h.2 suit).suitable

/-! ## Sweeps and runs -/

variable {rules : List Rule} (hrules : ∀ rule ∈ rules, rule ∈ defaultRules)

include hrules

theorem sweepFrom_refines (st : Setting) (b : Block) (n : Nat) (done ops : List Instr)
    (fired : Nat) (suit : Suitable st.locations (done ++ ops)) :
    Refines.{u} st.locations b.liveOut (done ++ ops) (sweepFrom rules st b n done ops fired).1 := by
  fun_induction sweepFrom rules st b n done ops fired with
  | case1 done ops fired => exact .refl suit
  | case2 n done fired => simpa using Refines.refl (by simpa using suit)
  | case3 n done i rest fired ops' hfirst ih =>
    obtain ⟨rule, hmem, happly⟩ := List.exists_of_findSome?_eq_some hfirst
    obtain ⟨old, new, tail, hops, rfl, w⟩ :=
      rule_window.{u} (hrules rule hmem) (b := { b with ops := done ++ i :: rest }) done suit rfl
        happly
    rw [hops] at suit ⊢
    have hstep := w.refines suit
    exact hstep.trans (ih hstep.suitable)
  | case4 n done i rest fired hnone ih =>
    have happend : done ++ i :: rest = done ++ [i] ++ rest := by simp
    rw [happend] at suit ⊢
    exact ih suit

theorem sweep_refines (st : Setting) (b : Block) :
    BlockRefines.{u} st.locations b (sweep rules st b).1 :=
  ⟨rfl, fun suit => sweepFrom_refines hrules st b (sweepBound b.ops) [] b.ops 0 suit⟩

/-- The run lemma: any number of sweeps keeps what each block does. -/
theorem sweeps_refine (st : Setting) (n : Nat) (blocks : List Block) {k : Nat} {b : Block}
    (hb : blocks[k]? = some b) :
    ∃ b', (sweeps rules st n blocks).1[k]? = some b' ∧ BlockRefines.{u} st.locations b b' := by
  induction n generalizing blocks b with
  | zero => exact ⟨b, hb, rfl, .refl⟩
  | succ n ih =>
    have hswept : ((blocks.map (sweep rules st)).map Prod.fst)[k]? = some (sweep rules st b).1 := by
      simp [hb]
    have hstep := sweep_refines.{u} hrules st b
    simp only [sweeps]
    split
    · exact ⟨_, hswept, hstep⟩
    · obtain ⟨b', hb', h⟩ := ih _ hswept
      exact ⟨b', hb', hstep.trans h⟩

omit hrules

/-- Optimising a closure keeps what each of its blocks does. From every state the block as it is
after the run leaves the same value in every live variable and the same memory, and has done the
same stores and given the same operands to every other instruction, if no float multiplication of
the block was fused. -/
theorem runs_keep_block_meaning {μ : Type u} (M : Meaning μ) (law : M.Lawful) (rules : List Rule)
    (hrules : ∀ rule ∈ rules, rule ∈ defaultRules) (features : Features) (limit : Int) (c : Closure)
    (k : Nat) (b : Block) (hb : c.blocks[k]? = some b) (suit : Suitable c.locations b.ops) :
    ∃ b', (runWith rules features limit c).1.blocks[k]? = some b' ∧
      (floatFusions b'.ops = floatFusions b.ops → ∀ s,
        SameEnd c.locations b.liveOut (runBlock M c.locations b.ops s)
          (runBlock M c.locations b'.ops s)) := by
  obtain ⟨b', hb', -, h⟩ := sweeps_refine.{u} hrules ⟨c.locations, features⟩
    (if limit ≤ 0 then defaultLimit else limit.toNat) c.blocks hb
  exact ⟨b', hb', fun heq s => (h suit).same heq M law s⟩

/-! ## Runs on two small functions -/

/-- A meaning that knows signed comparison and takes memory and floats to be zero. -/
def wordMeaning : Meaning Unit where
  constant _ := 0
  load _ _ _ := 0
  store m _ _ _ := m
  float _ _ _ _ _ := 0
  fill _ _ _ v := v
  other op r _ m :=
    (fun _ => if op == .slt && (bitsOf r.first).slt (bitsOf r.second) then 1 else 0, m)

theorem wordMeaning_lawful : wordMeaning.Lawful :=
  ⟨fun _ _ _ _ => rfl, fun _ _ _ _ _ _ _ => ⟨rfl, rfl⟩⟩

/-- A function of one block whose variables live in the registers from the first on. -/
def oneBlock (vars : List String) (ops : List Instr) (liveOut : List String) : Closure where
  name := "f"
  symbol := "f"
  isGlobal := false
  ret := .void
  locals := []
  blocks := [⟨"entry", ops, [], liveOut, [], []⟩]
  locations := vars.zipIdx.map fun (v, n) => (v, ⟨some ⟨UInt8.ofNat n, 8, .int, ""⟩, none⟩)
  imms := []
  data := []
  frame := 0
  saved := []

/-- The variable `ident` as an operand. -/
def varOf (ident : String) (t : Ty) : Option Operand := some (.var ⟨ident, t, false, false⟩)

/-- `d = x * 4 + 8`. -/
def scaledSum : Closure :=
  oneBlock ["x", "t", "d"]
    [.make .mul (varOf "x" .i64) (some (.imm (.int .w64 4))) (varOf "t" .i64),
      .make .add (varOf "t" .i64) (some (.imm (.int .w64 8))) (varOf "d" .i64)] ["d"]

theorem scaledSum_suitable : ∀ b ∈ scaledSum.blocks, Suitable scaledSum.locations b.ops := by
  intro b hb
  obtain rfl := List.mem_singleton.mp hb
  refine ⟨by rw [separate_iff]; decide, fun i hi => ?_, ?_⟩
  · simp only [List.mem_cons, List.not_mem_nil, or_false] at hi
    rcases hi with rfl | rfl
    all_goals
      refine ⟨(plainAddresses_iff rfl).mpr ?_, ?_⟩
      · simp [Instr.make, varOf, PlainSource, Instr.readsOption, Instr.reads, Instr.addressParts,
          AddressedDirectly]
      · simp [Uniform, boundOperands, Instr.make, varOf, isArith, typesOf, Operand.ty, Literal.ty,
          IntWidth.ty, SameKind]
  · intro i hi j hj v hv w hw hid
    simp only [List.mem_cons, List.not_mem_nil, or_false] at hi hj
    rcases hi with rfl | rfl <;> rcases hj with rfl | rfl
    all_goals
      simp [namedVars, Instr.make, varOf, Opcode.computes, Opcode.isArithmetic,
        Operand.var?] at hv hw
      rw [hv, hw]

/-- The sum becomes one address computation, which gives the same. -/
theorem runs_keep_scaled_sum : ∃ b', (run ⟨true, false, false⟩ 0 scaledSum).1.blocks[0]? = some b' ∧
    b'.ops.length = 1 ∧
    SameEnd scaledSum.locations ["d"]
      (runBlock wordMeaning scaledSum.locations (scaledSum.blocks.flatMap Block.ops)
        ⟨fun _ => 5, (), []⟩)
      (runBlock wordMeaning scaledSum.locations b'.ops ⟨fun _ => 5, (), []⟩) := by
  obtain ⟨b', hb', hsame⟩ := runs_keep_block_meaning wordMeaning wordMeaning_lawful
    defaultRules (fun _ h => h) ⟨true, false, false⟩ 0 scaledSum 0 _ rfl
    (scaledSum_suitable _ (by simp [scaledSum, oneBlock]))
  have hrun : (runWith defaultRules ⟨true, false, false⟩ 0 scaledSum).1.blocks[0]? =
      some ⟨"entry", [.make .lea (some (.indirect none (varOf "x" .i64) 4 8 .i64)) none
        (varOf "d" .i64)], [], ["d"], [], []⟩ := rfl
  obtain rfl := Option.some.inj (hb'.symm.trans hrun)
  exact ⟨_, hb', rfl, hsame rfl _⟩

/-- The comparison of the low half of `x` with `y`. -/
def narrowedComparison : List Instr :=
  [.make .move (varOf "x" .i64) none (varOf "t" .i64),
    .make .slt (varOf "t" .i32) (varOf "y" .i32) (varOf "d" .bool)]

/-- A variable that is moved at one type and compared at another one is replaced by what was moved
at the type of the move, so that whole words are compared where halves were: that each variable is
named at one type does not follow from the other conditions. -/
theorem runs_widen_narrowed_comparison :
    let c := oneBlock ["x", "t", "y", "d"] narrowedComparison ["d"]
    Separate c.locations ∧ (∀ i ∈ narrowedComparison, Regular i) ∧ wordMeaning.Lawful ∧
      ∃ b', (run ⟨true, true, true⟩ 0 c).1.blocks[0]? = some b' ∧
        floatFusions b'.ops = floatFusions narrowedComparison ∧
        ∃ s, ¬ SameEnd c.locations ["d"] (runBlock wordMeaning c.locations narrowedComparison s)
          (runBlock wordMeaning c.locations b'.ops s) := by
  refine ⟨by rw [separate_iff]; decide, fun i hi => ?_, wordMeaning_lawful,
    ⟨"entry", [.make .slt (varOf "x" .i64) (varOf "y" .i32) (varOf "d" .bool)], [], ["d"], [], []⟩,
    rfl, rfl, ⟨fun c => if c = .reg 0 then 2 ^ 32 else 1, (), []⟩, fun h => ?_⟩
  · simp only [narrowedComparison, List.mem_cons, List.not_mem_nil, or_false] at hi
    rcases hi with rfl | rfl
    all_goals
      refine ⟨(plainAddresses_iff rfl).mpr ?_, ?_⟩
      · simp [Instr.make, varOf, PlainSource, Instr.readsOption, Instr.reads, Instr.addressParts,
          AddressedDirectly]
      · simp [Uniform, boundOperands, Instr.make, varOf, isArith, typesOf, Operand.ty, SameKind]
  · exact absurd (h.live "d" (by simp)) (by decide)

end Backend.Peephole
