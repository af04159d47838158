-- Optimising comes to an end. Every application of a rule takes away an instruction or a
-- multiplication and brings in neither, so a sweep ends although it looks at a place again after
-- each application, the applications of a run are bounded by what it was given, and a run that
-- stops before its limit leaves blocks to which no rule applies.
import Backend.Proofs.Peephole.Literals
import Backend.Proofs.Peephole.Order

namespace Backend.Peephole

open Relation (ReflTransGen)

/-! ## What a rule takes away -/

/-- The number of instructions and the number of multiplications together. -/
def bulk (ops : List Instr) : Nat := ops.length + mulCount ops

theorem mulCount_append (ops ops' : List Instr) :
    mulCount (ops ++ ops') = mulCount ops + mulCount ops' := List.countP_append

theorem mulCount_cons (i : Instr) (ops : List Instr) :
    mulCount (i :: ops) = mulCount ops + if i.op = .mul then 1 else 0 := by
  simp [mulCount, List.countP_cons]

theorem bulk_append (ops ops' : List Instr) : bulk (ops ++ ops') = bulk ops + bulk ops' := by
  simp only [bulk, List.length_append, mulCount_append]
  omega

section Rules

variable {st : Setting} {b : Block} {ops ops' : List Instr}

/-- No rule brings in a multiplication. -/
theorem rule_mulCount {rule : Rule} (hrule : rule ∈ defaultRules) (h : rule st b ops = some ops') :
    mulCount ops' ≤ mulCount ops := by
  cases application_of_rule hrule h with
  | @lea ops f hf =>
    obtain ⟨mul, add, between, t, cur, fu⟩ := leaFusion?_eq_some hf
    have hlea : f.instr.op ≠ .mul := by simp [LeaFusion.instr, Instr.make]
    simp only [fu.ops, mulCount_cons, mulCount_append, if_neg hlea]
    omega
  | mulAdd hnew =>
    obtain ⟨t, m⟩ := mulAdd?_eq_some hnew
    obtain ⟨op, addend, huse, -, rfl⟩ := m.fused
    have hfused : op ≠ .mul := by
      rintro rfl
      exact absurd (productUse?_eq_some huse).2.1 (by decide)
    simp only [mulCount_cons, if_neg hfused]
    omega
  | double found =>
    cases found with
    | second => simp [mulCount_cons, doubled]
    | first => simp [mulCount_cons, doubled]
    | moved => simp [mulCount_cons, doubled]; omega
  | retarget hnew =>
    obtain ⟨-, -, -, rfl, -⟩ := retarget?_eq_some hnew
    simp only [mulCount_cons]
    omega
  | substitute hnew =>
    obtain ⟨-, -, -, t, -, -, ⟨-, rfl⟩ | ⟨-, rfl⟩⟩ := substitute?_eq_some hnew
    all_goals
      simp only [mulCount_cons]
      omega

/-- The step lemma: a rule takes away an instruction or a multiplication and brings in neither. -/
theorem rule_bulk {rule : Rule} (hrule : rule ∈ defaultRules) (h : rule st b ops = some ops') :
    ops'.length ≤ ops.length ∧ bulk ops' < bulk ops := by
  have hmuls := rule_mulCount hrule h
  obtain ⟨old, new, rest, rfl, rfl, hsmall⟩ := rule_smaller hrule h
  have hweight := hsmall.weight
  rw [← List.singleton_append, mulCount_append, mulCount_append] at hmuls
  rw [← List.singleton_append, bulk_append, bulk_append]
  simp only [bulk, weight, List.length_append, List.length_singleton] at hweight ⊢
  have hold : mulCount old ≤ old.length := List.countP_le_length
  omega

theorem Rewrites.bulk_lt {b' : Block} (h : Rewrites st b b') :
    b'.ops.length ≤ b.ops.length ∧ bulk b'.ops < bulk b.ops := by
  obtain ⟨rule, done, ops, ops', mem, here, applies⟩ := h
  obtain ⟨hlength, hbulk⟩ := rule_bulk mem applies
  simp only [here, bulk_append, List.length_append]
  omega

end Rules

/-! ## Sweeps -/

/-- Where a sweep stands: the instructions it has passed, those ahead, and how often a rule was
applied. -/
structure Cursor where
  passed : List Instr
  ahead : List Instr
  fired : Nat

/-- One turn of a sweep. Where a rule applies the cursor stays where it is. -/
inductive Turn (rules : List Rule) (st : Setting) (b : Block) : Cursor → Cursor → Prop
  | rewrite {passed rest ops : List Instr} {i : Instr} {fired : Nat}
      (first : applyFirst rules st { b with ops := passed ++ i :: rest } (i :: rest) = some ops) :
      Turn rules st b ⟨passed, i :: rest, fired⟩ ⟨passed, ops, fired + 1⟩
  | advance {passed rest : List Instr} {i : Instr} {fired : Nat}
      (none : applyFirst rules st { b with ops := passed ++ i :: rest } (i :: rest) = none) :
      Turn rules st b ⟨passed, i :: rest, fired⟩ ⟨passed ++ [i], rest, fired⟩

/-- What is left to do: to take away and to pass. -/
def Cursor.left (c : Cursor) : Nat := bulk (c.passed ++ c.ahead) + c.ahead.length

section Sweeps

variable {rules : List Rule} {st : Setting} {b : Block}

theorem Turn.unique {c d e : Cursor} (hd : Turn rules st b c d) (he : Turn rules st b c e) :
    d = e := by
  cases hd with
  | rewrite first =>
    cases he with
    | rewrite first' => rw [Option.some.inj (first.symm.trans first')]
    | advance none => cases first.symm.trans none
  | advance none =>
    cases he with
    | rewrite first => cases first.symm.trans none
    | advance none' => rfl

/-- A sweep as one chain of turns. -/
theorem Swept.turns {done ops out : List Instr} {n : Nat} (h : Swept rules st b done ops out n)
    (fired : Nat) :
    ReflTransGen (Turn rules st b) ⟨done, ops, fired⟩ ⟨out, [], fired + n⟩ := by
  induction h generalizing fired with
  | stop => exact .refl
  | @apply done rest ops out i n rule next ih =>
    have hrest := ih (fired + 1)
    rw [Nat.add_right_comm] at hrest
    exact .head (.rewrite rule) hrest
  | pass none next ih => exact .head (.advance none) (ih fired)

/-- A sweep without an application of a rule leaves the instructions as they are, and no rule of
its list applies at any of them. -/
theorem Swept.atRest {done ops out : List Instr} (h : Swept rules st b done ops out 0) :
    out = done ++ ops ∧ ∀ front i back, ops = front ++ i :: back →
      applyFirst rules st { b with ops := done ++ ops } (i :: back) = none := by
  generalize hn : 0 = n at h
  induction h with
  | stop => simp
  | apply => omega
  | @pass done rest out i n none next ih =>
    obtain ⟨hout, hrest⟩ := ih hn
    rw [List.append_assoc, List.singleton_append] at hout hrest
    refine ⟨hout, fun front j back hops => ?_⟩
    cases front with
    | nil =>
      obtain ⟨rfl, rfl⟩ := List.cons.inj hops
      exact none
    | cons k front => exact hrest front j back (List.cons.inj hops).2

variable (hrules : ∀ rule ∈ rules, rule ∈ defaultRules)

include hrules

theorem applyFirst_bulk {ops ops' : List Instr} (h : applyFirst rules st b ops = some ops') :
    ops'.length ≤ ops.length ∧ bulk ops' < bulk ops := by
  obtain ⟨rule, hmem, happly⟩ := List.exists_of_findSome?_eq_some h
  exact rule_bulk (hrules rule hmem) happly

theorem Turn.left_lt {c d : Cursor} (h : Turn rules st b c d) : d.left < c.left := by
  cases h with
  | rewrite first =>
    obtain ⟨hlength, hbulk⟩ := applyFirst_bulk hrules first
    simp only [Cursor.left, bulk_append]
    omega
  | advance none => simp [Cursor.left]

/-- There is no endless chain of turns. -/
theorem turn_wellFounded (st : Setting) (b : Block) :
    WellFounded fun d c => Turn rules st b c d :=
  Subrelation.wf (fun h => h.left_lt hrules) (measure Cursor.left).wf

/-- However far a sweep has come, it goes on to the end of the block, and what it leaves there is
the result. -/
theorem turns_sweep (st : Setting) (b : Block) {c : Cursor}
    (h : ReflTransGen (Turn rules st b) ⟨[], b.ops, 0⟩ c) :
    ReflTransGen (Turn rules st b) c ⟨(sweep rules st b).1.ops, [], (sweep rules st b).2⟩ := by
  have hend := (sweep_swept hrules st b).turns 0
  rw [Nat.zero_add] at hend
  have hunique : Relator.RightUnique (Turn rules st b) := fun _ _ _ => Turn.unique
  rcases ReflTransGen.total_of_right_unique hunique h hend with hgo | hback
  · exact hgo
  · -- At the end no turn is left, so the sweep has come there.
    cases hback.cases_head with
    | inl heq => exact heq ▸ .refl
    | inr hturn =>
      obtain ⟨d, hturn, -⟩ := hturn
      cases hturn

/-- The applications of a sweep are paid for by what it takes away. -/
theorem Swept.bulk_le {done ops out : List Instr} {n : Nat}
    (h : Swept rules st b done ops out n) : n + bulk out ≤ bulk (done ++ ops) := by
  induction h with
  | stop => simp
  | apply rule next ih =>
    have hbulk := (applyFirst_bulk hrules rule).2
    rw [bulk_append] at ih ⊢
    omega
  | pass none next ih => simpa using ih

end Sweeps

/-! ## Runs -/

/-- The bulk of all blocks. -/
def totalBulk (blocks : List Block) : Nat := (blocks.map fun b => bulk b.ops).sum

/-- No rule of the list applies at any position of the block. -/
def AtRest (rules : List Rule) (st : Setting) (b : Block) : Prop :=
  ∀ rule ∈ rules, ∀ done ops, b.ops = done ++ ops → rule st b ops = none

section Runs

variable {rules : List Rule} (hrules : ∀ rule ∈ rules, rule ∈ defaultRules)

include hrules

/-- A block that a sweep found nothing to do in is at rest. -/
theorem atRest_of_sweep {st : Setting} {b : Block} (h : (sweep rules st b).2 = 0) :
    AtRest rules st (sweep rules st b).1 := by
  have hswept := sweep_swept hrules st b
  rw [h] at hswept
  obtain ⟨hout, hnone⟩ := hswept.atRest
  have hsame : (sweep rules st b).1 = b := congrArg (fun ops => { b with ops := ops }) hout
  rw [hsame]
  intro rule hmem done ops hops
  cases ops with
  | nil => rcases mem_defaultRules.mp (hrules rule hmem) with rfl | rfl | rfl | rfl <;> rfl
  | cons i back => exact List.findSome?_eq_none_iff.mp (hnone done i back hops) rule hmem

/-- The applications of one sweep over all blocks, counted from `n` on. -/
theorem swept_totalBulk (st : Setting) (blocks : List Block) (n : Nat) :
    (blocks.map (sweep rules st)).foldl (fun n b => n + b.2) n +
      totalBulk ((blocks.map (sweep rules st)).map Prod.fst) ≤ n + totalBulk blocks := by
  induction blocks generalizing n with
  | nil => simp
  | cons b blocks ih =>
    have hswept := (sweep_swept hrules st b).bulk_le hrules
    have hrest := ih (n + (sweep rules st b).2)
    simp only [totalBulk, List.map_cons, List.sum_cons, List.foldl_cons, List.nil_append]
      at hswept hrest ⊢
    omega

/-- The run lemma: the applications of any number of sweeps are paid for by what they take away. -/
theorem sweeps_totalBulk (st : Setting) (n : Nat) (blocks : List Block) :
    (sweeps rules st n blocks).2.2 + totalBulk (sweeps rules st n blocks).1 ≤ totalBulk blocks := by
  induction n generalizing blocks with
  | zero => simp [sweeps]
  | succ n ih =>
    have hswept := swept_totalBulk hrules st blocks 0
    simp only [sweeps, beq_iff_eq]
    split
    · simp only
      omega
    · have hrest := ih ((blocks.map (sweep rules st)).map Prod.fst)
      generalize sweeps rules st n ((blocks.map (sweep rules st)).map Prod.fst) = r at hrest ⊢
      obtain ⟨left, count, applied⟩ := r
      simp only at hrest ⊢
      omega

/-- Sweeps that stop before their limit leave blocks at rest. -/
theorem sweeps_atRest (st : Setting) (n : Nat) (blocks : List Block)
    (h : (sweeps rules st n blocks).2.1 < n) :
    ∀ b ∈ (sweeps rules st n blocks).1, AtRest rules st b := by
  induction n generalizing blocks with
  | zero => omega
  | succ n ih =>
    simp only [sweeps, beq_iff_eq] at h ⊢
    split
    · rename_i hzero
      have hfired := ((foldl_add_eq_zero _ _).mp hzero).2
      simp only [List.mem_map, forall_exists_index, and_imp, forall_apply_eq_imp_iff₂] at hfired ⊢
      exact fun b hb => atRest_of_sweep hrules (hfired b hb)
    · rename_i hfired
      rw [if_neg hfired] at h
      exact ih _ (by simpa using h)

end Runs

/-- Optimising ends at a fixpoint. An application of a rule never adds instructions and takes away
an instruction or a multiplication; so a sweep, which stays where it is after an application, has no
endless chain of turns and goes on from wherever it has come to its result; a run applies rules at
most as often as there were instructions and multiplications; and if it stops before its limit of
sweeps, no rule applies at any position of any block that it leaves. -/
theorem rewriting_ends_at_fixpoint (rules : List Rule)
    (hrules : ∀ rule ∈ rules, rule ∈ defaultRules) (features : Features) (limit : Int)
    (c : Closure) :
    let r := runWith rules features limit c
    (∀ st b b', Rewrites st b b' →
      b'.ops.length ≤ b.ops.length ∧ bulk b'.ops < bulk b.ops) ∧
    (∀ st b, (WellFounded fun e d => Turn rules st b d e) ∧
      ∀ d, ReflTransGen (Turn rules st b) ⟨[], b.ops, 0⟩ d →
        ReflTransGen (Turn rules st b) d
          ⟨(sweep rules st b).1.ops, [], (sweep rules st b).2⟩) ∧
    r.2.applied ≤ totalBulk c.blocks ∧
    ((r.2.sweeps < if limit ≤ 0 then defaultLimit else limit.toNat) →
      ∀ b ∈ r.1.blocks, AtRest rules ⟨r.1.locations, features⟩ b) := by
  refine ⟨fun _ _ _ h => h.bulk_lt, fun st b => ⟨turn_wellFounded hrules st b, fun d h =>
    turns_sweep hrules st b h⟩, ?_, fun h => ?_⟩
  · exact (Nat.le_add_right _ _).trans (sweeps_totalBulk hrules ⟨c.locations, features⟩ _ c.blocks)
  · exact sweeps_atRest hrules ⟨c.locations, features⟩ _ c.blocks h

/-- A product by two that is moved on becomes a sum in place: both rules apply at the first
instruction, a second sweep finds nothing to do, and the block that is left is at rest. -/
theorem rewriting_moved_double_ends :
    let c := oneBlock ["x", "t", "d"] [doubleInto "t", moveOn "t" "d"] ["d"]
    let r := runWith defaultRules ⟨true, true, true⟩ 0 c
    r.2 = ⟨2, 2, 0⟩ ∧ totalBulk c.blocks = 3 ∧ r.2.applied ≤ totalBulk c.blocks ∧
      ∀ b ∈ r.1.blocks, AtRest defaultRules ⟨r.1.locations, ⟨true, true, true⟩⟩ b := by
  intro c r
  have hcount : r.2 = ⟨2, 2, 0⟩ := rfl
  have hbulk : totalBulk c.blocks = 3 := rfl
  have hends := rewriting_ends_at_fixpoint defaultRules (fun _ h => h) ⟨true, true, true⟩ 0 c
  -- With the run behind a name, no later step computes it again.
  have hr : runWith defaultRules ⟨true, true, true⟩ 0 c = r := rfl
  simp only [hr] at hends
  clear_value r
  obtain ⟨-, -, happlied, hrest⟩ := hends
  refine ⟨hcount, hbulk, happlied, hrest ?_⟩
  rw [hcount]
  decide

end Backend.Peephole
