-- The order of the rules. A sweep with one order of the rules leaves what a sweep with any other
-- order leaves, as long as no product by two is carried on through moves or both orders agree on
-- whether strength reduction or move elimination goes first.
import Backend.Proofs.Peephole.Overlap
import Backend.Proofs.Peephole.Run

namespace Backend.Peephole

/-! ## Orders of the rules -/

/-- Strength reduction is tried before move elimination. -/
def ReducesFirst (rules : List Rule) : Prop :=
  ∃ before after, rules = before ++ reduceMul :: after ∧ eliminateMove ∉ before

section Orders

variable {rules : List Rule} {st : Setting} {b : Block} {ops ops' : List Instr}

/-- If all rules that apply give the same, that is what is left. -/
theorem applyFirst_of_forall {rule : Rule} (hrule : rule ∈ rules) (h : rule st b ops = some ops')
    (honly : ∀ r ∈ rules, r st b ops = none ∨ r st b ops = some ops') :
    applyFirst rules st b ops = some ops' := by
  cases hfirst : applyFirst rules st b ops with
  | none =>
    have hnone := List.findSome?_eq_none_iff.mp hfirst rule hrule
    rw [h] at hnone
    cases hnone
  | some other =>
    obtain ⟨r, hr, happly⟩ := List.exists_of_findSome?_eq_some hfirst
    rcases honly r hr with hn | hs
    · rw [hn] at happly
      cases happly
    · exact happly.symm.trans hs

/-- The rule at the place where a list is split is applied if no rule before it is. -/
theorem applyFirst_of_split {rule : Rule} {before after : List Rule}
    (hsplit : rules = before ++ rule :: after) (h : rule st b ops = some ops')
    (hbefore : ∀ r ∈ before, r = rule ∨ r st b ops = none) :
    applyFirst rules st b ops = some ops' := by
  have hfirst : applyFirst (before ++ [rule]) st b ops = some ops' := by
    refine applyFirst_of_forall (by simp) h fun r hr => ?_
    rcases List.mem_append.mp hr with hr | hr
    · rcases hbefore r hr with rfl | hn
      · exact .inr h
      · exact .inl hn
    · obtain rfl := List.mem_singleton.mp hr
      exact .inr h
  unfold applyFirst at hfirst ⊢
  rw [hsplit, ← List.singleton_append, ← List.append_assoc, List.findSome?_append, hfirst]
  rfl

variable (hperm : rules.Perm defaultRules)

include hperm

/-- The rules do not apply in any order if none of them applies. -/
theorem applyFirst_eq_none : applyFirst rules st b ops = none ↔
    ∀ rule ∈ defaultRules, rule st b ops = none := by
  unfold applyFirst
  rw [List.findSome?_eq_none_iff]
  exact forall_congr' fun rule => by rw [hperm.mem_iff]

/-- A rule that applies alone is applied. -/
theorem applyFirst_of_alone {rule : Rule} (hrule : rule ∈ defaultRules)
    (h : rule st b ops = some ops')
    (hother : ∀ r ∈ defaultRules, r = rule ∨ r st b ops = none) :
    applyFirst rules st b ops = some ops' := by
  refine applyFirst_of_forall (hperm.mem_iff.mpr hrule) h fun r hr => ?_
  rcases hother r (hperm.mem_iff.mp hr) with rfl | hn
  · exact .inr h
  · exact .inl hn

/-- Of strength reduction and move elimination, where no fusion applies, the one that goes first is
applied. -/
theorem applyFirst_of_reducesFirst (hfirst : ReducesFirst rules) (hlea : fuseLea st b ops = none)
    (hmulAdd : fuseMulAdd st b ops = none) (h : reduceMul st b ops = some ops') :
    applyFirst rules st b ops = some ops' := by
  obtain ⟨before, after, hsplit, hno⟩ := hfirst
  refine applyFirst_of_split hsplit h fun r hr => ?_
  have hmem : r ∈ defaultRules := hperm.mem_iff.mp (by simp [hsplit, hr])
  rcases mem_defaultRules.mp hmem with rfl | rfl | rfl | rfl
  · exact .inr hlea
  · exact .inr hmulAdd
  · exact .inl rfl
  · exact absurd hr hno

theorem applyFirst_of_not_reducesFirst (hfirst : ¬ ReducesFirst rules)
    (hlea : fuseLea st b ops = none) (hmulAdd : fuseMulAdd st b ops = none)
    (h : eliminateMove st b ops = some ops') : applyFirst rules st b ops = some ops' := by
  have helim : eliminateMove ∈ rules := hperm.mem_iff.mpr (by simp [defaultRules])
  obtain ⟨before, after, hsplit, hno⟩ := List.eq_append_cons_of_mem helim
  refine applyFirst_of_split hsplit h fun r hr => ?_
  have hmem : r ∈ defaultRules := hperm.mem_iff.mp (by simp [hsplit, hr])
  rcases mem_defaultRules.mp hmem with rfl | rfl | rfl | rfl
  · exact .inr hlea
  · exact .inr hmulAdd
  · -- Strength reduction would then be the first of the two.
    obtain ⟨earlier, later, rfl, -⟩ := List.eq_append_cons_of_mem hr
    refine absurd ⟨earlier, later ++ eliminateMove :: after, by simp [hsplit], ?_⟩ hfirst
    exact fun hmem => hno (List.mem_append_left _ hmem)
  · exact .inl rfl

end Orders

/-! ## What a rule leaves -/

/-- Twice the instructions and the multiplications once more. -/
def weight (ops : List Instr) : Nat := 2 * ops.length + mulCount ops

theorem weight_cons (i : Instr) (ops : List Instr) :
    weight (i :: ops) = weight ops + 2 + if i.op = .mul then 1 else 0 := by
  simp [weight, mulCount, List.countP_cons]
  omega

theorem weight_append (ops ops' : List Instr) :
    weight (ops ++ ops') = weight ops + weight ops' := by
  simp [weight, mulCount]
  omega

/-- What a rule puts in the place of the first instructions: no move, less weight, and nothing that
carries a product by two on if there was none. -/
structure Smaller (old : List Instr) (new : Instr) (rest : List Instr) : Prop where
  weight : weight [new] < weight old
  move : new.op ≠ .move
  carries : carries new rest = true → carriesDouble (old ++ rest) = true

theorem carries_of_not_mul {i : Instr} (h : i.op ≠ .mul) (rest : List Instr) :
    carries i rest = false := by
  cases rest <;> simp [carries, doubles, h]

/-- A rule that leaves neither a move nor a multiplication. -/
theorem smaller_of_ops {old rest : List Instr} {new : Instr} (hmove : new.op ≠ .move)
    (hmul : new.op ≠ .mul) (hold : 2 < weight old) : Smaller old new rest := by
  refine ⟨?_, hmove, fun h => ?_⟩
  · simpa [weight, mulCount, hmul] using hold
  · rw [carries_of_not_mul hmul] at h
    cases h

section Windows

variable {st : Setting} {b : Block} {ops ops' rest : List Instr} {mv op new : Instr}

/-- A computation whose temporary is moved on. -/
theorem smaller_of_retarget (h : retarget? st b op mv = some new) : Smaller [op, mv] new rest := by
  obtain ⟨hop, hmv, -, rfl, t, ht, hfirst, -⟩ := retarget?_eq_some h
  refine ⟨?_, ?_, fun hc => ?_⟩
  · simp only [weight_cons]
    omega
  · intro hm
    have hno := (op_of_computes hop).2.2
    simp_all
  · cases rest with
    | nil => simp [carries] at hc
    | cons mv' rest =>
      simp only [carries, Bool.and_eq_true] at hc
      have hmoves : movesFrom op.output mv = true := by
        simp [movesFrom, hmv, (temp?_eq_some.mp ht).1, hfirst]
      have hdouble : doubles op = true := hc.1.1
      have hnext : movesFrom mv.output mv' = true := hc.1.2
      simp [carriesDouble, carries, hdouble, hmoves, movedNext, hnext]

/-- A computation that reads what was moved into a temporary. -/
theorem smaller_of_substitute (h : substitute? st b mv op = some new) :
    Smaller [mv, op] new rest := by
  obtain ⟨hmv, hop, hdir, t, ht, -, hnew⟩ := substitute?_eq_some h
  have hlit : intLiteral? mv.first = none := by
    apply Option.eq_none_iff_forall_ne_some.mpr
    intro d hd
    rw [not_isDirect_of_literal hd] at hdir
    cases hdir
  have hopEq : new.op = op.op := by
    rcases hnew with ⟨-, rfl⟩ | ⟨-, rfl⟩ <;> rfl
  have hout : new.output = op.output := by
    rcases hnew with ⟨-, rfl⟩ | ⟨-, rfl⟩ <;> rfl
  have hdouble : doubles new = true → doubles op = true := by
    unfold doubles
    rcases hnew with ⟨-, rfl⟩ | ⟨-, rfl⟩ <;> simp [hlit] <;> tauto
  refine ⟨?_, ?_, fun hc => ?_⟩
  · simp only [weight_cons, hopEq]
    omega
  · intro hm
    have hno := (op_of_computes hop).2.2
    rw [← hopEq, hm] at hno
    cases hno
  · have hold : carries op rest = true := by
      cases rest with
      | nil => simp [carries] at hc
      | cons mv' rest =>
        simp only [carries, Bool.and_eq_true, hout] at hc ⊢
        exact ⟨⟨hdouble hc.1.1, hc.1.2⟩, hc.2⟩
    simp [carriesDouble, hold]

/-- The step lemma: every rule replaces the first instructions by one that weighs less. -/
theorem rule_smaller {rule : Rule} (hrule : rule ∈ defaultRules) (h : rule st b ops = some ops') :
    ∃ old new rest, ops = old ++ rest ∧ ops' = new :: rest ∧ Smaller old new rest := by
  cases application_of_rule hrule h with
  | @lea ops f hf =>
    obtain ⟨mul, add, between, t, cur, fu⟩ := leaFusion?_eq_some hf
    refine ⟨mul :: (between ++ [add]), f.instr, f.rest, by simp [fu.ops], rfl,
      smaller_of_ops ?_ ?_ ?_⟩
    · simp [LeaFusion.instr, Instr.make]
    · simp [LeaFusion.instr, Instr.make]
    · simp only [weight_cons, weight_append]
      omega
  | @mulAdd mul next new rest hnew =>
    obtain ⟨t, m⟩ := mulAdd?_eq_some hnew
    obtain ⟨op, addend, huse, -, rfl⟩ := m.fused
    have hfused := (productUse?_eq_some huse).2.1
    refine ⟨[mul, next], _, rest, rfl, rfl, smaller_of_ops ?_ ?_ ?_⟩
    · rintro rfl
      cases hfused
    · rintro rfl
      cases hfused
    · simp only [weight_cons]
      omega
  | double found =>
    cases found with
    | second op two =>
      exact ⟨[_], _, _, rfl, rfl, smaller_of_ops (by simp [doubled]) (by simp [doubled])
        (by simp [weight, mulCount, op])⟩
    | first op two =>
      exact ⟨[_], _, _, rfl, rfl, smaller_of_ops (by simp [doubled]) (by simp [doubled])
        (by simp [weight, mulCount, op])⟩
    | moved op move two temp factors =>
      exact ⟨[_, _], _, _, rfl, rfl, smaller_of_ops (by simp [doubled]) (by simp [doubled])
        (by simp only [weight_cons]; omega)⟩
  | @retarget op mv new rest hnew => exact ⟨[op, mv], new, rest, rfl, rfl, smaller_of_retarget hnew⟩
  | @substitute mv op new rest hnew =>
    exact ⟨[mv, op], new, rest, rfl, rfl, smaller_of_substitute hnew⟩

end Windows

theorem carriesDouble_of_append {ops ops' : List Instr} (h : carriesDouble (ops ++ ops') = false) :
    carriesDouble ops' = false := by
  induction ops with
  | nil => exact h
  | cons i ops ih =>
    simp only [List.cons_append, carriesDouble, Bool.or_eq_false_iff] at h
    exact ih h.2

/-- Nothing before the replaced instructions carries a product by two on if nothing did. -/
theorem carriesDouble_replaced (done : List Instr) {old rest : List Instr} {new : Instr}
    (h : Smaller old new rest) (hc : carriesDouble (done ++ (old ++ rest)) = false) :
    carriesDouble (done ++ new :: rest) = false := by
  have hnew : ∀ o tail, movedNext o (new :: tail) = false := by
    intro o tail
    simp [movedNext, movesFrom, h.move]
  induction done with
  | nil =>
    simp only [List.nil_append, carriesDouble, Bool.or_eq_false_iff]
    refine ⟨?_, carriesDouble_of_append hc⟩
    by_contra hcarry
    rw [Bool.not_eq_false] at hcarry
    exact absurd (h.carries hcarry) (by simpa using hc)
  | cons i done ih =>
    simp only [List.cons_append, carriesDouble, Bool.or_eq_false_iff] at hc ⊢
    refine ⟨?_, ih hc.2⟩
    have hold := hc.1
    cases done with
    | nil => simp [carries, movesFrom, h.move]
    | cons mv done =>
      cases done with
      | nil =>
        simp only [List.cons_append, List.nil_append, carries, hnew, Bool.or_false] at hold ⊢
        by_contra hcarry
        simp_all
      | cons next done => exact hold

/-! ## Sweeps as traces -/

/-- What a sweep does from a place on: the instructions it has passed, those to come, all that it
leaves, and how often a rule was applied. -/
inductive Swept (rules : List Rule) (st : Setting) (b : Block) :
    List Instr → List Instr → List Instr → Nat → Prop
  | stop {done : List Instr} : Swept rules st b done [] done 0
  | apply {done rest ops out : List Instr} {i : Instr} {n : Nat}
      (rule : applyFirst rules st { b with ops := done ++ i :: rest } (i :: rest) = some ops)
      (next : Swept rules st b done ops out n) : Swept rules st b done (i :: rest) out (n + 1)
  | pass {done rest out : List Instr} {i : Instr} {n : Nat}
      (none : applyFirst rules st { b with ops := done ++ i :: rest } (i :: rest) = none)
      (next : Swept rules st b (done ++ [i]) rest out n) : Swept rules st b done (i :: rest) out n

/-- A sweep in which a rule was applied comes to these instructions at the same place. -/
def ComesTo (rules : List Rule) (st : Setting) (b : Block) (done left out : List Instr)
    (n : Nat) : Prop :=
  n ≠ 0 ∧ ∃ m, Swept rules st b done left out m

section Traces

variable {rules : List Rule} {st : Setting} {b : Block}

theorem Swept.after_rule {done rest ops out : List Instr} {i : Instr} {n : Nat}
    (h : Swept rules st b done (i :: rest) out n)
    (hrule : applyFirst rules st { b with ops := done ++ i :: rest } (i :: rest) = some ops) :
    ComesTo rules st b done ops out n := by
  cases h with
  | apply rule next =>
    rw [rule] at hrule
    obtain rfl := Option.some.inj hrule
    exact ⟨by omega, _, next⟩
  | pass none next =>
    rw [none] at hrule
    cases hrule

theorem Swept.after_none {done rest out : List Instr} {i : Instr} {n : Nat}
    (h : Swept rules st b done (i :: rest) out n)
    (hnone : applyFirst rules st { b with ops := done ++ i :: rest } (i :: rest) = none) :
    Swept rules st b (done ++ [i]) rest out n := by
  cases h with
  | apply rule next =>
    rw [rule] at hnone
    cases hnone
  | pass none next => exact next

theorem rule_weight {rule : Rule} (hrule : rule ∈ defaultRules) {ops ops' : List Instr}
    (h : rule st b ops = some ops') : weight ops' < weight ops := by
  obtain ⟨old, new, rest, rfl, rfl, hsmall⟩ := rule_smaller hrule h
  have hw := hsmall.weight
  rw [← List.singleton_append, weight_append, weight_append]
  omega

/-- The steps that a sweep is given are enough for it to reach the end of the block. -/
theorem swept_sweepFrom (hrules : ∀ rule ∈ rules, rule ∈ defaultRules) (st : Setting) (b : Block)
    (n : Nat) (done ops : List Instr) (fired : Nat) (h : weight ops < n) :
    ∃ k, (sweepFrom rules st b n done ops fired).2 = fired + k ∧
      Swept rules st b done ops (sweepFrom rules st b n done ops fired).1 k := by
  fun_induction sweepFrom rules st b n done ops fired with
  | case1 done ops fired => omega
  | case2 n done fired => exact ⟨0, rfl, .stop⟩
  | case3 n done i rest fired ops' hfirst ih =>
    obtain ⟨rule, hmem, happly⟩ := List.exists_of_findSome?_eq_some hfirst
    have hlt := rule_weight (hrules rule hmem) happly
    obtain ⟨k, hk, htrace⟩ := ih (by omega)
    exact ⟨k + 1, by omega, .apply hfirst htrace⟩
  | case4 n done i rest fired hnone ih =>
    rw [weight_cons] at h
    obtain ⟨k, hk, htrace⟩ := ih (by omega)
    exact ⟨k, hk, .pass hnone htrace⟩

/-- A sweep reaches the end of the block. -/
theorem sweep_swept (hrules : ∀ rule ∈ rules, rule ∈ defaultRules) (st : Setting) (b : Block) :
    Swept rules st b [] b.ops (sweep rules st b).1.ops (sweep rules st b).2 := by
  have hbound : weight b.ops < sweepBound b.ops := by
    unfold weight sweepBound
    omega
  obtain ⟨k, hk, htrace⟩ := swept_sweepFrom hrules st b (sweepBound b.ops) [] b.ops 0 hbound
  rw [Nat.zero_add] at hk
  subst hk
  exact htrace

/-- A sweep over a block in which no product by two is carried on leaves one of the same kind. -/
theorem Swept.carriesDouble_left (hrules : ∀ rule ∈ rules, rule ∈ defaultRules)
    {done ops out : List Instr} {n : Nat} (h : Swept rules st b done ops out n)
    (hc : carriesDouble (done ++ ops) = false) : carriesDouble out = false := by
  induction h with
  | stop => simpa using hc
  | apply rule next ih =>
    obtain ⟨r, hmem, happly⟩ := List.exists_of_findSome?_eq_some rule
    obtain ⟨old, new, rest, hops, rfl, hsmall⟩ := rule_smaller (hrules r hmem) happly
    rw [hops] at hc
    exact ih (carriesDouble_replaced _ hsmall hc)
  | pass none next ih => exact ih (by simpa using hc)

end Traces

/-! ## Sweeps in two orders -/

theorem foldl_add_eq_zero {α : Type} (swept : List (α × Nat)) (n : Nat) :
    swept.foldl (fun n b => n + b.2) n = 0 ↔ n = 0 ∧ ∀ b ∈ swept, b.2 = 0 := by
  induction swept generalizing n with
  | nil => simp
  | cons b rest ih => simp [ih, and_assoc]

/-- Two orders of the rules leave the same of these instructions: the target has no address
computations, or both try strength reduction and move elimination in the same order, or no product
by two is carried on. -/
def Agreed (rules rules' : List Rule) (features : Features) (ops : List Instr) : Prop :=
  features.lea = false ∨ (ReducesFirst rules ↔ ReducesFirst rules') ∨ carriesDouble ops = false

section Orders

variable {rules rules' : List Rule} {st : Setting} {b : Block} {done rest out out' : List Instr}
  {i : Instr} {n n' : Nat}

theorem Agreed.replaced {ops ops' : List Instr}
    (h : Agreed rules rules' st.features (done ++ ops)) {rule : Rule} (hrule : rule ∈ defaultRules)
    (happly : rule st b ops = some ops') : Agreed rules rules' st.features (done ++ ops') := by
  obtain ⟨old, new, rest, rfl, rfl, hsmall⟩ := rule_smaller hrule happly
  exact h.imp_right fun h => h.imp_right fun hc => carriesDouble_replaced done hsmall hc

theorem forall_defaultRules {P : Rule → Prop} : (∀ rule ∈ defaultRules, P rule) ↔
    P fuseLea ∧ P fuseMulAdd ∧ P reduceMul ∧ P eliminateMove := by
  simp [defaultRules]

variable (hperm : rules.Perm defaultRules)

include hperm

/-- Where an address fusion applies, a sweep in any order comes to what the fusion leaves: at most
the elimination of the move that it follows goes before it. -/
theorem Swept.after_lea {ops : List Instr} {f : LeaFusion} (h : Swept rules st b done ops out n)
    (hlea : leaFusion? st { b with ops := done ++ ops } ops = some f) :
    ComesTo rules st b done (f.instr :: f.rest) out n := by
  induction h with
  | stop => cases hlea
  | pass none next ih =>
    have hnone := (applyFirst_eq_none hperm).mp none fuseLea (by simp [defaultRules])
    simp [fuseLea, hlea] at hnone
  | apply rule next ih =>
    refine ⟨by omega, ?_⟩
    obtain ⟨r, hmem, happly⟩ := List.exists_of_findSome?_eq_some rule
    rcases mem_defaultRules.mp (hperm.mem_iff.mp hmem) with rfl | rfl | rfl | rfl
    · simp only [fuseLea, hlea, Option.map_some, Option.some.injEq] at happly
      subst happly
      exact ⟨_, next⟩
    · rw [not_mulAdd_of_lea hlea] at happly
      cases happly
    · rw [not_reduce_of_fusible (by rw [isFusible, hlea]; rfl) (front_of_lea hlea).1] at happly
      cases happly
    · exact (ih (lea_after_eliminate hlea happly)).2

/-- Where no fusion applies and both strength reduction and move elimination do, every order comes
to what the elimination leaves or to what follows it, unless a product by two is carried on. -/
theorem Swept.after_eliminate {reduced eliminated : List Instr}
    (h : Swept rules st b done (i :: rest) out n)
    (hlea : fuseLea st { b with ops := done ++ i :: rest } (i :: rest) = none)
    (hmulAdd : fuseMulAdd st { b with ops := done ++ i :: rest } (i :: rest) = none)
    (hreduce : reduceMul st { b with ops := done ++ i :: rest } (i :: rest) = some reduced)
    (helim : eliminateMove st { b with ops := done ++ i :: rest } (i :: rest) = some eliminated)
    (hcarry : st.features.lea = false ∨ carriesDouble (done ++ i :: rest) = false) :
    ComesTo rules st b done eliminated out n := by
  by_cases hfirst : ReducesFirst rules
  · have hop : i.op = .mul := mul_of_reduce_eliminate hreduce helim
    have hcarries : st.features.lea = false ∨ carries i rest = false := by
      refine hcarry.imp_right fun hc => ?_
      have htail := carriesDouble_of_append hc
      simp only [carriesDouble, Bool.or_eq_false_iff] at htail
      exact htail.1
    obtain ⟨⟨sum, rfl, hsum⟩, joined, helim', hreduce', hfusible⟩ :=
      reduce_eliminate_join hop hreduce helim hcarries
    obtain ⟨hn, m, hreduced⟩ :=
      h.after_rule (applyFirst_of_reducesFirst hperm hfirst hlea hmulAdd hreduce)
    -- Of the sum and the move only the elimination of the move is left to do.
    have hjoined : applyFirst rules st { b with ops := done ++ sum :: rest } (sum :: rest) =
        some joined := by
      apply applyFirst_of_alone hperm (by simp [defaultRules]) helim'
      rw [forall_defaultRules]
      exact ⟨.inr (not_fuseLea_of_not_mul (by simp [hsum])),
        .inr (not_fuseMulAdd_of_not_mul (by simp [hsum])), .inr (by simp [reduceMul, hsum]),
        .inl rfl⟩
    obtain ⟨-, k, hend⟩ := hreduced.after_rule hjoined
    -- From where the move was eliminated the reduction leads to the same.
    refine ⟨hn, k + 1, ?_⟩
    obtain ⟨mv, after, t, rfl, -, rfl⟩ := retargets_of_eliminate hop helim
    simp only [isFusible, Bool.or_eq_false_iff, Option.isSome_eq_false_iff,
      Option.isNone_iff_eq_none] at hfusible
    refine .apply (applyFirst_of_reducesFirst hperm hfirst ?_ hfusible.2 hreduce') hend
    simp [fuseLea, hfusible.1]
  · exact h.after_rule (applyFirst_of_not_reducesFirst hperm hfirst hlea hmulAdd helim)

variable (hperm' : rules'.Perm defaultRules)

include hperm'

/-- Sweeps in two orders that agree come to what one of the rules leaves, if any applies. -/
theorem Swept.meet (hagree : Agreed rules rules' st.features (done ++ i :: rest))
    (h : Swept rules st b done (i :: rest) out n)
    (h' : Swept rules' st b done (i :: rest) out' n') :
    (∀ rule ∈ defaultRules, rule st { b with ops := done ++ i :: rest } (i :: rest) = none) ∨
      ∃ rule ∈ defaultRules, ∃ left,
        rule st { b with ops := done ++ i :: rest } (i :: rest) = some left ∧
          ComesTo rules st b done left out n ∧ ComesTo rules' st b done left out' n' := by
  have alone : ∀ rule ∈ defaultRules, ∀ left,
      rule st { b with ops := done ++ i :: rest } (i :: rest) = some left →
      (∀ r ∈ defaultRules, r = rule ∨
        r st { b with ops := done ++ i :: rest } (i :: rest) = none) →
      ComesTo rules st b done left out n ∧ ComesTo rules' st b done left out' n' :=
    fun rule hrule left happly hother =>
      ⟨h.after_rule (applyFirst_of_alone hperm hrule happly hother),
        h'.after_rule (applyFirst_of_alone hperm' hrule happly hother)⟩
  have hmulAddMem : fuseMulAdd ∈ defaultRules := by simp [defaultRules]
  have hreduceMem : reduceMul ∈ defaultRules := by simp [defaultRules]
  have helimMem : eliminateMove ∈ defaultRules := by simp [defaultRules]
  cases hlea : leaFusion? st { b with ops := done ++ i :: rest } (i :: rest) with
  | some f =>
    exact .inr ⟨fuseLea, by simp [defaultRules], _, by simp [fuseLea, hlea],
      h.after_lea hperm hlea, h'.after_lea hperm' hlea⟩
  | none =>
    have hfuse : fuseLea st { b with ops := done ++ i :: rest } (i :: rest) = none := by
      simp [fuseLea, hlea]
    cases hmulAdd : fuseMulAdd st { b with ops := done ++ i :: rest } (i :: rest) with
    | some left =>
      have hfusible : isFusible st { b with ops := done ++ i :: rest } (i :: rest) = true := by
        simp [isFusible, hmulAdd]
      exact .inr ⟨fuseMulAdd, hmulAddMem, left, hmulAdd, alone _ hmulAddMem left hmulAdd
        (forall_defaultRules.mpr ⟨.inr hfuse, .inl rfl,
          .inr (not_reduce_of_fusible hfusible (front_of_mulAdd hmulAdd).1),
          .inr (not_eliminate_of_mulAdd hmulAdd)⟩)⟩
    | none =>
      cases hreduce : reduceMul st { b with ops := done ++ i :: rest } (i :: rest) with
      | none =>
        cases helim : eliminateMove st { b with ops := done ++ i :: rest } (i :: rest) with
        | none => exact .inl (forall_defaultRules.mpr ⟨hfuse, hmulAdd, hreduce, helim⟩)
        | some left =>
          exact .inr ⟨eliminateMove, helimMem, left, helim, alone _ helimMem left helim
            (forall_defaultRules.mpr ⟨.inr hfuse, .inr hmulAdd, .inr hreduce, .inl rfl⟩)⟩
      | some reduced =>
        cases helim : eliminateMove st { b with ops := done ++ i :: rest } (i :: rest) with
        | none =>
          exact .inr ⟨reduceMul, hreduceMem, reduced, hreduce, alone _ hreduceMem reduced hreduce
            (forall_defaultRules.mpr ⟨.inr hfuse, .inr hmulAdd, .inl rfl, .inr helim⟩)⟩
        | some eliminated =>
          have carried (hcarry : st.features.lea = false ∨
              carriesDouble (done ++ i :: rest) = false) :
              ComesTo rules st b done eliminated out n ∧
                ComesTo rules' st b done eliminated out' n' :=
            ⟨h.after_eliminate hperm hfuse hmulAdd hreduce helim hcarry,
              h'.after_eliminate hperm' hfuse hmulAdd hreduce helim hcarry⟩
          rcases hagree with hoff | hiff | hcarry
          · exact .inr ⟨eliminateMove, helimMem, eliminated, helim, carried (.inl hoff)⟩
          · by_cases hfirst : ReducesFirst rules
            · exact .inr ⟨reduceMul, hreduceMem, reduced, hreduce,
                h.after_rule (applyFirst_of_reducesFirst hperm hfirst hfuse hmulAdd hreduce),
                h'.after_rule
                  (applyFirst_of_reducesFirst hperm' (hiff.mp hfirst) hfuse hmulAdd hreduce)⟩
            · exact .inr ⟨eliminateMove, helimMem, eliminated, helim,
                h.after_rule (applyFirst_of_not_reducesFirst hperm hfirst hfuse hmulAdd helim),
                h'.after_rule (applyFirst_of_not_reducesFirst hperm'
                  (fun hfirst' => hfirst (hiff.mpr hfirst')) hfuse hmulAdd helim)⟩
          · exact .inr ⟨eliminateMove, helimMem, eliminated, helim, carried (.inr hcarry)⟩

/-- Sweeps in two orders that agree leave the same instructions, and a rule is applied in one of
them if one is in the other. -/
theorem Swept.unique {ops : List Instr} (hagree : Agreed rules rules' st.features (done ++ ops))
    (h : Swept rules st b done ops out n) (h' : Swept rules' st b done ops out' n') :
    out = out' ∧ (n = 0 ↔ n' = 0) := by
  -- By induction on the weight of the instructions to come.
  induction hw : weight ops using Nat.strong_induction_on generalizing done ops out out' n n' with
  | _ w ih =>
    subst hw
    cases ops with
    | nil =>
      cases h
      cases h'
      exact ⟨rfl, Iff.rfl⟩
    | cons i rest =>
      rcases h.meet hperm hperm' hagree h' with
        hnone | ⟨rule, hrule, left, happly, ⟨hn, m, hleft⟩, hn', m', hleft'⟩
      · refine ih (weight rest) ?_ ?_ (h.after_none ((applyFirst_eq_none hperm).mpr hnone))
          (h'.after_none ((applyFirst_eq_none hperm').mpr hnone)) rfl
        · rw [weight_cons]
          omega
        · simpa using hagree
      · have hsame := ih _ (rule_weight hrule happly)
          (hagree.replaced hrule happly) hleft hleft' rfl
        exact ⟨hsame.1, by simp [hn, hn']⟩

/-- A sweep over a block in two orders that agree. -/
theorem sweep_eq (hagree : Agreed rules rules' st.features b.ops) :
    (sweep rules st b).1 = (sweep rules' st b).1 ∧
      ((sweep rules st b).2 = 0 ↔ (sweep rules' st b).2 = 0) ∧
      Agreed rules rules' st.features (sweep rules st b).1.ops := by
  have hrules : ∀ rule ∈ rules, rule ∈ defaultRules := fun rule => hperm.mem_iff.mp
  have hrules' : ∀ rule ∈ rules', rule ∈ defaultRules := fun rule => hperm'.mem_iff.mp
  have htrace := sweep_swept hrules st b
  obtain ⟨hops, hfired⟩ := htrace.unique hperm hperm' hagree (sweep_swept hrules' st b)
  refine ⟨congrArg (fun ops => { b with ops := ops }) hops, hfired, ?_⟩
  exact hagree.imp_right fun h => h.imp_right fun hc => htrace.carriesDouble_left hrules hc

/-- The run lemma: any number of sweeps in two orders that agree leave the same blocks. -/
theorem sweeps_eq (limit : Nat) (blocks : List Block)
    (hagree : ∀ b ∈ blocks, Agreed rules rules' st.features b.ops) :
    (sweeps rules st limit blocks).1 = (sweeps rules' st limit blocks).1 := by
  induction limit generalizing blocks with
  | zero => rfl
  | succ limit ih =>
    have hswept : (blocks.map (sweep rules st)).map Prod.fst =
        (blocks.map (sweep rules' st)).map Prod.fst := by
      simp only [List.map_map]
      exact List.map_congr_left fun b hb => (sweep_eq hperm hperm' (hagree b hb)).1
    have hfired : (blocks.map (sweep rules st)).foldl (fun n b => n + b.2) 0 = 0 ↔
        (blocks.map (sweep rules' st)).foldl (fun n b => n + b.2) 0 = 0 := by
      simp only [foldl_add_eq_zero, true_and, List.forall_mem_map]
      exact forall₂_congr fun b hb => (sweep_eq hperm hperm' (hagree b hb)).2.1
    have hnext : ∀ b ∈ (blocks.map (sweep rules st)).map Prod.fst,
        Agreed rules rules' st.features b.ops := by
      simp only [List.mem_map, forall_exists_index, and_imp, forall_apply_eq_imp_iff₂]
      exact fun b hb => (sweep_eq hperm hperm' (hagree b hb)).2.2
    have hrest := ih _ hnext
    simp only [sweeps, beq_iff_eq]
    by_cases hzero : (blocks.map (sweep rules st)).foldl (fun n b => n + b.2) 0 = 0
    · rw [if_pos hzero, if_pos (hfired.mp hzero)]
      exact hswept
    · rw [if_neg hzero, if_neg (fun h => hzero (hfired.mpr h))]
      rw [hswept] at hrest
      simp only [hswept]
      exact hrest

end Orders

/-- The order of the rules does not change what optimising a closure leaves, if the orders agree on
every block. -/
theorem rule_order_keeps_closure (rules rules' : List Rule) (hperm : rules.Perm defaultRules)
    (hperm' : rules'.Perm defaultRules) (features : Features) (limit : Int) (c : Closure)
    (hagree : ∀ b ∈ c.blocks, Agreed rules rules' features b.ops) :
    (runWith rules features limit c).1 = (runWith rules' features limit c).1 := by
  have hblocks : ∀ n, (sweeps rules ⟨c.locations, features⟩ n c.blocks).1 =
      (sweeps rules' ⟨c.locations, features⟩ n c.blocks).1 := fun n =>
    sweeps_eq hperm hperm' n c.blocks hagree
  unfold runWith
  simp only [hblocks]

/-! ## Two orders on a product by two -/

def doubleInto (ident : String) : Instr :=
  .make .mul (varOf "x" .i64) (some (.imm (.int .w64 2))) (varOf ident .i64)

def moveOn (src dst : String) : Instr := .make .move (varOf src .i64) none (varOf dst .i64)

def addEight (ident : String) : Instr :=
  .make .add (varOf ident .i64) (some (.imm (.int .w64 8))) (varOf "d" .i64)

def sumInto (ident : String) : Instr :=
  .make .add (varOf "x" .i64) (varOf "x" .i64) (varOf ident .i64)

/-- A product that is moved once becomes the same sum in the opposite order of the rules. -/
theorem rule_order_keeps_moved_double :
    let c := oneBlock ["x", "t", "d"] [doubleInto "t", moveOn "t" "d"] ["d"]
    defaultRules.reverse.Perm defaultRules ∧
      (runWith defaultRules.reverse ⟨true, true, true⟩ 0 c).1 = (run ⟨true, true, true⟩ 0 c).1 ∧
      (run ⟨true, true, true⟩ 0 c).1.blocks.map Block.ops = [[sumInto "d"]] := by
  refine ⟨defaultRules.reverse_perm, ?_, rfl⟩
  refine rule_order_keeps_closure _ _ defaultRules.reverse_perm (.refl _) _ _ _ fun b hb => ?_
  obtain rfl := List.mem_singleton.mp hb
  exact .inr (.inr rfl)

/-- A product that is moved twice before a constant is added: strength reduction takes it before the
moves are out of the way, and if moves go first one address computation is left. -/
theorem rule_order_decides_twice_moved_double :
    let c := oneBlock ["x", "t", "a", "b", "d"]
      [doubleInto "t", moveOn "t" "a", moveOn "a" "b", addEight "b"] ["d"]
    let movesFirst := [fuseLea, fuseMulAdd, eliminateMove, reduceMul]
    movesFirst.Perm defaultRules ∧
      (run ⟨true, true, true⟩ 0 c).1.blocks.map Block.ops = [[sumInto "b", addEight "b"]] ∧
      (runWith movesFirst ⟨true, true, true⟩ 0 c).1.blocks.map Block.ops =
        [[.make .lea (some (.indirect none (varOf "x" .i64) 2 8 .i64)) none (varOf "d" .i64)]] := by
  refine ⟨?_, rfl, rfl⟩
  exact ((List.Perm.swap _ _ []).cons _).cons _

end Backend.Peephole
