-- The laws of greedy ordering. A node comes out as soon as all nodes before it are out and it is
-- the least such node. A graph without cycles is ordered to the end, and the nodes of a cycle never
-- come out, so that a graph with a cycle is an error.
import Backend.Schedule.Graph
import Mathlib.Algebra.BigOperators.Group.Finset.Basic
import Mathlib.Algebra.Order.BigOperators.Group.Finset
import Mathlib.Data.Fintype.EquivFin
import Mathlib.Data.List.Perm.Subperm
import Mathlib.Logic.Relation

namespace Backend.Schedule.Graph

/-! ## Well-formed graphs -/

/-- The nodes that come after a node, as often as there are edges to them. -/
def after (g : Graph) (i : Nat) : List Nat := g.succs.getD i []

/-- Each node has its list of successors and the number of edges that lead to it. -/
structure WellFormed (g : Graph) : Prop where
  length : g.preds.length = g.size
  below : ∀ i < g.size, ∀ j ∈ g.after i, j < g.size
  counted : ∀ j < g.size,
    g.preds.getD j 0 = ((∑ i ∈ Finset.range g.size, (g.after i).count j : Nat) : Int)

/-- An edge between two nodes. -/
def Edge (g : Graph) (i j : Nat) : Prop := i < g.size ∧ j ∈ g.after i

/-- The node is not out yet, and every node before it is. -/
def Available (g : Graph) (done : List Nat) (j : Nat) : Prop :=
  j < g.size ∧ j ∉ done ∧ ∀ i, g.Edge i j → i ∈ done

/-- An order that takes the least available node at each place and stops when there is none. -/
inductive Greedy (g : Graph) : List Nat → List Nat → Prop where
  | stop {done : List Nat} (none : ∀ j, ¬ g.Available done j) : Greedy g done []
  | step {done rest : List Nat} (next : Nat) (available : g.Available done next)
      (least : ∀ j, g.Available done j → j ≠ next → g.before next j = true)
      (others : Greedy g (next :: done) rest) : Greedy g done (next :: rest)

/-! ## The least ready node -/

theorem before_total (g : Graph) {a b : Nat} (h : a ≠ b) (hba : g.before b a = false) :
    g.before a b = true := by
  unfold before at *
  split at hba
  · rename_i hne
    have hne : g.score b ≠ g.score a := by simpa using hne
    have hle : ¬ g.score b < g.score a := by simpa using hba
    have hlt : g.score a < g.score b := by omega
    simp [hlt, Ne.symm hne]
  · rename_i heq
    have heq : g.score b = g.score a := by simpa using heq
    have hle : ¬ b < a := by simpa using hba
    simp [heq]
    omega

theorem before_trans (g : Graph) {a b c : Nat} (hab : g.before a b = true)
    (hbc : g.before b c = true) : g.before a c = true := by
  unfold before at *
  split_ifs at * <;> simp_all <;> omega

/-- The least node is one of the nodes, and goes before all others. -/
theorem least_spec (g : Graph) (first : Nat) (rest : List Nat) :
    g.least first rest ∈ first :: rest ∧
      ∀ j ∈ first :: rest, j ≠ g.least first rest → g.before (g.least first rest) j = true := by
  induction rest generalizing first with
  | nil => simp [least]
  | cons x rest ih =>
    obtain ⟨best, hbest, hmem, hbefore⟩ : ∃ best,
        g.least first (x :: rest) = g.least best rest ∧ (best = first ∨ best = x) ∧
        ∀ j, j = first ∨ j = x → j ≠ best → g.before best j = true := by
      cases hb : g.before x first with
      | true =>
        refine ⟨x, by simp [least, hb], .inr rfl, ?_⟩
        rintro j (rfl | rfl) hne
        · exact hb
        · exact absurd rfl hne
      | false =>
        refine ⟨first, by simp [least, hb], .inl rfl, ?_⟩
        rintro j (rfl | rfl) hne
        · exact absurd rfl hne
        · exact g.before_total (Ne.symm hne) hb
    obtain ⟨hin, hleast⟩ := ih best
    rw [hbest]
    constructor
    · simp only [List.mem_cons] at hin ⊢
      grind
    · intro j hj hne
      by_cases hjr : j = best ∨ j ∈ rest
      · exact hleast j (List.mem_cons.mpr hjr) hne
      · -- A node that was passed over comes after the best of the first two.
        have hjb : j ≠ best := fun h => hjr (.inl h)
        have hfx : j = first ∨ j = x := by
          simp only [List.mem_cons] at hj
          tauto
        by_cases hb : best = g.least best rest
        · rw [← hb]
          exact hbefore j hfx hjb
        · exact g.before_trans (hleast best List.mem_cons_self hb) (hbefore j hfx hjb)

/-! ## Releasing the nodes after a node -/

/-- A released node counts one edge less, and is ready when none is left. -/
theorem foldl_release (pending : List Int) (ready l : List Nat)
    (hl : ∀ j ∈ l, j < pending.length) :
    (l.foldl release (pending, ready)).1.length = pending.length ∧
      (∀ j, (l.foldl release (pending, ready)).1.getD j 0 = pending.getD j 0 - l.count j) ∧
      ∀ j, j ∈ (l.foldl release (pending, ready)).2 ↔
        j ∈ ready ∨ (0 < pending.getD j 0 ∧ pending.getD j 0 ≤ l.count j) := by
  induction l generalizing pending ready with
  | nil =>
    refine ⟨rfl, by simp, fun j => ?_⟩
    simp only [List.foldl_nil, List.count_nil]
    constructor
    · exact .inl
    · rintro (h | ⟨h, h'⟩)
      · exact h
      · exact absurd h (by simpa using h')
  | cons x l ih =>
    have hx : x < pending.length := hl x List.mem_cons_self
    have hget : ∀ j, (pending.set x (pending.getD x 0 - 1)).getD j 0 =
        pending.getD j 0 - if j = x then 1 else 0 := by
      intro j
      by_cases hj : j = x
      · subst hj
        simp [List.getD_eq_getElem?_getD, hx]
      · simp [List.getD_eq_getElem?_getD, List.getElem?_set_ne (Ne.symm hj), hj]
    have hcount : ∀ j, (((x :: l).count j : Nat) : Int) = l.count j + if j = x then 1 else 0 := by
      intro j
      rw [List.count_cons]
      by_cases hj : j = x
      · simp [hj]
      · simp [hj, Ne.symm hj]
    have hrelease : release (pending, ready) x = (pending.set x (pending.getD x 0 - 1),
        if pending.getD x 0 - 1 = 0 then ready ++ [x] else ready) := by
      simp [release, hx]
    rw [List.foldl_cons, hrelease]
    obtain ⟨hlen, hpending, hready⟩ := ih (pending.set x (pending.getD x 0 - 1))
      (if pending.getD x 0 - 1 = 0 then ready ++ [x] else ready)
      (fun j hj => by simpa using hl j (List.mem_cons_of_mem x hj))
    refine ⟨by rw [hlen, List.length_set], fun j => ?_, fun j => ?_⟩
    · rw [hpending, hget, hcount]
      omega
    · rw [hready, hget, hcount]
      by_cases hj : j = x
      · subst hj
        have hnat : (0 : Int) ≤ l.count j := Int.natCast_nonneg _
        rw [if_pos rfl]
        by_cases h1 : pending.getD j 0 - 1 = 0
        · rw [if_pos h1]
          simp only [List.mem_append, List.mem_singleton, or_true, true_or, true_iff]
          exact .inr (by omega)
        · rw [if_neg h1]
          constructor
          · rintro (h | h)
            · exact .inl h
            · exact .inr (by omega)
          · rintro (h | h)
            · exact .inl h
            · exact .inr (by omega)
      · have hmem : j ∈ (if pending.getD x 0 - 1 = 0 then ready ++ [x] else ready) ↔ j ∈ ready := by
          split_ifs <;> simp [hj]
        rw [hmem]
        simp [hj]

/-! ## The state of the ordering -/

/-- The number of edges to a node from nodes that are not out yet. -/
def waiting (g : Graph) (done : List Nat) (j : Nat) : Nat :=
  ∑ i ∈ (Finset.range g.size).filter (· ∉ done), (g.after i).count j

theorem waiting_eq_zero_iff (g : Graph) (done : List Nat) (j : Nat) :
    g.waiting done j = 0 ↔ ∀ i, g.Edge i j → i ∈ done := by
  simp only [waiting, Finset.sum_eq_zero_iff, Finset.mem_filter, Finset.mem_range,
    List.count_eq_zero, Edge]
  constructor
  · rintro h i ⟨hi, hj⟩
    by_contra hd
    exact h i ⟨hi, hd⟩ hj
  · rintro h i ⟨hi, hd⟩ hj
    exact hd (h i ⟨hi, hj⟩)

theorem available_iff (g : Graph) (done : List Nat) (j : Nat) :
    g.Available done j ↔ j < g.size ∧ j ∉ done ∧ g.waiting done j = 0 := by
  rw [waiting_eq_zero_iff]
  rfl

/-- A node that comes out takes its edges with it. -/
theorem waiting_cons (g : Graph) {done : List Nat} {x : Nat} (hx : x < g.size) (hd : x ∉ done)
    (j : Nat) : (g.after x).count j + g.waiting (x :: done) j = g.waiting done j := by
  unfold waiting
  have hset : (Finset.range g.size).filter (· ∉ x :: done) =
      ((Finset.range g.size).filter (· ∉ done)).erase x := by
    ext i
    simp only [Finset.mem_filter, Finset.mem_erase, List.mem_cons, not_or]
    tauto
  rw [hset]
  exact Finset.add_sum_erase _ (fun i => (g.after i).count j) (by simp [hx, hd])

/-- The counts are those of the edges from nodes that are not out yet, the ready nodes are the
available ones, and the nodes that are out wait for nothing. -/
structure Ordering (g : Graph) (done : List Nat) (pending : List Int) (ready : List Nat) :
    Prop where
  length : pending.length = g.size
  count : ∀ j < g.size, pending.getD j 0 = g.waiting done j
  ready : ∀ j, j ∈ ready ↔ g.Available done j
  finished : ∀ j ∈ done, g.waiting done j = 0

/-- What one round leaves behind. -/
theorem Ordering.next {g : Graph} {done ready : List Nat} {pending : List Int} {x : Nat}
    (hg : g.WellFormed) (h : g.Ordering done pending ready) (hx : x ∈ ready) :
    g.Ordering (x :: done)
      ((g.after x).foldl release (pending, ready.filter (· != x))).1
      ((g.after x).foldl release (pending, ready.filter (· != x))).2 := by
  obtain ⟨hlt, hnot, hzero⟩ := (g.available_iff done x).mp ((h.ready x).mp hx)
  have hbelow : ∀ j ∈ g.after x, j < pending.length := by
    rw [h.length]
    exact hg.below x hlt
  obtain ⟨hlen, hpending, hready⟩ :=
    foldl_release pending (ready.filter (· != x)) (g.after x) hbelow
  have hwait := g.waiting_cons hlt hnot
  have hdone : ∀ j ∈ x :: done, g.waiting (x :: done) j = 0 := by
    intro j hj
    have hj0 : g.waiting done j = 0 := by
      rcases List.mem_cons.mp hj with rfl | hj
      · exact hzero
      · exact h.finished j hj
    have := hwait j
    omega
  refine ⟨by rw [hlen, h.length], fun j hj => ?_, fun j => ?_, hdone⟩
  · have := hwait j
    rw [hpending, h.count j hj]
    omega
  · rw [hready, g.available_iff]
    simp only [List.mem_filter, bne_iff_ne, ne_eq, h.ready, g.available_iff, List.mem_cons, not_or]
    have hj := hwait j
    constructor
    · rintro (⟨⟨hjlt, hjd, hj0⟩, hjx⟩ | ⟨hpos, hle⟩)
      · exact ⟨hjlt, ⟨hjx, hjd⟩, by omega⟩
      · have hjlt : j < g.size := by
          by_contra hge
          have hout : pending.getD j 0 = 0 := by
            rw [List.getD_eq_getElem?_getD, List.getElem?_eq_none (by rw [h.length]; omega)]
            rfl
          omega
        have hc := h.count j hjlt
        refine ⟨hjlt, ⟨?_, fun hd => ?_⟩, by omega⟩
        · rintro rfl
          omega
        · have := h.finished j hd
          omega
    · rintro ⟨hjlt, ⟨hjx, hjd⟩, hj0⟩
      have hc := h.count j hjlt
      by_cases hw : g.waiting done j = 0
      · exact .inl ⟨⟨hjlt, hjd, hw⟩, hjx⟩
      · exact .inr (by omega)

/-- The loop takes the least available node at each place. -/
theorem greedy_orderFrom {g : Graph} (hg : g.WellFormed) (n : Nat) {done ready : List Nat}
    {pending : List Int} (h : g.Ordering done pending ready) (hnodup : done.Nodup)
    (hdone : ∀ j ∈ done, j < g.size) (hn : g.size ≤ done.length + n) :
    g.Greedy done (g.orderFrom n pending ready) := by
  induction n generalizing done ready pending with
  | zero =>
    -- All nodes are out.
    refine .stop fun j hj => hj.2.1 ?_
    have hsub : done ⊆ List.range g.size := fun i hi => List.mem_range.mpr (hdone i hi)
    have hperm := (hnodup.subperm hsub).perm_of_length_le (by simpa using hn)
    exact hperm.mem_iff.mpr (List.mem_range.mpr hj.1)
  | succ n ih =>
    cases ready with
    | nil =>
      refine .stop fun j hj => ?_
      exact absurd ((h.ready j).mpr hj) (by simp)
    | cons first rest =>
      obtain ⟨hmem, hleast⟩ := g.least_spec first rest
      have havail := (h.ready _).mp hmem
      refine .step _ havail (fun j hj hne => hleast j ((h.ready j).mpr hj) hne) ?_
      refine ih (h.next hg hmem) (List.nodup_cons.mpr ⟨havail.2.1, hnodup⟩) ?_ ?_
      · intro j hj
        rcases List.mem_cons.mp hj with rfl | hj
        · exact havail.1
        · exact hdone j hj
      · rw [List.length_cons]
        omega

theorem ordering_start {g : Graph} (hg : g.WellFormed) :
    g.Ordering [] g.preds ((List.range g.size).filter fun i => g.preds.getD i 0 == 0) := by
  have hcount : ∀ j < g.size, g.preds.getD j 0 = g.waiting [] j := by
    intro j hj
    rw [hg.counted j hj, waiting]
    simp
  refine ⟨hg.length, hcount, fun j => ?_, by simp⟩
  rw [available_iff, List.mem_filter, List.mem_range, beq_iff_eq]
  constructor
  · rintro ⟨hj, h0⟩
    have := hcount j hj
    exact ⟨hj, List.not_mem_nil, by omega⟩
  · rintro ⟨hj, _, h0⟩
    have := hcount j hj
    exact ⟨hj, by omega⟩

/-- The nodes that come out are in greedy order, and the ordering fails if some are missing. -/
theorem order_eq_greedy {g : Graph} (hg : g.WellFormed) :
    ∃ nodes, g.Greedy [] nodes ∧
      g.order = if nodes.length = g.size then .ok nodes else .error ⟨nodes.length, g.size⟩ := by
  refine ⟨_, greedy_orderFrom hg g.size (ordering_start hg) List.nodup_nil (by simp) (by simp), ?_⟩
  unfold order
  dsimp only
  split_ifs with h1 h2 h2
  · exact absurd h2 (by simpa using h1)
  · rfl
  · rfl
  · exact absurd (by simpa using h1) h2

/-- An order without error is greedy. -/
theorem greedy_of_order {g : Graph} (hg : g.WellFormed) {nodes : List Nat}
    (h : g.order = .ok nodes) : g.Greedy [] nodes := by
  obtain ⟨found, hgreedy, horder⟩ := order_eq_greedy hg
  rw [h] at horder
  split_ifs at horder
  cases horder
  exact hgreedy

/-! ## Greedy orders -/

theorem Greedy.mem {g : Graph} {done nodes : List Nat} (h : g.Greedy done nodes) :
    ∀ x ∈ nodes, x < g.size ∧ x ∉ done := by
  induction h with
  | stop none => simp
  | step next available least others ih =>
    intro x hx
    rcases List.mem_cons.mp hx with rfl | hx
    · exact ⟨available.1, available.2.1⟩
    · obtain ⟨hlt, hnot⟩ := ih x hx
      exact ⟨hlt, fun hd => hnot (List.mem_cons_of_mem _ hd)⟩

/-- A set of nodes that has all nodes before its nodes. -/
def Closed (g : Graph) (done : List Nat) : Prop := ∀ i j, g.Edge i j → j ∈ done → i ∈ done

theorem Closed.cons {g : Graph} {done : List Nat} {x : Nat} (h : g.Closed done)
    (hx : g.Available done x) : g.Closed (x :: done) := by
  intro i j hij hj
  rcases List.mem_cons.mp hj with rfl | hj
  · exact List.mem_cons_of_mem _ (hx.2.2 i hij)
  · exact List.mem_cons_of_mem _ (h i j hij hj)

theorem Closed.of_transGen {g : Graph} {done : List Nat} (h : g.Closed done) {i j : Nat}
    (hij : Relation.TransGen g.Edge i j) (hj : j ∈ done) : i ∈ done := by
  induction hij with
  | single hij => exact h _ _ hij hj
  | tail _ hbc ih => exact ih (h _ _ hbc hj)

/-- No node comes out twice or after a node that depends on it. -/
theorem Greedy.pairwise {g : Graph} {done nodes : List Nat} (h : g.Greedy done nodes)
    (hclosed : g.Closed done) :
    nodes.Pairwise fun x y => x ≠ y ∧ ¬ Relation.TransGen g.Edge y x := by
  induction h with
  | stop none => exact List.Pairwise.nil
  | step next available least others ih =>
    have hnext := hclosed.cons available
    refine List.pairwise_cons.mpr ⟨fun y hy => ?_, ih hnext⟩
    have hnot := (others.mem y hy).2
    refine ⟨?_, fun hdep => hnot (hnext.of_transGen hdep List.mem_cons_self)⟩
    rintro rfl
    exact hnot List.mem_cons_self

/-- No node lies on a cycle. -/
def Acyclic (g : Graph) : Prop := ∀ i, ¬ Relation.TransGen g.Edge i i

theorem acyclic_of_forward {g : Graph} (hforward : ∀ i j, g.Edge i j → i < j) : g.Acyclic := by
  intro i hi
  have hlt : Relation.TransGen (· < ·) i i := Relation.TransGen.mono hforward _ _ hi
  rw [Relation.transGen_eq_self] at hlt
  exact Nat.lt_irrefl i hlt

/-- Only finitely many nodes lead to a node, so without cycles no way back is endless. -/
theorem Acyclic.acc {g : Graph} (h : g.Acyclic) {x : Nat} (hx : x < g.size) : Acc g.Edge x := by
  have hwf : WellFounded fun a b : Fin g.size => Relation.TransGen g.Edge a b :=
    haveI : IsTrans (Fin g.size) fun a b => Relation.TransGen g.Edge a b := ⟨fun _ _ _ => .trans⟩
    haveI : Std.Irrefl fun a b : Fin g.size => Relation.TransGen g.Edge a b := ⟨fun i => h i⟩
    Finite.wellFounded_of_trans_of_irrefl _
  have hacc : ∀ a : Fin g.size, Acc g.Edge a := by
    intro a
    induction a using hwf.induction with
    | _ a ih =>
      refine .intro _ fun i hi => ?_
      exact ih ⟨i, hi.1⟩ (.single hi)
  exact hacc ⟨x, hx⟩

/-- Without cycles every node comes out. -/
theorem Greedy.complete {g : Graph} {done nodes : List Nat} (h : g.Greedy done nodes)
    (hacyclic : g.Acyclic) : ∀ x < g.size, x ∈ done ∨ x ∈ nodes := by
  induction h with
  | @stop done none =>
    -- The first node that is not out would be available.
    intro x hx
    induction hacyclic.acc hx with
    | intro x _ ih =>
      by_contra hnot
      have hxd : x ∉ done := fun hd => hnot (.inl hd)
      refine none x ⟨hx, hxd, fun i hi => ?_⟩
      rcases ih i hi hi.1 with hd | hd
      · exact hd
      · cases hd
  | step next available least others ih =>
    intro x hx
    rcases ih x hx with hd | hn
    · rcases List.mem_cons.mp hd with rfl | hd
      · exact .inr List.mem_cons_self
      · exact .inl hd
    · exact .inr (List.mem_cons_of_mem _ hn)

/-- A node that comes out lies on no cycle: all nodes before it are out already. -/
theorem Greedy.not_on_cycle {g : Graph} {done nodes : List Nat} (h : g.Greedy done nodes)
    (hclosed : g.Closed done) : ∀ x ∈ nodes, ¬ Relation.TransGen g.Edge x x := by
  induction h with
  | stop none => simp
  | step next available least others ih =>
    intro x hx hcycle
    rcases List.mem_cons.mp hx with rfl | hx
    · obtain ⟨w, hxw, hwx⟩ := Relation.TransGen.tail'_iff.mp hcycle
      have hw := available.2.2 w hwx
      rcases Relation.reflTransGen_iff_eq_or_transGen.mp hxw with rfl | hlead
      · exact available.2.1 hw
      · exact available.2.1 (hclosed.of_transGen hlead hw)
    · exact ih (hclosed.cons available) x hx hcycle

/-- All nodes come out exactly if there is no cycle. -/
theorem Greedy.perm_iff {g : Graph} {nodes : List Nat} (h : g.Greedy [] nodes) :
    nodes.Perm (List.range g.size) ↔ g.Acyclic := by
  have hclosed : g.Closed [] := by simp [Closed]
  constructor
  · intro hperm i hi
    obtain ⟨_, hedge, -⟩ := Relation.TransGen.head'_iff.mp hi
    exact h.not_on_cycle hclosed i (hperm.mem_iff.mpr (List.mem_range.mpr hedge.1)) hi
  · intro hacyclic
    have hnodup : nodes.Nodup := (h.pairwise hclosed).imp And.left
    refine (List.perm_ext_iff_of_nodup hnodup List.nodup_range).mpr fun x => ?_
    rw [List.mem_range]
    constructor
    · exact fun hx => (h.mem x hx).1
    · exact fun hx => (h.complete hacyclic x hx).resolve_left List.not_mem_nil

/-- As many nodes as the graph has are all its nodes. -/
theorem Greedy.length_eq_iff {g : Graph} {nodes : List Nat} (h : g.Greedy [] nodes) :
    nodes.length = g.size ↔ nodes.Perm (List.range g.size) := by
  constructor
  · intro hlen
    have hnodup : nodes.Nodup := (h.pairwise (by simp [Closed])).imp And.left
    have hsub : nodes ⊆ List.range g.size := fun x hx => List.mem_range.mpr (h.mem x hx).1
    exact (hnodup.subperm hsub).perm_of_length_le (by simp [hlen])
  · intro hperm
    simpa using hperm.length_eq

/-- A graph whose edges point forward is ordered without error: every node comes out once, and
after all nodes that it depends on. -/
theorem exists_order_of_forward {g : Graph} (hg : g.WellFormed)
    (hforward : ∀ i j, g.Edge i j → i < j) :
    ∃ nodes, g.order = .ok nodes ∧ nodes.Perm (List.range g.size) ∧
      nodes.Pairwise fun x y => ¬ Relation.TransGen g.Edge y x := by
  obtain ⟨nodes, hgreedy, horder⟩ := order_eq_greedy hg
  have hperm := hgreedy.perm_iff.mpr (acyclic_of_forward hforward)
  have hpair := hgreedy.pairwise (by simp [Closed])
  refine ⟨nodes, ?_, hperm, hpair.imp And.right⟩
  rw [horder, if_pos (hgreedy.length_eq_iff.mpr hperm)]

/-! ## The node at a place -/

/-- It only matters which nodes are out, not in which order. -/
theorem Available.congr {g : Graph} {done done' : List Nat} (h : ∀ i, i ∈ done ↔ i ∈ done')
    {j : Nat} : g.Available done j ↔ g.Available done' j := by
  simp only [Available, h]

/-- No node goes before the one at a place that is available there too. -/
theorem Greedy.at_place {g : Graph} {done nodes : List Nat} (h : g.Greedy done nodes) {k : Nat}
    (hk : k < nodes.length) :
    g.Available (done ++ nodes.take k) nodes[k] ∧
      ∀ j, g.Available (done ++ nodes.take k) j → j ≠ nodes[k] → g.before nodes[k] j = true := by
  induction h generalizing k with
  | stop none => cases hk
  | @step done rest next available least others ih =>
    cases k with
    | zero => simpa using ⟨available, least⟩
    | succ k =>
      have hout : ∀ i, i ∈ next :: done ++ rest.take k ↔
          i ∈ done ++ (next :: rest).take (k + 1) := by
        intro i
        simp only [List.take_succ_cons, List.mem_append, List.mem_cons]
        tauto
      obtain ⟨hhere, hleast⟩ := ih (Nat.lt_of_succ_lt_succ hk)
      exact ⟨(Available.congr hout).mp hhere, fun j hj => hleast j ((Available.congr hout).mpr hj)⟩

/-- A node goes before another one if its score is lower, or equal and its number is lower. -/
theorem before_iff (g : Graph) (a b : Nat) :
    g.before a b = true ↔ g.score a < g.score b ∨ (g.score a = g.score b ∧ a < b) := by
  unfold before
  split_ifs with h
  · have hne : g.score a ≠ g.score b := by simpa using h
    simp [hne]
  · have heq : g.score a = g.score b := by simpa using h
    simp [heq]

/-- Both ends of an edge come out, the start before the stop. -/
theorem Greedy.idxOf_lt_of_edge {g : Graph} {nodes : List Nat} (h : g.Greedy [] nodes)
    (hperm : nodes.Perm (List.range g.size)) (hg : g.WellFormed) {i j : Nat} (hij : g.Edge i j) :
    nodes.idxOf i < nodes.idxOf j := by
  have hmem : ∀ k < g.size, k ∈ nodes := fun k hk => hperm.mem_iff.mpr (List.mem_range.mpr hk)
  have hj : j ∈ nodes := hmem j (hg.below i hij.1 j hij.2)
  -- The start is among the nodes that are out when the stop becomes available.
  have hplace := (h.at_place (List.idxOf_lt_length_of_mem hj)).1
  rw [List.getElem_idxOf, List.nil_append] at hplace
  obtain ⟨k, hk, hki⟩ := List.mem_iff_getElem.mp (hplace.2.2 i hij)
  rw [List.length_take] at hk
  rw [List.getElem_take] at hki
  have hnodup : nodes.Nodup := hperm.nodup_iff.mpr List.nodup_range
  rw [← hki, hnodup.idxOf_getElem]
  omega

/-! ## The order of any graph -/

/-- The ordering fails exactly on graphs with a cycle. Otherwise each node comes out once and after
all nodes before it, and at each place it is the least by score, then by number, of the nodes whose
predecessors are all out. Repeated edges and edges from a node to itself are allowed. -/
theorem greedy_order_or_cycle (g : Graph) (hg : g.WellFormed) :
    ((∃ e, g.order = .error e) ↔ ∃ i, Relation.TransGen g.Edge i i) ∧
      ∀ nodes, g.order = .ok nodes →
        nodes.Perm (List.range g.size) ∧
        (∀ i j, g.Edge i j → nodes.idxOf i < nodes.idxOf j) ∧
        ∀ (k : Nat) (hk : k < nodes.length),
          g.Available (nodes.take k) nodes[k] ∧
          ∀ j, g.Available (nodes.take k) j →
            g.score nodes[k] < g.score j ∨ (g.score nodes[k] = g.score j ∧ nodes[k] ≤ j) := by
  obtain ⟨found, hgreedy, horder⟩ := order_eq_greedy hg
  have hall := hgreedy.length_eq_iff.trans hgreedy.perm_iff
  constructor
  · constructor
    · rintro ⟨e, he⟩
      rw [horder] at he
      split_ifs at he with hlen
      have hcyclic : ¬ g.Acyclic := fun h => hlen (hall.mpr h)
      simpa [Acyclic] using hcyclic
    · rintro ⟨i, hi⟩
      have hlen : found.length ≠ g.size := fun h => hall.mp h i hi
      exact ⟨_, by rw [horder, if_neg hlen]⟩
  · intro nodes hnodes
    rw [horder] at hnodes
    split_ifs at hnodes with hlen
    cases hnodes
    have hperm := hgreedy.length_eq_iff.mp hlen
    refine ⟨hperm, fun i j hij => hgreedy.idxOf_lt_of_edge hperm hg hij, fun k hk => ?_⟩
    obtain ⟨hhere, hleast⟩ := hgreedy.at_place hk
    rw [List.nil_append] at hhere hleast
    refine ⟨hhere, fun j hj => ?_⟩
    by_cases hne : j = found[k]
    · exact .inr ⟨by rw [hne], hne.ge⟩
    · rcases (g.before_iff _ _).mp (hleast j hj hne) with hlt | ⟨heq, hlt⟩
      · exact .inl hlt
      · exact .inr ⟨heq, hlt.le⟩

/-- A graph with an edge that is there twice. Node 2 has the lowest score and waits for node 0. -/
def twice : Graph := ⟨[3, 1, 0, 2], [[2, 2, 3], [3], [], []], [0, 0, 2, 2]⟩

/-- The same graph with an edge from node 3 to itself. -/
def looped : Graph := ⟨[3, 1, 0, 2], [[2, 2, 3], [3], [], [3]], [0, 0, 2, 3]⟩

theorem greedy_order_of_twice :
    twice.WellFormed ∧ looped.WellFormed ∧ twice.order = .ok [1, 0, 2, 3] ∧
      looped.order = .error ⟨3, 4⟩ ∧
      ((∃ e, looped.order = .error e) ↔ ∃ i, Relation.TransGen looped.Edge i i) ∧
      (∀ i j, twice.Edge i j → [1, 0, 2, 3].idxOf i < [1, 0, 2, 3].idxOf j) := by
  have htwice : twice.WellFormed := ⟨by decide, by decide, by decide⟩
  have hlooped : looped.WellFormed := ⟨by decide, by decide, by decide⟩
  have horder : twice.order = .ok [1, 0, 2, 3] := by decide
  exact ⟨htwice, hlooped, horder, by decide, (greedy_order_or_cycle looped hlooped).1,
    ((greedy_order_or_cycle twice htwice).2 _ horder).2.1⟩

end Backend.Schedule.Graph
