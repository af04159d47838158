-- Scheduling keeps the meaning of a block: whatever instructions compute, as long as they touch
-- only what the scheduler thinks they do, the new order ends in the same state.
import Backend.Proofs.Schedule.Edges

namespace Backend.Schedule

universe u v

/-! ## What instructions compute -/

/-- A value for each key and one for all of memory. -/
@[ext]
structure Store (α : Type u) (β : Type v) where
  cells : Key → α
  mem : β

/-- The transformer changes only what is written, and what it writes depends only on what is
read. -/
structure Respects {α : Type u} {β : Type v} (a : Access) (f : Store α β → Store α β) : Prop where
  keeps : ∀ s k, k ∉ a.writes → (f s).cells k = s.cells k
  keepsMem : ∀ s, a.memWrite = false → (f s).mem = s.mem
  cells : ∀ s t, (∀ k ∈ a.reads, s.cells k = t.cells k) → (a.memory = true → s.mem = t.mem) →
    ∀ k ∈ a.writes, (f s).cells k = (f t).cells k
  mem : ∀ s t, (∀ k ∈ a.reads, s.cells k = t.cells k) → (a.memory = true → s.mem = t.mem) →
    a.memWrite = true → (f s).mem = (f t).mem

/-- The state after a list of instructions. -/
def exec {σ : Type u} (meaning : Instr → σ → σ) (ops : List Instr) (s : σ) : σ :=
  ops.foldl (fun s op => meaning op s) s

/-- The meaning of instructions other than barriers and control respects their accesses. Barriers
and control may do anything. -/
def Faithful {α : Type u} {β : Type v} (roles : RegisterRoles) (locs : Locations)
    (meaning : Instr → Store α β → Store α β) (ops : List Instr) : Prop :=
  ∀ op ∈ ops, isBarrier op = false → isControl op = false →
    Respects (access roles locs op) (meaning op)

/-- The control instructions are at the end. -/
def ControlLast (ops : List Instr) : Prop :=
  ∃ p q, ops = p ++ q ∧ (∀ op ∈ p, isControl op = false) ∧ ∀ op ∈ q, isControl op = true

/-! ## Instructions that change places -/

section Commute

variable {α : Type u} {β : Type v} {a b : Access} {f g : Store α β → Store α β}

theorem Respects.keeps_of_not_conflict (hg : Respects b g) (h : ¬ Conflict a b) (s : Store α β) :
    (∀ k ∈ a.reads, (g s).cells k = s.cells k) ∧
      (∀ k ∈ a.writes, (g s).cells k = s.cells k) ∧ (a.memory = true → (g s).mem = s.mem) := by
  refine ⟨fun k hk => hg.keeps s k fun hw => h (.inr (.inl ⟨k, hk, hw⟩)),
    fun k hk => hg.keeps s k fun hw => h (.inl ⟨k, hk, .inr hw⟩), fun hm => hg.keepsMem s ?_⟩
  by_contra hw
  exact h (.inr (.inr ⟨hm, by simp [Access.memory, hw]⟩))

theorem not_conflict_symm (h : ¬ Conflict a b) : ¬ Conflict b a := by
  rintro (⟨k, hb, ha | ha⟩ | ⟨k, hb, ha⟩ | ⟨hb, ha⟩)
  · exact h (.inr (.inl ⟨k, ha, hb⟩))
  · exact h (.inl ⟨k, ha, .inr hb⟩)
  · exact h (.inl ⟨k, ha, .inl hb⟩)
  · exact h (.inr (.inr ⟨ha, hb⟩))

/-- Instructions without a conflict may change places. -/
theorem Respects.commute (hf : Respects a f) (hg : Respects b g) (h : ¬ Conflict a b)
    (s : Store α β) : g (f s) = f (g s) := by
  obtain ⟨hgr, hgw, hgm⟩ := hg.keeps_of_not_conflict h s
  obtain ⟨hfr, hfw, hfm⟩ := hf.keeps_of_not_conflict (not_conflict_symm h) s
  have hfirst : ∀ k ∈ a.writes, (f (g s)).cells k = (f s).cells k := hf.cells _ _ hgr hgm
  have hsecond : ∀ k ∈ b.writes, (g (f s)).cells k = (g s).cells k := hg.cells _ _ hfr hfm
  have hcells : ∀ k, (g (f s)).cells k = (f (g s)).cells k := by
    intro k
    by_cases ha : k ∈ a.writes
    · have hb : k ∉ b.writes := fun hb => h (.inl ⟨k, ha, .inr hb⟩)
      rw [hg.keeps _ k hb, hfirst k ha]
    · by_cases hb : k ∈ b.writes
      · rw [hsecond k hb, hf.keeps _ k ha]
      · rw [hg.keeps _ k hb, hf.keeps _ k ha, hf.keeps _ k ha, hg.keeps _ k hb]
  have hmem : (g (f s)).mem = (f (g s)).mem := by
    cases ha : a.memWrite with
    | false =>
      rw [hf.keepsMem _ ha]
      cases hb : b.memWrite with
      | false => rw [hg.keepsMem _ hb, hg.keepsMem _ hb, hf.keepsMem _ ha]
      | true => exact hg.mem _ _ hfr hfm hb
    | true =>
      have hb : b.memWrite = false := by
        by_contra hb
        exact h (.inr (.inr ⟨by simp [Access.memory, ha], by simp [Access.memory, hb]⟩))
      rw [hg.keepsMem _ hb]
      exact (hf.mem _ _ hgr hgm ha).symm
  exact Store.ext (funext hcells) hmem

end Commute

/-! ## Orders with the same outcome -/

/-- A step that may change places with all steps before it can be the first. -/
theorem foldl_middle {σ : Type u} (step : Nat → σ → σ) (p q : List Nat) (x : Nat) (s : σ)
    (h : ∀ y ∈ p, ∀ s, step x (step y s) = step y (step x s)) :
    (p ++ x :: q).foldl (fun s i => step i s) s =
      (x :: (p ++ q)).foldl (fun s i => step i s) s := by
  induction p generalizing s with
  | nil => rfl
  | cons y p ih =>
    simp only [List.cons_append, List.foldl_cons]
    rw [ih _ fun z hz => h z (List.mem_cons_of_mem y hz), List.foldl_cons,
      h y List.mem_cons_self s]

/-- Two orders of steps end in the same state, if steps that may not change places are ordered by a
relation that the second order respects. -/
theorem foldl_eq_of_perm {σ : Type u} (step : Nat → σ → σ) (R : Nat → Nat → Prop)
    (l l' : List Nat) (hperm : l.Perm l')
    (hl : l.Pairwise fun i j => R i j ∨ ∀ s, step j (step i s) = step i (step j s))
    (hl' : l'.Pairwise fun x y => ¬ R y x) (s : σ) :
    l.foldl (fun s i => step i s) s = l'.foldl (fun s i => step i s) s := by
  induction l' generalizing l s with
  | nil =>
    rw [List.Perm.eq_nil hperm]
  | cons x t ih =>
    obtain ⟨p, q, rfl⟩ := List.append_of_mem (hperm.mem_iff.mpr List.mem_cons_self)
    have hrest : (p ++ q).Perm t := (List.perm_middle.symm.trans hperm).cons_inv
    rw [List.pairwise_append, List.pairwise_cons] at hl
    obtain ⟨hp, ⟨_, hq⟩, hpq⟩ := hl
    rw [List.pairwise_cons] at hl'
    -- Whatever stands before `x` comes after it in the second order, so it does not hold `x` back.
    have hcomm : ∀ y ∈ p, ∀ s, step x (step y s) = step y (step x s) := by
      intro y hy
      rcases hpq y hy x List.mem_cons_self with hR | hc
      · exact absurd hR (hl'.1 y (hrest.mem_iff.mp (List.mem_append_left q hy)))
      · exact hc
    rw [foldl_middle step p q x s hcomm, List.foldl_cons, List.foldl_cons]
    refine ih (p ++ q) hrest ?_ hl'.2 _
    exact List.pairwise_append.mpr ⟨hp, hq, fun y hy z hz => hpq y hy z (List.mem_cons_of_mem x hz)⟩

/-! ## Scheduled blocks -/

/-- The instruction of a number, as a step. -/
def stepAt {σ : Type u} (meaning : Instr → σ → σ) (ops : List Instr) (i : Nat) (s : σ) : σ :=
  match ops[i]? with
  | some op => meaning op s
  | none => s

theorem exec_pick {σ : Type u} (meaning : Instr → σ → σ) (ops : List Instr) (nodes : List Nat)
    (s : σ) :
    exec meaning (pick ops nodes) s = nodes.foldl (fun s i => stepAt meaning ops i s) s := by
  induction nodes generalizing s with
  | nil => rfl
  | cons i nodes ih =>
    unfold exec pick at *
    rw [List.foldl_cons, ← ih]
    unfold stepAt
    cases hi : ops[i]? <;> simp [hi]

theorem pick_range (ops : List Instr) : pick ops (List.range ops.length) = ops := by
  have hall : ∀ n, n ≤ ops.length → pick ops (List.range n) = ops.take n := by
    intro n
    induction n with
    | zero => simp [pick]
    | succ n ih =>
      intro hn
      have hlt : n < ops.length := by omega
      have hrange : pick ops (List.range (n + 1)) = pick ops (List.range n) ++ [ops[n]] := by
        simp [pick, List.range_succ, hlt]
      rw [hrange, ih (by omega), List.take_append_getElem hlt]
  rw [hall ops.length (Nat.le_refl _), List.take_length]

/-- Two instructions of a block that no chain of edges orders may change places. -/
theorem chain_or_commute {α : Type u} {β : Type v} {roles : RegisterRoles} {locs : Locations}
    {ops : List Instr} {meaning : Instr → Store α β → Store α β}
    (hf : Faithful roles locs meaning ops) (hc : ControlLast ops) {i j : Nat} (hij : i < j)
    (hj : j < ops.length) :
    Chain (edges roles locs ops) i j ∨
      ∀ s, stepAt meaning ops j (stepAt meaning ops i s) =
        stepAt meaning ops i (stepAt meaning ops j s) := by
  have hi : i < ops.length := Nat.lt_trans hij hj
  have hordered := (ordered_edges roles locs ops).chain i j ops[i] ops[j] hij
    (List.getElem?_eq_getElem hi) (List.getElem?_eq_getElem hj)
  by_cases hcon : Conflict (access roles locs ops[i]) (access roles locs ops[j]) ∨
      (isBarrier ops[j] || isControl ops[j]) = true ∨ isBarrier ops[i] = true
  · exact .inl (hordered hcon)
  · simp only [not_or, Bool.not_eq_true, Bool.or_eq_false_iff] at hcon
    obtain ⟨hconflict, ⟨hbj, hcj⟩, hbi⟩ := hcon
    -- Control is at the end, so an instruction before one that is not control is not control.
    have hci : isControl ops[i] = false := by
      obtain ⟨p, q, rfl, hp, hq⟩ := hc
      by_cases hjp : j < p.length
      · rw [List.getElem_append_left (Nat.lt_trans hij hjp)]
        exact hp _ (List.getElem_mem _)
      · rw [List.getElem_append_right (by omega)] at hcj
        rw [hq _ (List.getElem_mem _)] at hcj
        cases hcj
    right
    intro s
    simp only [stepAt, List.getElem?_eq_getElem hi, List.getElem?_eq_getElem hj]
    exact (hf _ (List.getElem_mem hi) hbi hci).commute (hf _ (List.getElem_mem hj) hbj hcj)
      hconflict s

/-- The second list has the instructions of the first, in an order with the same meaning. -/
def SameMeaning (roles : RegisterRoles) (locs : Locations) (ops ops' : List Instr) : Prop :=
  ∀ (α : Type u) (β : Type v) (meaning : Instr → Store α β → Store α β),
    Faithful roles locs meaning ops → ControlLast ops →
      ∀ s, exec meaning ops' s = exec meaning ops s

/-- Instructions in an order that respects the chains of edges mean the same. -/
theorem sameMeaning_pick {roles : RegisterRoles} {locs : Locations} {ops : List Instr}
    {nodes : List Nat} (hperm : nodes.Perm (List.range ops.length))
    (hpair : nodes.Pairwise fun x y => ¬ Chain (edges roles locs ops) y x) :
    SameMeaning.{u, v} roles locs ops (pick ops nodes) := by
  intro α β meaning hf hc s
  have hsorted : (List.range ops.length).Pairwise fun i j =>
      Chain (edges roles locs ops) i j ∨ ∀ s, stepAt meaning ops j (stepAt meaning ops i s) =
        stepAt meaning ops i (stepAt meaning ops j s) := by
    refine List.pairwise_lt_range.imp_of_mem fun {i j} _ hj hij => ?_
    exact chain_or_commute hf hc hij (List.mem_range.mp hj)
  have hfold := foldl_eq_of_perm (stepAt meaning ops) _ _ _ hperm.symm hsorted hpair s
  rw [exec_pick, ← hfold, ← exec_pick, pick_range]

/-- A block is scheduled without error, and into the same instructions with the same meaning. -/
theorem block_spec (roles : RegisterRoles) (locs : Locations) (b : Block) :
    (block roles locs b).2 = none ∧ (block roles locs b).1.ops.Perm b.ops ∧
      SameMeaning.{u, v} roles locs b.ops (block roles locs b).1.ops := by
  obtain ⟨nodes, horder, hperm, hpair⟩ := exists_order_of_graph roles locs b.ops
  have hpick : (pick b.ops nodes).Perm b.ops := by
    have h : (pick b.ops nodes).Perm (pick b.ops (List.range b.ops.length)) :=
      hperm.filterMap fun i => b.ops[i]?
    rwa [pick_range] at h
  unfold block
  rw [horder]
  exact ⟨rfl, hpick, sameMeaning_pick hperm hpair⟩

/-- Scheduling schedules each block, and never fails. -/
theorem run_eq (roles : RegisterRoles) (c : Closure) :
    run roles c =
      ({ c with blocks := c.blocks.map fun b => (block roles c.locations b).1 }, none) := by
  unfold run
  simp only [List.map_map, Function.comp_def, Prod.mk.injEq, true_and, List.findSome?_eq_none_iff,
    List.mem_map, Option.map_eq_none_iff]
  rintro ⟨label, b', e⟩ ⟨b, _, hb⟩
  have hnone := (block_spec.{0, 0} roles c.locations b).1
  rw [(Prod.mk.inj hb).2] at hnone
  exact hnone

/-- Scheduling never fails, and keeps the instructions and the meaning of every block. -/
theorem scheduled_blocks_keep_meaning (roles : RegisterRoles) (c : Closure) :
    (run roles c).2 = none ∧
      List.Forall₂ (fun b b' : Block =>
          b'.ops.Perm b.ops ∧ SameMeaning.{u, v} roles c.locations b.ops b'.ops)
        c.blocks (run roles c).1.blocks := by
  rw [run_eq]
  refine ⟨rfl, ?_⟩
  rw [List.forall₂_map_right_iff, List.forall₂_same]
  intro b _
  exact (block_spec roles c.locations b).2

end Backend.Schedule
