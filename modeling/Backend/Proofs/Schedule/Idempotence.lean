-- Scheduling twice is scheduling once. Every edge stands for two instructions that may not change
-- places, and those are ordered again in the schedule. So whatever is ready in the second run was
-- ready in the first run at the same place, and was passed over there.
import Backend.Proofs.Schedule.Order
import Backend.Proofs.Schedule.Meaning

namespace Backend.Schedule

/-! ## Orders that keep all places -/

namespace Graph

/-- A graph has one greedy order. -/
theorem Greedy.unique {g : Graph} {done nodes nodes' : List Nat} (h : g.Greedy done nodes)
    (h' : g.Greedy done nodes') : nodes = nodes' := by
  induction h generalizing nodes' with
  | stop none =>
    cases h' with
    | stop _ => rfl
    | step next available _ _ => exact absurd available (none next)
  | step next available least others ih =>
    cases h' with
    | stop none => exact absurd available (none next)
    | step next' available' least' others' =>
      have heq : next = next' := by
        by_contra hne
        have hgt := least' next available hne
        have hlt := least next' available' (Ne.symm hne)
        rw [before_iff] at hgt hlt
        omega
      subst heq
      rw [ih others']

/-- Each node is the least available one when exactly the nodes with lower numbers are out. -/
def LeastInTurn (g : Graph) : Prop :=
  ∀ k < g.size, g.Available (List.range k) k ∧
    ∀ j, g.Available (List.range k) j → j ≠ k → g.before k j = true

theorem LeastInTurn.greedy {g : Graph} (h : g.LeastInTurn) {done : List Nat} {k n : Nat}
    (hn : k + n = g.size) (hdone : ∀ i, i ∈ done ↔ i < k) : g.Greedy done (List.range' k n) := by
  have hout : ∀ i, i ∈ List.range k ↔ i ∈ done := by simp [hdone]
  induction n generalizing done k with
  | zero =>
    refine .stop fun j hj => ?_
    have hlt := hj.1
    exact hj.2.1 ((hdone j).mpr (by omega))
  | succ n ih =>
    obtain ⟨havail, hleast⟩ := h k (by omega)
    have hnext : ∀ i, i ∈ k :: done ↔ i < k + 1 := by
      intro i
      rw [List.mem_cons, hdone]
      omega
    rw [List.range'_succ]
    refine .step k ((Available.congr hout).mp havail) (fun j hj => ?_) ?_
    · exact hleast j ((Available.congr hout).mpr hj)
    · exact ih (by omega) hnext (by simp [hnext])

/-- The order of such a graph leaves every node where it is. -/
theorem LeastInTurn.order_eq {g : Graph} (h : g.LeastInTurn) (hg : g.WellFormed) :
    g.order = .ok (List.range g.size) := by
  obtain ⟨nodes, hgreedy, horder⟩ := order_eq_greedy hg
  have hrange : g.Greedy [] (List.range' 0 g.size) := h.greedy (Nat.zero_add _) (by simp)
  rw [← List.range_eq_range'] at hrange
  rw [horder, hgreedy.unique hrange, if_pos List.length_range]

end Graph

/-! ## What an edge stands for -/

/-- The second instruction, which stands later, may not go before the first. -/
def KeepsAfter (roles : RegisterRoles) (locs : Locations) (op op' : Instr) : Prop :=
  Conflict (access roles locs op) (access roles locs op') ∨
    (isBarrier op' || isControl op') = true ∨ isBarrier op = true

/-- What the builder keeps is what instructions of the list have done, and its edges lead from
instructions to those that may not go before them. -/
structure Justified (roles : RegisterRoles) (locs : Locations) (ops : List Instr) (bd : Builder) :
    Prop where
  writer : ∀ k d, bd.defOf k = some d →
    ∃ op, ops[d]? = some op ∧ k ∈ (access roles locs op).writes
  reader : ∀ k, ∀ r ∈ bd.readersOf k,
    ∃ op, ops[r]? = some op ∧ k ∈ (access roles locs op).reads
  memory : ∀ m, bd.lastMem = some m →
    ∃ op, ops[m]? = some op ∧ (access roles locs op).memory = true
  edge : ∀ e ∈ bd.edges,
    ∃ op op', ops[e.1]? = some op ∧ ops[e.2]? = some op' ∧ KeepsAfter roles locs op op'

section Step

variable {roles : RegisterRoles} {locs : Locations} {ops : List Instr} {bd bd' : Builder}
  {op : Instr}

theorem justified_empty : Justified roles locs [] Builder.empty := by
  constructor <;> simp [Builder.empty, Builder.defOf, Builder.readersOf]

/-- An instruction that gets an edge to the next one may not change places with it. -/
theorem Justified.before (h : Justified roles locs ops bd) {d : Nat}
    (hd : d ∈ bd.before (access roles locs op) ops.length (isBarrier op || isControl op)) :
    ∃ x, ops[d]? = some x ∧ KeepsAfter roles locs x op := by
  simp only [Builder.before, List.mem_append, List.mem_filterMap, List.mem_flatMap,
    Option.mem_toList] at hd
  rcases hd with ((⟨k, hk, hd⟩ | ⟨k, hk, hd | hd⟩) | hd) | hd
  · obtain ⟨x, hx, hw⟩ := h.writer k d hd
    exact ⟨x, hx, .inl (.inl ⟨k, hw, .inl hk⟩)⟩
  · obtain ⟨x, hx, hw⟩ := h.writer k d hd
    exact ⟨x, hx, .inl (.inl ⟨k, hw, .inr hk⟩)⟩
  · obtain ⟨x, hx, hr⟩ := h.reader k d hd
    exact ⟨x, hx, .inl (.inr (.inl ⟨k, hr, hk⟩))⟩
  · split at hd
    · rename_i hmem
      obtain ⟨x, hx, hm⟩ := h.memory d (by simpa using hd)
      exact ⟨x, hx, .inl (.inr (.inr ⟨hm, hmem⟩))⟩
    · cases hd
  · split at hd
    · rename_i hfence
      exact ⟨_, List.getElem?_eq_getElem (List.mem_range.mp hd), .inr (.inl hfence)⟩
    · cases hd

theorem Justified.add (h : Justified roles locs ops bd)
    (hadd : Added (access roles locs op) (isBarrier op || isControl op) ops.length bd bd') :
    Justified roles locs (ops ++ [op]) bd' := by
  have hold : ∀ {i : Nat} {x : Instr}, ops[i]? = some x → (ops ++ [op])[i]? = some x := by
    intro i x hx
    rw [List.getElem?_append_left (List.getElem?_eq_some_iff.mp hx).1]
    exact hx
  have hnew : (ops ++ [op])[ops.length]? = some op := by simp
  constructor
  · intro k d hd
    rw [hadd.defOf] at hd
    split at hd
    · cases hd
      exact ⟨op, hnew, ‹_›⟩
    · obtain ⟨x, hx, hw⟩ := h.writer k d hd
      exact ⟨x, hold hx, hw⟩
  · intro k r hr
    rcases ((hadd.readersOf k r).mp hr).2 with hr | ⟨hk, rfl⟩
    · obtain ⟨x, hx, hk⟩ := h.reader k r hr
      exact ⟨x, hold hx, hk⟩
    · exact ⟨op, hnew, hk⟩
  · intro m hm
    rw [hadd.lastMem] at hm
    split at hm
    · cases hm
      exact ⟨op, hnew, ‹_›⟩
    · obtain ⟨x, hx, hmem⟩ := h.memory m hm
      exact ⟨x, hold hx, hmem⟩
  · intro e he
    rw [hadd.edges, mem_edgesTo] at he
    rcases he with he | ⟨d, hd, -, rfl⟩
    · obtain ⟨x, y, hx, hy, hxy⟩ := h.edge e he
      exact ⟨x, y, hold hx, hold hy, hxy⟩
    · obtain ⟨x, hx, hxop⟩ := h.before hd
      exact ⟨x, op, hold hx, hnew, hxop⟩

end Step

theorem justified_foldl (roles : RegisterRoles) (locs : Locations) (ops : List Instr) :
    Justified roles locs ops (ops.zipIdx.foldl (Builder.add roles locs) .empty) := by
  induction ops using List.reverseRecOn with
  | nil => exact justified_empty
  | append_singleton ops op ih =>
    rw [List.zipIdx_append, List.foldl_append]
    simp only [Nat.zero_add, List.zipIdx_cons, List.zipIdx_nil, List.foldl_cons, List.foldl_nil]
    exact ih.add (added_add roles locs _ op ops.length)

/-- An edge leads to an instruction that may not go before the one where it starts. -/
theorem keepsAfter_of_edge {roles : RegisterRoles} {locs : Locations} {ops : List Instr}
    {e : Nat × Nat} (he : e ∈ edges roles locs ops) :
    ∃ op op', ops[e.1]? = some op ∧ ops[e.2]? = some op' ∧ KeepsAfter roles locs op op' := by
  unfold edges at he
  rw [mem_foldl_barrierEdges] at he
  rcases he with he | ⟨op, hop, hbarrier, -, hlt⟩
  · exact (justified_foldl roles locs ops).edge e he
  · exact ⟨op, _, List.mk_mem_zipIdx_iff_getElem?.mp hop, List.getElem?_eq_getElem hlt,
      .inr (.inr hbarrier)⟩

/-! ## The schedule of a schedule -/

theorem getElem?_pick (ops : List Instr) {nodes : List Nat} (h : ∀ i ∈ nodes, i < ops.length)
    {k : Nat} (hk : k < nodes.length) : (pick ops nodes)[k]? = ops[nodes[k]]? := by
  induction nodes generalizing k with
  | nil => cases hk
  | cons i nodes ih =>
    have hi : i < ops.length := h i List.mem_cons_self
    have hcons : pick ops (i :: nodes) = ops[i] :: pick ops nodes := by simp [pick, hi]
    rw [hcons]
    cases k with
    | zero => simp [hi]
    | succ k =>
      rw [List.getElem?_cons_succ, List.getElem_cons_succ]
      exact ih (fun j hj => h j (List.mem_cons_of_mem i hj)) (Nat.lt_of_succ_lt_succ hk)

section Again

variable {roles : RegisterRoles} {locs : Locations} {ops : List Instr} {nodes : List Nat}

theorem length_pick (hperm : nodes.Perm (List.range ops.length)) :
    (pick ops nodes).length = ops.length := by
  have h : (pick ops nodes).Perm (pick ops (List.range ops.length)) :=
    hperm.filterMap fun i => ops[i]?
  rw [pick_range] at h
  exact h.length_eq

/-- What has an edge to an instruction of the block has a chain of edges to it in the schedule. -/
theorem chain_of_edge (hgreedy : (graph roles locs ops).Greedy [] nodes)
    (hperm : nodes.Perm (List.range ops.length)) {p j : Nat} (hp : p < nodes.length)
    (hj : j < nodes.length) (he : (nodes[p], nodes[j]) ∈ edges roles locs ops) :
    Chain (edges roles locs (pick ops nodes)) p j := by
  have hlt : ∀ i ∈ nodes, i < ops.length := fun i hi => List.mem_range.mp (hperm.mem_iff.mp hi)
  have hnodup : nodes.Nodup := hperm.nodup_iff.mpr List.nodup_range
  obtain ⟨x, y, hx, hy, hxy⟩ := keepsAfter_of_edge he
  have hpj : p < j := by
    have hidx := hgreedy.idxOf_lt_of_edge (by rwa [graph_size]) (graph_wellFormed roles locs ops)
      ((graph_edge_iff roles locs ops _ _).mpr he)
    rwa [hnodup.idxOf_getElem, hnodup.idxOf_getElem] at hidx
  refine (ordered_edges roles locs (pick ops nodes)).chain p j x y hpj ?_ ?_ hxy
  · rw [getElem?_pick ops hlt hp, hx]
  · rw [getElem?_pick ops hlt hj, hy]

/-- What is ready in the second run was ready in the first run at the same place. -/
theorem available_of_again (hgreedy : (graph roles locs ops).Greedy [] nodes)
    (hperm : nodes.Perm (List.range ops.length)) {k j : Nat} (hj : j < nodes.length)
    (havail : (graph roles locs (pick ops nodes)).Available (List.range k) j) :
    (graph roles locs ops).Available (nodes.take k) nodes[j] := by
  have hnodup : nodes.Nodup := hperm.nodup_iff.mpr List.nodup_range
  have hkj : k ≤ j := by simpa using havail.2.1
  refine ⟨?_, fun hmem => ?_, fun u hu => ?_⟩
  · rw [graph_size]
    exact List.mem_range.mp (hperm.mem_iff.mp (List.getElem_mem hj))
  · obtain ⟨p, hp, heq⟩ := List.mem_take_iff_getElem.mp hmem
    have := (hnodup.getElem_inj_iff).mp heq
    omega
  · have hu' : u ∈ nodes := hperm.mem_iff.mpr (List.mem_range.mpr (by
      simpa [graph_size] using hu.1))
    obtain ⟨p, hp, rfl⟩ := List.mem_iff_getElem.mp hu'
    have hchain := chain_of_edge hgreedy hperm hp hj ((graph_edge_iff ..).mp hu)
    -- The last edge of the chain starts at an instruction that is out, and the chain goes forward.
    obtain ⟨w, hpw, hwj⟩ := Relation.TransGen.tail'_iff.mp hchain
    have hwk : w < k := List.mem_range.mp (havail.2.2 w ((graph_edge_iff ..).mpr hwj))
    have hle : Relation.ReflTransGen (· ≤ ·) p w := Relation.ReflTransGen.mono
      (fun a b hab => ((ordered_edges roles locs (pick ops nodes)).forward _ hab).1.le) _ _ hpw
    rw [Relation.reflTransGen_eq_self] at hle
    exact List.mem_take_iff_getElem.mpr ⟨p, by omega, rfl⟩

/-- In the graph of a schedule every instruction is the least ready one in its turn. -/
theorem leastInTurn_of_schedule (hgreedy : (graph roles locs ops).Greedy [] nodes)
    (hperm : nodes.Perm (List.range ops.length)) :
    (graph roles locs (pick ops nodes)).LeastInTurn := by
  have hlen : nodes.length = ops.length := by simpa using hperm.length_eq
  have hlt : ∀ i ∈ nodes, i < ops.length := fun i hi => List.mem_range.mp (hperm.mem_iff.mp hi)
  have hsize : (graph roles locs (pick ops nodes)).size = nodes.length := by
    rw [graph_size, length_pick hperm, hlen]
  have hscore : ∀ (k : Nat) (hk : k < nodes.length),
      (graph roles locs (pick ops nodes)).score k = (graph roles locs ops).score nodes[k] := by
    intro k hk
    have hop := List.getElem?_eq_getElem (hlt _ (List.getElem_mem hk))
    rw [graph_score roles locs hop, graph_score roles locs ((getElem?_pick ops hlt hk).trans hop)]
  intro k hk
  rw [hsize] at hk
  refine ⟨⟨by rwa [hsize], by simp, fun i hi => ?_⟩, fun j hj hne => ?_⟩
  · have hforward := (ordered_edges roles locs (pick ops nodes)).forward _
      ((graph_edge_iff ..).mp hi)
    exact List.mem_range.mpr hforward.1
  · have hjlen : j < nodes.length := by
      rw [← hsize]
      exact hj.1
    have hkj : k ≤ j := by simpa using hj.2.1
    have hnodup : nodes.Nodup := hperm.nodup_iff.mpr List.nodup_range
    have hne' : nodes[j] ≠ nodes[k] := fun h => hne ((hnodup.getElem_inj_iff).mp h)
    have hfirst := (hgreedy.at_place hk).2 nodes[j]
      (by simpa using available_of_again hgreedy hperm hjlen hj) hne'
    rw [Graph.before_iff] at hfirst ⊢
    rw [hscore k hk, hscore j hjlen]
    omega

end Again

/-- A scheduled block is scheduled into itself. -/
theorem block_block (roles : RegisterRoles) (locs : Locations) (b : Block) :
    block roles locs (block roles locs b).1 = block roles locs b := by
  obtain ⟨nodes, horder, hperm, -⟩ := exists_order_of_graph roles locs b.ops
  have hgreedy := Graph.greedy_of_order (graph_wellFormed roles locs b.ops) horder
  have hagain := (leastInTurn_of_schedule hgreedy hperm).order_eq (graph_wellFormed ..)
  rw [graph_size] at hagain
  have hfirst : block roles locs b = ({ b with ops := pick b.ops nodes }, none) := by
    unfold block
    rw [horder]
  rw [hfirst]
  unfold block
  dsimp only
  rw [hagain]
  dsimp only
  rw [pick_range]

/-- Scheduling is idempotent: the second run leaves every block as the first run made it. -/
theorem scheduling_is_idempotent (roles : RegisterRoles) (c : Closure) :
    run roles (run roles c).1 = run roles c := by
  rw [run_eq, run_eq]
  simp only [List.map_map, Function.comp_def, block_block]

end Backend.Schedule
