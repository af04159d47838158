-- What scheduling does around the instructions that leave a block. All that stands before such an
-- instruction stays before it. What stands after it stays after it exactly if a chain of edges says
-- so: everything else has a lower score and comes out first.
import Backend.Lowering.Closure
import Backend.Proofs.Schedule.Meaning

namespace Backend.Schedule

/-! ## Who comes out first -/

namespace Graph

theorem before_asymm (g : Graph) {a b : Nat} (hab : g.before a b = true) :
    g.before b a = false := by
  unfold before at *
  split_ifs at * <;> simp_all <;> omega

/-- Of the nodes that lead to a node and are not out yet, the earliest is available. -/
theorem exists_available {g : Graph} {done : List Nat} (hforward : ∀ i j, g.Edge i j → i < j)
    {y : Nat} (hy : y < g.size) (hout : y ∉ done) :
    ∃ z, Relation.ReflTransGen g.Edge z y ∧ g.Available done z := by
  induction y using Nat.strong_induction_on with
  | _ y ih =>
    by_cases hall : ∀ i, g.Edge i y → i ∈ done
    · exact ⟨y, .refl, hy, hout, hall⟩
    · push Not at hall
      obtain ⟨i, hi, hid⟩ := hall
      obtain ⟨z, hz, havail⟩ := ih i (hforward i y hi) hi.1 hid
      exact ⟨z, hz.tail hi, havail⟩

/-- A node comes out before another one if that holds of every node on the way to it: it leads to
the other node too, or goes before it when both are ready. -/
theorem Greedy.idxOf_lt {g : Graph} {done nodes : List Nat} (h : g.Greedy done nodes)
    (hclosed : g.Closed done) (hforward : ∀ i j, g.Edge i j → i < j) {x y : Nat}
    (hx : x ∈ nodes) (hy : y ∈ nodes)
    (hsooner : ∀ z, Relation.ReflTransGen g.Edge z y →
      z ≠ x ∧ (Relation.TransGen g.Edge z x ∨ g.before z x = true)) :
    nodes.idxOf y < nodes.idxOf x := by
  induction h with
  | stop none => cases hx
  | @step done rest next available least others ih =>
    have hyx : y ≠ x := (hsooner y .refl).1
    have hnext : next ≠ x := by
      rintro rfl
      -- Some node on the way to `y` is available, and the least node is not above it.
      have hyrest : y ∈ rest := by
        rcases List.mem_cons.mp hy with rfl | hyr
        · exact absurd rfl hyx
        · exact hyr
      obtain ⟨hlt, hout⟩ := others.mem y hyrest
      obtain ⟨z, hzy, hz⟩ := g.exists_available hforward hlt fun hd =>
        hout (List.mem_cons_of_mem next hd)
      obtain ⟨hzx, hlead | hbefore⟩ := hsooner z hzy
      · have hzd := (hclosed.cons available).of_transGen hlead List.mem_cons_self
        rcases List.mem_cons.mp hzd with rfl | hzd
        · exact hzx rfl
        · exact hz.2.1 hzd
      · have hasymm := g.before_asymm hbefore
        rw [least z hz hzx] at hasymm
        cases hasymm
    by_cases hny : next = y
    · subst hny
      rw [List.idxOf_cons_self, List.idxOf_cons_ne _ hnext]
      omega
    · have hxr : x ∈ rest := (List.mem_cons.mp hx).resolve_left fun e => hnext e.symm
      have hyr : y ∈ rest := (List.mem_cons.mp hy).resolve_left fun e => hny e.symm
      rw [List.idxOf_cons_ne _ hny, List.idxOf_cons_ne _ hnext]
      have hlt := ih (hclosed.cons available) hxr hyr
      omega

end Graph

/-! ## Scores of control -/

/-- Control has a higher score than everything else. -/
theorem rank_score_control (roles : RegisterRoles) (op : Instr) (a : Access) :
    if isControl op = true then 9 ≤ (score roles op a).rank else (score roles op a).rank ≤ 8 := by
  unfold score isControl setsArgument
  cases hop : op.op <;> simp [Opcode.isBranch, Opcode.isCondBranch, Score.rank] <;>
    split_ifs <;> simp [Opcode.isCompare] at *

/-- An instruction that is not control goes before one that is. -/
theorem before_of_control (roles : RegisterRoles) (locs : Locations) {ops : List Instr} {i j : Nat}
    {op op' : Instr} (hi : ops[i]? = some op) (hj : ops[j]? = some op') (hop : isControl op = true)
    (hop' : isControl op' = false) : (graph roles locs ops).before j i = true := by
  have h1 := rank_score_control roles op (access roles locs op)
  have h2 := rank_score_control roles op' (access roles locs op')
  rw [if_pos hop] at h1
  rw [if_neg (by simp [hop'])] at h2
  unfold Graph.before
  rw [graph_score roles locs hi, graph_score roles locs hj]
  rw [if_pos (by simp; omega)]
  simp
  omega

/-! ## The place of control in a schedule -/

/-- Instruction `i` of a block comes out before instruction `j`. -/
def ComesBefore (nodes : List Nat) (i j : Nat) : Prop := nodes.idxOf i < nodes.idxOf j

/-- A chain of edges orders two instructions. -/
theorem comesBefore_of_chain {es : List (Nat × Nat)} {nodes : List Nat} {i j : Nat}
    (hpair : nodes.Pairwise fun x y => ¬ Chain es y x) (hi : i ∈ nodes) (hj : j ∈ nodes)
    (hne : i ≠ j) (hchain : Chain es i j) : ComesBefore nodes i j := by
  by_contra hnot
  have hlt : nodes.idxOf j < nodes.idxOf i := by
    have hidx : nodes.idxOf i ≠ nodes.idxOf j := fun h => hne ((List.idxOf_inj hi).mp h)
    unfold ComesBefore at hnot
    omega
  have hget := List.pairwise_iff_getElem.mp hpair _ _ (List.idxOf_lt_length_of_mem hj)
    (List.idxOf_lt_length_of_mem hi) hlt
  rw [List.getElem_idxOf, List.getElem_idxOf] at hget
  exact hget hchain

section Block

variable {roles : RegisterRoles} {locs : Locations} {ops : List Instr}

/-- Every instruction before control leads to it. -/
theorem chain_to_control {i j : Nat} {op : Instr} (hi : ops[i]? = some op)
    (hop : isControl op = true) (hj : j < i) : Chain (edges roles locs ops) j i := by
  have hlen : i < ops.length := (List.getElem?_eq_some_iff.mp hi).1
  have hjl : j < ops.length := by omega
  exact (ordered_edges roles locs ops).chain j i ops[j] op hj (List.getElem?_eq_getElem hjl) hi
    (.inr (.inl (by simp [hop])))

/-- What lies on the way to an instruction that no chain connects with an earlier control
instruction: it leads to the control instruction too, or goes before it when both are ready. -/
theorem leads_or_before {i j z : Nat} {op : Instr} (hi : ops[i]? = some op)
    (hop : isControl op = true) (hij : i < j) (hj : j < ops.length)
    (hnone : ¬ Chain (edges roles locs ops) i j)
    (hz : Relation.ReflTransGen (fun a b => (a, b) ∈ edges roles locs ops) z j) :
    z ≠ i ∧ (Chain (edges roles locs ops) z i ∨ (graph roles locs ops).before z i = true) := by
  have hzlen : z < ops.length := by
    rcases hz.cases_head with rfl | ⟨w, hzw, -⟩
    · exact hj
    · have := (ordered_edges roles locs ops).forward _ hzw
      omega
  have hzi : z ≠ i := by
    rintro rfl
    rcases Relation.reflTransGen_iff_eq_or_transGen.mp hz with h | h
    · omega
    · exact hnone h
  refine ⟨hzi, ?_⟩
  rcases Nat.lt_or_gt_of_ne hzi with hlt | hgt
  · exact .inl (chain_to_control hi hop hlt)
  · refine .inr (before_of_control roles locs hi (List.getElem?_eq_getElem hzlen) hop ?_)
    -- Control after control would be the end of a chain, and then so would `j`.
    by_contra hc
    have hctl : isControl ops[z] = true := by simpa using hc
    have hchain := (ordered_edges roles locs ops).chain i z op ops[z] hgt hi
      (List.getElem?_eq_getElem hzlen) (.inr (.inl (by simp [hctl])))
    exact hnone (Relation.TransGen.trans_left hchain hz)

/-- An instruction after control that no chain connects with it comes out before it. -/
theorem comesBefore_of_unchained {nodes : List Nat}
    (horder : (graph roles locs ops).order = .ok nodes)
    (hperm : nodes.Perm (List.range ops.length)) {i j : Nat} {op : Instr} (hi : ops[i]? = some op)
    (hop : isControl op = true) (hij : i < j) (hj : j < ops.length)
    (hnone : ¬ Chain (edges roles locs ops) i j) : ComesBefore nodes j i := by
  have hgreedy := Graph.greedy_of_order (graph_wellFormed roles locs ops) horder
  have hmem : ∀ k < ops.length, k ∈ nodes := fun k hk =>
    hperm.mem_iff.mpr (List.mem_range.mpr hk)
  refine hgreedy.idxOf_lt (by simp [Graph.Closed]) ?_ (hmem i (by omega)) (hmem j hj) ?_
  · intro a b hab
    exact ((ordered_edges roles locs ops).forward _ ((graph_edge_iff ..).mp hab)).1
  · intro z hz
    obtain ⟨hne, hlead | hbefore⟩ := leads_or_before hi hop hij hj hnone
      (Relation.ReflTransGen.mono (fun a b h => (graph_edge_iff ..).mp h) _ _ hz)
    · exact ⟨hne, .inl (Relation.TransGen.mono (fun a b h => (graph_edge_iff ..).mpr h) _ _ hlead)⟩
    · exact ⟨hne, .inr hbefore⟩

/-- What the schedule of a block does around a control instruction. -/
theorem control_in_order {nodes : List Nat} (horder : (graph roles locs ops).order = .ok nodes)
    (hperm : nodes.Perm (List.range ops.length))
    (hpair : nodes.Pairwise fun x y => ¬ Chain (edges roles locs ops) y x) {i : Nat} {op : Instr}
    (hi : ops[i]? = some op) (hop : isControl op = true) :
    (∀ j < i, ComesBefore nodes j i) ∧
      ∀ j, i < j → j < ops.length →
        (ComesBefore nodes i j ↔ Chain (edges roles locs ops) i j) := by
  have hlen : i < ops.length := (List.getElem?_eq_some_iff.mp hi).1
  have hmem : ∀ j < ops.length, j ∈ nodes := fun j hj =>
    hperm.mem_iff.mpr (List.mem_range.mpr hj)
  refine ⟨fun j hj => ?_, fun j hij hj => ⟨fun hlt => ?_, fun hchain => ?_⟩⟩
  · exact comesBefore_of_chain hpair (hmem j (by omega)) (hmem i hlen) (by omega)
      (chain_to_control hi hop hj)
  · by_contra hnone
    have hgt := comesBefore_of_unchained horder hperm hi hop hij hj hnone
    unfold ComesBefore at hlt hgt
    omega
  · exact comesBefore_of_chain hpair (hmem i hlen) (hmem j hj) (by omega) hchain

end Block

/-- Scheduling around control. Every instruction that stands before a branch or a return stays
before it. One that stands after it stays after it exactly if a chain of edges leads from the one to
the other, and otherwise comes out before it. -/
theorem scheduled_control_overtaken_iff_unchained (roles : RegisterRoles) (c : Closure) :
    List.Forall₂ (fun b b' : Block => ∃ nodes : List Nat,
        (graph roles c.locations b.ops).order = .ok nodes ∧
          nodes.Perm (List.range b.ops.length) ∧ b'.ops = pick b.ops nodes ∧
          ∀ i op, b.ops[i]? = some op → isControl op = true →
            (∀ j < i, ComesBefore nodes j i) ∧
              ∀ j, i < j → j < b.ops.length →
                (ComesBefore nodes i j ↔ Chain (edges roles c.locations b.ops) i j))
      c.blocks (run roles c).1.blocks := by
  rw [run_eq, List.forall₂_map_right_iff, List.forall₂_same]
  intro b _
  obtain ⟨nodes, horder, hperm, hpair⟩ := exists_order_of_graph roles c.locations b.ops
  refine ⟨nodes, horder, hperm, ?_, fun i op hi hop => control_in_order horder hperm hpair hi hop⟩
  unfold block
  rw [horder]

/-! ## A return after a branch -/

def branch : Instr :=
  .make .beq (some (.reg (gpr Machine.rbx 8))) (some (.reg (gpr Machine.r12 8)))
    (some (.label ⟨"l", true⟩))

def loadResult : Instr := .make .move (some (.reg regRcx)) none (some (.reg regRax))

def leave : Instr := .make .ret (some (.reg regRax)) none none

def withOps (ops : List Instr) : Closure :=
  ⟨"f", "f", true, .i64, [], [⟨"entry", ops, [], [], [], []⟩], [], [], [], 0, []⟩

/-- Returning a value after a branch loads rax after the branch. The schedule loads it before, for
both ways out of the block. -/
theorem loaded_result_overtakes_branch :
    (Target.amd64Linux ⟨false, false, []⟩).lower
        (withOps [branch, .make .retValue (some (.reg regRcx)) none none]) =
      .ok (withOps [branch, loadResult, leave]) ∧
      isControl branch = true ∧
      run Target.roles (withOps [branch, loadResult, leave]) =
        (withOps [loadResult, branch, leave], none) := ⟨rfl, rfl, rfl⟩

end Backend.Schedule
