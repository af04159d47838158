-- The laws of the edges of a block. Only the last definition of a key, the readers since then and
-- the last access to memory are kept, so most pairs of instructions that may not change places are
-- ordered by a chain of edges and not by one.
import Backend.Proofs.Schedule.Order
import Backend.Schedule.Block
import Mathlib.Algebra.BigOperators.Group.Finset.Piecewise

namespace Backend

theorem lookup_filter_key {α β : Type} [DecidableEq α] (k k' : α) (t : List (α × β)) :
    (t.filter fun (key, _) => key != k).lookup k' = if k' = k then none else t.lookup k' := by
  induction t with
  | nil => simp
  | cons p rest ih =>
    obtain ⟨a, b⟩ := p
    by_cases ha : a = k
    · subst ha
      rw [List.filter_cons_of_neg (by simp), ih]
      by_cases hk : k' = a
      · simp [hk]
      · have hk' : (k' == a) = false := by simpa using hk
        simp [hk, List.lookup_cons, hk']
    · rw [List.filter_cons_of_pos (by simpa using ha), List.lookup_cons, ih, List.lookup_cons]
      by_cases hk : k' = k
      · subst hk
        have hk' : (k' == a) = false := by simpa using fun e => ha e.symm
        simp [hk']
      · simp [hk]

end Backend

namespace Backend.Schedule

/-! ## Adding edges -/

theorem mem_addEdge {es : List (Nat × Nat)} {start stop : Nat} {e : Nat × Nat} :
    e ∈ addEdge es start stop ↔ e ∈ es ∨ (start ≠ stop ∧ e = (start, stop)) := by
  unfold addEdge
  by_cases hs : start = stop
  · simp [hs]
  · by_cases hc : (start, stop) ∈ es
    · rw [if_pos (by simp [hc])]
      constructor
      · exact .inl
      · rintro (h | ⟨_, rfl⟩)
        · exact h
        · exact hc
    · rw [if_neg (by simp [hs, hc])]
      simp [hs]

theorem nodup_addEdge {es : List (Nat × Nat)} (h : es.Nodup) (start stop : Nat) :
    (addEdge es start stop).Nodup := by
  unfold addEdge
  split
  · exact h
  · rename_i hc
    have hnot : (start, stop) ∉ es := by
      intro hmem
      exact hc (by simp [hmem])
    rw [List.nodup_append]
    refine ⟨h, List.nodup_singleton _, ?_⟩
    intro x hx y hy
    rw [List.mem_singleton] at hy
    rintro rfl
    exact hnot (hy ▸ hx)

/-- Edges that are added one after the other. -/
theorem mem_foldl_addEdge {α : Type} (start stop : α → Nat) (l : List α) (es : List (Nat × Nat))
    (e : Nat × Nat) :
    e ∈ l.foldl (fun es x => addEdge es (start x) (stop x)) es ↔
      e ∈ es ∨ ∃ x ∈ l, start x ≠ stop x ∧ e = (start x, stop x) := by
  induction l generalizing es with
  | nil => simp
  | cons x l ih =>
    rw [List.foldl_cons, ih, mem_addEdge]
    simp only [List.mem_cons, exists_eq_or_imp, or_assoc]

theorem nodup_foldl_addEdge {α : Type} (start stop : α → Nat) (l : List α)
    {es : List (Nat × Nat)} (h : es.Nodup) :
    (l.foldl (fun es x => addEdge es (start x) (stop x)) es).Nodup := by
  induction l generalizing es with
  | nil => exact h
  | cons x l ih => exact ih (nodup_addEdge h _ _)

/-- Edges from a list of instructions to one. -/
def edgesTo (idx : Nat) (starts : List Nat) (es : List (Nat × Nat)) : List (Nat × Nat) :=
  starts.foldl (fun es d => addEdge es d idx) es

theorem mem_edgesTo {idx : Nat} {starts : List Nat} {es : List (Nat × Nat)} {e : Nat × Nat} :
    e ∈ edgesTo idx starts es ↔ e ∈ es ∨ ∃ d ∈ starts, d ≠ idx ∧ e = (d, idx) :=
  mem_foldl_addEdge (fun d => d) (fun _ => idx) starts es e

theorem nodup_edgesTo (idx : Nat) (starts : List Nat) {es : List (Nat × Nat)} (h : es.Nodup) :
    (edgesTo idx starts es).Nodup :=
  nodup_foldl_addEdge (fun d => d) (fun _ => idx) starts h

theorem edgesTo_append (idx : Nat) (starts starts' : List Nat) (es : List (Nat × Nat)) :
    edgesTo idx (starts ++ starts') es = edgesTo idx starts' (edgesTo idx starts es) :=
  List.foldl_append

/-! ## Adding one instruction -/

/-- The last definition of a key. -/
def Builder.defOf (bd : Builder) (k : Key) : Option Nat := bd.lastDef.lookup k

/-- The instructions that have read a key since its last definition. -/
def Builder.readersOf (bd : Builder) (k : Key) : List Nat := (bd.readers.lookup k).getD []

/-- The instructions from which the next one gets an edge. -/
def Builder.before (bd : Builder) (a : Access) (idx : Nat) (fence : Bool) : List Nat :=
  a.reads.filterMap bd.defOf ++
    (a.writes.flatMap fun k => (bd.defOf k).toList ++ bd.readersOf k) ++
    (if a.memRead || a.memWrite then bd.lastMem.toList else []) ++
    (if fence then List.range idx else [])

theorem foldl_afterDef (idx : Nat) (keys : List Key) (bd : Builder) :
    keys.foldl (Builder.afterDef idx) bd =
      { bd with edges := edgesTo idx (keys.filterMap bd.defOf) bd.edges } := by
  induction keys generalizing bd with
  | nil => rfl
  | cons k keys ih =>
    rw [List.foldl_cons, ih]
    unfold Builder.afterDef Builder.defOf
    cases hk : bd.lastDef.lookup k with
    | none => simp [hk]
    | some d => simp [hk, edgesTo]

theorem foldl_afterWrites (idx : Nat) (keys : List Key) (bd : Builder) :
    keys.foldl (fun bd k => (bd.afterDef idx k).afterReaders idx k) bd =
      { bd with
        edges := edgesTo idx (keys.flatMap fun k => (bd.defOf k).toList ++ bd.readersOf k)
          bd.edges } := by
  induction keys generalizing bd with
  | nil => rfl
  | cons k keys ih =>
    rw [List.foldl_cons, ih]
    unfold Builder.afterReaders Builder.afterDef Builder.defOf Builder.readersOf
    cases hk : bd.lastDef.lookup k with
    | none => simp [hk, edgesTo]
    | some d => simp [hk, edgesTo]

/-- Noting the keys that are read changes the readers only. -/
theorem foldl_noteRead (idx : Nat) (keys : List Key) (bd : Builder) :
    (keys.foldl (Builder.noteRead idx) bd).edges = bd.edges ∧
      (keys.foldl (Builder.noteRead idx) bd).lastDef = bd.lastDef ∧
      (keys.foldl (Builder.noteRead idx) bd).lastMem = bd.lastMem ∧
      ∀ k r, r ∈ (keys.foldl (Builder.noteRead idx) bd).readersOf k ↔
        r ∈ bd.readersOf k ∨ (k ∈ keys ∧ r = idx) := by
  induction keys generalizing bd with
  | nil => simp
  | cons x keys ih =>
    rw [List.foldl_cons]
    obtain ⟨hedges, hdef, hmem, hreaders⟩ := ih (bd.noteRead idx x)
    refine ⟨hedges, hdef, hmem, fun k r => ?_⟩
    have hone : r ∈ (bd.noteRead idx x).readersOf k ↔ r ∈ bd.readersOf k ∨ (k = x ∧ r = idx) := by
      unfold Builder.noteRead Builder.readersOf
      by_cases hk : k = x
      · subst hk
        simp [lookup_assocInsert_self]
      · simp [lookup_assocInsert_ne hk, hk]
    rw [hreaders, hone, List.mem_cons]
    tauto

/-- Noting the keys that are written makes the instruction their last definition, with no readers
since. -/
theorem foldl_noteWrite (idx : Nat) (keys : List Key) (bd : Builder) :
    (keys.foldl (Builder.noteWrite idx) bd).edges = bd.edges ∧
      (keys.foldl (Builder.noteWrite idx) bd).lastMem = bd.lastMem ∧
      (∀ k, (keys.foldl (Builder.noteWrite idx) bd).defOf k =
        if k ∈ keys then some idx else bd.defOf k) ∧
      ∀ k, (keys.foldl (Builder.noteWrite idx) bd).readersOf k =
        if k ∈ keys then [] else bd.readersOf k := by
  induction keys generalizing bd with
  | nil => simp
  | cons x keys ih =>
    rw [List.foldl_cons]
    obtain ⟨hedges, hmem, hdef, hreaders⟩ := ih (bd.noteWrite idx x)
    refine ⟨hedges, hmem, fun k => ?_, fun k => ?_⟩
    · rw [hdef]
      by_cases hk : k = x
      · subst hk
        simp [Builder.noteWrite, Builder.defOf, lookup_assocInsert_self]
      · simp [Builder.noteWrite, Builder.defOf, lookup_assocInsert_ne hk, hk]
    · rw [hreaders]
      unfold Builder.noteWrite Builder.readersOf
      rw [lookup_filter_key]
      by_cases hk : k = x
      · simp [hk]
      · simp [hk]

/-- The builder after the keys of an instruction are dealt with, and before memory is. -/
def Builder.addKeys (idx : Nat) (a : Access) (bd : Builder) : Builder :=
  let bd := a.reads.foldl (Builder.afterDef idx) bd
  let bd := a.writes.foldl (fun bd k => (bd.afterDef idx k).afterReaders idx k) bd
  let bd := a.reads.foldl (Builder.noteRead idx) bd
  a.writes.foldl (Builder.noteWrite idx) bd

theorem addKeys_spec (idx : Nat) (a : Access) (bd : Builder) :
    (bd.addKeys idx a).edges = edgesTo idx (a.reads.filterMap bd.defOf ++
        a.writes.flatMap fun k => (bd.defOf k).toList ++ bd.readersOf k) bd.edges ∧
      (bd.addKeys idx a).lastMem = bd.lastMem ∧
      (∀ k, (bd.addKeys idx a).defOf k = if k ∈ a.writes then some idx else bd.defOf k) ∧
      ∀ k r, r ∈ (bd.addKeys idx a).readersOf k ↔
        k ∉ a.writes ∧ (r ∈ bd.readersOf k ∨ (k ∈ a.reads ∧ r = idx)) := by
  unfold Builder.addKeys
  dsimp only
  rw [foldl_afterDef, foldl_afterWrites]
  generalize hb : Builder.mk _ bd.lastDef bd.readers bd.lastMem = bd2
  obtain ⟨hedges, hdef, hmem, hreaders⟩ := foldl_noteRead idx a.reads bd2
  obtain ⟨hedges', hmem', hdef', hreaders'⟩ :=
    foldl_noteWrite idx a.writes (a.reads.foldl (Builder.noteRead idx) bd2)
  refine ⟨?_, ?_, fun k => ?_, fun k r => ?_⟩
  · rw [hedges', hedges, ← hb, edgesTo_append]
    rfl
  · rw [hmem', hmem, ← hb]
  · rw [hdef', Builder.defOf, hdef, ← hb]
    rfl
  · rw [hreaders']
    split
    · simp_all
    · rename_i hk
      rw [hreaders, ← hb]
      simp only [hk, not_false_eq_true, true_and]
      rfl

/-- What is known after an instruction is added: its edges, and the definitions, readers and access
to memory that it leaves behind. -/
structure Added (a : Access) (fence : Bool) (idx : Nat) (bd bd' : Builder) : Prop where
  edges : bd'.edges = edgesTo idx (bd.before a idx fence) bd.edges
  defOf : ∀ k, bd'.defOf k = if k ∈ a.writes then some idx else bd.defOf k
  readersOf : ∀ k r, r ∈ bd'.readersOf k ↔
    k ∉ a.writes ∧ (r ∈ bd.readersOf k ∨ (k ∈ a.reads ∧ r = idx))
  lastMem : bd'.lastMem = if a.memRead || a.memWrite then some idx else bd.lastMem

theorem added_add (roles : RegisterRoles) (locs : Locations) (bd : Builder) (i : Instr)
    (idx : Nat) :
    Added (access roles locs i) (isBarrier i || isControl i) idx bd
      (bd.add roles locs (i, idx)) := by
  have hadd : bd.add roles locs (i, idx) =
      (let bd := bd.addKeys idx (access roles locs i)
       let bd := if (access roles locs i).memRead || (access roles locs i).memWrite then
         bd.memory idx else bd
       if isBarrier i || isControl i then bd.afterAll idx else bd) := rfl
  rw [hadd]
  generalize access roles locs i = a
  generalize (isBarrier i || isControl i) = fence
  obtain ⟨hedges, hmem, hdef, hreaders⟩ := addKeys_spec idx a bd
  generalize bd.addKeys idx a = bd1 at hedges hmem hdef hreaders ⊢
  have hmemory : ∀ x : Builder, (x.memory idx).edges = edgesTo idx x.lastMem.toList x.edges := by
    intro x
    unfold Builder.memory edgesTo
    cases x.lastMem <;> rfl
  have hall : ∀ x : Builder, (x.afterAll idx).edges = edgesTo idx (List.range idx) x.edges :=
    fun _ => rfl
  cases ha : a.memRead || a.memWrite with
  | true =>
    cases fence with
    | true =>
      refine ⟨?_, hdef, hreaders, by simp [ha, Builder.memory, Builder.afterAll]⟩
      simp [hall, Builder.before, edgesTo_append, ha, hmemory, hedges, hmem]
    | false =>
      refine ⟨?_, hdef, hreaders, by simp [ha, Builder.memory]⟩
      simp [Builder.before, edgesTo_append, ha, hmemory, hedges, hmem]
  | false =>
    cases fence with
    | true =>
      refine ⟨?_, hdef, hreaders, by simp [ha, hmem, Builder.afterAll]⟩
      simp [hall, Builder.before, edgesTo_append, ha, hedges]
    | false =>
      refine ⟨?_, hdef, hreaders, by simp [ha, hmem]⟩
      simp [Builder.before, ha, hedges]

/-! ## Chains of edges -/

/-- The instruction reads or writes memory. -/
def Access.memory (a : Access) : Bool := a.memRead || a.memWrite

/-- Two instructions that may not change places: one writes what the other reads or writes, or both
use memory. -/
def Conflict (a b : Access) : Prop :=
  (∃ k ∈ a.writes, k ∈ b.reads ∨ k ∈ b.writes) ∨ (∃ k ∈ a.reads, k ∈ b.writes) ∨
    (a.memory = true ∧ b.memory = true)

/-- A chain of edges, of one at least. -/
abbrev Chain (es : List (Nat × Nat)) : Nat → Nat → Prop := Relation.TransGen fun i j => (i, j) ∈ es

/-- A chain of edges that may be empty. -/
abbrev Reach (es : List (Nat × Nat)) : Nat → Nat → Prop :=
  Relation.ReflTransGen fun i j => (i, j) ∈ es

/-- What holds of the builder after the instructions of a list. Whatever an instruction defines,
reads or finds in memory, a chain of edges leads from it to what the builder has kept. -/
structure Built (roles : RegisterRoles) (locs : Locations) (ops : List Instr) (bd : Builder) :
    Prop where
  forward : ∀ e ∈ bd.edges, e.1 < e.2 ∧ e.2 < ops.length
  nodup : bd.edges.Nodup
  def_lt : ∀ k d, bd.defOf k = some d → d < ops.length
  reader_lt : ∀ k, ∀ r ∈ bd.readersOf k, r < ops.length
  mem_lt : ∀ m, bd.lastMem = some m → m < ops.length
  writers : ∀ i op, ops[i]? = some op → ∀ k ∈ (access roles locs op).writes,
    ∃ d, bd.defOf k = some d ∧ Reach bd.edges i d
  readers : ∀ i op, ops[i]? = some op → ∀ k ∈ (access roles locs op).reads,
    i ∈ bd.readersOf k ∨ ∃ d, bd.defOf k = some d ∧ Reach bd.edges i d
  memory : ∀ i op, ops[i]? = some op → (access roles locs op).memory = true →
    ∃ m, bd.lastMem = some m ∧ Reach bd.edges i m
  ordered : ∀ i j op op', i < j → ops[i]? = some op → ops[j]? = some op' →
    Conflict (access roles locs op) (access roles locs op') ∨
      (isBarrier op' || isControl op') = true → Chain bd.edges i j

theorem built_empty (roles : RegisterRoles) (locs : Locations) :
    Built roles locs [] Builder.empty := by
  constructor <;> simp [Builder.empty, Builder.defOf, Builder.readersOf]

section Step

variable {roles : RegisterRoles} {locs : Locations} {ops : List Instr} {bd bd' : Builder}
  {op : Instr}

/-- The instructions that get an edge come before. -/
theorem Built.before_lt (h : Built roles locs ops bd) (a : Access) (fence : Bool) :
    ∀ d ∈ bd.before a ops.length fence, d < ops.length := by
  intro d hd
  simp only [Builder.before, List.mem_append, List.mem_filterMap, List.mem_flatMap,
    Option.mem_toList] at hd
  rcases hd with ((⟨k, _, hk⟩ | ⟨k, _, hk | hk⟩) | hm) | hr
  · exact h.def_lt k d hk
  · exact h.def_lt k d hk
  · exact h.reader_lt k d hk
  · split at hm
    · exact h.mem_lt d (by simpa using hm)
    · cases hm
  · split at hr
    · exact List.mem_range.mp hr
    · cases hr

/-- The edges of an instruction that is added. -/
theorem Built.edge_of_before {a : Access} {fence : Bool} {d : Nat} (h : Built roles locs ops bd)
    (hadd : Added a fence ops.length bd bd') (hd : d ∈ bd.before a ops.length fence) :
    (d, ops.length) ∈ bd'.edges := by
  rw [hadd.edges, mem_edgesTo]
  exact .inr ⟨d, hd, (h.before_lt a fence d hd).ne, rfl⟩

theorem Added.edges_mono {a : Access} {fence : Bool} {n : Nat} (h : Added a fence n bd bd')
    {e : Nat × Nat} (he : e ∈ bd.edges) : e ∈ bd'.edges := by
  rw [h.edges, mem_edgesTo]
  exact .inl he

theorem Added.reach_mono {a : Access} {fence : Bool} {n i j : Nat} (h : Added a fence n bd bd')
    (hij : Reach bd.edges i j) : Reach bd'.edges i j :=
  Relation.ReflTransGen.mono (fun _ _ he => h.edges_mono he) _ _ hij

/-- What has led to an instruction with an edge leads to the one that is added. -/
theorem Built.chain_of_reach {a : Access} {fence : Bool} {i d : Nat} (h : Built roles locs ops bd)
    (hadd : Added a fence ops.length bd bd') (hid : Reach bd.edges i d)
    (hd : d ∈ bd.before a ops.length fence) : Chain bd'.edges i ops.length :=
  .tail' (hadd.reach_mono hid) (h.edge_of_before hadd hd)

/-- The last definition of a key that is read or written gets an edge. -/
theorem mem_before_of_def {a : Access} {fence : Bool} {n d : Nat} {k : Key}
    (hk : k ∈ a.reads ∨ k ∈ a.writes) (hd : bd.defOf k = some d) : d ∈ bd.before a n fence := by
  simp only [Builder.before, List.mem_append, List.mem_filterMap, List.mem_flatMap,
    Option.mem_toList]
  rcases hk with hk | hk
  · exact .inl (.inl (.inl ⟨k, hk, hd⟩))
  · exact .inl (.inl (.inr ⟨k, hk, .inl hd⟩))

theorem mem_before_of_reader {a : Access} {fence : Bool} {n r : Nat} {k : Key} (hk : k ∈ a.writes)
    (hr : r ∈ bd.readersOf k) : r ∈ bd.before a n fence := by
  simp only [Builder.before, List.mem_append, List.mem_filterMap, List.mem_flatMap,
    Option.mem_toList]
  exact .inl (.inl (.inr ⟨k, hk, .inr hr⟩))

theorem mem_before_of_memory {a : Access} {fence : Bool} {n m : Nat} (ha : a.memory = true)
    (hm : bd.lastMem = some m) : m ∈ bd.before a n fence := by
  simp only [Access.memory] at ha
  simp [Builder.before, ha, hm]

theorem mem_before_of_fence {a : Access} {n i : Nat} (hi : i < n) : i ∈ bd.before a n true := by
  simp [Builder.before, hi]

/-- An instruction of a list with one more at its end. -/
theorem getElem?_concat_cases {i : Nat} {x : Instr} (h : (ops ++ [op])[i]? = some x) :
    (i < ops.length ∧ ops[i]? = some x) ∨ (i = ops.length ∧ x = op) := by
  rcases Nat.lt_trichotomy i ops.length with hi | rfl | hi
  · rw [List.getElem?_append_left hi] at h
    exact .inl ⟨hi, h⟩
  · simp at h
    exact .inr ⟨rfl, h.symm⟩
  · rw [List.getElem?_append_right (by omega), List.getElem?_eq_none (by simp; omega)] at h
    cases h

/-- A key that is defined anew leads from its earlier accesses to the new definition. -/
theorem Built.reach_def {a : Access} {fence : Bool} {i d : Nat} {k : Key}
    (h : Built roles locs ops bd) (hadd : Added a fence ops.length bd bd')
    (hd : bd.defOf k = some d) (hid : Reach bd.edges i d) :
    ∃ d', bd'.defOf k = some d' ∧ Reach bd'.edges i d' := by
  rw [hadd.defOf]
  by_cases hk : k ∈ a.writes
  · rw [if_pos hk]
    exact ⟨_, rfl, (h.chain_of_reach hadd hid (mem_before_of_def (.inr hk) hd)).to_reflTransGen⟩
  · rw [if_neg hk]
    exact ⟨d, hd, hadd.reach_mono hid⟩

/-- An instruction is after all earlier ones that it may not change places with. -/
theorem Built.chain_of_conflict {i : Nat} {x : Instr} (h : Built roles locs ops bd)
    (hadd : Added (access roles locs op) (isBarrier op || isControl op) ops.length bd bd')
    (hi : i < ops.length) (hx : ops[i]? = some x)
    (hc : Conflict (access roles locs x) (access roles locs op) ∨
      (isBarrier op || isControl op) = true) : Chain bd'.edges i ops.length := by
  rcases hc with (⟨k, hk, hk'⟩ | ⟨k, hk, hk'⟩ | ⟨hm, hm'⟩) | hfence
  · obtain ⟨d, hd, hid⟩ := h.writers i x hx k hk
    exact h.chain_of_reach hadd hid (mem_before_of_def hk' hd)
  · rcases h.readers i x hx k hk with hr | ⟨d, hd, hid⟩
    · exact h.chain_of_reach hadd .refl (mem_before_of_reader hk' hr)
    · exact h.chain_of_reach hadd hid (mem_before_of_def (.inr hk') hd)
  · obtain ⟨m, hlast, him⟩ := h.memory i x hx hm
    exact h.chain_of_reach hadd him (mem_before_of_memory hm' hlast)
  · refine h.chain_of_reach hadd .refl ?_
    rw [hfence]
    exact mem_before_of_fence hi

/-- One more instruction. -/
theorem Built.add (h : Built roles locs ops bd)
    (hadd : Added (access roles locs op) (isBarrier op || isControl op) ops.length bd bd') :
    Built roles locs (ops ++ [op]) bd' := by
  have hlen : (ops ++ [op]).length = ops.length + 1 := by simp
  constructor
  · intro e he
    rw [hadd.edges, mem_edgesTo] at he
    rcases he with he | ⟨d, hd, _, rfl⟩
    · obtain ⟨h1, h2⟩ := h.forward e he
      exact ⟨h1, by omega⟩
    · exact ⟨h.before_lt _ _ d hd, by simp⟩
  · rw [hadd.edges]
    exact nodup_edgesTo _ _ h.nodup
  · intro k d hd
    rw [hadd.defOf] at hd
    split at hd
    · cases hd
      omega
    · have := h.def_lt k d hd
      omega
  · intro k r hr
    rw [hadd.readersOf] at hr
    rcases hr.2 with hr | ⟨_, rfl⟩
    · have := h.reader_lt k r hr
      omega
    · omega
  · intro m hm
    rw [hadd.lastMem] at hm
    split at hm
    · cases hm
      omega
    · have := h.mem_lt m hm
      omega
  · intro i x hx k hk
    rcases getElem?_concat_cases hx with ⟨hi, hx⟩ | ⟨rfl, rfl⟩
    · obtain ⟨d, hd, hid⟩ := h.writers i x hx k hk
      exact h.reach_def hadd hd hid
    · exact ⟨ops.length, by rw [hadd.defOf, if_pos hk], .refl⟩
  · intro i x hx k hk
    by_cases hw : k ∈ (access roles locs op).writes
    · have hdef : bd'.defOf k = some ops.length := by rw [hadd.defOf, if_pos hw]
      rcases getElem?_concat_cases hx with ⟨hi, hx⟩ | ⟨rfl, rfl⟩
      · have hc : Conflict (access roles locs x) (access roles locs op) := .inr (.inl ⟨k, hk, hw⟩)
        exact .inr ⟨_, hdef, (h.chain_of_conflict hadd hi hx (.inl hc)).to_reflTransGen⟩
      · exact .inr ⟨_, hdef, .refl⟩
    · rcases getElem?_concat_cases hx with ⟨hi, hx⟩ | ⟨rfl, rfl⟩
      · rcases h.readers i x hx k hk with hr | ⟨d, hd, hid⟩
        · exact .inl ((hadd.readersOf k i).mpr ⟨hw, .inl hr⟩)
        · exact .inr (h.reach_def hadd hd hid)
      · exact .inl ((hadd.readersOf k _).mpr ⟨hw, .inr ⟨hk, rfl⟩⟩)
  · intro i x hx hm
    rw [hadd.lastMem]
    rcases getElem?_concat_cases hx with ⟨hi, hx⟩ | ⟨rfl, rfl⟩
    · obtain ⟨m, hlast, him⟩ := h.memory i x hx hm
      split
      · rename_i ha
        refine ⟨_, rfl, (h.chain_of_reach hadd him ?_).to_reflTransGen⟩
        exact mem_before_of_memory ha hlast
      · exact ⟨m, hlast, hadd.reach_mono him⟩
    · simp only [Access.memory] at hm
      rw [if_pos hm]
      exact ⟨_, rfl, .refl⟩
  · intro i j x y hij hx hy hc
    rcases getElem?_concat_cases hy with ⟨hj, hy⟩ | ⟨rfl, rfl⟩
    · rcases getElem?_concat_cases hx with ⟨_, hx⟩ | ⟨rfl, _⟩
      · exact Relation.TransGen.mono (fun _ _ he => hadd.edges_mono he) _ _
          (h.ordered i j x y hij hx hy hc)
      · omega
    · rcases getElem?_concat_cases hx with ⟨hi, hx⟩ | ⟨rfl, _⟩
      · exact h.chain_of_conflict hadd hi hx hc
      · omega

end Step

/-- The builder after all instructions of a block. -/
theorem built_foldl (roles : RegisterRoles) (locs : Locations) (ops : List Instr) :
    Built roles locs ops (ops.zipIdx.foldl (Builder.add roles locs) .empty) := by
  induction ops using List.reverseRecOn with
  | nil => exact built_empty roles locs
  | append_singleton ops op ih =>
    rw [List.zipIdx_append, List.foldl_append]
    simp only [Nat.zero_add, List.zipIdx_cons, List.zipIdx_nil, List.foldl_cons, List.foldl_nil]
    exact ih.add (added_add roles locs _ op ops.length)

/-! ## The edges of a block -/

/-- The edges of a block point forward, none is there twice, and they order every two instructions
that may not change places, one of which is a barrier, or the later one of which is control. -/
structure Ordered (roles : RegisterRoles) (locs : Locations) (ops : List Instr)
    (es : List (Nat × Nat)) : Prop where
  forward : ∀ e ∈ es, e.1 < e.2 ∧ e.2 < ops.length
  nodup : es.Nodup
  chain : ∀ i j op op', i < j → ops[i]? = some op → ops[j]? = some op' →
    Conflict (access roles locs op) (access roles locs op') ∨
      (isBarrier op' || isControl op') = true ∨ isBarrier op = true → Chain es i j

theorem mem_foldl_barrierEdges (n : Nat) (items : List (Instr × Nat)) (es : List (Nat × Nat))
    (e : Nat × Nat) :
    e ∈ items.foldl (barrierEdges n) es ↔ e ∈ es ∨
      ∃ op, (op, e.1) ∈ items ∧ isBarrier op = true ∧ e.1 < e.2 ∧ e.2 < n := by
  induction items generalizing es with
  | nil => simp
  | cons item items ih =>
    obtain ⟨op, idx⟩ := item
    have hone : e ∈ barrierEdges n es (op, idx) ↔
        e ∈ es ∨ (e.1 = idx ∧ isBarrier op = true ∧ e.1 < e.2 ∧ e.2 < n) := by
      obtain ⟨i, j⟩ := e
      unfold barrierEdges
      by_cases hb : isBarrier op = true
      · simp only [hb, if_true, mem_foldl_addEdge (fun _ => idx) (fun x => x), Prod.mk.injEq,
          List.mem_drop_iff_getElem, List.getElem_range, List.length_range]
        constructor
        · rintro (he | ⟨x, ⟨k, hk, rfl⟩, _, rfl, rfl⟩)
          · exact .inl he
          · exact .inr ⟨rfl, trivial, by omega, by omega⟩
        · rintro (he | ⟨rfl, _, hij, hj⟩)
          · exact .inl he
          · exact .inr ⟨j, ⟨j - (i + 1), by omega, by omega⟩, by omega, rfl, rfl⟩
      · simp [hb]
    rw [List.foldl_cons, ih, hone]
    simp only [List.mem_cons, Prod.mk.injEq]
    constructor
    · rintro ((he | ⟨rfl, hb⟩) | ⟨op', hmem, hb⟩)
      · exact .inl he
      · exact .inr ⟨op, .inl ⟨rfl, rfl⟩, hb⟩
      · exact .inr ⟨op', .inr hmem, hb⟩
    · rintro (he | ⟨op', ⟨rfl, rfl⟩ | hmem, hb⟩)
      · exact .inl (.inl he)
      · exact .inl (.inr ⟨rfl, hb⟩)
      · exact .inr ⟨op', hmem, hb⟩

theorem nodup_foldl_barrierEdges (n : Nat) (items : List (Instr × Nat)) {es : List (Nat × Nat)}
    (h : es.Nodup) : (items.foldl (barrierEdges n) es).Nodup := by
  induction items generalizing es with
  | nil => exact h
  | cons item items ih =>
    obtain ⟨op, idx⟩ := item
    refine ih ?_
    unfold barrierEdges
    dsimp only
    split
    · exact nodup_foldl_addEdge (fun _ => idx) (fun x => x) _ h
    · exact h

theorem ordered_edges (roles : RegisterRoles) (locs : Locations) (ops : List Instr) :
    Ordered roles locs ops (edges roles locs ops) := by
  have hb := built_foldl roles locs ops
  unfold edges
  dsimp only
  generalize ops.zipIdx.foldl (Builder.add roles locs) .empty = bd at hb ⊢
  constructor
  · intro e he
    rw [mem_foldl_barrierEdges] at he
    rcases he with he | ⟨_, _, _, h1, h2⟩
    · exact hb.forward e he
    · exact ⟨h1, h2⟩
  · exact nodup_foldl_barrierEdges _ _ hb.nodup
  · intro i j op op' hij hi hj hc
    by_cases hbar : isBarrier op = true
    · refine .single ((mem_foldl_barrierEdges ..).mpr (.inr ⟨op, ?_, hbar, hij, ?_⟩))
      · exact List.mk_mem_zipIdx_iff_getElem?.mpr hi
      · exact (List.getElem?_eq_some_iff.mp hj).1
    · refine Relation.TransGen.mono (fun _ _ he => (mem_foldl_barrierEdges ..).mpr (.inl he)) _ _
        (hb.ordered i j op op' hij hi hj ?_)
      rcases hc with hc | hc | hc
      · exact .inl hc
      · exact .inr hc
      · exact absurd hc hbar

/-! ## The graph of a block -/

/-- The stops of the edges that start at a node. -/
def stopsFrom (es : List (Nat × Nat)) (i : Nat) : List Nat :=
  es.filterMap fun (a, b) => if a == i then some b else none

theorem mem_stopsFrom {es : List (Nat × Nat)} {i j : Nat} : j ∈ stopsFrom es i ↔ (i, j) ∈ es := by
  simp only [stopsFrom, List.mem_filterMap]
  constructor
  · rintro ⟨⟨a, b⟩, he, hab⟩
    by_cases ha : a = i
    · subst ha
      simp at hab
      exact hab ▸ he
    · simp [ha] at hab
  · intro he
    exact ⟨(i, j), he, by simp⟩

/-- Each edge is counted at its one start. -/
theorem sum_count_stopsFrom (n : Nat) (es : List (Nat × Nat)) (h : ∀ e ∈ es, e.1 < n) (j : Nat) :
    ∑ i ∈ Finset.range n, (stopsFrom es i).count j = es.countP fun (_, b) => b == j := by
  induction es with
  | nil => simp [stopsFrom]
  | cons e es ih =>
    obtain ⟨a, b⟩ := e
    have ha : a < n := h (a, b) List.mem_cons_self
    have hcons : ∀ i, (stopsFrom ((a, b) :: es) i).count j =
        (stopsFrom es i).count j + if a = i then (if b = j then 1 else 0) else 0 := by
      intro i
      by_cases hi : a = i
      · simp [stopsFrom, hi, List.count_cons]
      · simp [stopsFrom, hi]
    simp only [hcons, Finset.sum_add_distrib, ih fun e he => h e (List.mem_cons_of_mem _ he)]
    rw [Finset.sum_ite_eq, if_pos (Finset.mem_range.mpr ha), List.countP_cons]
    simp

theorem graph_size (roles : RegisterRoles) (locs : Locations) (ops : List Instr) :
    (graph roles locs ops).size = ops.length := by
  simp [graph, Graph.size]

theorem graph_after (roles : RegisterRoles) (locs : Locations) (ops : List Instr) {i : Nat}
    (hi : i < ops.length) :
    (graph roles locs ops).after i = stopsFrom (edges roles locs ops) i := by
  simp [graph, Graph.after, stopsFrom, List.getD_eq_getElem?_getD, hi]

theorem graph_score (roles : RegisterRoles) (locs : Locations) {ops : List Instr} {i : Nat}
    {op : Instr} (hi : ops[i]? = some op) :
    (graph roles locs ops).score i = (score roles op (access roles locs op)).rank := by
  simp [graph, Graph.score, List.getD_eq_getElem?_getD, hi]

theorem graph_edge_iff (roles : RegisterRoles) (locs : Locations) (ops : List Instr) (i j : Nat) :
    (graph roles locs ops).Edge i j ↔ (i, j) ∈ edges roles locs ops := by
  unfold Graph.Edge
  rw [graph_size]
  constructor
  · rintro ⟨hi, hj⟩
    rw [graph_after roles locs ops hi] at hj
    exact mem_stopsFrom.mp hj
  · intro he
    obtain ⟨h1, h2⟩ := (ordered_edges roles locs ops).forward _ he
    have hi : i < ops.length := Nat.lt_trans h1 h2
    exact ⟨hi, by rw [graph_after roles locs ops hi]; exact mem_stopsFrom.mpr he⟩

theorem graph_wellFormed (roles : RegisterRoles) (locs : Locations) (ops : List Instr) :
    (graph roles locs ops).WellFormed := by
  have hforward := (ordered_edges roles locs ops).forward
  constructor
  · rw [graph_size]
    simp [graph]
  · intro i hi j hj
    rw [graph_size] at hi ⊢
    rw [graph_after roles locs ops hi] at hj
    exact (hforward _ (mem_stopsFrom.mp hj)).2
  · intro j hj
    rw [graph_size] at hj ⊢
    have hsum : ∑ i ∈ Finset.range ops.length, ((graph roles locs ops).after i).count j =
        ∑ i ∈ Finset.range ops.length, (stopsFrom (edges roles locs ops) i).count j :=
      Finset.sum_congr rfl fun i hi => by
        rw [graph_after roles locs ops (Finset.mem_range.mp hi)]
    rw [hsum, sum_count_stopsFrom _ _ fun e he => Nat.lt_trans (hforward e he).1 (hforward e he).2]
    simp [graph, List.getD_eq_getElem?_getD, hj]

/-- The instructions of a block are ordered without error: each comes out once, and after all those
from which a chain of edges leads to it. -/
theorem exists_order_of_graph (roles : RegisterRoles) (locs : Locations) (ops : List Instr) :
    ∃ nodes, (graph roles locs ops).order = .ok nodes ∧ nodes.Perm (List.range ops.length) ∧
      nodes.Pairwise fun x y => ¬ Chain (edges roles locs ops) y x := by
  obtain ⟨nodes, horder, hperm, hpair⟩ :=
    Graph.exists_order_of_forward (graph_wellFormed roles locs ops) fun i j hij =>
      ((ordered_edges roles locs ops).forward _ ((graph_edge_iff ..).mp hij)).1
  rw [graph_size] at hperm
  refine ⟨nodes, horder, hperm, hpair.imp fun {x y} hxy hchain => hxy ?_⟩
  exact Relation.TransGen.mono (fun _ _ he => (graph_edge_iff ..).mpr he) _ _ hchain

end Backend.Schedule
