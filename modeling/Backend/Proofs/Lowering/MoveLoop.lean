-- The loop that orders the moves of a simultaneous assignment, as rounds that each send one move
-- out or break one cycle. It ends, and where every source reads one register no move has to wait
-- for xmm13 when a cycle is broken.
import Backend.Proofs.Lowering.Assignment
import Mathlib.Data.List.Perm.Subperm

namespace Backend.Lowering

/-! ## One round of the loop -/

/-- The move that is found is one of the pending ones, and no other one reads its destination. -/
theorem splitReady_some {locs : Locations} {before pending b a : List Move} {m : Move}
    (h : splitReady locs before pending = some (b, m, a)) :
    before ++ pending = b ++ m :: a ∧
      ∀ key, regKey? locs m.dst = some key → anyReads locs key (b ++ a) = false := by
  induction pending generalizing before with
  | nil => cases h
  | cons m' after ih =>
    unfold splitReady at h
    cases hk : regKey? locs m'.dst with
    | none =>
      simp only [hk, Bool.false_eq_true, if_false, Option.some.injEq, Prod.mk.injEq] at h
      obtain ⟨rfl, rfl, rfl⟩ := h
      exact ⟨rfl, by simp [hk]⟩
    | some key =>
      cases hr : anyReads locs key (before ++ after) with
      | true =>
        simp only [hk, hr, if_true] at h
        obtain ⟨he, hfree⟩ := ih h
        exact ⟨by rw [← he]; simp, hfree⟩
      | false =>
        simp only [hk, hr, Bool.false_eq_true, if_false, Option.some.injEq, Prod.mk.injEq] at h
        obtain ⟨rfl, rfl, rfl⟩ := h
        refine ⟨rfl, fun key' hk' => ?_⟩
        rw [hk] at hk'
        cases hk'
        exact hr

/-- No move is found when the destination of each one is a register that another one reads. -/
theorem splitReady_none {locs : Locations} {before pending b a : List Move} {m : Move}
    (h : splitReady locs before pending = none) (he : pending = b ++ m :: a) :
    ∃ key, regKey? locs m.dst = some key ∧ anyReads locs key (before ++ b ++ a) = true := by
  induction b generalizing before pending with
  | nil =>
    subst he
    unfold splitReady at h
    cases hk : regKey? locs m.dst with
    | none => simp [hk] at h
    | some key =>
      cases hr : anyReads locs key (before ++ a) with
      | false => simp [hk, hr] at h
      | true => exact ⟨key, rfl, by simpa using hr⟩
  | cons m' b ih =>
    subst he
    unfold splitReady at h
    have hnext : splitReady locs (before ++ [m']) (b ++ m :: a) = none := by
      cases hk : regKey? locs m'.dst with
      | none => simp [hk] at h
      | some key =>
        cases hr : anyReads locs key (before ++ (b ++ m :: a)) with
        | false => simp [hk, hr] at h
        | true => simpa [hk, hr] using h
    obtain ⟨key, hk, hr⟩ := ih hnext rfl
    exact ⟨key, hk, by simpa using hr⟩

/-- The move that is chosen to break a cycle has a register as destination that all others read
directly. Their readings go to xmm13. -/
theorem breakCycle?_some {locs : Locations} {before pending redirected : List Move} {key : Nat}
    (h : breakCycle? locs before pending = some (key, redirected)) :
    ∃ b m a, before ++ pending = b ++ m :: a ∧ regKey? locs m.dst = some key ∧
      readDirectly locs key (b ++ a) = true ∧
      redirected = b.map (redirect locs key) ++ m :: a.map (redirect locs key) := by
  induction pending generalizing before with
  | nil => cases h
  | cons m' after ih =>
    have hnext : breakCycle? locs (before ++ [m']) after = some (key, redirected) →
        ∃ b m a, before ++ m' :: after = b ++ m :: a ∧ regKey? locs m.dst = some key ∧
          readDirectly locs key (b ++ a) = true ∧
          redirected = b.map (redirect locs key) ++ m :: a.map (redirect locs key) := by
      intro h'
      obtain ⟨b, m, a, he, hrest⟩ := ih h'
      exact ⟨b, m, a, by rw [← he]; simp, hrest⟩
    unfold breakCycle? at h
    cases hk : regKey? locs m'.dst with
    | none =>
      simp only [hk] at h
      exact hnext h
    | some key' =>
      cases hd : readDirectly locs key' (before ++ after) with
      | true =>
        simp only [hk, hd, if_true, Option.some.injEq, Prod.mk.injEq] at h
        obtain ⟨rfl, rfl⟩ := h
        exact ⟨before, m', after, rfl, hk, hd, rfl⟩
      | false =>
        simp only [hk, hd, Bool.false_eq_true, if_false] at h
        exact hnext h

/-- The choice that breaks a cycle, with the register that is saved. -/
theorem exists_reg_of_breakCycle {locs : Locations} {pending redirected : List Move} {key : Nat}
    (h : breakCycle? locs [] pending = some (key, redirected)) :
    ∃ b m a t, pending = b ++ m :: a ∧ regOf? locs m.dst = some t ∧ key = t.key ∧
      readDirectly locs t.key (b ++ a) = true ∧
      redirected = b.map (redirect locs t.key) ++ m :: a.map (redirect locs t.key) := by
  obtain ⟨b, m, a, he, hk, hdir, hred⟩ := breakCycle?_some h
  rw [regKey?_eq_map, Option.map_eq_some_iff] at hk
  obtain ⟨t, ht, rfl⟩ := hk
  exact ⟨b, m, a, t, he, ht, rfl, hdir, hred⟩

theorem mem_of_others {b a : List Move} {m n : Move} (h : n ∈ b ++ a) : n ∈ b ++ m :: a := by
  simp only [List.mem_append, List.mem_cons] at h ⊢
  tauto

theorem redirect_dst (locs : Locations) (key : Nat) (m : Move) :
    (redirect locs key m).dst = m.dst := by
  unfold redirect
  split <;> rfl

/-- Of the moves that are left after a register is saved, one is as it was and the others come from
the redirection. -/
theorem mem_redirected {locs : Locations} {key : Nat} {b a : List Move} {m n : Move}
    (h : n ∈ b.map (redirect locs key) ++ m :: a.map (redirect locs key)) :
    n = m ∨ ∃ n' ∈ b ++ a, redirect locs key n' = n := by
  simp only [List.mem_append, List.mem_cons, List.mem_map] at h ⊢
  grind

theorem redirect_mem {locs : Locations} {key : Nat} {b a : List Move} {m n : Move}
    (h : n ∈ b ++ a) :
    redirect locs key n ∈ b.map (redirect locs key) ++ m :: a.map (redirect locs key) := by
  simp only [List.mem_append, List.mem_cons, List.mem_map] at h ⊢
  rcases h with hb | ha
  · exact .inl ⟨n, hb, rfl⟩
  · exact .inr (.inr ⟨n, ha, rfl⟩)

/-- A move either does not read the register that is saved or is sent to xmm13. -/
theorem redirect_cases {locs : Locations} {moves : List Move} {key : Nat}
    (hdir : readDirectly locs key moves = true) {m : Move} (hm : m ∈ moves) :
    (readsKey locs key m.src = false ∧ redirect locs key m = m) ∨
      ∃ t, regOf? locs m.src = some t ∧ t.key = key ∧
        redirect locs key m = { m with src := .reg (xmm 13 (registerWidth m.src.ty)) } := by
  cases hr : readsKey locs key m.src with
  | false => exact .inl ⟨rfl, by simp [redirect, hr]⟩
  | true =>
    have hd := List.all_eq_true.mp hdir m hm
    rw [hr, regKey?_eq_map] at hd
    cases ht : regOf? locs m.src with
    | none => simp [ht] at hd
    | some t =>
      rw [readsKey_of_regOf ht] at hr
      exact .inr ⟨t, rfl, by simpa using hr, by simp [redirect, readsKey_of_regOf ht, hr]⟩

/-! ## Rounds of the loop -/

/-- The move that saves a register in xmm13. -/
def save (key : Nat) : Move := ⟨.reg regXmm13, .reg (fullReg key), false⟩

/-- Rounds of the loop from one list of pending moves to another, with the moves that they give.
A cycle is broken only where the condition allows it. -/
inductive Loop (locs : Locations) (allowed : List Move → Prop) :
    List Move → List Move → List Move → Prop where
  | stop (pending : List Move) : Loop locs allowed pending [] pending
  | ready {pending b a out rest : List Move} {m : Move}
      (found : splitReady locs [] pending = some (b, m, a))
      (next : Loop locs allowed (b ++ a) out rest) : Loop locs allowed pending (m :: out) rest
  | broken {pending redirected out rest : List Move} {key : Nat}
      (blocked : splitReady locs [] pending = none)
      (chosen : breakCycle? locs [] pending = some (key, redirected)) (allow : allowed pending)
      (next : Loop locs allowed redirected out rest) :
      Loop locs allowed pending (save key :: out) rest

/-- Moves are left, each one is blocked, and there is no cycle that can be broken. -/
def Stuck (locs : Locations) (pending : List Move) : Prop :=
  pending ≠ [] ∧ splitReady locs [] pending = none ∧ breakCycle? locs [] pending = none

/-- No pending move reads xmm13. -/
def XmmFree (locs : Locations) (pending : List Move) : Prop :=
  ∀ m ∈ pending, readsKey locs regXmm13.key m.src = false

/-! ## The loop ends -/

theorem emit_bind {α : Type} (cx : Context) (m : Move) (k : Unit → LowerM α) (st : State) :
    (m.emit cx >>= k) st = k () { st with out := st.out ++ [m.instr cx] } := rfl

/-- After a cycle is broken a move is ready: nothing reads the register that was saved. -/
theorem exists_ready_of_breakCycle {locs : Locations} {pending redirected : List Move} {key : Nat}
    (h : breakCycle? locs [] pending = some (key, redirected))
    (hdst : ∀ m ∈ pending, regKey? locs m.dst ≠ some regXmm13.key) :
    ∃ b m a, splitReady locs [] redirected = some (b, m, a) := by
  obtain ⟨b, m, a, rfl, hk, hdir, hred⟩ := breakCycle?_some h
  cases hs : splitReady locs [] redirected with
  | some x => exact ⟨x.1, x.2.1, x.2.2, rfl⟩
  | none =>
    exfalso
    obtain ⟨key', hk', hany⟩ := splitReady_none hs hred
    rw [hk] at hk'
    cases hk'
    obtain ⟨n, hn, hreads⟩ := List.any_eq_true.mp hany
    rw [List.nil_append, ← List.map_append] at hn
    obtain ⟨n', hn', rfl⟩ := List.mem_map.mp hn
    rcases redirect_cases hdir hn' with ⟨hfree, heq⟩ | ⟨t, _, _, heq⟩
    · rw [heq, hfree] at hreads
      cases hreads
    · rw [heq] at hreads
      have hkey : regXmm13.key = key := by
        simpa [readsKey, regKey?, Reg.key, xmm, regXmm13] using hreads
      exact hdst m (by simp) (by rw [hk, hkey])

/-- The loop ends after a round for each pending move: with all moves out, or with blocked moves
among which no cycle can be broken. -/
theorem exists_loop_of_parallelUpTo (cx : Context) (locs : Locations) (n : Nat)
    (pending : List Move) (st : State) (hn : pending.length ≤ n)
    (hdst : ∀ m ∈ pending, regKey? locs m.dst ≠ some regXmm13.key) :
    ∃ out rest, Loop locs (fun _ => True) pending out rest ∧
      ((rest = [] ∧ parallelUpTo cx locs n pending st =
          .ok ((), { st with out := st.out ++ out.map (Move.instr cx) })) ∨
        (Stuck locs rest ∧ parallelUpTo cx locs n pending st =
          .error ⟨.lower, st.closure.name, some cx.instr, .unorderedMoves⟩)) := by
  have hstop : ∀ (k : Nat) (s : State), parallelUpTo cx locs k [] s = .ok ((), s) := by
    intro k s
    cases k <;> rfl
  induction n generalizing pending st with
  | zero =>
    have hnil : pending = [] := List.length_eq_zero_iff.mp (by omega)
    subst hnil
    exact ⟨[], [], .stop [], .inl ⟨rfl, by simp [hstop]⟩⟩
  | succ n ih =>
    -- One move goes out, and the rest of the loop is that of the moves that are left.
    have hround : ∀ (moves b a : List Move) (m : Move) (st' : State),
        splitReady locs [] moves = some (b, m, a) → moves.length ≤ n + 1 →
        (∀ m ∈ moves, regKey? locs m.dst ≠ some regXmm13.key) →
        ∃ out rest, Loop locs (fun _ => True) moves out rest ∧
          ((rest = [] ∧ (m.emit cx >>= fun _ => parallelUpTo cx locs n (b ++ a)) st' =
              .ok ((), { st' with out := st'.out ++ out.map (Move.instr cx) })) ∨
            (Stuck locs rest ∧ (m.emit cx >>= fun _ => parallelUpTo cx locs n (b ++ a)) st' =
              .error ⟨.lower, st'.closure.name, some cx.instr, .unorderedMoves⟩)) := by
      intro moves b a m st' hs hlen hd
      obtain ⟨he, _⟩ := splitReady_some hs
      rw [List.nil_append] at he
      subst he
      obtain ⟨out, rest, hloop, hres⟩ := ih (b ++ a) { st' with out := st'.out ++ [m.instr cx] }
        (by simp at hlen ⊢; omega) (fun m' hm' => hd m' (mem_of_others hm'))
      refine ⟨m :: out, rest, .ready hs hloop, ?_⟩
      rw [emit_bind]
      simpa using hres
    cases pending with
    | nil =>
      exact ⟨[], [], .stop [], .inl ⟨rfl, by simp [hstop]⟩⟩
    | cons m0 ms =>
      unfold parallelUpTo
      cases hs : splitReady locs [] (m0 :: ms) with
      | some x => exact hround _ x.1 x.2.2 x.2.1 st hs hn hdst
      | none =>
        cases hb : breakCycle? locs [] (m0 :: ms) with
        | none => exact ⟨[], _, .stop _, .inr ⟨⟨by simp, hs, hb⟩, rfl⟩⟩
        | some x =>
          obtain ⟨key, redirected⟩ := x
          obtain ⟨b, m, a, hready⟩ := exists_ready_of_breakCycle hb hdst
          obtain ⟨b', m', a', he, _, _, hred⟩ := breakCycle?_some hb
          rw [List.nil_append] at he
          have hlen : redirected.length ≤ n + 1 := by
            rw [he] at hn
            simpa [hred] using hn
          have hd : ∀ m ∈ redirected, regKey? locs m.dst ≠ some regXmm13.key := by
            intro m'' hm''
            rw [hred] at hm''
            rw [he] at hdst
            rcases mem_redirected hm'' with rfl | ⟨n', hn', rfl⟩
            · exact hdst m'' (by simp)
            · rw [redirect_dst]
              exact hdst n' (mem_of_others hn')
          obtain ⟨out, rest, hloop, hres⟩ := hround redirected b a m
            { st with out := st.out ++ [(save key).instr cx] } hready hlen hd
          refine ⟨save key :: out, rest, .broken hs hb trivial hloop, ?_⟩
          have hsave : ∀ k : Unit → LowerM Unit,
              (Lowering.emit cx .move (some (.reg (fullReg key))) none (some (.reg regXmm13)) >>= k)
                st = k () { st with out := st.out ++ [(save key).instr cx] } := fun k => rfl
          simp only [hsave, hready]
          simpa using hres

/-! ## Sources that read one register -/

/-- The source reads at most one register. -/
def ReadsOne (locs : Locations) (m : Move) : Prop :=
  ∀ k k', readsKey locs k m.src = true → readsKey locs k' m.src = true → k = k'

theorem destKeys_redirected (locs : Locations) (key : Nat) (b a : List Move) (m : Move) :
    destKeys locs (b.map (redirect locs key) ++ m :: a.map (redirect locs key)) =
      destKeys locs (b ++ m :: a) := by
  have hmap : ∀ l : List Move, (l.map (redirect locs key)).filterMap (fun m => regKey? locs m.dst) =
      l.filterMap fun m => regKey? locs m.dst := by
    intro l
    rw [List.filterMap_map]
    congr 1
    funext n
    rw [Function.comp_apply, redirect_dst]
  simp only [destKeys, List.filterMap_append, List.filterMap_cons, hmap]

/-- Such moves read no more registers than there are moves. -/
theorem exists_readKeys (locs : Locations) (moves : List Move)
    (hone : ∀ m ∈ moves, ReadsOne locs m) :
    ∃ keys : List Nat, keys.length ≤ moves.length ∧
      ∀ m ∈ moves, ∀ k, readsKey locs k m.src = true → k ∈ keys := by
  induction moves with
  | nil => exact ⟨[], Nat.le_refl 0, by simp⟩
  | cons m rest ih =>
    obtain ⟨keys, hlen, hkeys⟩ := ih fun n hn => hone n (by simp [hn])
    by_cases hm : ∃ k, readsKey locs k m.src = true
    · obtain ⟨k, hk⟩ := hm
      refine ⟨k :: keys, by simpa using hlen, fun n hn k' hk' => ?_⟩
      rcases List.mem_cons.mp hn with rfl | hn
      · rw [hone n (by simp) k' k hk' hk]
        exact List.mem_cons_self
      · exact List.mem_cons_of_mem k (hkeys n hn k' hk')
    · refine ⟨keys, by simp; omega, fun n hn k' hk' => ?_⟩
      rcases List.mem_cons.mp hn with rfl | hn
      · exact absurd ⟨k', hk'⟩ hm
      · exact hkeys n hn k' hk'

/-- Blocked moves that read one register each read only destinations: as many registers are read as
there are moves, and each destination is one of them. -/
theorem xmmFree_of_blocked {locs : Locations} {pending : List Move}
    (hone : ∀ m ∈ pending, ReadsOne locs m) (hnodup : (destKeys locs pending).Nodup)
    (hx : regXmm13.key ∉ destKeys locs pending) (blocked : splitReady locs [] pending = none) :
    XmmFree locs pending := by
  have hblocked : ∀ m ∈ pending, ∃ key, regKey? locs m.dst = some key ∧
      ∃ n ∈ pending, readsKey locs key n.src = true := by
    intro m hm
    obtain ⟨b, a, rfl⟩ := List.append_of_mem hm
    obtain ⟨key, hk, hany⟩ := splitReady_none blocked rfl
    obtain ⟨n, hn, hreads⟩ := List.any_eq_true.mp hany
    rw [List.nil_append] at hn
    exact ⟨key, hk, n, mem_of_others hn, hreads⟩
  have hlen : (destKeys locs pending).length = pending.length := by
    refine List.filterMap_length_eq_length.mpr fun m hm => ?_
    obtain ⟨key, hk, _⟩ := hblocked m hm
    simp [hk]
  obtain ⟨keys, hle, hkeys⟩ := exists_readKeys locs pending hone
  intro m hm
  by_contra hreads
  have hsub : regXmm13.key :: destKeys locs pending ⊆ keys := by
    intro k hk
    rcases List.mem_cons.mp hk with rfl | hk
    · exact hkeys m hm _ (by simpa using hreads)
    · obtain ⟨n, hn, hkn⟩ := List.mem_filterMap.mp hk
      obtain ⟨key, hkey, n', hn', hr⟩ := hblocked n hn
      rw [hkn] at hkey
      cases hkey
      exact hkeys n' hn' k hr
  have hcount := ((List.nodup_cons.mpr ⟨hx, hnodup⟩).subperm hsub).length_le
  rw [List.length_cons, hlen] at hcount
  omega

/-- With sources that read one register each, no cycle is broken while a move waits for xmm13. -/
theorem Loop.xmmFree_of_single_reads {locs : Locations} {allowed : List Move → Prop}
    {pending out rest : List Move} (h : Loop locs allowed pending out rest)
    (hone : ∀ m ∈ pending, ReadsOne locs m) (hnodup : (destKeys locs pending).Nodup)
    (hx : regXmm13.key ∉ destKeys locs pending) : Loop locs (XmmFree locs) pending out rest := by
  induction h with
  | stop pending => exact .stop pending
  | @ready pending b a out rest m found next ih =>
    obtain ⟨he, _⟩ := splitReady_some found
    rw [List.nil_append] at he
    have hsub : (destKeys locs (b ++ a)).Sublist (destKeys locs pending) := by
      rw [he]
      exact List.Sublist.filterMap _ (by simp)
    refine .ready found (ih (fun n hn => hone n ?_) (hnodup.sublist hsub)
      fun hmem => hx (hsub.mem hmem))
    rw [he]
    exact mem_of_others hn
  | @broken pending redirected out rest key blocked chosen allow next ih =>
    have hfree := xmmFree_of_blocked hone hnodup hx blocked
    have hchosen := chosen
    obtain ⟨b, m, a, t, rfl, ht, rfl, hdir, rfl⟩ := exists_reg_of_breakCycle chosen
    rw [destKeys_redirected] at ih
    refine .broken blocked hchosen hfree (ih (fun n hn => ?_) hnodup hx)
    rcases mem_redirected hn with rfl | ⟨n', hn', rfl⟩
    · exact hone n (by simp)
    · rcases redirect_cases hdir hn' with ⟨_, heq⟩ | ⟨t', _, _, heq⟩
      · rw [heq]
        exact hone n' (mem_of_others hn')
      · rw [heq]
        intro k k' hk hk'
        simp only [readsKey, regKey?, beq_iff_eq, Option.some.injEq] at hk hk'
        exact hk.symm.trans hk'

end Backend.Lowering
