-- Runs of lowered lines that push words among the values that they compute, and what such a run can
-- have changed.
import Backend.Proofs.Lowering.Effects
import Backend.Proofs.Machine.Stack

namespace Backend.Lowering

open Backend.Machine (Place Assigns)

/-! ## Runs -/

/-- What a line may do: it gives its output a value, the one that it computes if it has a meaning,
or it pushes a word that begins with the bytes of its operand. Selection may use r11 for a value. -/
inductive LineStep (e : Scene) (i : Instr) (s s1 : Machine.State) : Prop
  | write {o : Operand} {p : Place} {v : BitVec (8 * width o)} (output : i.output = some o)
      (place : e.place? s o = some p)
      (value : ∀ v', e.effect? s i = some (.assign p (width o) v') → v = v')
      (after : Assigns p v [Machine.r11] s s1)
  | push {word : BitVec (8 * 8)} (op : i.op = .push)
      (value : ∀ d, e.source? s i.first = some d → ∀ n ≤ 8, n ≤ d.width →
        word.setWidth (8 * n) = d.brought n)
      (after : s1 = s.push word)

/-- A run of lines. -/
inductive LineRun (e : Scene) : List Instr → Machine.State → Machine.State → Prop
  | nil (s : Machine.State) : LineRun e [] s s
  | cons {i : Instr} {rest : List Instr} {s s1 s' : Machine.State} (step : LineStep e i s s1)
      (next : LineRun e rest s1 s') : LineRun e (i :: rest) s s'

section Runs

variable {e : Scene} {i : Instr} {xs ys : List Instr} {s s1 s' : Machine.State}

theorem lineRun_append (h : LineRun e (xs ++ ys) s s') :
    ∃ s1, LineRun e xs s s1 ∧ LineRun e ys s1 s' := by
  induction xs generalizing s with
  | nil => exact ⟨s, .nil s, h⟩
  | cons i rest ih =>
    cases h with
    | cons step next =>
      obtain ⟨s1, h1, h2⟩ := ih next
      exact ⟨s1, .cons step h1, h2⟩

theorem lineRun_singleton (h : LineRun e [i] s s') : LineStep e i s s' := by
  cases h with
  | cons step next =>
    cases next
    exact step

theorem assign?_eq_some {f : (n : Nat) → Option (BitVec (8 * n))} {p : Place} {n : Nat}
    {v : BitVec (8 * n)} (h : e.assign? s i f = some (.assign p n v)) :
    ∃ o, i.output = some o ∧ e.place? s o = some p ∧ n = width o ∧ ∃ w, f n = some w := by
  unfold Scene.assign? at h
  simp only [bind, Option.bind_eq_some_iff, Option.some.injEq, Effect.assign.injEq] at h
  obtain ⟨o, ho, p', hp, w, hw, rfl, rfl, -⟩ := h
  exact ⟨o, ho, hp, rfl, w, hw⟩

/-- What a line assigns, it assigns to its output. A push assigns nothing. -/
theorem output_of_effect {p : Place} {n : Nat} {v : BitVec (8 * n)}
    (h : e.effect? s i = some (.assign p n v)) :
    (∃ o, i.output = some o ∧ e.place? s o = some p ∧ n = width o) ∧ i.op ≠ .push := by
  unfold Scene.effect? at h
  split at h
  · cases h
  split at h
  · cases hc : e.compared? s i <;> rw [hc] at h <;> cases h
  split at h
  · rename_i hcompare
    obtain ⟨o, ho, hp, hn, -⟩ := assign?_eq_some h
    refine ⟨⟨o, ho, hp, hn⟩, fun hop => ?_⟩
    rw [hop] at hcompare
    cases hcompare
  · obtain ⟨o, ho, hp, hn, w, hw⟩ := assign?_eq_some h
    refine ⟨⟨o, ho, hp, hn⟩, fun hop => ?_⟩
    simp [Scene.computed?, hop, Selection.arithmetic?, Selection.complement?,
      Selection.shifted?] at hw

/-- A line with a meaning does what it means. -/
theorem LineStep.assigns (h : LineStep e i s s1) {p : Place} {n : Nat} {v : BitVec (8 * n)}
    (heff : e.effect? s i = some (.assign p n v)) : Assigns p v [Machine.r11] s s1 := by
  obtain ⟨⟨o, ho, hp, rfl⟩, hpush⟩ := output_of_effect heff
  cases h with
  | write output place value after =>
    obtain rfl := Option.some.inj (ho.symm.trans output)
    obtain rfl := Option.some.inj (hp.symm.trans place)
    rw [← value v heff]
    exact after
  | push op => exact absurd op hpush

/-- Whatever run is taken of lines that have a meaning, it ends as they say. -/
theorem Ensures.of_run {Q : Machine.State → Prop} (h : Ensures e xs s Q)
    (hrun : LineRun e xs s s') :
    Q s' := by
  induction hrun with
  | nil => exact h
  | cons step _ ih =>
    obtain ⟨p, n, v, -, heff, hrest⟩ := h
    exact ih (hrest _ (step.assigns heff))

/-- The line pushes a word or gives a register or a frame slot a value. -/
def IsRunnable (i : Instr) : Prop :=
  i.op = .push ∨ (∃ r, i.output = some (.reg r)) ∨ ∃ offset t, i.output = some (.stack offset t)

/-- A line whose output is somewhere can give it a value. -/
theorem exists_lineStep_of_place {o : Operand} {p : Place} (ho : i.output = some o)
    (hp : e.place? s o = some p) : ∃ s1, LineStep e i s s1 := by
  obtain ⟨v, hv⟩ : ∃ v : BitVec (8 * width o),
      ∀ v', e.effect? s i = some (.assign p (width o) v') → v = v' := by
    by_cases hmeant : ∃ v, e.effect? s i = some (.assign p (width o) v)
    · obtain ⟨v, hv⟩ := hmeant
      refine ⟨v, fun v' hv' => ?_⟩
      rw [hv] at hv'
      cases hv'
      rfl
    · exact ⟨0, fun v' hv' => absurd ⟨v', hv'⟩ hmeant⟩
  obtain ⟨s1, h1⟩ := Machine.exists_assigns s p v (width_le_eight o)
  exact ⟨s1, .write ho hp hv h1.weaken⟩

theorem exists_lineStep_of_push (hop : i.op = .push) (s : Machine.State) :
    ∃ s1, LineStep e i s s1 := by
  obtain ⟨word, hword⟩ : ∃ word : BitVec (8 * 8), ∀ d, e.source? s i.first = some d →
      ∀ n ≤ 8, n ≤ d.width → word.setWidth (8 * n) = d.brought n := by
    cases hd : e.source? s i.first with
    | none => exact ⟨0, fun d h => by cases h⟩
    | some d =>
      refine ⟨d.brought 8, fun d' h n hn _ => ?_⟩
      cases h
      rw [← d.convert_brought true hn, Selection.convert_of_le _ _ hn]
  exact ⟨_, .push hop hword rfl⟩

theorem exists_lineStep (h : IsRunnable i) (s : Machine.State) : ∃ s1, LineStep e i s s1 := by
  rcases h with hop | ⟨r, hr⟩ | ⟨offset, t, hslot⟩
  · exact exists_lineStep_of_push hop s
  · exact exists_lineStep_of_place hr rfl
  · exact exists_lineStep_of_place hslot rfl

theorem exists_lineRun (h : ∀ i ∈ xs, IsRunnable i) (s : Machine.State) :
    ∃ s', LineRun e xs s s' := by
  induction xs generalizing s with
  | nil => exact ⟨s, .nil s⟩
  | cons i rest ih =>
    obtain ⟨s1, h1⟩ := exists_lineStep (e := e) (h i (by simp)) s
    obtain ⟨s', h2⟩ := ih (fun j hj => h j (by simp [hj])) s1
    exact ⟨s', .cons h1 h2⟩

end Runs

/-! ## What a run can have changed -/

/-- The bytes below the stack pointer. -/
def roomBelow (s : Machine.State) (room : Nat) : BitVec 64 :=
  s.regs Machine.rsp - BitVec.ofNat 64 room

/-- Nothing changed but the temporary registers, some places, and the stack pointer, which went down
with the bytes that it passed. -/
structure Disturbs (dests : List Place) (room : Nat) (s s' : Machine.State) : Prop where
  rsp : s'.regs Machine.rsp = roomBelow s room
  regs : ∀ r, r ≠ Machine.r10 → r ≠ Machine.r11 → r ≠ Machine.rsp → .reg r ∉ dests →
    s'.regs r = s.regs r
  xmms : ∀ r, .xmm r ∉ dests → s'.xmms r = s.xmms r
  mem : ∀ x, ¬ (Place.mem (roomBelow s room)).covers room x → s'.mem x = s.mem x

/-- Such a run leaves the `n` bytes at the place. -/
def Spared (dests : List Place) (room : Nat) (s : Machine.State) (p : Place) (n : Nat) : Prop :=
  p ≠ .reg Machine.r10 ∧ p ≠ .reg Machine.r11 ∧ (p = .reg Machine.rsp → room = 0) ∧ p ∉ dests ∧
    (Place.mem (roomBelow s room)).Separate room p n

section Disturbs

variable {dests dests' : List Place} {room room' : Nat} {s s1 s' : Machine.State}

theorem Disturbs.refl (s : Machine.State) : Disturbs [] 0 s s :=
  ⟨by simp [roomBelow], fun _ _ _ _ _ => rfl, fun _ _ => rfl, fun _ _ => rfl⟩

theorem Disturbs.trans (h : Disturbs dests room s s1) (h' : Disturbs dests' room' s1 s') :
    Disturbs (dests ++ dests') (room + room') s s' := by
  have hbase : roomBelow s1 room' = roomBelow s (room + room') := by
    rw [roomBelow, h.rsp, roomBelow, roomBelow, BitVec.ofNat_add]
    abel
  refine ⟨h'.rsp.trans hbase, fun r h10 h11 hsp hr => ?_, fun r hr => ?_, fun x hx => ?_⟩
  · obtain ⟨h1, h2⟩ := not_or.mp (mt List.mem_append.mpr hr)
    exact (h'.regs r h10 h11 hsp h2).trans (h.regs r h10 h11 hsp h1)
  · obtain ⟨h1, h2⟩ := not_or.mp (mt List.mem_append.mpr hr)
    exact (h'.xmms r h2).trans (h.xmms r h1)
  · have hshift : x - roomBelow s (room + room') =
        x - roomBelow s room + BitVec.ofNat 64 room' := by
      rw [roomBelow, roomBelow, BitVec.ofNat_add]
      abel
    have hle : (x - roomBelow s (room + room')).toNat ≤ (x - roomBelow s room).toNat + room' := by
      rw [hshift, BitVec.toNat_add, BitVec.toNat_ofNat]
      omega
    simp only [Place.covers] at hx
    refine (h'.mem x fun hcov => ?_).trans (h.mem x fun hcov => ?_)
    · rw [hbase] at hcov
      simp only [Place.covers] at hcov
      omega
    · simp only [Place.covers] at hcov
      omega

theorem Disturbs.get (h : Disturbs dests room s s') {p : Place} {n : Nat}
    (hp : Spared dests room s p n) (hn : n ≤ 8) : s'.get p n = s.get p n := by
  obtain ⟨h10, h11, hsp, hdest, hsep⟩ := hp
  cases p with
  | reg r =>
    have hsame : s'.regs r = s.regs r := by
      by_cases hr : r = Machine.rsp
      · subst hr
        rw [h.rsp, hsp rfl, roomBelow]
        simp
      · exact h.regs r (fun he => h10 (by rw [he])) (fun he => h11 (by rw [he])) hr hdest
    simp only [Machine.State.get, hsame]
  | xmm r => simp only [Machine.State.get, h.xmms r hdest]
  | mem a =>
    exact Machine.readBytes_congr _ _ a n (by omega) fun x hx =>
      h.mem x (Place.Separate.symm hsep x hx)

/-- A value in the temporary register. -/
theorem disturbs_temp {n : Nat} {v : BitVec (8 * n)}
    (h : Assigns (.reg Machine.r10) v [Machine.r11] s s') : Disturbs [] 0 s s' where
  rsp := by
    rw [h.regs Machine.rsp (by simp [Machine.r10, Machine.rsp]) (by decide)]
    simp [roomBelow]
  regs r h10 h11 _ _ := h.regs r (fun he => h10 (Place.reg.inj he).symm) (by simpa using h11)
  xmms r _ := h.xmms r (by simp)
  mem x _ := h.mem x (by simp [Place.covers])

/-- A value in a register other than the stack pointer. -/
theorem disturbs_register {r : Reg} {n : Nat} {v : BitVec (8 * n)} (hr : r.key ≠ regRsp.key)
    (h : Assigns r.place v [Machine.r11] s s') : Disturbs [r.place] 0 s s' where
  rsp := by
    have hne : r.place ≠ .reg Machine.rsp := fun he => hr ((Reg.place_eq_iff r regRsp).mp he)
    rw [h.regs Machine.rsp hne (by decide)]
    simp [roomBelow]
  regs x _ h11 _ hx := h.regs x (fun he => hx (by simp [he])) (by simpa using h11)
  xmms x hx := h.xmms x fun he => hx (by simp [he])
  mem x _ := by
    refine h.mem x ?_
    unfold Reg.place
    cases r.cls <;> simp [Place.covers]

theorem disturbs_push (s : Machine.State) (word : BitVec (8 * 8)) :
    Disturbs [] 8 s (s.push word) := by
  obtain ⟨hrsp, hregs, hxmms, hmem⟩ := Machine.pushed_push s word
  exact ⟨hrsp, fun r _ _ hr _ => hregs r hr, fun r _ => congrFun hxmms r, hmem⟩

end Disturbs

/-! ## Lines that leave a place alone -/

/-- The line gives a value to something that is apart from some bytes. -/
def Avoids (e : Scene) (p : Place) (n : Nat) (i : Instr) : Prop :=
  i.op ≠ .push ∧ ∃ o q, i.output = some o ∧ e.toSetting.home? o = some q ∧ q.Separate (width o) p n

section Avoids

variable {e : Scene} {p : Place} {n : Nat} {xs : List Instr} {s s' : Machine.State}

/-- An operand in a register or a frame slot is there in every state. -/
theorem place?_of_home {o : Operand} (h : e.toSetting.home? o = some p) :
    e.place? s o = some p := by
  cases o <;> first | exact h | cases h

theorem Avoids.get {i : Instr} (h : Avoids e p n i) (h11 : p ≠ .reg Machine.r11) (hn : n ≤ 8)
    (step : LineStep e i s s') : s'.get p n = s.get p n := by
  obtain ⟨hop, o, q, ho, hq, hsep⟩ := h
  cases step with
  | push op => exact absurd op hop
  | write output place value after =>
    obtain rfl := Option.some.inj (ho.symm.trans output)
    obtain rfl := Option.some.inj ((place?_of_home hq).symm.trans place)
    exact after.get_of_separate_scratch (by simpa using h11) hsep (by omega)

theorem get_of_avoids (h : ∀ i ∈ xs, Avoids e p n i) (h11 : p ≠ .reg Machine.r11) (hn : n ≤ 8)
    (hrun : LineRun e xs s s') : s'.get p n = s.get p n := by
  induction hrun with
  | nil => rfl
  | cons step _ ih =>
    exact (ih fun i hi => h i (by simp [hi])).trans ((h _ List.mem_cons_self).get h11 hn step)

theorem exists_lineRun_of_homes
    (h : ∀ i ∈ xs, i.op = .push ∨ ∃ o q, i.output = some o ∧ e.toSetting.home? o = some q)
    (s : Machine.State) : ∃ s', LineRun e xs s s' := by
  induction xs generalizing s with
  | nil => exact ⟨s, .nil s⟩
  | cons i rest ih =>
    obtain ⟨s1, h1⟩ : ∃ s1, LineStep e i s s1 := by
      rcases h i (by simp) with hop | ⟨o, q, ho, hq⟩
      · exact exists_lineStep_of_push hop s
      · exact exists_lineStep_of_place ho (place?_of_home hq)
    obtain ⟨s', h2⟩ := ih (fun j hj => h j (by simp [hj])) s1
    exact ⟨s', .cons h1 h2⟩

end Avoids

end Backend.Lowering
