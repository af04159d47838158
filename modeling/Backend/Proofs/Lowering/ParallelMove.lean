-- The laws of simultaneous assignment. The moves come out in an order in which every source is read
-- before it is overwritten. A cycle that is broken while a move still waits for xmm13 gives that
-- move the value of another register.
import Backend.Proofs.Lowering.MoveLoop

namespace Backend.Lowering

open Backend.Machine (Place Assigns)

variable {g : Setting} {s s1 s' : Machine.State}

/-! ## Sending a move out -/

theorem not_reads_of_any {locs : Locations} {key : Nat} {moves : List Move}
    (h : anyReads locs key moves = false) : ∀ m ∈ moves, readsKey locs key m.src = false := by
  simpa [anyReads] using h

/-- A move whose destination no other one reads leaves to the others what they read. -/
theorem Assignable.step {b a : List Move} {m : Move} (h : Assignable g s (b ++ m :: a))
    (hfree : ∀ key, regKey? g.locs m.dst = some key → anyReads g.locs key (b ++ a) = false)
    (hs : m.Steps g s s1) {m' : Move} (hm : m' ∈ b ++ a) {r : Reading}
    (hr : m'.reading? g s = some r) :
    m'.reading? g s1 = some r ∧ ∀ k ≤ m'.sourceWidth, r.get s1 k = r.get s k := by
  obtain ⟨p, _, hp, _, ⟨v, hv⟩, _⟩ := hs
  refine reading_kept hv hr ?_ ?_
  · intro t ht
    exact not_reads_of_any (hfree t.key (key_of_home hp ht)) m' hm
  · intro x hx
    exact ((h.apart_middle m' hm).2 p hp).2 x (hx ▸ hr)

/-! ## Breaking a cycle -/

theorem place_fullReg (r : Reg) : (fullReg r.key).place = r.place := by
  have hlt := r.index.toNat_lt
  unfold fullReg Reg.key Reg.place
  cases hc : r.cls with
  | int =>
    have hq : r.index.toNat / 256 = 0 := by omega
    have hm : r.index.toNat % 256 = r.index.toNat := by omega
    simp [hq, hm, gpr]
  | float =>
    have hq : (256 + r.index.toNat) / 256 = 1 := by omega
    have hm : (256 + r.index.toNat) % 256 = r.index.toNat := by omega
    simp [hq, hm, xmm]

/-- Saving a register gives xmm13 the whole of it. -/
theorem assigns_of_save {r : Reg} (h : (save r.key).Steps g s s1) :
    (∃ v : BitVec (8 * 8), Assigns (.xmm 13) v [] s s1) ∧
      ∀ k ≤ 8, s1.get (.xmm 13) k = s.get r.place k := by
  obtain ⟨p, t, hp, ht, hv, hget⟩ := h
  cases hp
  have ht' : Reading.place (fullReg r.key).place = t := Option.some.inj ht
  subst ht'
  have hwidth : (save r.key).width = 8 := by
    have hfull : (fullReg r.key).width = 8 := by
      unfold fullReg
      split <;> rfl
    simp [save, Move.width, Move.sourceWidth, width, hfull, regXmm13, xmm]
  rw [hwidth] at hget
  refine ⟨hv, fun k hk => ?_⟩
  have hcut := congrArg (BitVec.setWidth (8 * k)) hget
  rw [place_fullReg] at hcut
  have hleft := Machine.setWidth_get s1 (.xmm 13) 8 k hk
  have hright := Machine.setWidth_get s r.place 8 k hk
  exact hleft.symm.trans (hcut.trans hright)

/-- Saving a register changes no address. -/
theorem reading?_of_save {r : Reg} (h : (save r.key).Steps g s s1) (m : Move) :
    m.reading? g s1 = m.reading? g s := by
  obtain ⟨⟨v, hv⟩, _⟩ := assigns_of_save h
  refine reading?_of_regs fun t ht _ => hv.get_of_separate ?_ (by decide)
  simp [Reg.place, ht, Place.Separate]

/-- Saving a register changes nothing for a move that does not read xmm13. -/
theorem get_of_save {r : Reg} (h : (save r.key).Steps g s s1) {m : Move} {t : Reading}
    (ht : m.reading? g s = some t) (hfree : readsKey g.locs regXmm13.key m.src = false) :
    ∀ k ≤ m.sourceWidth, t.get s1 k = t.get s k := by
  obtain ⟨⟨v, hv⟩, _⟩ := assigns_of_save h
  refine (reading_kept hv ht ?_ fun a _ => trivial).2
  intro x hx
  have hkey : x.key = regXmm13.key := (Reg.place_eq_iff x regXmm13).mp hx.symm
  rw [hkey, hfree]

/-- A register is no wider than its type. -/
theorem width_le_registerWidth {locs : Locations} {o : Operand} {t : Reg}
    (h : regOf? locs o = some t) : width o ≤ registerWidth o.ty := by
  cases o with
  | reg r =>
    simp only [width, Operand.ty, Reg.ty, Ty.ofIntWidth, Ty.ofFloatWidth]
    cases r.cls with
    | int =>
      dsimp only
      split_ifs <;> simp only [registerWidth, Ty.size] <;> simp_all <;> omega
    | float =>
      dsimp only
      split_ifs <;> simp only [registerWidth, Ty.size] <;> simp_all
      omega
  | var v => exact Nat.le_refl _
  | _ => cases h

/-- A move that is sent to xmm13 takes at least as many bytes as before. -/
theorem width_redirected {m : Move} {t : Reg} (h : regOf? g.locs m.src = some t)
    (hlea : m.lea = false) :
    m.width ≤ Move.width { m with src := .reg (xmm 13 (registerWidth m.src.ty)) } := by
  have hle := width_le_registerWidth h
  have h8 := registerWidth_le_eight m.src.ty
  have hnat : (UInt8.ofNat (registerWidth m.src.ty)).toNat = registerWidth m.src.ty :=
    UInt8.toNat_ofNat_of_lt' (Nat.lt_of_le_of_lt h8 (by decide))
  simp only [Move.width, Move.sourceWidth, hlea, Bool.false_eq_true, if_false]
  have hx : width (.reg (xmm 13 (registerWidth m.src.ty))) = registerWidth m.src.ty := by
    simp only [width, xmm, hnat]
    omega
  rw [hx]
  omega

/-- What a move that is sent to xmm13 finds there. -/
theorem redirected_reads {m : Move} {t : Reg} {r : Reading} (hs : (save t.key).Steps g s s1)
    (ht : regOf? g.locs m.src = some t) (hr : m.reading? g s = some r) :
    Move.reading? g s1 { m with src := .reg (xmm 13 (registerWidth m.src.ty)) } =
        some (.place (.xmm 13)) ∧
      ∀ k ≤ 8, s1.get (.xmm 13) k = r.get s k := by
  obtain ⟨hlea, rfl⟩ := reading_of_regOf ht hr
  refine ⟨by simp [Move.reading?, hlea, Setting.place?, Setting.home?, Reg.place, xmm], ?_⟩
  exact (assigns_of_save hs).2

/-- After a register is saved the moves can still be done at once, with its readings sent to
xmm13. -/
theorem Assignable.redirected {b a : List Move} {m : Move} {t : Reg}
    (h : Assignable g s (b ++ m :: a)) (hdir : readDirectly g.locs t.key (b ++ a) = true)
    (hs : (save t.key).Steps g s s1) :
    Assignable g s1 (b.map (redirect g.locs t.key) ++ m :: a.map (redirect g.locs t.key)) := by
  have hdst := redirect_dst g.locs t.key
  -- A move that is left as it is reads the same as before, and one that is not reads no memory.
  have hread : ∀ m' ∈ b ++ a, ∀ x,
      (redirect g.locs t.key m').reading? g s1 = some (.place (.mem x)) →
      m'.reading? g s = some (.place (.mem x)) ∧
        (redirect g.locs t.key m').sourceWidth = m'.sourceWidth := by
    intro m' hm' x hx
    obtain ⟨r, hr⟩ := h.source m' (mem_of_others hm')
    rcases redirect_cases hdir hm' with ⟨_, he⟩ | ⟨t', ht', hkey, he⟩
    · rw [he, reading?_of_save hs] at hx
      exact ⟨hx, by rw [he]⟩
    · rw [← hkey] at hs
      rw [he, (redirected_reads hs ht' hr).1] at hx
      cases hx
  have hself : ∀ x, m.reading? g s1 = some (.place (.mem x)) →
      m.reading? g s = some (.place (.mem x)) ∧ m.sourceWidth = m.sourceWidth := by
    intro x hx
    rw [reading?_of_save hs] at hx
    exact ⟨hx, rfl⟩
  constructor
  · intro m'' hm''
    rcases mem_redirected hm'' with rfl | ⟨m', hm', rfl⟩
    · exact h.home m'' (by simp)
    · rw [hdst]
      exact h.home m' (mem_of_others hm')
  · intro m'' hm''
    rcases mem_redirected hm'' with rfl | ⟨m', hm', rfl⟩
    · rw [reading?_of_save hs]
      exact h.source m'' (by simp)
    · obtain ⟨r, hr⟩ := h.source m' (mem_of_others hm')
      rcases redirect_cases hdir hm' with ⟨_, he⟩ | ⟨t', ht', hkey, he⟩
      · rw [he, reading?_of_save hs]
        exact ⟨r, hr⟩
      · rw [← hkey] at hs
        rw [he]
        exact ⟨_, (redirected_reads hs ht' hr).1⟩
  · have hmiddle := h.apart_middle
    have hp := h.apart
    rw [List.pairwise_middle fun hxy => ⟨hxy.2, hxy.1⟩, List.pairwise_cons] at hp ⊢
    rw [← List.map_append]
    refine ⟨?_, List.pairwise_map.mpr (hp.2.imp_of_mem ?_)⟩
    · intro m'' hm''
      obtain ⟨m', hm', rfl⟩ := List.mem_map.mp hm''
      exact ⟨(hmiddle m' hm').1.imp rfl (hdst m') hself,
        (hmiddle m' hm').2.imp (hdst m') rfl (hread m' hm')⟩
    · intro m1 m2 h1 h2 hap
      exact ⟨hap.1.imp (hdst m1) (hdst m2) (hread m1 h1),
        hap.2.imp (hdst m2) (hdst m1) (hread m2 h2)⟩

/-! ## Runs of the loop -/

/-- Nothing changes but xmm13 and the destinations. -/
theorem Loop.frame {allowed : List Move → Prop} {pending out rest : List Move} {cx : Context}
    {q : Place} {k : Nat} (h : Loop g.locs allowed pending out rest)
    (hrun : Runs g (out.map (Move.instr cx)) s s') (hk : k ≤ 8) (hq : q ≠ .xmm 13)
    (hsep : ∀ m ∈ pending, ∀ p, g.home? m.dst = some p → p.Separate (width m.dst) q k) :
    s'.get q k = s.get q k := by
  induction h generalizing s with
  | stop pending =>
    cases hrun
    rfl
  | ready found next ih =>
    rw [List.map_cons, runs_cons_iff] at hrun
    obtain ⟨s1, ⟨p, _, hp, _, ⟨v, hv⟩, _⟩, hrest⟩ := hrun
    obtain ⟨he, _⟩ := splitReady_some found
    rw [List.nil_append] at he
    subst he
    rw [ih hrest fun m hm => hsep m (mem_of_others hm)]
    exact hv.get_of_separate (hsep _ (by simp) p hp) (by omega)
  | broken blocked chosen allow next ih =>
    rw [List.map_cons, runs_cons_iff] at hrun
    obtain ⟨s1, hsave, hrest⟩ := hrun
    obtain ⟨b, m, a, t, rfl, ht, rfl, hdir, rfl⟩ := exists_reg_of_breakCycle chosen
    obtain ⟨⟨v, hv⟩, _⟩ := assigns_of_save hsave
    rw [ih hrest]
    · exact hv.get_of_separate (separate_place (r := regXmm13) hq _ _).symm (by omega)
    · intro m' hm' p hp
      rcases mem_redirected hm' with rfl | ⟨n, hn, rfl⟩
      · exact hsep m' (by simp) p hp
      · rw [redirect_dst] at hp ⊢
        exact hsep n (mem_of_others hn) p hp

/-- Moves that are ready leave a list that can be done at once. -/
theorem Assignable.ready {pending b a : List Move} {m : Move} (h : Assignable g s pending)
    (found : splitReady g.locs [] pending = some (b, m, a)) (hs : m.Steps g s s1) :
    pending = b ++ m :: a ∧ Assignable g s1 (b ++ a) ∧
      ∀ m' ∈ b ++ a, ∀ r, m'.reading? g s = some r →
        m'.reading? g s1 = some r ∧ ∀ k ≤ m'.sourceWidth, r.get s1 k = r.get s k := by
  obtain ⟨he, hfree⟩ := splitReady_some found
  rw [List.nil_append] at he
  subst he
  have hkeep : ∀ m' ∈ b ++ a, ∀ r, m'.reading? g s = some r →
      m'.reading? g s1 = some r ∧ ∀ k ≤ m'.sourceWidth, r.get s1 k = r.get s k :=
    fun m' hm' r hr => h.step hfree hs hm' hr
  have hsub : (b ++ a).Sublist (b ++ m :: a) := by simp
  refine ⟨rfl, (h.sublist hsub).of_reading fun m' hm' => ?_, hkeep⟩
  obtain ⟨r, hr⟩ := h.source m' (hsub.mem hm')
  rw [(hkeep m' hm' r hr).1, hr]

/-- The moves that come out can be run. -/
theorem Loop.exists_runs {allowed : List Move → Prop} {pending out rest : List Move}
    (cx : Context) (h : Loop g.locs allowed pending out rest) (ha : Assignable g s pending) :
    ∃ s', Runs g (out.map (Move.instr cx)) s s' := by
  induction h generalizing s with
  | stop pending => exact ⟨s, .nil s⟩
  | @ready pending b a out rest m found next ih =>
    obtain ⟨he, _⟩ := splitReady_some found
    have hm : m ∈ pending := by
      rw [List.nil_append] at he
      simp [he]
    obtain ⟨p, hp, _⟩ := ha.home m hm
    obtain ⟨r, hr⟩ := ha.source m hm
    obtain ⟨s1, hs⟩ := exists_steps hp hr
    obtain ⟨s', hrun⟩ := ih (ha.ready found hs).2.1
    exact ⟨s', (runs_cons_iff ..).mpr ⟨s1, hs, hrun⟩⟩
  | broken blocked chosen allow next ih =>
    obtain ⟨b, m, a, t, rfl, ht, rfl, hdir, rfl⟩ := exists_reg_of_breakCycle chosen
    obtain ⟨s1, hs⟩ := exists_steps (g := g) (s := s) (m := save t.key) rfl rfl
    obtain ⟨s', hrun⟩ := ih (ha.redirected hdir hs)
    exact ⟨s', (runs_cons_iff ..).mpr ⟨s1, hs, hrun⟩⟩

/-- Equal bytes are equal in a shorter range. -/
theorem get_eq_of_le {p q : Place} {n k : Nat} (h : s'.get p n = s.get q n) (hk : k ≤ n) :
    s'.get p k = s.get q k := by
  rw [← Machine.setWidth_get s' p n k hk, h, Machine.setWidth_get s q n k hk]

/-- If no cycle is broken while a move waits for xmm13, every destination holds what its own source
had at the start. -/
theorem Loop.holds {pending out rest : List Move} {cx : Context}
    (h : Loop g.locs (XmmFree g.locs) pending out rest) (hrest : rest = [])
    (ha : Assignable g s pending) (hrun : Runs g (out.map (Move.instr cx)) s s') :
    ∀ m ∈ pending, m.Holds g s s' := by
  induction h generalizing s with
  | stop pending =>
    subst hrest
    simp
  | @ready pending b a out rest m found next ih =>
    rw [List.map_cons, runs_cons_iff] at hrun
    obtain ⟨s1, hs, hrun⟩ := hrun
    obtain ⟨rfl, ha1, hkeep⟩ := ha.ready found hs
    have hothers : ∀ m' ∈ b ++ a, m'.Holds g s s' := by
      intro m' hm'
      obtain ⟨p, r, hp, hr, hget⟩ := ih hrest ha1 hrun m' hm'
      obtain ⟨r', hr'⟩ := ha.source m' (mem_of_others hm')
      obtain ⟨hr1, hsame⟩ := hkeep m' hm' r' hr'
      rw [hr] at hr1
      cases hr1
      exact ⟨p, r, hp, hr', by rw [hget, hsame _ m'.width_le_source]⟩
    intro m' hm'
    by_cases he : m' ∈ b ++ a
    · exact hothers m' he
    · have hm : m' = m := by
        simp only [List.mem_append, List.mem_cons] at hm' he
        tauto
      subst hm
      -- The rest of the run leaves the destination alone.
      have hmiddle := ha.apart_middle
      obtain ⟨p, r, hp, hr, hv, hget⟩ := hs
      obtain ⟨p', hp', hx⟩ := ha.home m' (by simp)
      rw [hp] at hp'
      cases hp'
      refine ⟨p, r, hp, hr, ?_⟩
      rw [← hget]
      refine next.frame hrun m'.width_le_eight hx fun n hn q hq => ?_
      exact (((hmiddle n hn).1 q hq).1 p hp).mono m'.width_le_dst
  | broken blocked chosen allow next ih =>
    rw [List.map_cons, runs_cons_iff] at hrun
    obtain ⟨s1, hs, hrun⟩ := hrun
    obtain ⟨b, m, a, t, rfl, ht, rfl, hdir, rfl⟩ := exists_reg_of_breakCycle chosen
    have hnext := ih hrest (ha.redirected hdir hs) hrun
    have hsame : ∀ m' ∈ b ++ m :: a, m'.Holds g s1 s' → m'.Holds g s s' := by
      rintro m' hm' ⟨p, r, hp, hr, hget⟩
      rw [reading?_of_save hs] at hr
      exact ⟨p, r, hp, hr, by rw [hget, get_of_save hs hr (allow m' hm') _ m'.width_le_source]⟩
    intro m' hm'
    by_cases he : m' ∈ b ++ a
    · have hheld := hnext _ (redirect_mem he)
      rcases redirect_cases hdir he with ⟨_, heq⟩ | ⟨t', ht', hkey, heq⟩
      · rw [heq] at hheld
        exact hsame m' hm' hheld
      · rw [← hkey] at hs
        obtain ⟨r, hr⟩ := ha.source m' hm'
        obtain ⟨hread, hval⟩ := redirected_reads hs ht' hr
        obtain ⟨hlea, rfl⟩ := reading_of_regOf ht' hr
        rw [heq] at hheld
        obtain ⟨p, r1, hp, hr1, hget⟩ := hheld
        rw [hread] at hr1
        cases hr1
        have hle := width_redirected ht' hlea
        refine ⟨p, _, hp, hr, ?_⟩
        exact (get_eq_of_le hget hle).trans
          (hval _ m'.width_le_eight)
    · have hm : m' = m := by
        simp only [List.mem_append, List.mem_cons] at hm' he
        tauto
      subst hm
      exact hsame m' hm' (hnext m' (by simp))

/-! ## A cycle broken too early -/

/-- The source is in a register, and the destination holds in the second state what another
register had in the first. -/
def Move.HoldsOther (g : Setting) (s s' : Machine.State) (m : Move) (other : Reg) : Prop :=
  ∃ p own, g.home? m.dst = some p ∧ regOf? g.locs m.src = some own ∧ own.key ≠ other.key ∧
    s'.get p m.width = s.get other.place m.width

/-- The register is the destination of a move and is read by another one. -/
def Contested (locs : Locations) (pending : List Move) (t : Reg) : Prop :=
  (∃ m ∈ pending, regKey? locs m.dst = some t.key) ∧
    ∃ m ∈ pending, regKey? locs m.dst ≠ some t.key ∧ readsKey locs t.key m.src = true

/-- A source with a value that reads xmm13 is that register: it is no part of an address. -/
theorem regOf_of_reads_xmm13 {m : Move} {r : Reading} (hr : m.reading? g s = some r)
    (h : readsKey g.locs regXmm13.key m.src = true) :
    ∃ own, regOf? g.locs m.src = some own ∧ own.key = regXmm13.key := by
  cases hown : regOf? g.locs m.src with
  | some own =>
    rw [readsKey_of_regOf hown] at h
    exact ⟨own, rfl, by simpa using h⟩
  | none =>
    exfalso
    cases hsrc : m.src with
    | indirect base index scale disp t =>
      have hpart : ∀ o, (g.part? s o).isSome = true →
          readsKeyOption g.locs regXmm13.key o = false := by
        intro o ho
        cases o with
        | none => rfl
        | some part =>
          cases hreg : regOf? g.locs part with
          | none => simp [Setting.part?, hreg] at ho
          | some x =>
            have hc : x.cls = .int := by
              by_contra hc
              simp [Setting.part?, hreg, hc] at ho
            have hlt := x.index.toNat_lt
            have hkey : x.key ≠ regXmm13.key := by
              simp only [Reg.key, hc]
              intro he
              have h269 : regXmm13.key = 269 := by decide
              simp only [Reg.key] at h269
              omega
            simp [readsKeyOption, readsKey_of_regOf hreg, hkey]
      have haddr : (g.address? s m.src).isSome = true := by
        unfold Move.reading? Setting.place? at hr
        cases hl : m.lea <;> simp [hl, hsrc, Setting.home?] at hr <;>
          rw [hsrc] <;> obtain ⟨x, hx, _⟩ := hr <;> simp [hx]
      rw [hsrc] at haddr h
      rw [readsKey] at h
      simp only [Setting.address?] at haddr
      cases hb : g.part? s base with
      | none => simp [hb] at haddr
      | some x =>
        cases hi : g.part? s index with
        | none => simp [hb, hi] at haddr
        | some y =>
          simp [hpart base (by simp [hb]), hpart index (by simp [hi])] at h
    | reg x => simp [hsrc, regOf?] at hown
    | var v => simp [hsrc, readsKey, regKey?_eq_map, hsrc ▸ hown] at h
    | _ => simp [hsrc, readsKey, regKey?] at h

/-- When every move is blocked, the register that is saved is contested. -/
theorem contested_of_blocked {b a : List Move} {m : Move} {t : Reg}
    (h : Assignable g s (b ++ m :: a)) (ht : regKey? g.locs m.dst = some t.key)
    (blocked : splitReady g.locs [] (b ++ m :: a) = none) :
    Contested g.locs (b ++ m :: a) t := by
  obtain ⟨key, hk, hany⟩ := splitReady_none blocked rfl
  rw [ht] at hk
  cases hk
  obtain ⟨n, hn, hreads⟩ := List.any_eq_true.mp hany
  rw [List.nil_append] at hn
  refine ⟨⟨m, by simp, ht⟩, n, mem_of_others hn, ?_, hreads⟩
  exact (h.apart_middle n hn).1.key_ne ht

/-- After a register is saved, a register that is contested was so before, and is another one. -/
theorem Contested.of_redirected {b a : List Move} {m : Move} {t other : Reg}
    (h : Assignable g s (b ++ m :: a)) (ht : regKey? g.locs m.dst = some t.key)
    (hdir : readDirectly g.locs t.key (b ++ a) = true)
    (hc : Contested g.locs
      (b.map (redirect g.locs t.key) ++ m :: a.map (redirect g.locs t.key)) other) :
    Contested g.locs (b ++ m :: a) other ∧ other.key ≠ t.key := by
  obtain ⟨⟨m2, hm2, hk2⟩, m3, hm3, hk3, hr3⟩ := hc
  obtain ⟨n2, hn2, hkn2⟩ : ∃ n ∈ b ++ m :: a, regKey? g.locs n.dst = some other.key := by
    rcases mem_redirected hm2 with rfl | ⟨n, hn, rfl⟩
    · exact ⟨m2, by simp, hk2⟩
    · exact ⟨n, mem_of_others hn, by rwa [redirect_dst] at hk2⟩
  have hxt := (h.ne_xmm13 (by simp) ht).2
  have hxo := (h.ne_xmm13 hn2 hkn2).2
  rcases mem_redirected hm3 with rfl | ⟨n, hn, rfl⟩
  · exact ⟨⟨⟨n2, hn2, hkn2⟩, m3, by simp, hk3, hr3⟩, fun he => hk3 (by rw [ht, he])⟩
  · rw [redirect_dst] at hk3
    rcases redirect_cases hdir hn with ⟨hfree, heq⟩ | ⟨t', _, _, heq⟩
    · rw [heq] at hr3
      refine ⟨⟨⟨n2, hn2, hkn2⟩, n, mem_of_others hn, hk3, hr3⟩, fun he => ?_⟩
      rw [he, hfree] at hr3
      cases hr3
    · -- Only xmm13 is read by a move that was sent there, and no destination is that register.
      rw [heq] at hr3
      have hk : regXmm13.key = other.key := by
        simpa [readsKey, regKey?, Reg.key, xmm, regXmm13] using hr3
      exact absurd hk.symm hxo

/-- A move that was sent to xmm13 and gets the value of another register would have got it before
too. -/
theorem Move.HoldsOther.of_redirect {moves : List Move} {m : Move} {t other : Reg}
    (hdir : readDirectly g.locs t.key moves = true) (hm : m ∈ moves) {r : Reading}
    (hr : m.reading? g s = some r) (hne : other.key ≠ t.key)
    (h : (redirect g.locs t.key m).HoldsOther g s s' other) : m.HoldsOther g s s' other := by
  rcases redirect_cases hdir hm with ⟨_, heq⟩ | ⟨t', ht', hkey, heq⟩
  · rwa [heq] at h
  · rw [heq] at h
    obtain ⟨p, _, hp, _, _, hget⟩ := h
    obtain ⟨hlea, _⟩ := reading_of_regOf ht' hr
    refine ⟨p, t', hp, ht', fun he => hne (he.symm.trans hkey), ?_⟩
    exact get_eq_of_le hget (width_redirected ht' hlea)

/-- A move that reads xmm13 when a register is saved there gets the value of that register, if it is
not disturbed again. -/
theorem Loop.holdsOther_of_save {b a out rest : List Move} {m n : Move} {t : Reg} {cx : Context}
    (h : Loop g.locs (XmmFree g.locs)
      (b.map (redirect g.locs t.key) ++ m :: a.map (redirect g.locs t.key)) out rest)
    (hrest : rest = []) (ha : Assignable g s (b ++ m :: a))
    (htk : regKey? g.locs m.dst = some t.key)
    (hdir : readDirectly g.locs t.key (b ++ a) = true) (hs : (save t.key).Steps g s s1)
    (hrun : Runs g (out.map (Move.instr cx)) s1 s') (hn : n ∈ b ++ m :: a)
    (hx : readsKey g.locs regXmm13.key n.src = true) : n.HoldsOther g s s' t := by
  obtain ⟨r, hr⟩ := ha.source n hn
  obtain ⟨own, hown, hkey⟩ := regOf_of_reads_xmm13 hr hx
  have hne : own.key ≠ t.key := fun he => (ha.ne_xmm13 (by simp) htk).2 (he.symm.trans hkey)
  have hstays : n ∈ b.map (redirect g.locs t.key) ++ m :: a.map (redirect g.locs t.key) := by
    by_cases he : n ∈ b ++ a
    · have hself : redirect g.locs t.key n = n := by
        simp [redirect, readsKey_of_regOf hown, hne]
      rw [← hself]
      exact redirect_mem he
    · have hm : n = m := by
        simp only [List.mem_append, List.mem_cons] at hn he
        tauto
      simp [hm]
  obtain ⟨p, r1, hp, hr1, hget⟩ := h.holds hrest (ha.redirected hdir hs) hrun n hstays
  obtain ⟨_, rfl⟩ := reading_of_regOf hown hr1
  refine ⟨p, own, hp, hown, hne, ?_⟩
  have hplace : own.place = .xmm 13 := (Reg.place_eq_iff own regXmm13).mpr hkey
  rw [hget, Reading.get, hplace]
  exact (assigns_of_save hs).2 _ n.width_le_eight

/-- If a cycle is broken while a move waits for xmm13, some destination holds what a register other
than its own source had at the start. -/
theorem Loop.exists_holdsOther {allowed : List Move → Prop} {pending out rest : List Move}
    {cx : Context} (h : Loop g.locs allowed pending out rest) (hrest : rest = [])
    (hbad : ¬ Loop g.locs (XmmFree g.locs) pending out rest) (ha : Assignable g s pending)
    (hrun : Runs g (out.map (Move.instr cx)) s s') :
    ∃ m ∈ pending, ∃ other, m.HoldsOther g s s' other ∧ Contested g.locs pending other := by
  induction h generalizing s with
  | stop pending => exact absurd (.stop pending) hbad
  | @ready pending b a out rest m found next ih =>
    rw [List.map_cons, runs_cons_iff] at hrun
    obtain ⟨s1, hs, hrun⟩ := hrun
    obtain ⟨rfl, ha1, hkeep⟩ := ha.ready found hs
    obtain ⟨m', hm', other, ⟨p, own, hp, hown, hne, hget⟩, ⟨m2, hm2, hk2⟩, m3, hm3, hr3⟩ :=
      ih hrest (fun hsafe => hbad (.ready found hsafe)) ha1 hrun
    refine ⟨m', mem_of_others hm', other, ⟨p, own, hp, hown, hne, ?_⟩,
      ⟨m2, mem_of_others hm2, hk2⟩, m3, mem_of_others hm3, hr3⟩
    -- The register is the destination of a move that is still pending.
    obtain ⟨q, _, hq, _, ⟨v, hv⟩, _⟩ := hs
    have hw := m'.width_le_eight
    rw [hget]
    refine hv.get_of_separate (separate_place ?_ _ _) (by omega)
    intro hqo
    exact (ha.apart_middle m2 hm2).2.key_ne hk2 (key_of_home hq hqo)
  | @broken pending redirected out rest key blocked chosen allow next ih =>
    rw [List.map_cons, runs_cons_iff] at hrun
    obtain ⟨s1, hs, hrun⟩ := hrun
    obtain ⟨b, m, a, t, rfl, ht, rfl, hdir, rfl⟩ := exists_reg_of_breakCycle chosen
    have htk : regKey? g.locs m.dst = some t.key := by rw [regKey?_eq_map, ht, Option.map_some]
    by_cases hsafe : Loop g.locs (XmmFree g.locs)
        (b.map (redirect g.locs t.key) ++ m :: a.map (redirect g.locs t.key)) out rest
    · -- This break is the last one that comes too early.
      have hfree : ¬ XmmFree g.locs (b ++ m :: a) := fun hf =>
        hbad (.broken blocked chosen hf hsafe)
      simp only [XmmFree, not_forall, Bool.not_eq_false] at hfree
      obtain ⟨n, hn, hx⟩ := hfree
      exact ⟨n, hn, t, hsafe.holdsOther_of_save hrest ha htk hdir hs hrun hn hx,
        contested_of_blocked ha htk blocked⟩
    · obtain ⟨n, hn, other, ⟨p, own, hp, hown, hne, hget⟩, hc⟩ :=
        ih hrest hsafe (ha.redirected hdir hs) hrun
      obtain ⟨hc', hother⟩ := Contested.of_redirected ha htk hdir hc
      have hheld : n.HoldsOther g s s' other := by
        refine ⟨p, own, hp, hown, hne, ?_⟩
        obtain ⟨⟨m2, hm2, hk2⟩, _⟩ := hc'
        obtain ⟨⟨v, hv⟩, _⟩ := assigns_of_save hs
        have hx := (ha.ne_xmm13 hm2 hk2).1
        have hw := n.width_le_eight
        rw [hget]
        exact hv.get_of_separate (separate_place (r := regXmm13) hx _ _).symm (by omega)
      rcases mem_redirected hn with rfl | ⟨n', hn', rfl⟩
      · exact ⟨n, by simp, other, hheld, hc'⟩
      · obtain ⟨r, hr⟩ := ha.source n' (mem_of_others hn')
        exact ⟨n', mem_of_others hn', other, hheld.of_redirect hdir hn' hr hother, hc'⟩

/-! ## Moves that are left out -/

/-- The same operands have the same home. -/
theorem home?_of_same {o o' : Operand} {p : Place} (h : o.same o' = true)
    (hp : g.home? o = some p) : g.home? o' = some p := by
  cases o with
  | reg r =>
    cases o' with
    | reg t =>
      simp only [Operand.same, Bool.and_eq_true, Reg.is, beq_iff_eq] at h
      rw [← hp]
      simp only [Setting.home?, (Reg.place_eq_iff t r).mpr h.1.symm]
    | _ => simp [Operand.same] at h
  | var v =>
    cases o' with
    | var w =>
      simp only [Operand.same, beq_iff_eq] at h
      rw [← hp]
      simp only [Setting.home?, h]
    | _ => simp [Operand.same] at h
  | stack offset t =>
    cases o' with
    | stack offset' t' =>
      simp only [Operand.same, Bool.and_eq_true, beq_iff_eq] at h
      rw [← hp]
      simp only [Setting.home?, h.1]
    | _ => simp [Operand.same] at h
  | _ => cases hp

/-- A move that is left out reads its own destination. -/
theorem reading_of_not_needed {m : Move} {p : Place} (h : m.isNeeded g.locs = false)
    (hp : g.home? m.dst = some p) : m.reading? g s = some (.place p) := by
  simp only [Move.isNeeded, Bool.or_eq_false_iff] at h
  obtain ⟨hlea, h⟩ := h
  have hsrc : g.home? m.src = some p := by
    by_cases hsame : m.dst.same m.src = true
    · exact home?_of_same hsame hp
    · have hkey : (regKey? g.locs m.dst).isSome = true ∧
          regKey? g.locs m.dst = regKey? g.locs m.src := by
        simpa [hsame] using h
      rcases home?_cases hp with ⟨t, ht, rfl⟩ | ⟨hnone, _⟩
      · refine home_of_key ?_
        rw [← hkey.2, regKey?_eq_map, ht, Option.map_some]
      · simp [regKey?_eq_map, hnone] at hkey
  simp only [Move.reading?, Setting.place?, hlea, Bool.false_eq_true, if_false]
  split
  · rename_i l hm
    simp [hm, Setting.home?] at hsrc
  · simp [hsrc]

/-- What the loop does not touch keeps its value, so that a move that is left out is done. -/
theorem Loop.holds_of_not_needed {allowed : List Move → Prop} {moves out rest : List Move}
    {cx : Context} {m : Move}
    (h : Loop g.locs allowed (moves.filter (Move.isNeeded g.locs)) out rest)
    (ha : Assignable g s moves) (hrun : Runs g (out.map (Move.instr cx)) s s') (hm : m ∈ moves)
    (hneed : m.isNeeded g.locs = false) : m.Holds g s s' := by
  obtain ⟨p, hp, hx⟩ := ha.home m hm
  refine ⟨p, _, hp, reading_of_not_needed hneed hp, ?_⟩
  refine h.frame hrun m.width_le_eight hx fun n hn q hq => ?_
  obtain ⟨hn, hneed'⟩ := List.mem_filter.mp hn
  obtain ⟨b, a, rfl⟩ := List.append_of_mem hm
  have hother : n ∈ b ++ a := by
    have hne : n ≠ m := by
      rintro rfl
      rw [hneed] at hneed'
      cases hneed'
    simp only [List.mem_append, List.mem_cons] at hn ⊢
    tauto
  exact (((ha.apart_middle n hother).1 q hq).1 p hp).mono m.width_le_dst

/-! ## The law of simultaneous assignment -/

/-- Simultaneous assignment. The loop ends. If it gives moves, they can be run. Where no cycle was
broken while a move waited for xmm13, a run leaves in every destination what its own source had at
the start. Where one was, it leaves in some destination what another register had. -/
theorem parallel_moves_assign_at_once (g : Setting) (cx : Context) (st : State)
    (s : Machine.State) (moves : List Move) (hlocs : st.closure.locations = g.locs)
    (ha : Assignable g s moves) :
    ∃ out rest, Loop g.locs (fun _ => True) (moves.filter (Move.isNeeded g.locs)) out rest ∧
      ((Stuck g.locs rest ∧ parallel cx moves st =
          .error ⟨.lower, st.closure.name, some cx.instr, .unorderedMoves⟩) ∨
        (rest = [] ∧
          parallel cx moves st =
            .ok ((), { st with out := st.out ++ out.map (Move.instr cx) }) ∧
          (∃ s', Runs g (out.map (Move.instr cx)) s s') ∧
          ∀ s', Runs g (out.map (Move.instr cx)) s s' →
            (Loop g.locs (XmmFree g.locs) (moves.filter (Move.isNeeded g.locs)) out [] →
              ∀ m ∈ moves, m.Holds g s s') ∧
            (¬ Loop g.locs (XmmFree g.locs) (moves.filter (Move.isNeeded g.locs)) out [] →
              ∃ m ∈ moves, ∃ other, m.HoldsOther g s s' other))) := by
  have hneeded : Assignable g s (moves.filter (Move.isNeeded g.locs)) :=
    ha.sublist List.filter_sublist
  have hdst : ∀ m ∈ moves.filter (Move.isNeeded g.locs),
      regKey? g.locs m.dst ≠ some regXmm13.key := fun m hm hk =>
    (hneeded.ne_xmm13 hm hk).2 rfl
  have hparallel : parallel cx moves st = parallelUpTo cx g.locs
      (moves.filter (Move.isNeeded g.locs)).length (moves.filter (Move.isNeeded g.locs)) st := by
    rw [← hlocs]
    rfl
  obtain ⟨out, rest, hloop, hres⟩ :=
    exists_loop_of_parallelUpTo cx g.locs _ _ st (Nat.le_refl _) hdst
  refine ⟨out, rest, hloop, ?_⟩
  rw [hparallel]
  rcases hres with ⟨rfl, hok⟩ | ⟨hstuck, herr⟩
  · refine .inr ⟨rfl, hok, hloop.exists_runs cx hneeded, fun s' hrun => ⟨?_, ?_⟩⟩
    · intro hsafe m hm
      by_cases hneed : m.isNeeded g.locs = true
      · exact hsafe.holds rfl hneeded hrun m (List.mem_filter.mpr ⟨hm, hneed⟩)
      · exact hloop.holds_of_not_needed ha hrun hm (by simpa using hneed)
    · intro hbad
      obtain ⟨m, hm, other, hother, _⟩ := hloop.exists_holdsOther rfl hbad hneeded hrun
      exact ⟨m, (List.mem_filter.mp hm).1, other, hother⟩
  · exact .inl ⟨hstuck, herr⟩

/-! ## Two assignments -/

/-- The instruction that the moves of this section stand for, and a closure with nothing in it. -/
def callContext : Context := ⟨[], none, .make .call none none none⟩

def emptyState : State := ⟨⟨"f", "f", true, .void, [], [], [], [], [], 0, []⟩, []⟩

/-- No variable has a place, and every symbol is at zero. -/
def bareSetting : Setting := ⟨⟨fun _ => 0, fun _ => 0⟩, [], 0⟩

/-- Every register holds its own key. -/
def numbered : Machine.State :=
  ⟨fun id => BitVec.ofNat 64 id.toNat, fun id => BitVec.ofNat 64 (256 + id.toNat), fun _ => 0⟩

theorem numbered_inj {r t : Reg} (h : numbered.get r.place 8 = numbered.get t.place 8) :
    r.key = t.key := by
  have hget : ∀ x : Reg, (numbered.get x.place 8).toNat = x.key := by
    intro x
    have hlt := x.index.toNat_lt
    unfold Reg.place Reg.key numbered
    cases x.cls with
    | int => simp [Machine.State.get]
    | float =>
      simp [Machine.State.get]
      omega
  rw [← hget r, ← hget t, h]

/-- Two registers that change places. -/
def swap : List Move :=
  [⟨.reg (gpr Machine.rdi 8), .reg (gpr Machine.rsi 8), false⟩,
   ⟨.reg (gpr Machine.rsi 8), .reg (gpr Machine.rdi 8), false⟩]

theorem assignable_swap : Assignable bareSetting numbered swap := by
  refine assignable_of_regs ?_ (by decide) (by decide) ?_
  · intro m hm
    simp only [swap, List.mem_cons, List.not_mem_nil, or_false] at hm
    rcases hm with rfl | rfl <;> rfl
  · intro m hm
    simp only [swap, List.mem_cons, List.not_mem_nil, or_false] at hm
    rcases hm with rfl | rfl <;> rfl

/-- The law at a swap: its cycle is broken through xmm13, and both registers get the value of the
other. -/
theorem parallel_moves_assign_swap_at_once :
    ∃ (out : List Move) (s' : Machine.State), parallel callContext swap emptyState =
        .ok ((), { emptyState with out := out.map (Move.instr callContext) }) ∧
      Runs bareSetting (out.map (Move.instr callContext)) numbered s' ∧
      ∀ m ∈ swap, m.Holds bareSetting numbered s' := by
  obtain ⟨out, rest, hloop, hres⟩ := parallel_moves_assign_at_once bareSetting callContext
    emptyState numbered swap rfl assignable_swap
  rcases hres with ⟨_, herr⟩ | ⟨rfl, hok, ⟨s', hrun⟩, hall⟩
  · have hok : ∃ r, parallel callContext swap emptyState = .ok r := ⟨_, rfl⟩
    obtain ⟨r, hr⟩ := hok
    rw [hr] at herr
    cases herr
  · refine ⟨out, s', by rw [hok]; rfl, hrun, (hall s' hrun).1 ?_⟩
    refine hloop.xmmFree_of_single_reads ?_ (by decide) (by decide)
    intro m hm
    have hm := (List.mem_filter.mp hm).1
    simp only [swap, List.mem_cons, List.not_mem_nil, or_false] at hm
    rcases hm with rfl | rfl <;> intro k k' hk hk' <;>
      simp only [readsKey, regKey?, beq_iff_eq, Option.some.injEq] at hk hk' <;>
      exact hk.symm.trans hk'

/-- A chain that ends in a cycle through an address of two registers. -/
def contended : List Move :=
  [⟨.reg (gpr Machine.rdi 8), .imm (.int .w64 5), false⟩,
   ⟨.reg (gpr Machine.rsi 8), .reg (gpr Machine.rdi 8), false⟩,
   ⟨.reg (gpr Machine.rdx 8),
    .indirect (some (.reg (gpr Machine.rsi 8))) (some (.reg (gpr Machine.rcx 8))) 1 0 .i64, false⟩,
   ⟨.reg (gpr Machine.rcx 8), .reg (gpr Machine.rdx 8), false⟩]

theorem assignable_contended : Assignable bareSetting numbered contended := by
  refine assignable_of_regs ?_ (by decide) (by decide) ?_
  · intro m hm
    simp only [contended, List.mem_cons, List.not_mem_nil, or_false] at hm
    rcases hm with rfl | rfl | rfl | rfl <;> rfl
  · intro m hm
    simp only [contended, List.mem_cons, List.not_mem_nil, or_false] at hm
    rcases hm with rfl | rfl | rfl | rfl <;> rfl

/-- Its second cycle is broken while rsi waits for xmm13. -/
theorem not_xmmFree_contended (out : List Move) :
    ¬ Loop [] (XmmFree []) (contended.filter (Move.isNeeded [])) out [] := by
  have hneeded : contended.filter (Move.isNeeded []) = contended := rfl
  rw [hneeded]
  intro h
  cases h with
  | ready found _ => cases found
  | broken _ chosen _ next =>
    cases chosen
    cases next with
    | ready found next =>
      cases found
      cases next with
      | ready found _ => cases found
      | broken _ _ allow _ =>
        have hrsi := allow _ List.mem_cons_self
        cases hrsi
    | broken blocked _ _ _ => cases blocked

/-- The moves that come out for the chain with the cycle, run from a state in which no two registers
are equal, do not leave in every destination what its source had. -/
theorem parallel_moves_lose_a_source :
    Assignable bareSetting numbered contended ∧ XmmFree bareSetting.locs contended ∧
      ∃ out : List Move, parallel callContext contended emptyState =
          .ok ((), { emptyState with out := out.map (Move.instr callContext) }) ∧
        (∃ s', Runs bareSetting (out.map (Move.instr callContext)) numbered s') ∧
        ∀ s', Runs bareSetting (out.map (Move.instr callContext)) numbered s' →
          ¬ ∀ m ∈ contended, m.Holds bareSetting numbered s' := by
  have hfree : XmmFree bareSetting.locs contended := by
    intro m hm
    simp only [contended, List.mem_cons, List.not_mem_nil, or_false] at hm
    rcases hm with rfl | rfl | rfl | rfl <;> rfl
  have hwidth : ∀ m ∈ contended, m.width = 8 := by
    intro m hm
    simp only [contended, List.mem_cons, List.not_mem_nil, or_false] at hm
    rcases hm with rfl | rfl | rfl | rfl <;> rfl
  refine ⟨assignable_contended, hfree, ?_⟩
  obtain ⟨out, rest, hloop, hres⟩ := exists_loop_of_parallelUpTo callContext [] 4 contended
    emptyState (by decide) fun m hm hk => (assignable_contended.ne_xmm13 hm hk).2 rfl
  rcases hres with ⟨rfl, hok⟩ | ⟨_, herr⟩
  · refine ⟨out, hok, hloop.exists_runs callContext assignable_contended, fun s' hrun hall => ?_⟩
    obtain ⟨m, hm, other, ⟨p, own, hp, hown, hne, hget⟩, _⟩ :=
      hloop.exists_holdsOther rfl (not_xmmFree_contended out) assignable_contended hrun
    obtain ⟨p', r, hp', hr, hget'⟩ := hall m hm
    rw [hp] at hp'
    cases hp'
    obtain ⟨_, rfl⟩ := reading_of_regOf hown hr
    have heq : numbered.get own.place m.width = numbered.get other.place m.width :=
      hget'.symm.trans hget
    rw [hwidth m hm] at heq
    exact hne (numbered_inj heq)
  · have hok : ∃ r, parallelUpTo callContext [] 4 contended emptyState = .ok r := ⟨_, rfl⟩
    obtain ⟨r, hr⟩ := hok
    rw [hr] at herr
    cases herr

end Backend.Lowering
