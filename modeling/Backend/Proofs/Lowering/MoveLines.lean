-- The moves of a simultaneous assignment as lines of a run. Selection may use r11 for any line, and
-- apart from that a run of the lines is a run of the moves.
import Backend.Proofs.Lowering.Addresses
import Backend.Proofs.Lowering.ArgPlaces
import Backend.Proofs.Lowering.LineRuns
import Backend.Proofs.Lowering.ParallelMove

namespace Backend.Lowering

open Backend.Machine (Place Assigns)

/-! ## The register that selection uses -/

theorem place_ne_mem (t : Reg) (a : BitVec 64) : t.place ≠ .mem a := by
  unfold Reg.place
  cases t.cls <;> simp

def regR11 : Reg := gpr Machine.r11 8

theorem ne_regR11_of_argKey {key : Nat} (h : key ∈ argKeys) : key ≠ regR11.key := by
  have hall : ∀ k ∈ argKeys, k ≠ regR11.key := by decide
  exact hall key h

/-- The state with a word in r11. -/
def withScratch (x : BitVec 64) (s : Machine.State) : Machine.State :=
  { s with regs := Function.update s.regs Machine.r11 x }

section Scratch

variable {x : BitVec 64} {s s1 : Machine.State} {p : Place} {n : Nat}

theorem withScratch_self (s : Machine.State) : withScratch (s.regs Machine.r11) s = s := by
  simp [withScratch]

theorem withScratch_withScratch (x y : BitVec 64) (s : Machine.State) :
    withScratch y (withScratch x s) = withScratch y s := by
  simp [withScratch]

theorem regs_withScratch {r : Machine.RegId} (hr : r ≠ Machine.r11) :
    (withScratch x s).regs r = s.regs r := by
  simp [withScratch, hr]

theorem get_withScratch (hp : p ≠ .reg Machine.r11) : (withScratch x s).get p n = s.get p n := by
  cases p with
  | reg r =>
    have hr : r ≠ Machine.r11 := fun h => hp (by rw [h])
    simp only [Machine.State.get, regs_withScratch hr]
  | _ => rfl

theorem assigns_withScratch {v : BitVec (8 * n)} (h : Assigns p v [Machine.r11] s s1)
    (hp : p ≠ .reg Machine.r11) : Assigns p v [] (withScratch x s) (withScratch x s1) where
  value := (get_withScratch hp).trans h.value
  regs r hr _ := by
    by_cases h11 : r = Machine.r11
    · simp [withScratch, h11]
    · rw [regs_withScratch h11, regs_withScratch h11]
      exact h.regs r hr (by simpa using h11)
  xmms := h.xmms
  mem := h.mem

theorem assigns_scratch (x : BitVec 64) (s : Machine.State) :
    Assigns (.reg Machine.r11) (n := 8) x [] s (withScratch x s) where
  value := by simp [withScratch, Machine.State.get]
  regs r hr _ := regs_withScratch fun h => hr (by rw [h])
  xmms _ _ := rfl
  mem _ _ := rfl

end Scratch

/-! ## Moves as lines -/

/-- The move does not use r11, and it takes addresses of symbols only. -/
structure Move.Unscratched (locs : Locations) (m : Move) : Prop where
  dst : regKey? locs m.dst ≠ some regR11.key
  src : readsKey locs regR11.key m.src = false
  lea : m.lea = true → ∃ y, m.src = .symbol y

/-- The address of the source is made of registers that hold all of what they count for. -/
def Move.Filled (e : Scene) (s : Machine.State) (m : Move) : Prop :=
  ∀ base index scale disp t, m.src = .indirect base index scale disp t →
    ∀ part, base = some part ∨ index = some part → inGpr e.locs part = true ∧
    Lowering.Holds e s part

section Line

variable {e : Scene} {cx : Context} {s s1 : Machine.State} {m : Move} {p : Place} {r : Reading}

theorem exists_reg_of_inGpr {o : Operand} (h : inGpr e.locs o = true) :
    ∃ r, regOf? e.locs o = some r ∧ r.cls = .int := by
  unfold inGpr at h
  cases hr : regOf? e.locs o with
  | none => simp [hr] at h
  | some r => exact ⟨r, rfl, by simpa [hr] using h⟩

/-- A part of an address that fills its register is worth the same in both ways of reading it. -/
theorem index?_eq_part? {o : Option Operand}
    (h : ∀ part, o = some part → inGpr e.locs part = true ∧ Lowering.Holds e s part) :
    e.index? s o = e.toSetting.part? s o ∧ e.base? s o = e.toSetting.part? s o := by
  cases o with
  | none => exact ⟨rfl, rfl⟩
  | some part =>
    obtain ⟨hin, hholds⟩ := h part rfl
    obtain ⟨r, hr, hint⟩ := exists_reg_of_inGpr hin
    have hhome := home?_of_regOf (g := e.toSetting) hr
    have hplace : r.place = .reg r.index := by
      unfold Reg.place
      rw [hint]
    have hword : s.get (.reg r.index) 8 = s.regs r.index := BitVec.setWidth_eq _
    have hpart : e.toSetting.part? s (some part) = some (s.regs r.index) := by
      simp [Setting.part?, hr, hint, hplace, hword]
    have hindex : e.index? s (some part) = some (s.regs r.index) := by
      rw [hplace] at hhome
      have hheld := hholds r hr hint
      cases part with
      | reg t => simpa [Scene.index?, hhome] using hheld
      | var v => simpa [Scene.index?, hhome] using hheld
      | _ => cases hr
    refine ⟨hindex.trans hpart.symm, ?_⟩
    rw [hpart, ← hindex]
    cases part with
    | symbol y => cases hr
    | _ => rfl

theorem Move.Filled.address? {base index : Option Operand} {scale : UInt8} {disp : Int64} {t : Ty}
    (h : m.Filled e s) (hsrc : m.src = .indirect base index scale disp t) :
    e.address? s base index scale disp = e.toSetting.address? s m.src := by
  have hb := (index?_eq_part? fun part hp => h base index scale disp t hsrc part (.inl hp)).2
  have hi := (index?_eq_part? fun part hp => h base index scale disp t hsrc part (.inr hp)).1
  rw [hsrc]
  simp only [Scene.address?, Setting.address?, hb, hi]

/-- The source of a move is where it is read from. -/
theorem Move.Filled.place? (h : m.Filled e s) (hp : e.toSetting.place? s m.src = some p) :
    e.place? s m.src = some p := by
  have hhome : ∀ o, e.toSetting.home? o = none → e.toSetting.place? s o = some p →
      ∃ a, e.toSetting.address? s o = some a ∧ p = .mem a := by
    intro o hnone ho
    simp only [Setting.place?, hnone, Option.map_eq_some_iff] at ho
    obtain ⟨a, ha, rfl⟩ := ho
    exact ⟨a, ha, rfl⟩
  cases hsrc : m.src with
  | indirect base index scale disp t =>
    rw [hsrc] at hp
    obtain ⟨a, ha, rfl⟩ := hhome _ rfl hp
    rw [← hsrc, ← h.address? hsrc] at ha
    simp [Scene.place?, ha]
  | symbol y =>
    rw [hsrc] at hp
    exact hp
  | reg t =>
    rw [hsrc] at hp
    exact hp
  | var v =>
    rw [hsrc] at hp
    cases hv : e.toSetting.home? (.var v) with
    | some q =>
      simp only [Setting.place?, hv] at hp
      rw [← hp]
      exact hv
    | none =>
      obtain ⟨a, ha, -⟩ := hhome _ hv hp
      simp [Setting.address?, hv] at ha
  | stack offset t =>
    rw [hsrc] at hp
    exact hp
  | imm l =>
    rw [hsrc] at hp
    obtain ⟨a, ha, -⟩ := hhome _ rfl hp
    cases ha
  | _ =>
    rw [hsrc] at hp
    obtain ⟨a, ha, -⟩ := hhome _ rfl hp
    cases ha

/-- What a move reads is what its source is worth, as far as the source has bytes. -/
theorem exists_datum_of_reading (h : m.Filled e s) (hlea : m.lea = false)
    (hr : m.reading? e.toSetting s = some r) :
    ∃ d, e.datum? s m.src = some d ∧ ∀ n ≤ m.sourceWidth, n ≤ d.width ∧
      d.brought n = r.get s n := by
  have hheld : ∀ p, r = .place p → e.datum? s m.src = some (held s m.src p) →
      ∃ d, e.datum? s m.src = some d ∧
        ∀ n ≤ m.sourceWidth, n ≤ d.width ∧ d.brought n = r.get s n := by
    rintro p rfl hd
    refine ⟨_, hd, fun n hn => ?_⟩
    have hn' : n ≤ width m.src := by simpa [Move.sourceWidth, hlea] using hn
    refine ⟨hn', ?_⟩
    exact (Selection.convert_of_le _ _ hn').trans (Machine.setWidth_get s p _ n hn')
  unfold Move.reading? at hr
  rw [hlea, if_neg (by simp)] at hr
  split at hr
  · rename_i l hsrc
    obtain ⟨v, hv, rfl⟩ := Option.map_eq_some_iff.mp hr
    have hd : e.datum? s m.src = some ⟨true, 8, v.toBitVec⟩ := by
      rw [hsrc]
      cases l <;> cases hv <;> rfl
    refine ⟨_, hd, fun n hn => ?_⟩
    have hn' : n ≤ 8 := hn.trans m.sourceWidth_le_eight
    exact ⟨hn', Selection.convert_of_le _ _ hn'⟩
  · rename_i hliteral
    obtain ⟨p, hp, rfl⟩ := Option.map_eq_some_iff.mp hr
    have hplace := h.place? hp
    refine hheld p rfl ?_
    cases hsrc : m.src with
    | imm l => exact absurd hsrc (hliteral l)
    | _ =>
      rw [hsrc] at hplace
      simp [Scene.datum?, hplace]

/-- The line of a move gives its destination what the move reads. -/
theorem exists_effect_of_reading (cx : Context) (hfilled : m.Filled e s) (hm : m.Unscratched e.locs)
    (hp : e.toSetting.home? m.dst = some p) (hr : m.reading? e.toSetting s = some r) :
    ∃ v : BitVec (8 * width m.dst),
      e.effect? s (m.instr cx) = some (.assign p (width m.dst) v) ∧
        v.setWidth (8 * m.width) = r.get s m.width := by
  have hplace : e.place? s m.dst = some p := place?_of_home hp
  cases hlea : m.lea with
  | true =>
    obtain ⟨y, hy⟩ := hm.lea hlea
    have hword : r = .word (e.symbolAddress y) := by
      rw [Move.reading?, hlea, if_pos rfl, hy] at hr
      exact (Option.some.inj hr).symm
    refine ⟨(e.symbolAddress y).setWidth _, ?_, ?_⟩
    · rw [Move.instr, hlea, hy]
      exact effect?_lea y hplace
    · rw [hword]
      exact BitVec.setWidth_setWidth_of_le _ (by have := m.width_le_dst; omega)
  | false =>
    obtain ⟨d, hd, hread⟩ := exists_datum_of_reading hfilled hlea hr
    refine ⟨d.brought (width m.dst), ?_, ?_⟩
    · rw [Move.instr, hlea]
      exact effect?_move hd hplace
    · rw [← (hread m.width m.width_le_source).2, ← Selection.convert_of_le true _ m.width_le_dst]
      exact d.convert_brought true m.width_le_dst

/-- What is read without r11 does not depend on it. -/
theorem reading_withScratch (hfree : readsKey e.locs regR11.key m.src = false)
    (hr : m.reading? e.toSetting s = some r) (x : BitVec 64) :
    m.reading? e.toSetting (withScratch x s) = some r ∧
      ∀ k ≤ m.sourceWidth, r.get (withScratch x s) k = r.get s k := by
  refine reading_kept (assigns_scratch x s) hr (fun t ht => ?_) fun _ _ => trivial
  rw [← (Reg.place_eq_iff regR11 t).mp ht]
  exact hfree

/-- What fills its register does so while that stays. -/
theorem holds_of_regs {o : Operand} (h : Holds e s o)
    (hkeep : ∀ t, regOf? e.locs o = some t → t.cls = .int → s1.regs t.index = s.regs t.index) :
    Holds e s1 o := by
  intro t ht hint
  have hsame := hkeep t ht hint
  have hheld : held s1 o (.reg t.index) = held s o (.reg t.index) :=
    held_of_get (by simp only [Machine.State.get, hsame])
  rw [hheld, hsame]
  exact h t ht hint

theorem Move.Filled.of_regs (h : m.Filled e s)
    (hkeep : ∀ t : Reg, t.cls = .int → readsKey e.locs t.key m.src = true →
      s1.get t.place 8 = s.get t.place 8) : m.Filled e s1 := by
  intro base index scale disp t hsrc part hpart
  obtain ⟨hin, hholds⟩ := h base index scale disp t hsrc part hpart
  refine ⟨hin, holds_of_regs hholds fun q hq hint => ?_⟩
  have hreads : readsKey e.locs q.key m.src = true := by
    rw [hsrc, readsKey]
    have hself : readsKeyOption e.locs q.key (some part) = true := by
      simp [readsKeyOption, readsKey_of_regOf hq]
    rcases hpart with rfl | rfl <;> simp [hself]
  have hsame := hkeep q hint hreads
  have hplace : q.place = .reg q.index := by
    unfold Reg.place
    rw [hint]
  have hget : ∀ s2 : Machine.State, s2.get (.reg q.index) 8 = s2.regs q.index :=
    fun s2 => BitVec.setWidth_eq _
  rwa [hplace, hget, hget] at hsame

theorem Move.Filled.withScratch (h : m.Filled e s)
    (hfree : readsKey e.locs regR11.key m.src = false) (x : BitVec 64) :
    m.Filled e (withScratch x s) := by
  refine h.of_regs fun t _ ht => get_withScratch fun h11 => ?_
  have hkey : t.key = regR11.key := (Reg.place_eq_iff t regR11).mp h11
  rw [hkey, hfree] at ht
  cases ht

/-- A line of a move does the move, apart from r11. -/
theorem steps_of_lineStep {x : BitVec 64} (h : LineStep e (m.instr cx) s s1)
    (hm : m.Unscratched e.locs) (hfilled : m.Filled e (withScratch x s))
    (hp : e.toSetting.home? m.dst = some p)
    (hr : m.reading? e.toSetting (withScratch x s) = some r) :
    m.Steps e.toSetting (withScratch x s) (withScratch x s1) := by
  have hback : withScratch (s.regs Machine.r11) (withScratch x s) = s := by
    rw [withScratch_withScratch, withScratch_self]
  obtain ⟨hr', hsame⟩ := reading_withScratch hm.src hr (s.regs Machine.r11)
  have hfilled' := hfilled.withScratch hm.src (s.regs Machine.r11)
  rw [hback] at hr' hsame hfilled'
  obtain ⟨v, heff, hv⟩ := exists_effect_of_reading cx hfilled' hm hp hr'
  have hassigns := h.assigns heff
  have hp11 : p ≠ .reg Machine.r11 := fun h11 => hm.dst (key_of_home (r := regR11) hp h11)
  refine ⟨p, r, hp, hr, ⟨v, assigns_withScratch hassigns hp11⟩, ?_⟩
  rw [get_withScratch hp11, ← hsame _ m.width_le_source, ← hv, ← hassigns.value]
  exact (Machine.setWidth_get s1 p _ _ m.width_le_dst).symm

end Line

/-! ## Runs of the loop -/

section Loop

variable {e : Scene} {cx : Context} {x : BitVec 64} {s s' : Machine.State}
  {pending out rest : List Move} {allowed : List Move → Prop}

/-- The move that saves a destination does not use r11. -/
theorem unscratched_save {t : Reg} (h : t.key ≠ regR11.key) : (save t.key).Unscratched e.locs where
  dst := show some regXmm13.key ≠ some regR11.key by decide
  src := by
    have hkey : (fullReg t.key).key = t.key := (Reg.place_eq_iff _ _).mp (place_fullReg t)
    simpa [save, readsKey, regKey?, hkey] using h
  lea hlea := by cases hlea

theorem Move.Unscratched.redirect {m : Move} {moves : List Move} {key : Nat}
    (h : m.Unscratched e.locs) (hdir : readDirectly e.locs key moves = true) (hm : m ∈ moves)
    (hlea : ∀ t, regOf? e.locs m.src = some t → m.lea = false) :
    (Lowering.redirect e.locs key m).Unscratched e.locs := by
  rcases redirect_cases hdir hm with ⟨-, heq⟩ | ⟨t, ht, -, heq⟩
  · rw [heq]
    exact h
  · rw [heq]
    refine ⟨h.dst, rfl, fun hl => ?_⟩
    rw [show m.lea = true from hl] at hlea
    cases hlea t ht

/-- A run of the lines that come out is a run of the moves, apart from r11. -/
theorem Loop.runs_of_lineRun (h : Loop e.locs allowed pending out rest)
    (ha : Assignable e.toSetting (withScratch x s) pending)
    (hfilled : ∀ m ∈ pending, m.Filled e (withScratch x s))
    (hm : ∀ m ∈ pending, m.Unscratched e.locs)
    (hrun : LineRun e (out.map (Move.instr cx)) s s') :
    Runs e.toSetting (out.map (Move.instr cx)) (withScratch x s) (withScratch x s') := by
  induction h generalizing s with
  | stop pending =>
    cases hrun
    exact .nil _
  | @ready pending b a out rest m found next ih =>
    obtain ⟨he, hfree⟩ := splitReady_some found
    rw [List.nil_append] at he
    have hmem : m ∈ pending := by simp [he]
    cases hrun with
    | @cons _ _ _ s1 _ step hrun =>
      obtain ⟨p, hp, -⟩ := ha.home m hmem
      obtain ⟨r, hr⟩ := ha.source m hmem
      have hs := steps_of_lineStep step (hm m hmem) (hfilled m hmem) hp hr
      obtain ⟨-, ha1, -⟩ := ha.ready found hs
      refine (runs_cons_iff ..).mpr ⟨_, hs, ih ha1 (fun n hn => ?_) (fun n hn => ?_) hrun⟩
      · -- The registers of the addresses that are left are not the destination.
        obtain ⟨q, -, hq, -, ⟨v, hv⟩, -⟩ := hs
        refine (hfilled n (he ▸ mem_of_others hn)).of_regs fun t _ ht =>
          hv.get_of_separate (separate_place (fun hqt => ?_) _ _) (by decide)
        have hnot := not_reads_of_any (hfree t.key (key_of_home hq hqt)) n hn
        rw [hnot] at ht
        cases ht
      · exact hm n (he ▸ mem_of_others hn)
  | @broken pending redirected out rest key blocked chosen allow next ih =>
    obtain ⟨b, m, a, t, rfl, ht, rfl, hdir, rfl⟩ := exists_reg_of_breakCycle chosen
    cases hrun with
    | @cons _ _ _ s1 _ step hrun =>
      have htkey : t.key ≠ regR11.key := by
        intro h11
        refine (hm m (by simp)).dst ?_
        rw [regKey?_eq_map, ht, Option.map_some, h11]
      have hs : (save t.key).Steps e.toSetting (withScratch x s) (withScratch x s1) :=
        steps_of_lineStep step (unscratched_save htkey)
          (fun base index scale disp ty hsrc => by cases hsrc) rfl rfl
      obtain ⟨⟨v, hv⟩, -⟩ := assigns_of_save hs
      have hkept : ∀ n ∈ b ++ m :: a, n.Filled e (withScratch x s1) := fun n hn =>
        (hfilled n hn).of_regs fun q hint _ => hv.get_of_separate
          (by simp [Reg.place, hint, Place.Separate]) (by decide)
      refine (runs_cons_iff ..).mpr ⟨_, hs, ih (ha.redirected hdir hs) (fun n hn => ?_)
        (fun n hn => ?_) hrun⟩
      · rcases mem_redirected hn with rfl | ⟨n', hn', rfl⟩
        · exact hkept n (by simp)
        · rcases redirect_cases hdir hn' with ⟨-, heq⟩ | ⟨q, -, -, heq⟩
          · rw [heq]
            exact hkept n' (mem_of_others hn')
          · rw [heq]
            intro base index scale disp ty hsrc
            cases hsrc
      · rcases mem_redirected hn with rfl | ⟨n', hn', rfl⟩
        · exact hm n (by simp)
        · refine (hm n' (mem_of_others hn')).redirect hdir hn' fun q hq => ?_
          obtain ⟨r, hr⟩ := ha.source n' (mem_of_others hn')
          exact (reading_of_regOf hq hr).1

/-- What comes out of all pending moves does not depend on where cycles may be broken. -/
theorem Loop.out_unique {allowed' : List Move → Prop} {locs : Locations} {out' rest' : List Move}
    (h : Loop locs allowed pending out rest) (h' : Loop locs allowed' pending out' rest')
    (hrest : rest = []) (hrest' : rest' = []) : out = out' := by
  induction h generalizing out' with
  | stop pending =>
    subst hrest
    cases h' with
    | stop => rfl
    | ready found _ => cases found
    | broken _ chosen _ _ => cases chosen
  | ready found next ih =>
    cases h' with
    | stop =>
      subst hrest'
      cases found
    | ready found' next' =>
      cases found.symm.trans found'
      rw [ih next' hrest]
    | broken blocked' _ _ _ => cases found.symm.trans blocked'
  | broken blocked chosen allow next ih =>
    cases h' with
    | stop =>
      subst hrest'
      cases chosen
    | ready found' _ => cases blocked.symm.trans found'
    | broken _ chosen' _ next' =>
      cases chosen.symm.trans chosen'
      rw [ih next' hrest]

/-- All moves come out, and no cycle is broken while one of them waits for xmm13. -/
def Orderly (locs : Locations) (moves : List Move) : Prop :=
  ∃ out, Loop locs (XmmFree locs) (moves.filter (Move.isNeeded locs)) out []

section Parallel

variable {moves : List Move} {st st' : State}

/-- What the simultaneous assignment emits, if it gives no error. -/
theorem exists_loop_of_parallel (hok : parallel cx moves st = .ok ((), st'))
    (hlocs : st.closure.locations = e.locs) (ha : Assignable e.toSetting s moves) :
    ∃ out, Loop e.locs (fun _ => True) (moves.filter (Move.isNeeded e.locs)) out [] ∧
      st' = { st with out := st.out ++ out.map (Move.instr cx) } := by
  have hneeded : Assignable e.toSetting s (moves.filter (Move.isNeeded e.locs)) :=
    ha.sublist List.filter_sublist
  have hparallel : parallel cx moves st = parallelUpTo cx e.locs
      (moves.filter (Move.isNeeded e.locs)).length (moves.filter (Move.isNeeded e.locs)) st := by
    rw [← hlocs]
    rfl
  obtain ⟨out, rest, hloop, ⟨rfl, hout⟩ | ⟨-, herr⟩⟩ := exists_loop_of_parallelUpTo cx e.locs _ _
    st (Nat.le_refl _) fun m h hk => (hneeded.ne_xmm13 h hk).2 rfl
  · rw [← hparallel, hok] at hout
    cases hout
    exact ⟨out, hloop, rfl⟩
  · rw [← hparallel, hok] at herr
    cases herr

/-- Moves whose sources read one register each come out in order. -/
theorem orderly_of_single_reads (hok : parallel cx moves st = .ok ((), st'))
    (hlocs : st.closure.locations = e.locs) (ha : Assignable e.toSetting s moves)
    (hone : ∀ m ∈ moves, ReadsOne e.locs m) : Orderly e.locs moves := by
  have hneeded : Assignable e.toSetting s (moves.filter (Move.isNeeded e.locs)) :=
    ha.sublist List.filter_sublist
  obtain ⟨out, hloop, -⟩ := exists_loop_of_parallel hok hlocs ha
  refine ⟨out, hloop.xmmFree_of_single_reads (fun m h => hone m (List.mem_filter.mp h).1) ?_ ?_⟩
  · refine List.pairwise_filterMap.mpr (hneeded.apart.imp fun {m m'} hapart k hk k' hk' hkk => ?_)
    subst hkk
    obtain ⟨r, hr, hkey⟩ := Option.map_eq_some_iff.mp ((regKey?_eq_map _ _).symm.trans hk)
    subst hkey
    exact hapart.1.key_ne hk hk'
  · intro hx
    obtain ⟨m, hm, hk⟩ := List.mem_filterMap.mp hx
    exact (hneeded.ne_xmm13 hm hk).2 rfl

/-- Lines of moves that come out in order leave in every destination what its source had. -/
theorem holds_of_parallel {code : List Instr} (hok : parallel cx moves st = .ok ((), st'))
    (hlocs : st.closure.locations = e.locs) (hcode : st'.out = st.out ++ code)
    (ha : Assignable e.toSetting s moves) (hfilled : ∀ m ∈ moves, m.Filled e s)
    (hm : ∀ m ∈ moves, m.Unscratched e.locs) (horder : Orderly e.locs moves)
    (hrun : LineRun e code s s') : ∀ m ∈ moves, m.Holds e.toSetting s s' := by
  have hneeded : Assignable e.toSetting s (moves.filter (Move.isNeeded e.locs)) :=
    ha.sublist List.filter_sublist
  have hmem : ∀ m ∈ moves.filter (Move.isNeeded e.locs), m ∈ moves := fun m h =>
    (List.mem_filter.mp h).1
  obtain ⟨out, hloop, rfl⟩ := exists_loop_of_parallel hok hlocs ha
  obtain rfl := List.append_cancel_left hcode
  obtain ⟨out', hsafe⟩ := horder
  obtain rfl := hloop.out_unique hsafe rfl rfl
  -- The state in which r11 is as it was at the start.
  have hself := withScratch_self s
  have hruns := hloop.runs_of_lineRun (x := s.regs Machine.r11) (hself.symm ▸ hneeded)
    (fun m h => hself.symm ▸ hfilled m (hmem m h)) (fun m h => hm m (hmem m h)) hrun
  rw [hself] at hruns
  intro m hin
  have hheld : m.Holds e.toSetting s (withScratch (s.regs Machine.r11) s') := by
    by_cases hneed : m.isNeeded e.locs = true
    · exact hsafe.holds rfl hneeded hruns m (List.mem_filter.mpr ⟨hin, hneed⟩)
    · exact hloop.holds_of_not_needed ha hruns hin (by simpa using hneed)
  obtain ⟨p, r, hp, hr, hget⟩ := hheld
  have hp11 : p ≠ .reg Machine.r11 := fun h11 => (hm m hin).dst (key_of_home (r := regR11) hp h11)
  exact ⟨p, r, hp, hr, (get_withScratch hp11).symm.trans hget⟩

end Parallel

end Loop

end Backend.Lowering
