-- The meaning of moves: where an operand has its value, what a move reads, and what a run of moves
-- does. A move gives its destination the low bytes of its source and says nothing of the bytes that
-- a wider destination has above them.
import Backend.Lowering.ParallelMove
import Backend.Proofs.Machine.State

namespace Backend

/-! ## Registers as places -/

/-- The place that a register names, whatever its width. -/
def Reg.place (r : Reg) : Machine.Place :=
  match r.cls with
  | .int => .reg r.index
  | .float => .xmm r.index

theorem Reg.place_eq_iff (r t : Reg) : r.place = t.place ↔ r.key = t.key := by
  have hr := r.index.toNat_lt
  have ht := t.index.toNat_lt
  unfold Reg.place Reg.key
  cases r.cls <;> cases t.cls <;> simp [← UInt8.toNat_inj] <;> omega

theorem registerWidth_le_eight (t : Ty) : registerWidth t ≤ 8 := by
  cases t <;> decide

end Backend

namespace Backend.Lowering

open Backend.Machine (Linkage Place Assigns)

/-- The register that an operand is in. -/
def regOf? (locs : Locations) : Operand → Option Reg
  | .reg r => some r
  | .var v => locs.reg? v.ident
  | _ => none

theorem regKey?_eq_map (locs : Locations) (o : Operand) :
    regKey? locs o = (regOf? locs o).map Reg.key := by
  cases o <;> rfl

/-- Evaluating an operand in a register reads that register only. -/
theorem readsKey_of_regOf {locs : Locations} {o : Operand} {r : Reg} (h : regOf? locs o = some r)
    (key : Nat) : readsKey locs key o = (r.key == key) := by
  cases o with
  | reg t =>
    cases h
    simp [readsKey, regKey?]
  | var v => simp [readsKey, regKey?_eq_map, h]
  | _ => cases h

/-! ## Where operands are -/

/-- Where symbols, variables and frame slots are while moves run. -/
structure Setting where
  link : Linkage
  locs : Locations
  base : BitVec 64

namespace Setting

variable (g : Setting)

/-- The register or frame slot of an operand. -/
def home? : Operand → Option Place
  | .reg r => some r.place
  | .var v =>
    match g.locs.lookup v.ident with
    | some ⟨some r, _⟩ => some r.place
    | some ⟨none, some offset⟩ => some (.mem (g.base + offset.toBitVec))
    | _ => none
  | .stack offset _ => some (.mem (g.base + offset.toBitVec))
  | _ => none

/-- The value of an address part, which is in a general purpose register if it is there. -/
def part? (s : Machine.State) : Option Operand → Option (BitVec 64)
  | none => some 0
  | some o => do
    let r ← regOf? g.locs o
    if r.cls = .int then some (s.get r.place 8) else none

/-- The address of an operand in memory. -/
def address? (s : Machine.State) : Operand → Option (BitVec 64)
  | .indirect base index scale disp _ => do
    let b ← g.part? s base
    let i ← g.part? s index
    some (b + i * BitVec.ofNat 64 (if scale == 0 then 1 else scale.toNat) + disp.toBitVec)
  | .symbol y => some (if y.isTls then g.link.thread y.name else g.link.symbol y.name)
  | o =>
    match g.home? o with
    | some (.mem a) => some a
    | _ => none

/-- The place of an operand. -/
def place? (s : Machine.State) (o : Operand) : Option Place :=
  match g.home? o with
  | some p => some p
  | none => (g.address? s o).map .mem

end Setting

/-- The number of bytes that an operand has. An integer is a word. -/
def width : Operand → Nat
  | .reg r => min r.width.toNat 8
  | .imm _ => 8
  | o => registerWidth o.ty

theorem width_le_eight (o : Operand) : width o ≤ 8 := by
  cases o with
  | reg r => exact Nat.min_le_right _ _
  | imm l => exact Nat.le_refl 8
  | _ => exact registerWidth_le_eight _

/-- An operand in a register has the register for its home, another one a frame slot. -/
theorem home?_cases {g : Setting} {o : Operand} {p : Place} (h : g.home? o = some p) :
    (∃ r, regOf? g.locs o = some r ∧ p = r.place) ∨
      (regOf? g.locs o = none ∧ ∃ a, p = .mem a) := by
  cases o with
  | reg r =>
    cases h
    exact .inl ⟨r, rfl, rfl⟩
  | var v =>
    simp only [Setting.home?] at h
    split at h
    · rename_i r stack hl
      cases h
      exact .inl ⟨r, by simp [regOf?, Locations.reg?, hl], rfl⟩
    · rename_i offset hl
      cases h
      exact .inr ⟨by simp [regOf?, Locations.reg?, hl], _, rfl⟩
    · cases h
  | stack offset t =>
    cases h
    exact .inr ⟨rfl, _, rfl⟩
  | _ => cases h

theorem home?_of_regOf {g : Setting} {o : Operand} {r : Reg} (h : regOf? g.locs o = some r) :
    g.home? o = some r.place := by
  cases o with
  | reg t =>
    cases h
    rfl
  | var v =>
    simp only [regOf?, Locations.reg?, Option.bind_eq_some_iff] at h
    obtain ⟨⟨reg, stack⟩, hl, hr⟩ := h
    cases hr
    simp [Setting.home?, hl]
  | _ => cases h

/-! ## What a move reads -/

/-- What a move takes: the bytes at a place, or a word that it knows. -/
inductive Reading where
  | place (p : Place)
  | word (x : BitVec 64)

/-- The low `n` bytes of what is read. -/
def Reading.get (s : Machine.State) (n : Nat) : Reading → BitVec (8 * n)
  | .place p => s.get p n
  | .word x => x.setWidth (8 * n)

namespace Move

/-- What the move reads in a state, unless its source has no value. -/
def reading? (g : Setting) (s : Machine.State) (m : Move) : Option Reading :=
  if m.lea then (g.address? s m.src).map .word
  else
    match m.src with
    | .imm l => l.int?.map fun v => .word v.toBitVec
    | o => (g.place? s o).map .place

/-- The number of bytes that the source supplies. -/
def sourceWidth (m : Move) : Nat := if m.lea then 8 else Lowering.width m.src

/-- The number of bytes that go from the source to the destination. -/
def width (m : Move) : Nat := min (Lowering.width m.dst) m.sourceWidth

/-- The move as an instruction. -/
def instr (cx : Context) (m : Move) : Instr :=
  ⟨if m.lea then .lea else .move, some m.src, none, none, some m.dst, cx.instr.pos⟩

/-- The destination gets the low bytes of what the move reads, and nothing else changes. -/
def Steps (g : Setting) (m : Move) (s s' : Machine.State) : Prop :=
  ∃ p r, g.home? m.dst = some p ∧ m.reading? g s = some r ∧
    (∃ v : BitVec (8 * Lowering.width m.dst), Assigns p v [] s s') ∧
    s'.get p m.width = r.get s m.width

theorem sourceWidth_le_eight (m : Move) : m.sourceWidth ≤ 8 := by
  unfold sourceWidth
  split
  · exact Nat.le_refl 8
  · exact Lowering.width_le_eight m.src

theorem width_le_dst (m : Move) : m.width ≤ Lowering.width m.dst := Nat.min_le_left _ _

theorem width_le_source (m : Move) : m.width ≤ m.sourceWidth := Nat.min_le_right _ _

theorem width_le_eight (m : Move) : m.width ≤ 8 :=
  Nat.le_trans m.width_le_source m.sourceWidth_le_eight

end Move

/-- A run of instructions that are moves. -/
inductive Runs (g : Setting) : List Instr → Machine.State → Machine.State → Prop where
  | nil (s : Machine.State) : Runs g [] s s
  | cons {i : Instr} {rest : List Instr} {s s1 s' : Machine.State} (m : Move)
      (op : i.op = if m.lea then .lea else .move) (src : i.first = some m.src)
      (dst : i.output = some m.dst) (step : m.Steps g s s1) (next : Runs g rest s1 s') :
      Runs g (i :: rest) s s'

/-- A run of a move and others. -/
theorem runs_cons_iff (g : Setting) (cx : Context) (m : Move) (rest : List Instr)
    (s s' : Machine.State) :
    Runs g (m.instr cx :: rest) s s' ↔ ∃ s1, m.Steps g s s1 ∧ Runs g rest s1 s' := by
  constructor
  · intro h
    cases h with
    | @cons _ _ _ s1 _ m' op src dst step next =>
      obtain ⟨dst', src', lea'⟩ := m'
      cases src
      cases dst
      have hlea : lea' = m.lea := by
        revert op
        cases hm : m.lea <;> cases lea' <;> simp [Move.instr, hm]
      subst hlea
      exact ⟨s1, step, next⟩
  · rintro ⟨s1, step, next⟩
    exact .cons m rfl rfl rfl step next

/-! ## Moves that do not disturb what others read -/

/-- The parts of an address that stay as they are give the same address, so the move reads the
same. -/
theorem reading?_of_regs {g : Setting} {s s1 : Machine.State} {m : Move}
    (h : ∀ r : Reg, r.cls = .int → readsKey g.locs r.key m.src = true →
      s1.get r.place 8 = s.get r.place 8) :
    m.reading? g s1 = m.reading? g s := by
  have haddr : g.address? s1 m.src = g.address? s m.src := by
    cases hsrc : m.src with
    | indirect base index scale disp t =>
      have hpart : ∀ o, (o = base ∨ o = index) → g.part? s1 o = g.part? s o := by
        intro o ho
        cases o with
        | none => rfl
        | some part =>
          simp only [Setting.part?]
          cases hr : regOf? g.locs part with
          | none => rfl
          | some r =>
            by_cases hc : r.cls = .int
            · have hreads : readsKeyOption g.locs r.key (some part) = true := by
                simp [readsKeyOption, readsKey_of_regOf hr]
              have hkeep := h r hc (by
                rw [hsrc, readsKey]
                rcases ho with rfl | rfl <;> simp [hreads])
              simp only [Option.bind_eq_bind, Option.bind_some, hkeep]
            · simp [hc]
      simp only [Setting.address?, hpart base (.inl rfl), hpart index (.inr rfl)]
    | _ => rfl
  unfold Move.reading? Setting.place?
  rw [haddr]
  cases hsrc : m.src with
  | indirect base index scale disp t =>
    rw [hsrc] at haddr
    simp only [haddr]
  | _ => rfl

/-- A reading outside memory is that of a source in a register. -/
theorem regOf_of_reading {g : Setting} {s : Machine.State} {m : Move} {q : Place}
    (h : m.reading? g s = some (.place q)) (hq : ∀ a, q ≠ .mem a) :
    ∃ r, regOf? g.locs m.src = some r ∧ q = r.place := by
  have hplace : g.place? s m.src = some q := by
    unfold Move.reading? at h
    split at h
    · cases ha : g.address? s m.src <;> simp [ha] at h
    · split at h
      · rename_i l _
        cases hl : l.int? <;> simp [hl] at h
      · simpa using h
  unfold Setting.place? at hplace
  cases hh : g.home? m.src with
  | none =>
    rw [hh] at hplace
    cases ha : g.address? s m.src with
    | none => simp [ha] at hplace
    | some a => exact absurd (by simpa [ha] using hplace.symm) (hq a)
  | some p =>
    rw [hh] at hplace
    cases hplace
    rcases home?_cases hh with hr | ⟨_, a, ha⟩
    · exact hr
    · exact absurd ha (hq a)

theorem separate_place {p : Place} {r : Reg} (h : p ≠ r.place) (n k : Nat) :
    p.Separate n r.place k := by
  unfold Reg.place at h ⊢
  cases hc : r.cls with
  | int =>
    rw [hc] at h
    cases p with
    | reg i => exact fun hi => h (congrArg Place.reg hi)
    | _ => trivial
  | float =>
    rw [hc] at h
    cases p with
    | xmm i => exact fun hi => h (congrArg Place.xmm hi)
    | _ => trivial

/-- A move reads the same after a place is assigned that it does not read. -/
theorem reading_kept {g : Setting} {s s1 : Machine.State} {m : Move} {r : Reading} {p : Place}
    {n : Nat} {v : BitVec (8 * n)} (h : Assigns p v [] s s1) (hr : m.reading? g s = some r)
    (hreg : ∀ t : Reg, p = t.place → readsKey g.locs t.key m.src = false)
    (hmem : ∀ a, r = .place (.mem a) → p.Separate n (.mem a) m.sourceWidth) :
    m.reading? g s1 = some r ∧ ∀ k ≤ m.sourceWidth, r.get s1 k = r.get s k := by
  have hkeep : ∀ t : Reg, readsKey g.locs t.key m.src = true →
      ∀ k ≤ 8, s1.get t.place k = s.get t.place k := by
    intro t ht k hk
    refine h.get_of_separate (separate_place ?_ n k) (by omega)
    intro hp
    rw [hreg t hp] at ht
    cases ht
  refine ⟨by rw [reading?_of_regs fun t _ ht => hkeep t ht 8 (Nat.le_refl 8), hr], ?_⟩
  intro k hk
  have hk8 : k ≤ 8 := Nat.le_trans hk m.sourceWidth_le_eight
  cases r with
  | word x => rfl
  | place q =>
    by_cases hq : ∃ a, q = .mem a
    · obtain ⟨a, rfl⟩ := hq
      exact h.get_of_separate ((hmem a rfl).mono hk) (by omega)
    · obtain ⟨t, ht, rfl⟩ := regOf_of_reading hr fun a ha => hq ⟨a, ha⟩
      exact hkeep t (by simp [readsKey_of_regOf ht]) k hk8

/-- A move whose source has a value and whose destination has a home can be done. -/
theorem exists_steps {g : Setting} {s : Machine.State} {m : Move} {p : Place} {r : Reading}
    (hp : g.home? m.dst = some p) (hr : m.reading? g s = some r) : ∃ s', m.Steps g s s' := by
  obtain ⟨s', ha⟩ := Machine.exists_assigns s p
    ((r.get s m.width).setWidth (8 * Lowering.width m.dst)) (width_le_eight m.dst)
  refine ⟨s', p, r, hp, hr, ⟨_, ha⟩, ?_⟩
  have hle := m.width_le_dst
  have hcut := Machine.setWidth_get s' p (Lowering.width m.dst) m.width hle
  rw [ha.value, BitVec.setWidth_setWidth_of_le _ (by omega), BitVec.setWidth_eq] at hcut
  exact hcut.symm

/-! ## Moves that can be done at once -/

variable {g : Setting} {s s1 s' : Machine.State}

/-- Doing the second move leaves the destination of the first, and what it reads in memory, as they
are. -/
def Apart (g : Setting) (s : Machine.State) (m m' : Move) : Prop :=
  ∀ p, g.home? m'.dst = some p →
    (∀ q, g.home? m.dst = some q → p.Separate (width m'.dst) q (width m.dst)) ∧
    ∀ a, m.reading? g s = some (.place (.mem a)) →
      p.Separate (width m'.dst) (.mem a) m.sourceWidth

/-- The destinations are distinct registers other than xmm13 and distinct frame slots, every source
has a value, and no source in memory is in the frame slot of another move. -/
structure Assignable (g : Setting) (s : Machine.State) (moves : List Move) : Prop where
  home : ∀ m ∈ moves, ∃ p, g.home? m.dst = some p ∧ p ≠ .xmm 13
  source : ∀ m ∈ moves, ∃ r, m.reading? g s = some r
  apart : moves.Pairwise fun m m' => Apart g s m m' ∧ Apart g s m' m

/-- The destination holds in the second state what the source had in the first. -/
def Move.Holds (g : Setting) (s s' : Machine.State) (m : Move) : Prop :=
  ∃ p r, g.home? m.dst = some p ∧ m.reading? g s = some r ∧ s'.get p m.width = r.get s m.width

/-- The registers at one place have one key. -/
theorem key_of_home {o : Operand} {p : Place} {r : Reg} (h : g.home? o = some p)
    (hr : p = r.place) : regKey? g.locs o = some r.key := by
  rcases home?_cases h with ⟨t, ht, hp⟩ | ⟨_, a, ha⟩
  · have hkey := (Reg.place_eq_iff r t).mp (hr.symm.trans hp)
    rw [regKey?_eq_map, ht, Option.map_some, hkey]
  · rw [hr] at ha
    unfold Reg.place at ha
    cases hc : r.cls <;> simp [hc] at ha

/-- The place of a register that is a destination is that of the destination. -/
theorem home_of_key {o : Operand} {t : Reg} (h : regKey? g.locs o = some t.key) :
    g.home? o = some t.place := by
  rw [regKey?_eq_map, Option.map_eq_some_iff] at h
  obtain ⟨x, hx, hkey⟩ := h
  rw [home?_of_regOf hx, (Reg.place_eq_iff x t).mpr hkey]

/-- A source in a register is read there, and not as an address. -/
theorem reading_of_regOf {m : Move} {t : Reg} {r : Reading} (h : regOf? g.locs m.src = some t)
    (hr : m.reading? g s = some r) : m.lea = false ∧ r = .place t.place := by
  have hhome := home?_of_regOf h
  unfold Move.reading? at hr
  cases hl : m.lea with
  | true =>
    exfalso
    have haddr : g.address? s m.src = none := by
      cases hsrc : m.src with
      | reg x =>
        simp only [Setting.address?, Setting.home?]
        unfold Reg.place
        cases x.cls <;> rfl
      | var v =>
        rw [hsrc] at hhome
        simp only [Setting.address?, hhome]
        unfold Reg.place
        cases t.cls <;> rfl
      | _ => simp [hsrc, regOf?] at h
    simp [hl, haddr] at hr
  | false =>
    refine ⟨rfl, ?_⟩
    have hplace : g.place? s m.src = some t.place := by
      simp [Setting.place?, hhome]
    simp only [hl, Bool.false_eq_true, if_false] at hr
    split at hr
    · rename_i l hsrc
      simp [hsrc, regOf?] at h
    · rw [hplace] at hr
      exact (Option.some.inj hr).symm

theorem not_separate_self (r : Reg) (n k : Nat) : ¬ r.place.Separate n r.place k := by
  unfold Reg.place
  cases r.cls <;> simp [Place.Separate]

theorem Assignable.sublist {moves moves' : List Move} (h : Assignable g s moves)
    (hs : moves'.Sublist moves) : Assignable g s moves' where
  home m hm := h.home m (hs.mem hm)
  source m hm := h.source m (hs.mem hm)
  apart := h.apart.sublist hs

/-- Each of the other moves is apart from the one in the middle. -/
theorem Assignable.apart_middle {b a : List Move} {m : Move} (h : Assignable g s (b ++ m :: a)) :
    ∀ m' ∈ b ++ a, Apart g s m m' ∧ Apart g s m' m := by
  have hp := h.apart
  rw [List.pairwise_middle fun hxy => ⟨hxy.2, hxy.1⟩, List.pairwise_cons] at hp
  exact hp.1

/-- A state in which the moves read the same as before is as good for them. -/
theorem Assignable.of_reading {moves : List Move} (h : Assignable g s moves)
    (hread : ∀ m ∈ moves, m.reading? g s1 = m.reading? g s) : Assignable g s1 moves where
  home := h.home
  source m hm := by
    rw [hread m hm]
    exact h.source m hm
  apart := by
    refine h.apart.imp_of_mem fun {m m'} hm hm' hap => ?_
    unfold Apart at *
    rw [hread m hm, hread m' hm']
    exact hap

theorem Apart.imp {m1 m2 n1 n2 : Move} (h : Apart g s m1 m2) (h1 : n1.dst = m1.dst)
    (h2 : n2.dst = m2.dst)
    (hmem : ∀ a, n1.reading? g s1 = some (.place (.mem a)) →
      m1.reading? g s = some (.place (.mem a)) ∧ n1.sourceWidth = m1.sourceWidth) :
    Apart g s1 n1 n2 := by
  intro p hp
  rw [h2] at hp
  obtain ⟨hdst, hsrc⟩ := h p hp
  rw [h1, h2]
  refine ⟨hdst, fun a ha => ?_⟩
  obtain ⟨hm, hw⟩ := hmem a ha
  rw [hw]
  exact hsrc a hm

/-- The destinations of two moves are different registers. -/
theorem Apart.key_ne {m m' : Move} {t : Reg} (h : Apart g s m m')
    (ht : regKey? g.locs m.dst = some t.key) : regKey? g.locs m'.dst ≠ some t.key := by
  intro ht'
  exact not_separate_self t _ _ ((h _ (home_of_key ht')).1 _ (home_of_key ht))

/-- A register that is a destination of pending moves is not xmm13. -/
theorem Assignable.ne_xmm13 {pending : List Move} (h : Assignable g s pending) {m : Move}
    (hm : m ∈ pending) {t : Reg} (ht : regKey? g.locs m.dst = some t.key) :
    t.place ≠ .xmm 13 ∧ t.key ≠ regXmm13.key := by
  obtain ⟨p, hp, hx⟩ := h.home m hm
  rw [home_of_key ht] at hp
  cases hp
  exact ⟨hx, fun hk => hx ((Reg.place_eq_iff t regXmm13).mpr hk)⟩

/-- The registers that are destinations. -/
def destKeys (locs : Locations) (moves : List Move) : List Nat :=
  moves.filterMap fun m => regKey? locs m.dst

/-- Moves into distinct registers can be done at once, whatever their sources are. -/
theorem assignable_of_regs {moves : List Move}
    (hreg : ∀ m ∈ moves, (regKey? g.locs m.dst).isSome = true)
    (hnodup : (destKeys g.locs moves).Nodup) (hx : regXmm13.key ∉ destKeys g.locs moves)
    (hsrc : ∀ m ∈ moves, (m.reading? g s).isSome = true) : Assignable g s moves := by
  have hhome : ∀ m ∈ moves, ∃ t, g.home? m.dst = some (Reg.place t) ∧
      regKey? g.locs m.dst = some t.key := by
    intro m hm
    have hk := hreg m hm
    rw [regKey?_eq_map, Option.isSome_map] at hk
    obtain ⟨t, ht⟩ := Option.isSome_iff_exists.mp hk
    exact ⟨t, home?_of_regOf ht, by rw [regKey?_eq_map, ht, Option.map_some]⟩
  have hapart : ∀ m ∈ moves, ∀ m' ∈ moves,
      (∀ k, regKey? g.locs m.dst = some k → ∀ k', regKey? g.locs m'.dst = some k' → k ≠ k') →
      Apart g s m m' := by
    intro m hm m' hm' hne p hp
    obtain ⟨t, ht, hk⟩ := hhome m hm
    obtain ⟨t', ht', hk'⟩ := hhome m' hm'
    rw [ht'] at hp
    cases hp
    refine ⟨fun q hq => ?_, fun a _ => ?_⟩
    · rw [ht] at hq
      cases hq
      refine separate_place (fun he => ?_) _ _
      exact hne _ hk _ hk' ((Reg.place_eq_iff t' t).mp he).symm
    · unfold Reg.place
      cases t'.cls <;> trivial
  refine ⟨fun m hm => ?_, fun m hm => Option.isSome_iff_exists.mp (hsrc m hm), ?_⟩
  · obtain ⟨t, ht, hk⟩ := hhome m hm
    refine ⟨t.place, ht, fun he => hx ?_⟩
    rw [← (Reg.place_eq_iff t regXmm13).mp he]
    exact List.mem_filterMap.mpr ⟨m, hm, hk⟩
  · refine (List.pairwise_filterMap.mp hnodup).imp_of_mem fun {m m'} hm hm' hne => ?_
    exact ⟨hapart m hm m' hm' hne, hapart m' hm' m hm fun k hk k' hk' => (hne k' hk' k hk).symm⟩

end Backend.Lowering
