-- Steps of lowering by what the lines they append do. Here are the rules for the combinators, and
-- what the lines that only use the temporary register and the scratch slots leave as it was.
import Backend.Proofs.Lowering.Appended
import Backend.Proofs.Lowering.Evaluation

namespace Backend.Lowering

open Backend.Machine (Place Assigns)

/-! ## Extension -/

/-- The step appends lines and literals, and moves no variable. -/
def Extends {α : Type} (m : LowerM α) : Prop :=
  ∀ st a st', m st = .ok (a, st') → (∃ code, st'.out = st.out ++ code) ∧
    st'.closure.locations = st.closure.locations ∧ Grows st.closure st'.closure

section Extends

variable {α β : Type} {m : LowerM α} {f : α → LowerM β}

theorem extends_pure (a : α) : Extends (pure a) := by
  intro st b st' h
  cases h
  exact ⟨⟨[], by simp⟩, rfl, .refl _⟩

theorem extends_bind (hm : Extends m) (hf : ∀ a, Extends (f a)) : Extends (m >>= f) := by
  intro st b st' h
  obtain ⟨a, st1, h1, h2⟩ := run_bind.mp h
  obtain ⟨⟨code, hcode⟩, hl, hg⟩ := hm st a st1 h1
  obtain ⟨⟨more, hmore⟩, hl', hg'⟩ := hf a st1 b st' h2
  exact ⟨⟨code ++ more, by rw [hmore, hcode, List.append_assoc]⟩, hl'.trans hl, hg.trans hg'⟩

theorem extends_fail (cx : Context) (d : Defect) : Extends (fail cx d : LowerM α) := by
  intro st a st' h
  cases h

theorem extends_get : Extends get := by
  intro st a st' h
  cases h
  exact ⟨⟨[], by simp⟩, rfl, .refl _⟩

theorem extends_when {β : Type} {c : Prop} [Decidable c] {m : LowerM α} {k : LowerM β}
    (hm : Extends m) (hk : Extends k) : Extends (if c then m >>= fun _ => k else k) := by
  split
  · exact extends_bind hm fun _ => hk
  · exact hk

theorem extends_keep (i : Instr) : Extends (keep i) := by
  intro st a st' h
  cases h
  exact ⟨⟨[i], rfl⟩, rfl, .refl _⟩

theorem extends_materialize (l : Literal) : Extends (materialize l) := by
  intro st a st' h
  cases h
  refine ⟨⟨[], by simp⟩, ?_, grows_materialize _ l⟩
  dsimp only [Closure.materialize]
  split <;> rfl

theorem extends_locate (cx : Context) (v : Var) : Extends (locate cx v) := by
  unfold locate
  refine extends_bind extends_get fun st => ?_
  split
  · exact extends_pure _
  · exact extends_fail cx _

variable (cx : Context)

theorem extends_spill (d : Draft) : Extends (spill cx d) := by
  unfold spill
  split
  · exact extends_pure _
  split
  · exact extends_pure _
  split
  · exact extends_fail cx _
  split
  · exact extends_fail cx _
  · exact extends_bind (extends_keep _) fun _ => extends_pure _

theorem extends_reserveTemp (slot : Slot) (d : Draft) : Extends (reserveTemp cx slot d) := by
  unfold reserveTemp
  split
  · split
    · exact extends_pure _
    · exact extends_bind (extends_spill cx d) fun _ => extends_pure _
  · exact extends_pure _

theorem extends_intoTemp (slot : Slot) (d : Draft) : Extends (intoTemp cx slot d) := by
  unfold intoTemp
  refine extends_bind (extends_reserveTemp cx slot d) fun d1 => ?_
  exact extends_bind (extends_keep _) fun _ => extends_pure _

theorem extends_addressable (o : Option Operand) : Extends (addressable cx o) := by
  unfold addressable inRegister
  split
  · exact extends_pure _
  · split
    · exact extends_pure _
    · exact extends_bind (extends_locate cx _) fun _ => extends_pure _
    · exact extends_pure _

theorem extends_address (slot : Slot) (base index : Option Operand) (scale : UInt8) (disp : Int64)
    (t : Ty) (d : Draft) : Extends (address cx slot base index scale disp t d) :=
  address_lines_rule (Q := fun _ => True) (fun e _ => extends_fail cx e)
    (fun o _ h => extends_bind (extends_addressable cx (some o)) h)
    (fun _ h => extends_bind (extends_reserveTemp cx slot d) fun d1 => h d1 trivial)
    (fun i _ _ h => extends_bind (extends_keep i) fun _ => h)
    (fun _ _ _ _ _ => extends_pure _) fun _ _ _ _ _ _ => extends_pure _

theorem extends_source (slot : Slot) (narrow : Bool) (d : Draft) :
    Extends (source cx slot narrow d) := by
  unfold source
  split
  · exact extends_bind (extends_locate cx _) fun _ => extends_pure _
  · split
    · exact extends_bind (extends_materialize _) fun _ => extends_pure _
    · refine extends_bind (extends_materialize _) fun symbol => ?_
      refine extends_bind (extends_reserveTemp cx slot d) fun d1 => ?_
      exact extends_bind (extends_keep _) fun _ => extends_pure _
    · split
      · exact extends_intoTemp cx slot d
      · exact extends_pure _
    · exact extends_pure _
  · exact extends_address cx slot _ _ _ _ _ d
  · exact extends_pure _

theorem extends_dest (slot : Slot) (d : Draft) : Extends (dest cx slot d) := by
  unfold dest
  split
  · exact extends_bind (extends_locate cx _) fun _ => extends_pure _
  · split
    · exact extends_fail cx _
    · exact extends_pure _
  · exact extends_address cx slot _ _ _ _ _ d
  · exact extends_fail cx _
  · exact extends_pure _

end Extends

/-! ## Rules -/

/-- The scene has the literals of the closure where the closure placed them. -/
def Scene.Places (e : Scene) (c : Closure) : Prop :=
  ∀ key name, c.imms.lookup key = some name → e.imms.lookup key = some name

/-- The step only extends, and the lines that it appended when it ends can be run from every state
that satisfies `P`; any run of them gives one that satisfies `Q`. -/
structure Works {α : Type} (e : Scene) (m : LowerM α) (P : Machine.State → Prop)
    (Q : α → Machine.State → Prop) : Prop where
  extension : Extends m
  ensures : ∀ s st a st' code, P s → m st = .ok (a, st') → st.closure.locations = e.locs →
    e.Places st'.closure → st'.out = st.out ++ code → Ensures e code s (Q a)

section Rules

variable {α β : Type} {e : Scene} {m : LowerM α} {f : α → LowerM β} {P P' : Machine.State → Prop}
  {Q Q' : α → Machine.State → Prop} {R : β → Machine.State → Prop}

theorem works_pure {a : α} (h : ∀ s, P s → Q a s) : Works e (pure a) P Q where
  extension := extends_pure a
  ensures s st b st' code hs hok hlocs hplaces hcode := by
    cases hok
    rw [List.self_eq_append_right.mp hcode]
    exact h s hs

theorem works_bind (hm : Works e m P Q) (hf : ∀ a, Works e (f a) (Q a) R) :
    Works e (m >>= f) P R where
  extension := extends_bind hm.extension fun a => (hf a).extension
  ensures s st b st' code hs hok hlocs hplaces hcode := by
    obtain ⟨a, st1, h1, h2⟩ := run_bind.mp hok
    obtain ⟨⟨xs, hxs⟩, hl, -⟩ := hm.extension st a st1 h1
    obtain ⟨⟨ys, hys⟩, -, hg⟩ := (hf a).extension st1 b st' h2
    have hparts : code = xs ++ ys := by
      rw [hys, hxs, List.append_assoc, List.append_cancel_left_eq] at hcode
      exact hcode.symm
    rw [hparts]
    refine (hm.ensures s st a st1 xs hs h1 hlocs
      (fun k n h => hplaces k n (hg k n h)) hxs).append ?_
    intro s1 hs1
    exact (hf a).ensures s1 st1 b st' ys hs1 h2 (hl.trans hlocs) hplaces hys

theorem Works.mono (h : Works e m P Q) (hp : ∀ s, P' s → P s) (hq : ∀ a s, Q a s → Q' a s) :
    Works e m P' Q' where
  extension := h.extension
  ensures s st a st' code hs hok hlocs hplaces hcode :=
    (h.ensures s st a st' code (hp s hs) hok hlocs hplaces hcode).mono (hq a)

/-- What does not depend on the state holds after the step as it did before. -/
theorem Works.and_static (h : Works e m P Q) (S : Prop) :
    Works e m (fun s => P s ∧ S) fun a s => Q a s ∧ S where
  extension := h.extension
  ensures s st a st' code hs hok hlocs hplaces hcode :=
    (h.ensures s st a st' code hs.1 hok hlocs hplaces hcode).mono fun _ hq => ⟨hq, hs.2⟩

/-- A rule for each single state is one for all of them. -/
theorem works_each (hext : Extends m) (h : ∀ s, P s → Works e m (fun s1 => s1 = s) Q) :
    Works e m P Q where
  extension := hext
  ensures s st a st' code hs hok hlocs hplaces hcode :=
    (h s hs).ensures s st a st' code rfl hok hlocs hplaces hcode

/-- What does not depend on the state can be assumed. -/
theorem works_assume {S : Prop} (hext : Extends m) (h : S → Works e m P Q) :
    Works e m (fun s => P s ∧ S) Q where
  extension := hext
  ensures s st a st' code hs := (h hs.2).ensures s st a st' code hs.1

theorem works_get : Works e get P fun st s => P s ∧ st.closure.locations = e.locs where
  extension := extends_get
  ensures s st a st' code hs hok hlocs hplaces hcode := by
    cases hok
    rw [List.self_eq_append_right.mp hcode]
    exact ⟨hs, hlocs⟩

theorem works_fail (cx : Context) (d : Defect) : Works e (fail cx d) P Q where
  extension := extends_fail cx d
  ensures s st a st' code hs hok := by cases hok

/-- A check that the step goes on from. -/
theorem works_guard {c : Prop} [Decidable c] {cx : Context} {d : Defect} {k : LowerM β}
    (h : ¬ c → Works e k P R) :
    Works e (if c then (fail cx d : LowerM PUnit) >>= fun _ => k else k) P R := by
  split
  · refine ⟨fun st b st' hok => ?_, fun s st b st' code hs hok => ?_⟩
    · obtain ⟨_, _, h1, -⟩ := run_bind.mp hok
      cases h1
    · obtain ⟨_, _, h1, -⟩ := run_bind.mp hok
      cases h1
  · rename_i hc
    exact h hc

theorem works_when {c : Prop} [Decidable c] {m : LowerM Unit} {k : LowerM β}
    {Q : Unit → Machine.State → Prop} (hm : c → Works e m P Q) (hk : Works e k (Q ()) R)
    (hskip : ¬ c → Works e k P R) : Works e (if c then m >>= fun _ => k else k) P R := by
  split
  · rename_i hc
    exact works_bind (hm hc) fun _ => hk
  · rename_i hc
    exact hskip hc

/-- A line that gives its output a value. -/
theorem works_keep {i : Instr} {Q : Unit → Machine.State → Prop}
    (h : ∀ s, P s → ∃ p n v, n ≤ 8 ∧ e.effect? s i = some (.assign p n v) ∧
      ∀ s1, Assigns p v [Machine.r11] s s1 → Q () s1) : Works e (keep i) P Q where
  extension := extends_keep i
  ensures s st a st' code hs hok hlocs hplaces hcode := by
    cases hok
    have hone : code = [i] := (List.append_cancel_left hcode).symm
    rw [hone]
    exact h s hs

/-- A variable is where the scene has it. -/
theorem works_locate (cx : Context) (v : Var) : Works e (locate cx v) P fun l s =>
    P s ∧ (e.locs.lookup v.ident).filter Location.isPlaced = some l where
  extension := extends_locate cx v
  ensures s st a st' code hs hok hlocs hplaces hcode := by
    unfold locate at hok
    rw [run_get] at hok
    cases hl : st.closure.locate? v with
    | none =>
      rw [hl] at hok
      cases hok
    | some l =>
      rw [hl] at hok
      cases hok
      rw [List.self_eq_append_right.mp hcode]
      rw [Closure.locate?, hlocs] at hl
      exact ⟨hs, hl⟩

/-- A literal is where the scene has it. -/
theorem works_materialize (l : Literal) : Works e (materialize l) P fun y s =>
    P s ∧ ∃ name, y = ⟨name, true, false, l.ty, some l⟩ ∧ e.imms.lookup l.key = some name where
  extension := extends_materialize l
  ensures s st a st' code hs hok hlocs hplaces hcode := by
    obtain ⟨rfl, rfl⟩ : (st.closure.materialize l).1 = a ∧
        ({ st with closure := (st.closure.materialize l).2 } : State) = st' := by
      cases hok
      exact ⟨rfl, rfl⟩
    rw [List.self_eq_append_right.mp hcode]
    have hnamed : ∃ name, (st.closure.materialize l).1 = ⟨name, true, false, l.ty, some l⟩ ∧
        (st.closure.materialize l).2.imms.lookup l.key = some name := by
      unfold Closure.materialize
      dsimp only
      split
      · rename_i name hname
        exact ⟨name, rfl, hname⟩
      · rename_i hnone
        exact ⟨_, rfl, by simp [List.lookup_append, hnone]⟩
    obtain ⟨name, hsymbol, hlook⟩ := hnamed
    exact ⟨hs, name, hsymbol, hplaces _ _ hlook⟩

end Rules

/-! ## What an operand depends on -/

section Get

variable {e : Scene} {s s' : Machine.State}

theorem held_of_get {o : Operand} {p : Place} (h : s'.get p (width o) = s.get p (width o)) :
    held s' o p = held s o p := by
  unfold held
  rw [h]

/-- A part of an address is worth the same while the bytes at its place stay. -/
theorem index?_of_get {o : Option Operand}
    (h : ∀ part, o = some part → ∀ p, e.place? s part = some p →
      s'.get p (width part) = s.get p (width part)) : e.index? s' o = e.index? s o := by
  cases o with
  | none => rfl
  | some part =>
    have hhome : ∀ p, e.home? part = some p → e.place? s part = some p := by
      intro p hp
      cases part <;> first | exact hp | cases hp
    have hheld : ∀ p, e.home? part = some p → held s' part p = held s part p := fun p hp =>
      held_of_get (h part rfl p (hhome p hp))
    have hmap : (e.home? part).map (fun p => (held s' part p).brought 8) =
        (e.home? part).map fun p => (held s part p).brought 8 := by
      cases hp : e.home? part with
      | none => rfl
      | some p => simp only [Option.map_some, hheld p hp]
    cases part with
    | imm l => rfl
    | symbol y =>
      have hsym := held_of_get (h _ rfl (.mem (e.symbolAddress y)) rfl)
      simp only [Scene.index?, hsym]
    | _ => exact hmap

theorem base?_of_get {o : Option Operand}
    (h : ∀ part, o = some part → ∀ p, e.place? s part = some p →
      s'.get p (width part) = s.get p (width part)) : e.base? s' o = e.base? s o := by
  cases o with
  | none => rfl
  | some part =>
    have hindex := index?_of_get (e := e) h
    cases part with
    | symbol y => rfl
    | _ => exact hindex

/-- An operand is at the same place and worth the same while the bytes there stay, and those of the
parts of its address. -/
theorem worth_of_get {o : Operand}
    (hparts : ∀ base index scale disp t, o = .indirect base index scale disp t →
      ∀ part, base = some part ∨ index = some part → ∀ p, e.place? s part = some p →
        s'.get p (width part) = s.get p (width part))
    (hplace : ∀ p, e.place? s o = some p → s'.get p (width o) = s.get p (width o)) :
    e.place? s' o = e.place? s o ∧ e.datum? s' o = e.datum? s o := by
  have hsame : e.place? s' o = e.place? s o := by
    cases o with
    | indirect base index scale disp t =>
      have hb := base?_of_get (e := e) fun part hpart =>
        hparts base index scale disp t rfl part (.inl hpart)
      have hi := index?_of_get (e := e) fun part hpart =>
        hparts base index scale disp t rfl part (.inr hpart)
      simp only [Scene.place?, Scene.address?, hb, hi]
    | _ => rfl
  refine ⟨hsame, ?_⟩
  have hmap : (e.place? s' o).map (held s' o) = (e.place? s o).map (held s o) := by
    rw [hsame]
    cases hp : e.place? s o with
    | none => rfl
    | some p => simp only [Option.map_some, held_of_get (hplace p hp)]
  cases o with
  | imm l => cases l <;> rfl
  | _ => exact hmap

/-- The place of a part that counts in an address does not depend on the state. -/
theorem place?_part {base index : Option Operand} {scale : UInt8} {disp : Int64} {a : BitVec 64}
    (ha : e.address? s base index scale disp = some a) {part : Operand}
    (hp : base = some part ∨ index = some part) (s' : Machine.State) :
    e.place? s' part = e.place? s part := by
  simp only [Scene.address?, bind, Option.bind_eq_some_iff] at ha
  obtain ⟨wb, hb, wi, hi, -⟩ := ha
  cases part with
  | indirect =>
    rcases hp with rfl | rfl
    · cases hb
    · cases hi
  | _ => rfl

end Get

/-! ## What stays -/

/-- The states differ at most in r10 and r11, and in the scratch slots from the `k`-th on. -/
structure Untouched (scratch : Option (BitVec 64)) (k : Nat) (s s' : Machine.State) : Prop where
  regs : ∀ r, r ≠ Machine.r10 → r ≠ Machine.r11 → s'.regs r = s.regs r
  xmms : ∀ r, s'.xmms r = s.xmms r
  mem : ∀ x, (∀ a, scratch = some a → 8 * k ≤ (x - a).toNat → 16 ≤ (x - a).toNat) →
    s'.mem x = s.mem x

/-- The `n` bytes at the place are not in r10 or r11, nor in the scratch slots from the `k`-th
on. -/
def Outside (scratch : Option (BitVec 64)) (k : Nat) (p : Place) (n : Nat) : Prop :=
  match p with
  | .reg r => r ≠ Machine.r10 ∧ r ≠ Machine.r11
  | .xmm _ => True
  | .mem b => ∀ x, (Place.mem b).covers n x →
      ∀ a, scratch = some a → 8 * k ≤ (x - a).toNat → 16 ≤ (x - a).toNat

section Untouched

variable {scratch : Option (BitVec 64)} {k : Nat} {s s' s'' : Machine.State}

theorem Untouched.refl (s : Machine.State) : Untouched scratch k s s :=
  ⟨fun _ _ _ => rfl, fun _ => rfl, fun _ _ => rfl⟩

theorem Untouched.trans (h : Untouched scratch k s s') (h' : Untouched scratch k s' s'') :
    Untouched scratch k s s'' :=
  ⟨fun r h1 h2 => (h'.regs r h1 h2).trans (h.regs r h1 h2), fun r => (h'.xmms r).trans (h.xmms r),
    fun x hx => (h'.mem x hx).trans (h.mem x hx)⟩

theorem Untouched.mono {j : Nat} (h : Untouched scratch k s s') (hj : j ≤ k) :
    Untouched scratch j s s' where
  regs := h.regs
  xmms := h.xmms
  mem x hx := h.mem x fun a ha hk => hx a ha (by omega)

/-- What changes no memory but r10 and r11 leaves all scratch slots. -/
theorem Untouched.of_none {j : Nat} (h : Untouched none j s s') : Untouched scratch k s s' where
  regs := h.regs
  xmms := h.xmms
  mem x _ := h.mem x fun a ha => by cases ha

theorem Outside.mono {j : Nat} {p : Place} {n : Nat} (h : Outside scratch j p n) (hj : j ≤ k) :
    Outside scratch k p n := by
  cases p with
  | mem b => exact fun x hx a ha hk => h x hx a ha (by omega)
  | _ => exact h

theorem untouched_of_temp {n : Nat} {v : BitVec (8 * n)} {j : Nat}
    (h : Assigns (.reg Machine.r10) v [Machine.r11] s s') : Untouched none j s s' where
  regs r h1 h2 := h.regs r (fun he => h1 (Place.reg.inj he).symm) (by simpa using h2)
  xmms r := h.xmms r (by simp)
  mem x _ := h.mem x (by simp [Place.covers])

theorem get_of_untouched (h : Untouched scratch k s s') {p : Place} {n : Nat}
    (hp : Outside scratch k p n) (hn : n ≤ 8) : s'.get p n = s.get p n := by
  cases p with
  | reg r => simp only [Machine.State.get, h.regs r hp.1 hp.2]
  | xmm r => simp only [Machine.State.get, h.xmms r]
  | mem a => exact Machine.readBytes_congr _ _ a n (by omega) fun x hx => h.mem x (hp x hx)

end Untouched

/-- The address of the scratch slots. -/
def Scene.scratch (e : Scene) (cx : Context) : Option (BitVec 64) :=
  cx.scratch.map fun off => e.base + off.toBitVec

/-- The operand is the same place and worth the same in every state that differs at most in r10,
r11 and the scratch slots from the `k`-th on. -/
def Stable (e : Scene) (scratch : Option (BitVec 64)) (k : Nat) (s : Machine.State) (o : Operand) :
    Prop :=
  ∀ s', Untouched scratch k s s' → e.place? s' o = e.place? s o ∧ e.datum? s' o = e.datum? s o

/-- Neither the operand nor a part of its address is in r10, r11 or the scratch slots from the
`k`-th on. -/
structure Clear (e : Scene) (scratch : Option (BitVec 64)) (k : Nat) (s : Machine.State)
    (o : Operand) : Prop where
  place : ∀ p, e.place? s o = some p → Outside scratch k p (width o)
  parts : ∀ base index scale disp t, o = .indirect base index scale disp t →
    ∀ part, base = some part ∨ index = some part →
      ∀ p, e.place? s part = some p → Outside scratch k p (width part)

section Stable

variable {e : Scene} {scratch : Option (BitVec 64)} {k : Nat} {s s' : Machine.State} {o : Operand}

theorem Stable.mono {j : Nat} (h : Stable e scratch k s o) (hk : k ≤ j) : Stable e scratch j s o :=
  fun s' hs' => h s' (hs'.mono hk)

theorem Stable.of_untouched (h : Stable e scratch k s o) (hs : Untouched scratch k s s') :
    Stable e scratch k s' o := by
  intro s1 h1
  obtain ⟨hp, hd⟩ := h s' hs
  obtain ⟨hp1, hd1⟩ := h s1 (hs.trans h1)
  exact ⟨hp1.trans hp.symm, hd1.trans hd.symm⟩

/-- What is held outside stays. -/
theorem held_of_untouched (h : Untouched scratch k s s') {p : Place}
    (hp : Outside scratch k p (width o)) : held s' o p = held s o p :=
  held_of_get (get_of_untouched h hp (width_le_eight o))

/-- The parts of an address that are outside keep the words they are worth. -/
theorem index?_of_untouched (h : Untouched scratch k s s') {o : Option Operand}
    (ho : ∀ part, o = some part → ∀ p, e.place? s part = some p →
      Outside scratch k p (width part)) :
    e.index? s' o = e.index? s o :=
  index?_of_get fun part hpart p hp => get_of_untouched h (ho part hpart p hp) (width_le_eight part)

theorem base?_of_untouched (h : Untouched scratch k s s') {o : Option Operand}
    (ho : ∀ part, o = some part → ∀ p, e.place? s part = some p →
      Outside scratch k p (width part)) :
    e.base? s' o = e.base? s o :=
  base?_of_get fun part hpart p hp => get_of_untouched h (ho part hpart p hp) (width_le_eight part)

theorem Clear.stable (h : Clear e scratch k s o) : Stable e scratch k s o := fun _ hs' =>
  worth_of_get
    (fun base index scale disp t ho part hpart p hp =>
      get_of_untouched hs' (h.parts base index scale disp t ho part hpart p hp)
        (width_le_eight part))
    fun p hp => get_of_untouched hs' (h.place p hp) (width_le_eight o)

end Stable

end Backend.Lowering
