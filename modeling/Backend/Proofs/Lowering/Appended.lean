-- What a step of lowering appends to the code: rules for steps that only append instructions of
-- some kind, and the instructions that make operands encodable, which write the temporary register
-- and frame slots and nothing else.
import Backend.Lowering.Closure
import Backend.Proofs.Lowering.MoveLoop
import Backend.Proofs.Lowering.Rules

namespace Backend.Lowering

/-! ## Rules -/

/-- Two steps end when the first one does and the second one does from there. -/
theorem run_bind {α β : Type} {m : LowerM α} {f : α → LowerM β} {s s' : State} {b : β} :
    (m >>= f) s = .ok (b, s') ↔ ∃ a s1, m s = .ok (a, s1) ∧ f a s1 = .ok (b, s') := by
  refine Iff.trans (bind_eq_ok (x := m s) (f := fun p => f p.1 p.2)) ?_
  simp only [Prod.exists]

theorem run_get {α : Type} (f : State → LowerM α) (s : State) : (get >>= f) s = f s s := rfl

/-- The second closure has every literal that the first one has in the data, where it is there. -/
def Grows (c c' : Closure) : Prop :=
  ∀ key name, c.imms.lookup key = some name → c'.imms.lookup key = some name

theorem Grows.refl (c : Closure) : Grows c c := fun _ _ h => h

theorem Grows.trans {c c' c'' : Closure} (h : Grows c c') (h' : Grows c' c'') : Grows c c'' :=
  fun key name hk => h' key name (h key name hk)

theorem grows_materialize (c : Closure) (l : Literal) : Grows c (c.materialize l).2 := by
  intro key name h
  unfold Closure.materialize
  dsimp only
  split
  · exact h
  · simp only [List.lookup_append, h, Option.some_or]

/-- The closure has the frame of another and its literals, with every variable where it was. -/
structure SameFrame (c c' : Closure) : Prop where
  locations : c'.locations = c.locations
  frame : c'.frame = c.frame
  grows : Grows c c'

theorem SameFrame.refl (c : Closure) : SameFrame c c := ⟨rfl, rfl, .refl c⟩

theorem SameFrame.trans {c c1 c2 : Closure} (h : SameFrame c c1) (h' : SameFrame c1 c2) :
    SameFrame c c2 :=
  ⟨h'.locations.trans h.locations, h'.frame.trans h.frame, h.grows.trans h'.grows⟩

/-- Laying out a frame changes no code. -/
theorem blocks_layout (c : Closure) : (layout c).1.blocks = c.blocks := by
  unfold layout
  dsimp only
  split <;> rfl

/-- When the step ends, it has appended instructions that satisfy `P` and left the frame as it was,
and the result satisfies `Q`. -/
def Appends {α : Type} (P : Instr → Prop) (m : LowerM α) (Q : α → Prop) : Prop :=
  ∀ s a s', m s = .ok (a, s') →
    (∃ code, s'.out = s.out ++ code ∧ ∀ i ∈ code, P i) ∧ SameFrame s.closure s'.closure ∧ Q a

section Rules

variable {α β : Type} {P P' : Instr → Prop} {Q : α → Prop} {R : β → Prop}

theorem appends_pure {a : α} (h : Q a) : Appends P (pure a) Q := by
  intro s b s' hs
  cases hs
  exact ⟨⟨[], by simp, by simp⟩, .refl _, h⟩

theorem appends_bind {m : LowerM α} {f : α → LowerM β} (hm : Appends P m Q)
    (hf : ∀ a, Q a → Appends P (f a) R) : Appends P (m >>= f) R := by
  intro s b s' hs
  obtain ⟨a, s1, h1, h2⟩ := run_bind.mp hs
  obtain ⟨⟨code, hcode, hP⟩, hsame, ha⟩ := hm s a s1 h1
  obtain ⟨⟨code', hcode', hP'⟩, hsame', hb⟩ := hf a ha s1 b s' h2
  refine ⟨⟨code ++ code', by rw [hcode', hcode, List.append_assoc], ?_⟩, hsame.trans hsame', hb⟩
  intro i hi
  rcases List.mem_append.mp hi with hi | hi
  · exact hP i hi
  · exact hP' i hi

theorem Appends.mono {m : LowerM α} {Q' : α → Prop} (h : Appends P m Q) (hp : ∀ i, P i → P' i)
    (hq : ∀ a, Q a → Q' a) : Appends P' m Q' := by
  intro s a s' hs
  obtain ⟨⟨code, hcode, hP⟩, hsame, ha⟩ := h s a s' hs
  exact ⟨⟨code, hcode, fun i hi => hp i (hP i hi)⟩, hsame, hq a ha⟩

theorem appends_fail (cx : Context) (d : Defect) : Appends P (fail cx d) Q := by
  intro s a s' hs
  cases hs

theorem appends_get : Appends P get fun _ => True := by
  intro s a s' hs
  cases hs
  exact ⟨⟨[], by simp, by simp⟩, .refl _, trivial⟩

theorem appends_keep {i : Instr} (h : P i) : Appends P (keep i) fun _ => True := by
  intro s a s' hs
  cases hs
  exact ⟨⟨[i], rfl, by simpa using h⟩, .refl _, trivial⟩

theorem appends_when {c : Prop} [Decidable c] {m : LowerM α} {k : LowerM β}
    (hm : Appends P m fun _ => True) (hk : Appends P k R) :
    Appends P (if c then m >>= fun _ => k else k) R := by
  split
  · exact appends_bind hm fun _ _ => hk
  · exact hk

theorem appends_materialize (l : Literal) :
    Appends P (materialize l) fun symbol => symbol.const = some l := by
  intro s a s' hs
  cases hs
  refine ⟨⟨[], by simp, by simp⟩, ⟨?_, ?_, grows_materialize _ l⟩, ?_⟩ <;>
  · dsimp only
    split <;> rfl

/-- Looking for the place of a variable changes nothing. -/
theorem locate?_of_locate {cx : Context} {v : Var} {l : Location} {s s' : State}
    (h : locate cx v s = .ok (l, s')) : s' = s ∧ s.closure.locate? v = some l := by
  unfold locate at h
  rw [run_get] at h
  cases hl : s.closure.locate? v with
  | none =>
    rw [hl] at h
    cases h
  | some l' =>
    rw [hl] at h
    cases h
    exact ⟨rfl, rfl⟩

theorem appends_locate (cx : Context) (v : Var) : Appends P (locate cx v) fun _ => True := by
  unfold locate
  refine appends_bind appends_get fun st _ => ?_
  split
  · exact appends_pure trivial
  · exact appends_fail cx _

end Rules

/-! ## Repeated steps -/

section Repeated

variable {s s' : State}

/-- A step for each of some items. -/
def each {α : Type} (f : α → LowerM Unit) (xs : List α) : LowerM PUnit :=
  forIn xs PUnit.unit fun x _ => do
    f x
    pure (.yield PUnit.unit)

theorem each_append {α : Type} {f : α → LowerM Unit} {xs ys : List α} {u : PUnit}
    (h : each f (xs ++ ys) s = .ok (u, s')) :
    ∃ s1, each f xs s = .ok (u, s1) ∧ each f ys s1 = .ok (u, s') := by
  induction xs generalizing s with
  | nil => exact ⟨s, rfl, h⟩
  | cons x xs ih =>
    unfold each at h ⊢
    rw [List.cons_append, List.forIn_cons] at h
    rw [List.forIn_cons]
    obtain ⟨step, s1, h1, h⟩ := run_bind.mp h
    obtain ⟨v, s0, h0, h1'⟩ := run_bind.mp h1
    cases h1'
    obtain ⟨s2, h2, h3⟩ := ih h
    exact ⟨s2, run_bind.mpr ⟨_, _, h1, h2⟩, h3⟩

theorem each_cons {α : Type} {f : α → LowerM Unit} {x : α} {xs : List α} {u : PUnit}
    (h : each f (x :: xs) s = .ok (u, s')) :
    ∃ s1, f x s = .ok ((), s1) ∧ each f xs s1 = .ok (u, s') := by
  unfold each at h
  rw [List.forIn_cons] at h
  obtain ⟨step, s1, h1, h⟩ := run_bind.mp h
  obtain ⟨v, s0, h0, h1⟩ := run_bind.mp h1
  cases h1
  exact ⟨s1, h0, h⟩

theorem mapM_split {α β : Type} {f : α → LowerM β} {before after : List α} {x : α} {ys : List β}
    (h : (before ++ x :: after).mapM f s = .ok (ys, s')) :
    ∃ s1 s2 ys1 y ys2, before.mapM f s = .ok (ys1, s1) ∧ f x s1 = .ok (y, s2) ∧
      after.mapM f s2 = .ok (ys2, s') ∧ ys = ys1 ++ y :: ys2 := by
  rw [List.mapM_append] at h
  obtain ⟨ys1, s1, h1, h⟩ := run_bind.mp h
  rw [List.mapM_cons] at h
  obtain ⟨ys2, s2, h2, h⟩ := run_bind.mp h
  obtain ⟨y, s3, h3, h2⟩ := run_bind.mp h2
  obtain ⟨ys3, s4, h4, h2⟩ := run_bind.mp h2
  cases h2
  cases h
  exact ⟨s1, s3, ys1, y, ys3, h1, h3, h4, rfl⟩

theorem appends_mapM {α β : Type} {P : Instr → Prop} {Q : β → Prop} {f : α → LowerM β} {xs : List α}
    (h : ∀ x ∈ xs, Appends P (f x) Q) : Appends P (xs.mapM f) fun ys => ∀ y ∈ ys, Q y := by
  induction xs with
  | nil => exact appends_pure (by simp)
  | cons x xs ih =>
    rw [List.mapM_cons]
    refine appends_bind (h x (by simp)) fun y hy => ?_
    refine appends_bind (ih fun x' hx' => h x' (by simp [hx'])) fun ys hys => appends_pure ?_
    intro y' hy'
    rcases List.mem_cons.mp hy' with rfl | hy'
    · exact hy
    · exact hys y' hy'

end Repeated

/-! ## Making operands encodable -/

/-- A computation into the temporary register. -/
structure TempWork (i : Instr) : Prop where
  op : i.op = .move ∨ i.op = .lea ∨ i.op = .shl ∨ i.op = .add
  output : ∃ t, i.output = some (.reg (tempReg t))

theorem tempWork_of_addressLine {cx : Context} {i : Instr} (h : AddressLine cx i) : TempWork i := by
  obtain ⟨op, -⟩ := h
  exact ⟨op, _, rfl⟩

/-- A computation into the temporary register or a frame slot. -/
inductive Scratchwork (i : Instr) : Prop
  | temp (work : TempWork i)
  | slot (op : i.op = .move) (offset : Int64) (t : Ty) (output : i.output = some (.stack offset t))

/-- An operand that is made to stand for another. -/
inductive Made : Operand → Prop
  | temp (t : Ty) : Made (.reg (tempReg t))
  | symbol (y : Symbol) : Made (.symbol y)
  | slot (offset : Int64) (t : Ty) : Made (.stack offset t)
  | memory (base index : Option Operand) (scale : UInt8) (disp : Int64) (t : Ty) :
      Made (.indirect base index scale disp t)

/-- A draft that came from another: the same operation, and the same output unless one was made. -/
structure Draft.Keeps (d d' : Draft) : Prop where
  op : d'.instr.op = d.instr.op
  output : d'.instr.output = d.instr.output ∨ ∃ o, d'.instr.output = some o ∧ Made o

theorem Draft.Keeps.refl (d : Draft) : d.Keeps d := ⟨rfl, .inl rfl⟩

theorem Draft.Keeps.trans {d d1 d2 : Draft} (h : d.Keeps d1) (h' : d1.Keeps d2) : d.Keeps d2 := by
  refine ⟨h'.op.trans h.op, ?_⟩
  rcases h'.output with hsame | hmade
  · rw [hsame]
    exact h.output
  · exact .inr hmade

theorem Draft.Keeps.put {d d1 : Draft} {o : Operand} (h : d.Keeps d1) (slot : Slot) (ho : Made o) :
    d.Keeps (d1.put slot o) := by
  cases slot with
  | output => exact ⟨h.op, .inr ⟨o, rfl, ho⟩⟩
  | _ => exact ⟨h.op, h.output⟩

theorem Draft.Keeps.hold {d d1 : Draft} (h : d.Keeps d1) (holder : Option Slot) (spilled : Nat) :
    d.Keeps ⟨d1.instr, holder, spilled⟩ := ⟨h.op, h.output⟩

section Drafts

variable {P : Instr → Prop} (cx : Context)

theorem appends_spill (d : Draft) : Appends Scratchwork (spill cx d) d.Keeps := by
  unfold spill
  split
  · exact appends_pure (.refl d)
  · split
    · exact appends_pure ((Draft.Keeps.refl d).hold _ _)
    · split
      · exact appends_fail cx _
      · split
        · exact appends_fail cx _
        · refine appends_bind (appends_keep (.slot rfl _ _ rfl)) fun _ _ => appends_pure ?_
          exact ((Draft.Keeps.refl d).put _ (.slot _ _)).hold _ _

theorem appends_reserveTemp (slot : Slot) (d : Draft) :
    Appends Scratchwork (reserveTemp cx slot d) fun d' => d'.holder = some slot ∧ d.Keeps d' := by
  have hself := appends_pure (P := Scratchwork) (a := (⟨d.instr, some slot, d.spilled⟩ : Draft))
    (Q := fun d' => d'.holder = some slot ∧ d.Keeps d') ⟨rfl, (Draft.Keeps.refl d).hold _ _⟩
  unfold reserveTemp
  split
  · split
    · exact hself
    · exact appends_bind (appends_spill cx d) fun _ h => appends_pure ⟨rfl, h.hold _ _⟩
  · exact hself

/-- The temporary register is free for a draft that has not taken it. -/
theorem reserveTemp_of_free {slot : Slot} {d : Draft} (h : d.holder = none) :
    reserveTemp cx slot d = pure { d with holder := some slot } := by
  unfold reserveTemp
  rw [h]
  rfl

theorem appends_intoTemp (slot : Slot) (d : Draft) :
    Appends Scratchwork (intoTemp cx slot d) d.Keeps := by
  unfold intoTemp
  refine appends_bind (appends_reserveTemp cx slot d) fun d1 h1 => ?_
  refine appends_bind (appends_keep (.temp ⟨.inl rfl, _, rfl⟩)) fun _ _ => appends_pure ?_
  exact h1.2.put slot (.temp _)

theorem appends_addressable (o : Option Operand) :
    Appends P (addressable cx o) fun _ => True := by
  unfold addressable
  split
  · exact appends_pure trivial
  · unfold inRegister
    split
    · exact appends_pure trivial
    · exact appends_bind (appends_locate cx _) fun _ _ => appends_pure trivial
    · exact appends_pure trivial

/-- The memory operand with the parts of its address in their final form. -/
def folded (base index : Option Operand) (scale : UInt8) (disp : Int64) (t : Ty) : Operand :=
  let (base, index, scale, disp) := foldAddress base index scale disp
  .indirect base index scale disp t

/-- A memory operand stays one of its type, and is only folded if it does not take the temporary
register. What is appended is what taking that appends, and computations into it. -/
theorem appends_address_of (hwork : ∀ i, TempWork i → P i) {slot : Slot} {d : Draft}
    (hreserve : Appends P (reserveTemp cx slot d) fun d' => d'.holder = some slot ∧ d.Keeps d')
    (base index : Option Operand) (scale : UInt8) (disp : Int64) (t : Ty) :
    Appends P (address cx slot base index scale disp t d) fun d' =>
      (∃ b i s k, slot.get d'.instr = some (.indirect b i s k t)) ∧
        (d'.holder = none → slot.get d'.instr = some (folded base index scale disp t)) ∧
        d.Keeps d' := by
  have hget : ∀ (d1 : Draft) (o : Operand), slot.get (d1.put slot o).instr = some o := by
    intro d1 o
    cases slot <;> rfl
  refine address_lines_rule (R := fun m => Appends P m fun d' =>
      (∃ b i s k, slot.get d'.instr = some (.indirect b i s k t)) ∧
        (d'.holder = none → slot.get d'.instr = some (folded base index scale disp t)) ∧ d.Keeps d')
    (fun err _ => appends_fail cx err)
    (fun o _ h => appends_bind (appends_addressable cx (some o)) fun ok _ => h ok)
    (fun _ h => appends_bind hreserve h)
    (fun i hi _ h => appends_bind (appends_keep (hwork i (tempWork_of_addressLine hi)))
      fun _ _ => h)
    (fun b x f k hfold => ?_) fun d1 b x f k h1 => ?_
  · refine appends_pure ⟨⟨_, _, _, _, hget _ _⟩, fun _ => ?_,
      (Draft.Keeps.refl d).put slot (.memory _ _ _ _ _)⟩
    rw [hget, folded, hfold]
  · refine appends_pure ⟨⟨b, x, f, k, hget _ _⟩, fun hnone => ?_, h1.2.put slot (.memory _ _ _ _ _)⟩
    rw [show (d1.put slot (.indirect b x f k t)).holder = d1.holder from rfl, h1.1] at hnone
    cases hnone

theorem appends_address (slot : Slot) (base index : Option Operand) (scale : UInt8) (disp : Int64)
    (t : Ty) (d : Draft) :
    Appends Scratchwork (address cx slot base index scale disp t d) fun d' =>
      (∃ b i s k, slot.get d'.instr = some (.indirect b i s k t)) ∧
        (d'.holder = none → slot.get d'.instr = some (folded base index scale disp t)) ∧
        d.Keeps d' :=
  appends_address_of cx (fun _ => .temp) (appends_reserveTemp cx slot d) base index scale disp t

/-- The memory operand of a draft that has not taken the temporary register. -/
theorem appends_address_free {slot : Slot} {d : Draft} (hfree : d.holder = none)
    (base index : Option Operand) (scale : UInt8) (disp : Int64) (t : Ty) :
    Appends TempWork (address cx slot base index scale disp t d) fun d' =>
      (∃ b i s k, slot.get d'.instr = some (.indirect b i s k t)) ∧
        (d'.holder = none → slot.get d'.instr = some (folded base index scale disp t)) ∧
        d.Keeps d' := by
  refine appends_address_of cx (fun _ h => h) ?_ base index scale disp t
  rw [reserveTemp_of_free cx hfree]
  exact appends_pure ⟨rfl, (Draft.Keeps.refl d).hold _ _⟩

theorem appends_source (slot : Slot) (narrow : Bool) (d : Draft) :
    Appends Scratchwork (source cx slot narrow d) d.Keeps := by
  have hself : Appends Scratchwork (pure d : LowerM Draft) d.Keeps := appends_pure (.refl d)
  unfold source
  split
  · exact appends_bind (appends_locate cx _) fun _ _ => hself
  · split
    · refine appends_bind (appends_materialize _) fun symbol _ => appends_pure ?_
      exact (Draft.Keeps.refl d).put slot (.symbol _)
    · refine appends_bind (appends_materialize _) fun symbol _ => ?_
      refine appends_bind (appends_reserveTemp cx slot d) fun d1 h1 => ?_
      refine appends_bind (appends_keep (.temp ⟨.inr (.inl rfl), _, rfl⟩)) fun _ _ =>
        appends_pure ?_
      exact h1.2.put slot (.temp _)
    · split
      · exact appends_intoTemp cx slot d
      · exact hself
    · exact hself
  · exact (appends_address cx slot _ _ _ _ _ d).mono (fun _ h => h) fun _ h => h.2.2
  · exact hself

theorem appends_dest (slot : Slot) (d : Draft) : Appends Scratchwork (dest cx slot d) d.Keeps := by
  have hself : Appends Scratchwork (pure d : LowerM Draft) d.Keeps := appends_pure (.refl d)
  unfold dest
  split
  · exact appends_bind (appends_locate cx _) fun _ _ => hself
  · split
    · exact appends_fail cx _
    · exact hself
  · exact (appends_address cx slot _ _ _ _ _ d).mono (fun _ h => h) fun _ h => h.2.2
  · exact appends_fail cx _
  · exact hself

/-- The source of a draft that has not taken the temporary register. -/
theorem appends_source_free {slot : Slot} {d : Draft} (hfree : d.holder = none) (narrow : Bool) :
    Appends TempWork (source cx slot narrow d) fun _ => True := by
  have hreserve : Appends TempWork (reserveTemp cx slot d) fun _ => True := by
    rw [reserveTemp_of_free cx hfree]
    exact appends_pure trivial
  unfold source
  split
  · exact appends_bind (appends_locate cx _) fun _ _ => appends_pure trivial
  · split
    · exact appends_bind (appends_materialize _) fun _ _ => appends_pure trivial
    · refine appends_bind (appends_materialize _) fun symbol _ => ?_
      refine appends_bind hreserve fun d1 _ => ?_
      exact appends_bind (appends_keep ⟨.inr (.inl rfl), _, rfl⟩) fun _ _ => appends_pure trivial
    · split
      · unfold intoTemp
        refine appends_bind hreserve fun d1 _ => ?_
        exact appends_bind (appends_keep ⟨.inl rfl, _, rfl⟩) fun _ _ => appends_pure trivial
      · exact appends_pure trivial
    · exact appends_pure trivial
  · exact (appends_address_free cx hfree _ _ _ _ _).mono (fun _ h => h) fun _ _ => trivial
  · exact appends_pure trivial

/-! ## Simultaneous assignment -/

/-- A line of a simultaneous assignment: a move to one of the destinations, or to xmm13. -/
def AssignmentLine (cx : Context) (moves : List Move) (i : Instr) : Prop :=
  ∃ op src dst, (op = .move ∨ op = .lea) ∧
    (dst = .reg regXmm13 ∧ op = .move ∨ ∃ m ∈ moves, m.dst = dst) ∧
    i = ⟨op, some src, none, none, some dst, cx.instr.pos⟩

/-- What holds of steps that stop or do nothing, and of a line of the assignment before a step of
which it holds, holds of simultaneous assignment. -/
theorem parallel_rule {R : LowerM Unit → Prop} {moves : List Move} (hpure : R (pure ()))
    (hfail : ∀ d, R (fail cx d))
    (hkeep : ∀ i k, AssignmentLine cx moves i → R k → R (keep i >>= fun _ => k))
    (hget : ∀ f : State → LowerM Unit, (∀ st, R (f st)) → R (get >>= f)) :
    R (parallel cx moves) := by
  have hup : ∀ (locs : Locations) (n : Nat) (pending : List Move),
      (∀ m ∈ pending, ∃ m' ∈ moves, m'.dst = m.dst) → R (parallelUpTo cx locs n pending) := by
    intro locs n
    induction n with
    | zero =>
      intro pending _
      unfold parallelUpTo
      split
      · exact hpure
      · exact hfail _
      · contradiction
    | succ n ih =>
      -- A move that is ready is one of the pending ones, and so are those that are left.
      have hround : ∀ (pending b a : List Move) (m : Move),
          splitReady locs [] pending = some (b, m, a) →
          (∀ m ∈ pending, ∃ m' ∈ moves, m'.dst = m.dst) →
          R (m.emit cx >>= fun _ => parallelUpTo cx locs n (b ++ a)) := by
        intro pending b a m hs hpending
        obtain ⟨he, -⟩ := splitReady_some hs
        rw [List.nil_append] at he
        subst he
        refine hkeep _ _ ⟨_, m.src, m.dst, ?_, .inr (hpending m (by simp)), rfl⟩
          (ih _ fun m' hm' => hpending m' (mem_of_others hm'))
        cases m.lea <;> simp
      intro pending hpending
      unfold parallelUpTo
      split
      · exact hpure
      split
      · rename_i b m a hs
        exact hround _ b a m hs hpending
      split
      · exact hfail _
      · rename_i key redirected hb
        refine hkeep _ _ ⟨.move, _, _, .inl rfl, .inl ⟨rfl, rfl⟩, rfl⟩ ?_
        split
        · rename_i b m a hs
          refine hround redirected b a m hs fun m' hm' => ?_
          obtain ⟨b', m0, a', he, -, -, rfl⟩ := breakCycle?_some hb
          rw [List.nil_append] at he
          rcases mem_redirected hm' with rfl | ⟨n', hn', rfl⟩
          · exact hpending _ (by simp [he])
          · rw [redirect_dst]
            refine hpending n' ?_
            rw [he]
            exact mem_of_others hn'
        · exact hfail _
  exact hget _ fun st => hup _ _ _ fun m hm => ⟨m, (List.mem_filter.mp hm).1, rfl⟩

/-- The moves of a simultaneous assignment are all that it appends. -/
theorem appends_parallel {moves : List Move}
    (hmoves : ∀ m ∈ moves, ∀ op src, op = .move ∨ op = .lea →
      P ⟨op, some src, none, none, some m.dst, cx.instr.pos⟩)
    (hsave : ∀ src, P ⟨.move, some src, none, none, some (.reg regXmm13), cx.instr.pos⟩) :
    Appends P (parallel cx moves) fun _ => True := by
  refine parallel_rule (R := fun m => Appends P m fun _ => True) cx (appends_pure trivial)
    (appends_fail cx) (fun i k hi hk => ?_) fun f hf => appends_bind appends_get fun st _ => hf st
  refine appends_bind (appends_keep ?_) fun _ _ => hk
  obtain ⟨op, src, dst, hop, ⟨rfl, rfl⟩ | ⟨m, hm, rfl⟩, rfl⟩ := hi
  · exact hsave src
  · exact hmoves m hm op src hop

end Drafts

end Backend.Lowering
