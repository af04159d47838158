-- What lowering leaves in a block: rules for what every lowered instruction satisfies, step by step
-- through the monad of lowering, and the form that divisions and shifts end in.
import Backend.Proofs.Lowering.Rules
import Backend.Proofs.Selection.Move

namespace Backend.Lowering

/-! ## Rules -/

/-- When the step ends, every lowered instruction satisfies `P` if every earlier one did, and the
result satisfies `Q`. -/
def Emits {α : Type} (P : Instr → Prop) (m : LowerM α) (Q : α → Prop) : Prop :=
  ∀ s a s', m s = .ok (a, s') → (∀ i ∈ s.out, P i) → (∀ i ∈ s'.out, P i) ∧ Q a

section Rules

variable {α β : Type} {P : Instr → Prop} {Q : α → Prop} {R : β → Prop}

/-- The lowered instructions all satisfy `P`. -/
abbrev OutSatisfies (P : Instr → Prop) (s : State) : Prop := ∀ i ∈ s.out, P i

theorem emits_iff {m : LowerM α} : Emits P m Q ↔ Maintains (OutSatisfies P) m Q := .rfl

theorem emits_pure {a : α} (h : Q a) : Emits P (pure a) Q :=
  emits_iff.mpr (maintains_pure h)

theorem emits_bind {m : LowerM α} {f : α → LowerM β} (hm : Emits P m Q)
    (hf : ∀ a, Q a → Emits P (f a) R) : Emits P (m >>= f) R :=
  emits_iff.mpr (maintains_bind (emits_iff.mp hm) hf)

theorem Emits.mono {m : LowerM α} {Q' : α → Prop} (h : Emits P m Q) (hq : ∀ a, Q a → Q' a) :
    Emits P m Q' :=
  emits_iff.mpr ((emits_iff.mp h).mono hq)

theorem emits_fail (cx : Context) (d : Defect) : Emits P (fail cx d) Q :=
  emits_iff.mpr (maintains_fail cx d)

theorem emits_get : Emits P get fun _ => True :=
  emits_iff.mpr (maintains_get.mono fun _ _ => trivial)

theorem emits_modify {f : State → State} (h : ∀ s, (f s).out = s.out) :
    Emits P (modify f) fun _ => True :=
  emits_iff.mpr (maintains_modify fun s hs => by rwa [OutSatisfies, h])

theorem emits_keep {i : Instr} (h : P i) : Emits P (keep i) fun _ => True := by
  intro s a s' hs hout
  cases hs
  refine ⟨fun j hj => ?_, trivial⟩
  rcases List.mem_append.mp hj with hj | hj
  · exact hout j hj
  · cases List.mem_singleton.mp hj
    exact h

theorem emits_join {c : Prop} [Decidable c] {m1 m2 : LowerM α} {f : α → LowerM β}
    (h1 : Emits P m1 Q) (h2 : Emits P m2 Q) (hf : ∀ a, Q a → Emits P (f a) R) :
    Emits P (if c then m1 >>= f else m2 >>= f) R :=
  emits_iff.mpr (maintains_join (emits_iff.mp h1) (emits_iff.mp h2) hf)

theorem emits_when {c : Prop} [Decidable c] {m : LowerM α} {k : LowerM β}
    (hm : Emits P m fun _ => True) (hk : Emits P k R) :
    Emits P (if c then m >>= fun _ => k else k) R :=
  emits_iff.mpr (maintains_when (fun _ => emits_iff.mp hm) (emits_iff.mp hk))

/-- A loop that only emits. -/
theorem emits_each {xs : List α} {f : α → LowerM Unit} (h : ∀ a ∈ xs, Emits P (f a) fun _ => True) :
    Emits P (forIn xs PUnit.unit fun a _ => do
      f a
      pure (ForInStep.yield PUnit.unit)) fun _ => True :=
  emits_iff.mpr (maintains_each h)

theorem emits_foldlM {xs : List α} {f : β → α → LowerM β} (h : ∀ a b, Emits P (f b a) fun _ => True)
    (b : β) : Emits P (xs.foldlM f b) fun _ => True :=
  emits_iff.mpr (maintains_foldlM (fun a _ b _ => h a b) trivial)

theorem emits_mapM {xs : List α} {f : α → LowerM β} (h : ∀ a, Emits P (f a) fun _ => True) :
    Emits P (xs.mapM f) fun _ => True :=
  emits_iff.mpr ((maintains_mapM fun a _ => h a).mono fun _ _ => trivial)

theorem emits_materialize (l : Literal) : Emits P (materialize l) fun s => s.ty = l.ty := by
  unfold materialize
  refine emits_bind (Q := fun _ => True) emits_get fun st _ => ?_
  refine emits_bind (Q := fun _ => True) (emits_modify fun _ => rfl) fun _ _ => emits_pure ?_
  dsimp only
  split <;> rfl

theorem emits_locate (cx : Context) (v : Var) : Emits P (locate cx v) fun _ => True :=
  emits_iff.mpr (maintains_locate cx v)

end Rules

/-! ## Drafts of divisions and shifts -/

def isDivision : Opcode → Bool
  | .sdiv | .udiv | .srem | .urem => true
  | _ => false

def isShift : Opcode → Bool
  | .shl | .shr | .sar => true
  | _ => false

/-- The operation finds an operand in a register of its own, the dividend or the count. -/
def isPinned (op : Opcode) : Bool := isDivision op || isShift op

/-- The second operand is no variable. -/
def CountFixed (i : Instr) : Prop := ∀ v, i.second ≠ some (.var v)

/-- The instruction computes with floats, or its first operand is in the frame. -/
def FloatOrFrame (i : Instr) : Prop :=
  (opType i).isFloat = true ∨ ∃ offset t, i.first = some (.stack offset t)

/-- An operand may take the place of another in a slot: it is a scratch slot of the same type or for
an operand without one, or it has the same type, or both are no floats. -/
def MayReplace (slot : Slot) (o o' : Operand) : Prop :=
  (slot ≠ .output ∧ (∃ offset t, o' = .stack offset t) ∧ (o.ty ≠ .void → o'.ty = o.ty)) ∨
    ((∀ offset t, o ≠ .stack offset t) ∧
      (o'.ty = o.ty ∨ (slot ≠ .output ∧ o.ty ≠ .void ∧ o.ty.isFloat = false)))

theorem countFixed_set {slot : Slot} {i : Instr} {o : Operand} (h : CountFixed i)
    (ho : ∀ v, o ≠ .var v) :
    CountFixed (slot.set o i) := by
  intro v hv
  cases slot with
  | second => exact ho v (Option.some.inj hv)
  | first | addend | output => exact h v hv

theorem floatOrFrame_set {slot : Slot} {i : Instr} {o o' : Operand} (h : FloatOrFrame i)
    (ho : slot.get i = some o) (hr : MayReplace slot o o') : FloatOrFrame (slot.set o' i) := by
  have hvoid : Ty.isFloat .void = false := rfl
  -- The type of a float is kept, so only a first operand that moves to the frame matters.
  have hsame : o.ty.isFloat = true → o'.ty = o.ty := by
    intro hf
    rcases hr with ⟨-, -, h⟩ | ⟨-, h | ⟨-, -, h⟩⟩
    · exact h fun hv => by simp [hv, hvoid] at hf
    · exact h
    · simp [hf] at h
  unfold FloatOrFrame opType at h ⊢
  unfold MayReplace at hr
  cases slot with
  | first =>
    simp only [Slot.get, Slot.set] at ho ⊢
    grind
  | second =>
    clear hr
    simp only [Slot.get, Slot.set] at ho ⊢
    grind
  | addend => exact h
  | output =>
    simp only [Slot.get, Slot.set] at ho ⊢
    grind

/-- A draft that came from another: the same operation, which still computes with floats or has its
first operand in the frame, unless the output held the temporary register. No variable came in. -/
structure Draft.Follows (d d' : Draft) : Prop where
  op : d'.instr.op = d.instr.op
  kind : d.holder ≠ some .output → FloatOrFrame d.instr → FloatOrFrame d'.instr
  count : CountFixed d.instr → CountFixed d'.instr

theorem Draft.Follows.refl (d : Draft) : d.Follows d := ⟨rfl, fun _ h => h, id⟩

theorem Draft.op_put (d : Draft) (slot : Slot) (o : Operand) :
    (d.put slot o).instr.op = d.instr.op := by
  cases slot <;> rfl

theorem Slot.get_set (slot : Slot) (o : Operand) (i : Instr) :
    slot.get (slot.set o i) = some o := by
  cases slot <;> rfl

theorem Slot.op_set (slot : Slot) (o : Operand) (i : Instr) : (slot.set o i).op = i.op := by
  cases slot <;> rfl

theorem Slot.get_set_ne {slot slot' : Slot} (h : slot ≠ slot') (o : Operand) (i : Instr) :
    slot'.get (slot.set o i) = slot'.get i := by
  cases slot <;> cases slot' <;> first | rfl | exact absurd rfl h

/-- Another operand in a slot. -/
theorem Draft.Follows.put {d d' : Draft} {slot : Slot} {o o' : Operand} (h : d.Follows d')
    (ho : slot.get d'.instr = some o) (hr : MayReplace slot o o') (hv : ∀ v, o' ≠ .var v) :
    d.Follows (d'.put slot o') := by
  refine ⟨(Draft.op_put d' slot o').trans h.op, fun hh hk => ?_, fun hc => ?_⟩
  · exact floatOrFrame_set (h.kind hh hk) ho hr
  · exact countFixed_set (h.count hc) hv

/-- No division, and no shift by a variable. -/
def Unpinned (i : Instr) : Prop := isDivision i.op = false ∧ (isShift i.op = true → CountFixed i)

theorem unpinned_of_op {i : Instr} (h : isPinned i.op = false) : Unpinned i := by
  obtain ⟨hdiv, hshift⟩ := Bool.or_eq_false_iff.mp h
  refine ⟨hdiv, fun hs => ?_⟩
  rw [hshift] at hs
  cases hs

theorem unpinned_of_addressLine {cx : Context} {i : Instr} (h : AddressLine cx i) : Unpinned i := by
  obtain ⟨hop, hcount⟩ := h
  rcases hop with rfl | rfl | rfl | rfl
  · exact unpinned_of_op rfl
  · exact unpinned_of_op rfl
  · obtain ⟨l, rfl⟩ := hcount rfl
    exact ⟨rfl, fun _ v hv => by cases hv⟩
  · exact unpinned_of_op rfl

/-! ## The step for an instruction -/

/-- The step that lowers an instruction, with what it says of the operation. -/
inductive Route (cx : Context) : LowerM Unit → Prop
  | nothing : Route cx (pure ())
  | kept (op : cx.instr.op = .label ∨ cx.instr.op = .phi ∨ cx.instr.op = .bal ∨
      cx.instr.op = .ret) :
      Route cx (keep cx.instr)
  | safepoint : Route cx (emit cx .safepoint none none (some (.reg regRax)))
  | prologue (op : cx.instr.op = .fnBegin) : Route cx (prologue cx)
  | ending (op : cx.instr.op = .fnEnd) : Route cx (do
      if ((← get).out.getLast?.map fun last => last.op == .ret).getD false then pure ()
      else keep cx.instr)
  | ret : Route cx (ret cx cx.instr)
  | call (op : cx.instr.op = .call ∨ cx.instr.op = .rtCall) : Route cx (call cx)
  | move (op : cx.instr.op = .move) : Route cx (move cx cx.instr)
  | refused : Route cx (fail cx .floatRemainder)
  | divide (op : isDivision cx.instr.op = true) : Route cx (divide cx cx.instr)
  | shift (op : cx.instr.op = .shl ∨ cx.instr.op = .shr ∨ cx.instr.op = .sar) :
      Route cx (shift cx cx.instr)
  | compare (op : (cx.instr.op.isCompare || cx.instr.op.isCondBranch) = true) :
      Route cx (compare cx cx.instr)
  | generic (division : isDivision cx.instr.op = true → (opType cx.instr).isFloat = true)
      (shift : isShift cx.instr.op = false)
      (comparison : (cx.instr.op.isCompare || cx.instr.op.isCondBranch) = false)
      (call : cx.instr.op.isCall = false) (label : cx.instr.op ≠ .label) :
      Route cx (generic cx cx.instr)

theorem instr_route (cx : Context) : Route cx (instr cx) := by
  have hfloat (h : (opType cx.instr).isFloat = true) (hop : isDivision cx.instr.op = true) :
      Route cx (generic cx cx.instr) := by
    refine .generic (fun _ => h) ?_ ?_ ?_ fun hlabel => by rw [hlabel] at hop; cases hop
    all_goals cases hi : cx.instr.op <;> rw [hi] at hop <;> first | rfl | cases hop
  unfold instr
  dsimp only
  split
  · exact .nothing
  · exact .kept (.inl ‹_›)
  · exact .kept (.inr (.inl ‹_›))
  · exact .kept (.inr (.inr (.inl ‹_›)))
  · exact .kept (.inr (.inr (.inr ‹_›)))
  · exact .safepoint
  · exact .prologue ‹_›
  · exact .ending ‹_›
  · exact .ret
  · exact .call (.inl ‹_›)
  · exact .call (.inr ‹_›)
  · exact .move ‹_›
  · rename_i hop
    have hdiv : isDivision cx.instr.op = true := by rw [hop]; rfl
    split
    · exact hfloat ‹_› hdiv
    · exact .divide hdiv
  · rename_i hop
    have hdiv : isDivision cx.instr.op = true := by rw [hop]; rfl
    split
    · exact hfloat ‹_› hdiv
    · exact .divide hdiv
  · rename_i hop
    split
    · exact .refused
    · exact .divide (by rw [hop]; rfl)
  · rename_i hop
    split
    · exact .refused
    · exact .divide (by rw [hop]; rfl)
  · exact .shift (.inl ‹_›)
  · exact .shift (.inr (.inl ‹_›))
  · exact .shift (.inr (.inr ‹_›))
  · have hdiv : isDivision cx.instr.op = false := by
      unfold isDivision
      split <;> first | rfl | contradiction
    have hshift : isShift cx.instr.op = false := by
      unfold isShift
      split <;> first | rfl | contradiction
    have hcall : cx.instr.op.isCall = false := by
      unfold Opcode.isCall
      split <;> first | rfl | contradiction
    split
    · exact .compare ‹_›
    · rename_i hcomparison
      exact .generic (fun h => by simp [hdiv] at h) hshift (by simpa using hcomparison) hcall ‹_›

section Drafts

variable {P : Instr → Prop} (hP : ∀ i : Instr, Unpinned i → P i) (cx : Context)

include hP

theorem emits_emit {op : Opcode} (h : isPinned op = false) (first second output : Option Operand) :
    Emits P (emit cx op first second output) fun _ => True :=
  emits_keep (hP _ (unpinned_of_op h))

theorem emits_spill (d : Draft) :
    Emits P (spill cx d) fun d' => d.Follows d' ∧ d'.holder = none ∧
      ∀ slot, d.holder ≠ some slot → slot.get d'.instr = slot.get d.instr := by
  unfold spill
  split
  · rename_i hh
    exact emits_pure ⟨.refl d, hh, fun _ _ => rfl⟩
  · rename_i slot hh
    split
    · exact emits_pure ⟨⟨rfl, fun _ h => h, id⟩, rfl, fun _ _ => rfl⟩
    · rename_i o ho
      split
      · exact emits_fail cx _
      split
      · exact emits_fail cx _
      · refine emits_bind (emits_emit hP cx rfl _ _ _) fun _ _ => emits_pure ⟨⟨?_, ?_, ?_⟩, rfl, ?_⟩
        · exact Draft.op_put d slot _
        · intro hout hk
          refine floatOrFrame_set hk ho (.inl ⟨?_, ⟨_, _, rfl⟩, ?_⟩)
          · rintro rfl
            exact hout hh
          · intro hv
            exact if_neg (by simpa using hv)
        · exact fun hc => countFixed_set hc fun v hv => by cases hv
        · intro slot' hs
          refine Slot.get_set_ne ?_ _ _
          rintro rfl
          exact hs hh

theorem emits_reserveTemp (slot : Slot) (d : Draft) :
    Emits P (reserveTemp cx slot d) fun d' => d.Follows d' ∧ d'.holder = some slot ∧
      slot.get d'.instr = slot.get d.instr := by
  have hself : Emits P (pure { d with holder := some slot } : LowerM Draft) fun d' =>
      d.Follows d' ∧ d'.holder = some slot ∧ slot.get d'.instr = slot.get d.instr :=
    emits_pure ⟨⟨rfl, fun _ h => h, id⟩, rfl, rfl⟩
  unfold reserveTemp
  split
  · rename_i other hh
    split
    · exact hself
    · rename_i hne
      refine emits_bind (emits_spill hP cx d) fun d' hd =>
        emits_pure ⟨⟨hd.1.op, hd.1.kind, hd.1.count⟩, rfl, ?_⟩
      refine hd.2.2 slot ?_
      rw [hh]
      rintro hs
      cases hs
      exact hne (beq_self_eq_true slot)
  · exact hself

theorem emits_intoTemp (slot : Slot) (d : Draft) :
    Emits P (intoTemp cx slot d) fun d' => d'.instr.op = d.instr.op ∧ d'.holder = some slot ∧
      ∀ o, slot.get d.instr = some o → MayReplace slot o (.reg (tempReg (d.typeAt slot))) →
        d.Follows d' := by
  unfold intoTemp
  refine emits_bind (emits_reserveTemp hP cx slot d) fun d1 h1 => ?_
  refine emits_bind (emits_emit hP cx rfl _ _ _) fun _ _ => emits_pure ⟨?_, h1.2.1, ?_⟩
  · exact (Draft.op_put d1 slot _).trans h1.1.op
  · intro o ho hr
    exact h1.1.put (h1.2.2.trans ho) hr fun v hv => by cases hv

omit hP in
theorem emits_inRegister (o : Operand) : Emits P (inRegister cx o) fun _ => True :=
  emits_iff.mpr (maintains_inRegister cx o)

/-- A memory operand stays one of its type when its address is made of registers. -/
theorem emits_address {slot : Slot} {base index : Option Operand} {scale : UInt8} {disp : Int64}
    {t : Ty} {d : Draft} (ho : slot.get d.instr = some (.indirect base index scale disp t)) :
    Emits P (address cx slot base index scale disp t d) fun d' => d.Follows d' ∧
      (slot ≠ .output → d.holder ≠ some .output → d'.holder ≠ some .output) := by
  have hr : ∀ b i s k, MayReplace slot (.indirect base index scale disp t) (.indirect b i s k t) :=
    fun _ _ _ _ => .inr ⟨fun _ _ h => (by cases h), .inl rfl⟩
  refine address_lines_rule (R := fun m => Emits P m fun d' => d.Follows d' ∧
      (slot ≠ .output → d.holder ≠ some .output → d'.holder ≠ some .output))
    (fun e _ => emits_fail cx e) (fun o _ h => emits_bind (emits_inRegister cx o) fun ok _ => h ok)
    (fun _ h => emits_bind (emits_reserveTemp hP cx slot d) h)
    (fun i hi _ h => emits_bind (emits_keep (hP i (unpinned_of_addressLine hi))) fun _ _ => h)
    (fun b x f k _ => emits_pure
      ⟨(Draft.Follows.refl d).put ho (hr b x f k) (fun v hv => by cases hv),
      fun _ h => h⟩) fun d1 b x f k h1 => emits_pure ⟨?_, fun hs _ => ?_⟩
  · exact h1.1.put (h1.2.2.trans ho) (hr b x f k) fun v hv => by cases hv
  · rw [show (d1.put slot (.indirect b x f k t)).holder = d1.holder from rfl, h1.2.1]
    exact fun h => hs (Option.some.inj h)

/-- Sources keep their kind. -/
theorem emits_source {slot : Slot} (hslot : slot ≠ .output) (narrow : Bool) (d : Draft) :
    Emits P (source cx slot narrow d) fun d' => d.Follows d' ∧
      (d.holder ≠ some .output → d'.holder ≠ some .output) := by
  have hholder : ∀ d' : Draft, d'.holder = some slot → d'.holder ≠ some .output := by
    intro d' h hout
    exact hslot (Option.some.inj (h.symm.trans hout))
  have hself : Emits P (pure d : LowerM Draft) fun d' => d.Follows d' ∧
      (d.holder ≠ some .output → d'.holder ≠ some .output) := emits_pure ⟨.refl d, fun h => h⟩
  unfold source
  split
  · exact emits_bind (emits_locate cx _) fun _ _ => hself
  · rename_i l ho
    split
    · refine emits_bind (emits_materialize _) fun symbol hty => emits_pure ⟨?_, fun h => h⟩
      refine (Draft.Follows.refl d).put ho (.inr ⟨fun _ _ h => (by cases h), .inl hty⟩)
        fun v hv => ?_
      cases hv
    · refine emits_bind (emits_materialize _) fun symbol _ => ?_
      refine emits_bind (emits_reserveTemp hP cx slot d) fun d1 h1 => ?_
      refine emits_bind (emits_emit hP cx rfl _ _ _) fun _ _ => emits_pure ⟨?_, fun _ => ?_⟩
      · refine h1.1.put (h1.2.2.trans ho)
          (.inr ⟨fun _ _ h => (by cases h), .inr ⟨hslot, ?_, rfl⟩⟩) ?_
        · exact fun h => by cases h
        · exact fun v hv => by cases hv
      · exact hholder _ h1.2.1
    · rename_i w value
      split
      · refine (emits_intoTemp hP cx slot d).mono fun d' h =>
          ⟨h.2.2 _ ho ?_, fun _ => hholder _ h.2.1⟩
        refine .inr ⟨fun _ _ h => (by cases h), .inr ⟨hslot, ?_, ?_⟩⟩
        · cases w <;> exact fun h => by cases h
        · cases w <;> rfl
      · exact hself
    · exact hself
  · rename_i ho
    exact (emits_address hP cx ho).mono fun d' h => ⟨h.1, h.2 hslot⟩
  · exact hself

theorem emits_dest (d : Draft) : Emits P (dest cx .output d) fun d' => d.Follows d' := by
  have hself : Emits P (pure d : LowerM Draft) fun d' => d.Follows d' := emits_pure (.refl d)
  unfold dest
  split
  · exact emits_bind (emits_locate cx _) fun _ _ => hself
  · split
    · exact emits_fail cx _
    · exact hself
  · rename_i ho
    exact (emits_address hP cx ho).mono fun d' h => h.1
  · exact emits_fail cx _
  · exact hself

theorem emits_store (value : Reg) (output : Option Operand) :
    Emits P (store cx value output) fun _ => True := by
  unfold store
  refine emits_bind (emits_dest hP cx _) fun d hd => emits_keep (hP _ (unpinned_of_op ?_))
  rw [hd.op]
  rfl

end Drafts

/-! ## Instructions -/

/-- A division of integers has rax and rdx as its outputs, unless its dividend is in the frame. -/
def DividesInPlace (i : Instr) : Prop :=
  isDivision i.op = true → (opType i).isFloat = false →
    (∃ offset t, i.first = some (.stack offset t)) ∨
      ∃ w, i.output = some (.list [.reg (gpr Machine.rax w), .reg (gpr Machine.rdx w)])

/-- A division of integers is in its place and divides no variable, and no shift is by a
variable. -/
structure Settled (i : Instr) : Prop where
  divides : DividesInPlace i
  dividend : isDivision i.op = true → (opType i).isFloat = false → ∀ v, i.first ≠ some (.var v)
  count : isShift i.op = true → CountFixed i

theorem settled_of_unpinned (i : Instr) (h : Unpinned i) : Settled i := by
  have hno : isDivision i.op ≠ true := by simp [h.1]
  exact ⟨fun hd => absurd hd hno, fun hd => absurd hd hno, h.2⟩

section Instructions

variable (cx : Context)

theorem emits_intImmediateIntoTemp (slot : Slot) (d : Draft) :
    Emits Settled (intImmediateIntoTemp cx slot d) fun d' => d'.instr.op = d.instr.op := by
  unfold intImmediateIntoTemp
  split
  · split
    · exact (emits_intoTemp settled_of_unpinned cx slot d).mono fun d' h => h.1
    · exact emits_pure rfl
  · exact emits_pure rfl

/-- A division that is only made encodable computes with floats, and a shift is by no variable. -/
theorem emits_generic {i : Instr} (h : isDivision i.op = true → (opType i).isFloat = true)
    (hs : isShift i.op = true → CountFixed i) : Emits Settled (generic cx i) fun _ => True := by
  have hP := settled_of_unpinned
  unfold generic
  refine emits_bind (emits_source hP cx (by decide) _ _) fun d1 h1 => ?_
  refine emits_bind (emits_source hP cx (by decide) _ d1) fun d2 h2 => ?_
  refine emits_bind (emits_source hP cx (by decide) _ d2) fun d3 h3 => ?_
  have hop : d3.instr.op = i.op := h3.1.op.trans (h2.1.op.trans h1.1.op)
  have hout : d3.holder ≠ some .output := h3.2 (h2.2 (h1.2 (by simp [Draft.of])))
  have hkind : isDivision i.op = true → FloatOrFrame d3.instr := fun hd =>
    h3.1.kind (h2.2 (h1.2 (by simp [Draft.of]))) (h2.1.kind (h1.2 (by simp [Draft.of]))
      (h1.1.kind (by simp [Draft.of]) (.inl (h hd))))
  have hcount : isShift i.op = true → CountFixed d3.instr := fun hd =>
    h3.1.count (h2.1.count (h1.1.count (hs hd)))
  have hlast : ∀ d4 : Draft, d4.instr.op = i.op ∧ (isPinned i.op = true → d4 = d3) →
      Emits Settled (do keep (← dest cx .output d4).instr) fun _ => True := by
    intro d4 h4
    refine emits_bind (emits_dest hP cx d4) fun d5 h5 => emits_keep ?_
    have hop5 : d5.instr.op = i.op := h5.op.trans h4.1
    have hframe : isDivision d5.instr.op = true → (opType d5.instr).isFloat = false →
        ∃ offset t, d5.instr.first = some (.stack offset t) := by
      intro hd hint
      rw [hop5] at hd
      cases h4.2 (Bool.or_eq_true_iff.mpr (.inl hd))
      rcases h5.kind hout (hkind hd) with hf | hf
      · rw [hf] at hint
        cases hint
      · exact hf
    refine ⟨fun hd hint => .inl (hframe hd hint), fun hd hint v hv => ?_, fun hd => ?_⟩
    · obtain ⟨offset, t, hfirst⟩ := hframe hd hint
      rw [hfirst] at hv
      cases hv
    · rw [hop5] at hd
      cases h4.2 (Bool.or_eq_true_iff.mpr (.inr hd))
      exact h5.count (hcount hd)
  refine emits_bind emits_get fun st _ => ?_
  split
  · rename_i hi
    refine emits_bind (emits_intImmediateIntoTemp cx .first d3) fun d4 h4 =>
      hlast d4 ⟨h4.trans hop, ?_⟩
    simp [beq_iff_eq.mp hi, isPinned, isDivision, isShift]
  split
  · rename_i hi
    simp only [Bool.and_eq_true, beq_iff_eq] at hi
    refine emits_bind (emits_intoTemp hP cx .second d3) fun d4 h4 => hlast d4 ⟨h4.1.trans hop, ?_⟩
    simp [hi.1.1.1, isPinned, isDivision, isShift]
  · rw [pure_bind]
    exact hlast d3 ⟨hop, fun _ => rfl⟩

theorem emits_move {i : Instr} (h : i.op = .move) :
    Emits Settled (move cx i) fun _ => True := by
  have hP := settled_of_unpinned
  have hlast : ∀ d : Draft, isPinned d.instr.op = false → Emits Settled (do
      let d ← source cx .first false d
      let d ← dest cx .output d
      keep d.instr) fun _ => True := by
    intro d hd
    refine emits_bind (emits_source hP cx (by decide) _ d) fun d1 h1 => ?_
    refine emits_bind (emits_dest hP cx d1) fun d2 h2 => emits_keep (hP _ (unpinned_of_op ?_))
    rw [h2.op, h1.1.op]
    exact hd
  have hself : isPinned (Draft.of i).instr.op = false := by
    simp [Draft.of, h, isPinned, isDivision, isShift]
  unfold move
  dsimp only
  split
  · split
    · refine emits_bind (emits_materialize _) fun symbol _ => ?_
      rw [pure_bind]
      exact hlast _ rfl
    · split
      · rw [pure_bind]
        exact hlast _ hself
      · have hload : Emits Settled (do
            let d ← intoTemp cx .first (.of i)
            let d ← source cx .first false d
            let d ← dest cx .output d
            keep d.instr) fun _ => True := by
          refine emits_bind (emits_intoTemp hP cx .first _) fun d hd => hlast d ?_
          rw [hd.1]
          exact hself
        split
        · refine emits_bind (emits_inRegister cx _) fun direct _ => ?_
          split
          · exact hlast _ hself
          · exact hload
        · exact hload
    · rw [pure_bind]
      exact hlast _ hself
  · rw [pure_bind]
    exact hlast _ hself

theorem swapped_not_pinned (op : Opcode) (h : isPinned op = false) :
    isPinned op.swapped = false := by
  cases op <;> first | rfl | cases h

theorem emits_compare {i : Instr} (h : isPinned i.op = false) :
    Emits Settled (compare cx i) fun _ => True := by
  have hP := settled_of_unpinned
  have hi : isPinned (literalSecond i).op = false := by
    unfold literalSecond
    split
    · exact swapped_not_pinned i.op h
    · exact h
  unfold compare
  refine emits_bind (emits_source hP cx (by decide) _ _) fun d1 h1 => ?_
  refine emits_bind (emits_source hP cx (by decide) _ d1) fun d2 h2 => ?_
  refine emits_bind (emits_intImmediateIntoTemp cx .first d2) fun d3 h3 => ?_
  have hop : isPinned d3.instr.op = false := by
    rw [h3, h2.1.op, h1.1.op]
    exact hi
  split
  · refine emits_bind (emits_dest hP cx d3) fun d4 h4 => emits_keep (hP _ (unpinned_of_op ?_))
    rw [h4.op]
    exact hop
  · rw [pure_bind]
    exact emits_keep (hP _ (unpinned_of_op hop))

theorem emits_ret (i : Instr) : Emits Settled (ret cx i) fun _ => True := by
  have hP := settled_of_unpinned
  unfold ret
  split
  · exact emits_emit hP cx rfl _ _ _
  · exact emits_bind (emits_move cx rfl) fun _ _ => emits_emit hP cx rfl _ _ _

/-- A division of integers is emitted once, from rax by r10 into rax and rdx. -/
theorem emits_divide (i : Instr) : Emits Settled (divide cx i) fun _ => True := by
  have hP := settled_of_unpinned
  unfold divide
  refine emits_bind (emits_source hP cx (by decide) _ _) fun d1 _ => ?_
  refine emits_bind (emits_source hP cx (by decide) _ d1) fun d2 _ => ?_
  refine emits_join (Q := fun _ => True) ((emits_spill hP cx d2).mono fun _ _ => trivial)
    (emits_pure trivial) fun d3 _ => ?_
  refine emits_bind emits_get fun st _ => ?_
  refine emits_bind (emits_each fun r _ => emits_emit hP cx rfl _ _ _) fun _ _ => ?_
  refine emits_bind (emits_emit hP cx rfl _ _ _) fun _ _ => ?_
  refine emits_bind (emits_emit hP cx rfl _ _ _) fun _ _ => ?_
  have hdivided : ∀ w : Nat,
      Settled ⟨i.op, some (.reg (gpr Machine.rax w)), some (.reg (gpr Machine.r10 w)), none,
      some (.list [.reg (gpr Machine.rax w), .reg (gpr Machine.rdx w)]), cx.instr.pos⟩ := fun w =>
    ⟨fun _ _ => .inr ⟨w, rfl⟩, fun _ _ v hv => (by cases hv), fun _ v hv => (by cases hv)⟩
  refine emits_bind (emits_keep (hdivided _)) fun _ _ => ?_
  cases d3.instr.output with
  | none =>
    dsimp only
    split
    · refine emits_when (emits_emit hP cx rfl _ _ _) ?_
      exact emits_bind (emits_each fun r _ => emits_emit hP cx rfl _ _ _) fun _ _ =>
        emits_pure trivial
    · exact emits_pure trivial
  | some o =>
    dsimp only
    split
    · refine emits_when (emits_emit hP cx rfl _ _ _) ?_
      exact emits_bind (emits_each fun r _ => emits_emit hP cx rfl _ _ _) fun _ _ =>
        emits_store hP cx _ _
    · exact emits_store hP cx _ _

theorem emits_shift {i : Instr} (h : isDivision i.op = false) :
    Emits Settled (shift cx i) fun _ => True := by
  have hP := settled_of_unpinned
  have hcl : ∀ d : Draft, d.instr.op = i.op →
      Settled (d.put .second (.reg (gpr Machine.rcx 1))).instr := by
    intro d hop
    refine hP _ ⟨?_, fun _ v hv => by cases hv⟩
    rw [Draft.op_put, hop]
    exact h
  unfold shift
  split
  · exact emits_generic cx (fun hd => by simp [h] at hd) fun _ v hv => by cases hv
  · refine emits_bind (emits_source hP cx (by decide) _ _) fun d1 h1 => ?_
    refine emits_bind (emits_source hP cx (by decide) _ d1) fun d2 h2 => ?_
    refine emits_bind emits_get fun st _ => ?_
    split
    · refine emits_bind (emits_dest hP cx d2) fun d3 h3 => ?_
      refine emits_bind (emits_emit hP cx rfl _ _ _) fun _ _ => emits_keep (hcl d3 ?_)
      rw [h3.op, h2.1.op, h1.1.op]
      rfl
    · refine emits_join (Q := fun _ => True) ((emits_spill hP cx d2).mono fun _ _ => trivial)
        (emits_pure trivial) fun d3 _ => ?_
      refine emits_bind (emits_emit hP cx rfl _ _ _) fun _ _ => ?_
      refine emits_bind (emits_emit hP cx rfl _ _ _) fun _ _ => ?_
      refine emits_bind (emits_emit hP cx rfl _ _ _) fun _ _ => ?_
      have hlast : Settled ⟨i.op, some (.reg (tempReg (opType i))),
          some (.reg (gpr Machine.rcx 1)), none, some (.reg (tempReg (opType i))), cx.instr.pos⟩ :=
            hP _ ⟨h, fun _ v hv => by cases hv⟩
      refine emits_bind (emits_keep hlast) fun _ _ => ?_
      exact emits_bind (emits_emit hP cx rfl _ _ _) fun _ _ => emits_store hP cx _ _

theorem emits_move_emit (m : Move) : Emits Settled (m.emit cx) fun _ => True := by
  unfold Move.emit
  refine emits_emit settled_of_unpinned cx ?_ _ _ _
  split <;> rfl

theorem emits_parallelUpTo (locs : Locations) (n : Nat) (moves : List Move) :
    Emits Settled (parallelUpTo cx locs n moves) fun _ => True := by
  induction n generalizing moves with
  | zero =>
    unfold parallelUpTo
    split
    · exact emits_pure trivial
    · exact emits_fail cx _
    · contradiction
  | succ n ih =>
    unfold parallelUpTo
    split
    · exact emits_pure trivial
    split
    · exact emits_bind (emits_move_emit cx _) fun _ _ => ih _
    split
    · exact emits_fail cx _
    · refine emits_bind (emits_emit settled_of_unpinned cx rfl _ _ _) fun _ _ => ?_
      split
      · exact emits_bind (emits_move_emit cx _) fun _ _ => ih _
      · exact emits_fail cx _

theorem emits_parallel (moves : List Move) : Emits Settled (parallel cx moves) fun _ => True :=
  emits_bind emits_get fun _ _ => emits_parallelUpTo cx _ _ _

theorem emits_adjustStack {op : Opcode} (h : isPinned op = false) (bytes : Int64) :
    Emits Settled (adjustStack cx op bytes) fun _ => True :=
  emits_emit settled_of_unpinned cx h _ _ _

theorem emits_takeParam (st : ParamState) (item : Operand) :
    Emits Settled (takeParam cx st item) fun _ => True := by
  unfold takeParam
  split
  · dsimp only
    refine emits_bind emits_get fun s _ => ?_
    split
    · exact emits_bind (emits_modify fun _ => rfl) fun _ _ => emits_pure trivial
    · exact emits_pure trivial
  · exact emits_fail cx _

theorem emits_prologue (h : isPinned cx.instr.op = false) :
    Emits Settled (prologue cx) fun _ => True := by
  have hP := settled_of_unpinned
  unfold prologue
  refine emits_bind emits_get fun st _ => ?_
  refine emits_bind (emits_keep (hP _ (unpinned_of_op h))) fun _ _ => ?_
  refine emits_bind (emits_emit hP cx rfl _ _ _) fun _ _ => ?_
  refine emits_bind (emits_emit hP cx rfl _ _ _) fun _ _ => ?_
  refine emits_when (emits_adjustStack cx rfl _) ?_
  refine emits_bind (emits_each fun s _ => emits_emit hP cx rfl _ _ _) fun _ _ => ?_
  split
  · exact emits_bind (emits_foldlM (fun item st => emits_takeParam cx st item) _) fun st _ =>
      emits_parallel cx _
  · exact emits_pure trivial

theorem emits_hasPush (o : Operand) : Emits Settled (hasPush cx o) fun _ => True := by
  unfold hasPush
  split
  · exact emits_pure trivial
  · exact emits_pure trivial
  · exact emits_bind (emits_locate cx _) fun _ _ => emits_pure trivial
  · exact emits_pure trivial
  · exact emits_pure trivial

theorem emits_pushArg (o : Operand) : Emits Settled (pushArg cx o) fun _ => True := by
  have hP := settled_of_unpinned
  unfold pushArg
  refine emits_bind (emits_hasPush cx o) fun push _ => ?_
  split
  · exact emits_emit hP cx rfl _ _ _
  · refine emits_bind (emits_source hP cx (by decide) _ _) fun d _ => ?_
    exact emits_when (emits_emit hP cx rfl _ _ _) (emits_emit hP cx rfl _ _ _)

theorem emits_directArg (moves : List Move) (index : Nat) (m : Move) :
    Emits Settled (directArg cx moves index m) fun _ => True := by
  have hP := settled_of_unpinned
  unfold directArg
  split
  · split
    · exact emits_bind (emits_materialize _) fun _ _ => emits_pure trivial
    · exact emits_bind (emits_materialize _) fun _ _ => emits_pure trivial
    · exact emits_pure trivial
  · exact emits_bind (emits_locate cx _) fun _ _ => emits_pure trivial
  · rename_i hsrc
    refine emits_bind (emits_address hP cx ?_) fun d _ => ?_
    · rw [hsrc]
      rfl
    split
    · exact emits_pure trivial
    refine emits_bind emits_get fun st _ => ?_
    dsimp only
    split
    · exact emits_fail cx _
    · exact emits_bind (emits_emit hP cx rfl _ _ _) fun _ _ => emits_pure trivial
  · exact emits_pure trivial

theorem emits_callee : Emits Settled (callee cx) fun _ => True := by
  have hP := settled_of_unpinned
  unfold callee
  split
  · exact emits_fail cx _
  · exact emits_pure trivial
  · refine emits_bind (emits_source hP cx (by decide) _ _) fun d _ => ?_
    exact emits_bind (emits_emit hP cx rfl _ _ _) fun _ _ => emits_pure trivial

theorem emits_countFloats (n : Nat) : Emits Settled (countFloats cx n) fun _ => True := by
  unfold countFloats
  split
  · exact emits_emit settled_of_unpinned cx rfl _ _ _
  · exact emits_emit settled_of_unpinned cx rfl _ _ _

theorem emits_call (h : isPinned cx.instr.op = false) :
    Emits Settled (call cx) fun _ => True := by
  have hP := settled_of_unpinned
  unfold call
  dsimp only
  refine emits_when (emits_adjustStack cx rfl _) ?_
  refine emits_bind (emits_each fun a _ => emits_pushArg cx a) fun _ _ => ?_
  refine emits_bind (Q := fun _ => True) ?_ fun moves _ => ?_
  · exact emits_bind (emits_mapM fun p => emits_directArg cx _ _ _) fun _ _ => emits_pure trivial
  refine emits_bind (emits_callee cx) fun f _ => ?_
  refine emits_bind (emits_parallel cx _) fun _ _ => ?_
  refine emits_when (emits_countFloats cx _) ?_
  refine emits_bind (emits_emit hP cx h _ _ _) fun _ _ => ?_
  refine emits_when (emits_adjustStack cx rfl _) ?_
  split
  · exact emits_store hP cx _ _
  · exact emits_pure trivial

/-- Lowering one instruction emits no division but in its place. -/
theorem emits_instr : Emits Settled (instr cx) fun _ => True := by
  have hP := settled_of_unpinned
  have hroute := instr_route cx
  generalize instr cx = m at hroute ⊢
  cases hroute with
  | nothing => exact emits_pure trivial
  | kept op =>
    refine emits_keep (hP _ (unpinned_of_op ?_))
    rcases op with op | op | op | op <;> rw [op] <;> rfl
  | safepoint => exact emits_emit hP cx rfl _ _ _
  | prologue op => exact emits_prologue cx (by rw [op]; rfl)
  | ending op =>
    refine emits_bind emits_get fun st _ => ?_
    split
    · exact emits_pure trivial
    · exact emits_keep (hP _ (unpinned_of_op (by rw [op]; rfl)))
  | ret => exact emits_ret cx _
  | call op => exact emits_call cx (by rcases op with op | op <;> rw [op] <;> rfl)
  | move op => exact emits_move cx op
  | refused => exact emits_fail cx _
  | divide => exact emits_divide cx _
  | shift op => exact emits_shift cx (by rcases op with op | op | op <;> rw [op] <;> rfl)
  | compare op =>
    refine emits_compare cx ?_
    cases hi : cx.instr.op <;> rw [hi] at op <;> first | rfl | cases op
  | generic division shift => exact emits_generic cx division fun h => by simp [shift] at h

end Instructions

/-! ## Closures -/

theorem forM_settled {variadic : List String} {scratch : Option Int64} (ops : List Instr) :
    Emits Settled (ops.forM fun i => instr ⟨variadic, scratch, i⟩) fun _ => True := by
  induction ops with
  | nil => exact emits_pure trivial
  | cons i rest ih => exact emits_bind (emits_instr _) fun _ _ => ih

theorem blocks_settled {variadic : List String} {scratch : Option Int64} {c c' : Closure}
    {bs bs' : List Block} (h : blocks variadic scratch c bs = .ok (c', bs')) :
    ∀ b ∈ bs', ∀ i ∈ b.ops, Settled i := by
  induction bs generalizing c bs' with
  | nil =>
    cases h
    exact fun b hb => by cases hb
  | cons b rest ih =>
    obtain ⟨st, bs2, hst, h2, rfl⟩ := blocks_cons_eq_ok h
    refine List.forall_mem_cons.mpr ⟨?_, ih h2⟩
    exact (forM_settled b.ops _ _ st hst fun i hi => by cases hi).1

/-- Every division and every shift of a lowered closure has its operands in their places. -/
theorem settled_of_lower {t : Target} {c c' : Closure} (h : t.lower c = .ok c') :
    ∀ b ∈ c'.blocks, ∀ i ∈ b.ops, Settled i := by
  unfold Target.lower at h
  obtain ⟨⟨c1, bs⟩, hbs, h⟩ := bind_eq_ok.mp h
  cases h
  exact blocks_settled hbs

theorem dividesInPlace_of_lower {t : Target} {c c' : Closure} (h : t.lower c = .ok c') :
    ∀ b ∈ c'.blocks, ∀ i ∈ b.ops, DividesInPlace i := fun b hb i hi =>
  (settled_of_lower h b hb i hi).divides

end Backend.Lowering
