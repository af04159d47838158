-- The stack in lowered code, followed through pushes, pops and what is added to the stack pointer:
-- the lines that leave it alone, and the instructions that push what they preserve and pop it
-- again.
import Backend.Proofs.Lowering.Division
import Backend.Proofs.Lowering.Passing
import Backend.Proofs.Lowering.ScratchRoom

namespace Backend.Lowering

/-! ## Following the stack -/

/-- What lowered code has put on the stack: a pushed operand, or bytes that are left free. -/
inductive StackItem
  | word (o : Operand)
  | room (bytes : Nat)

def StackItem.bytes : StackItem → Nat
  | .word _ => 8
  | .room n => n

/-- How far the stack pointer has come down. -/
def depth (stack : List StackItem) : Nat := (stack.map StackItem.bytes).sum

/-- Takes bytes off the stack, as whole items. -/
def release? : List StackItem → Nat → Option (List StackItem)
  | stack, 0 => some stack
  | [], _ + 1 => none
  | x :: rest, n + 1 => if x.bytes ≤ n + 1 then release? rest (n + 1 - x.bytes) else none

/-- The number of bytes that a literal stands for. -/
def byteCount? : Option Operand → Option Nat
  | some (.imm l) => (l.int?.filter fun v => 0 ≤ v).map fun v => v.toInt.toNat
  | _ => none

/-- A pop has to give a register the word that was pushed from it. -/
def popInto? : Option Operand → List StackItem → Option (List StackItem)
  | some (.reg r), .word (.reg r') :: rest => if r' = r then some rest else none
  | _, _ => none

/-- The line writes the stack pointer. -/
def definesRsp (locs : Locations) (i : Instr) : Bool :=
  i.defs.any fun o => regKey? locs o == some regRsp.key

/-- The stack after a line. A call leaves it as it was. Another way to write the stack pointer than
to push, to pop and to add bytes to it or subtract them is not followed. -/
def follow? (locs : Locations) (i : Instr) (stack : List StackItem) : Option (List StackItem) :=
  if i.op = .push then i.first.map fun o => .word o :: stack
  else if i.op = .pop then popInto? i.output stack
  else if definesRsp locs i = false then some stack
  else if i.first.bind (regKey? locs) ≠ some regRsp.key then none
  else if i.op = .sub then (byteCount? i.second).map fun n => .room n :: stack
  else if i.op = .add then (byteCount? i.second).bind (release? stack)
  else none

/-- The stack after some lines. -/
def stackAfter? (locs : Locations) : List Instr → List StackItem → Option (List StackItem)
  | [], stack => some stack
  | i :: rest, stack => (follow? locs i stack).bind (stackAfter? locs rest)

@[simp]
theorem depth_nil : depth [] = 0 := rfl

@[simp]
theorem depth_append (s t : List StackItem) : depth (s ++ t) = depth s + depth t := by
  simp [depth]

@[simp]
theorem depth_cons (x : StackItem) (s : List StackItem) : depth (x :: s) = x.bytes + depth s := by
  simp [depth]

theorem depth_words (os : List Operand) : depth (os.map .word) = 8 * os.length := by
  induction os with
  | nil => rfl
  | cons o os ih =>
    rw [List.map_cons, depth_cons, ih, List.length_cons, StackItem.bytes]
    omega

/-- All that was put on a stack can be taken off it at once. -/
theorem release?_append {s : List StackItem} (h : ∀ x ∈ s, 0 < x.bytes) (t : List StackItem) :
    release? (s ++ t) (depth s) = some t := by
  induction s with
  | nil => cases t <;> rfl
  | cons x s ih =>
    obtain ⟨hx, hs⟩ := List.forall_mem_cons.mp h
    obtain ⟨n, hn⟩ := Nat.exists_eq_add_one_of_ne_zero (show x.bytes + depth s ≠ 0 by omega)
    rw [depth_cons, List.cons_append, hn, release?, if_pos (by omega),
      show n + 1 - x.bytes = depth s by omega]
    exact ih hs

/-! ## Lines that leave the stack alone -/

/-- The line neither pushes, pops nor writes the stack pointer, and is no call. -/
structure Quiet (locs : Locations) (i : Instr) : Prop where
  push : i.op ≠ .push
  pop : i.op ≠ .pop
  call : i.op.isCall = false
  defs : definesRsp locs i = false

/-- The line does not jump either. -/
structure Inner (locs : Locations) (i : Instr) : Prop extends Quiet locs i where
  jump : i.op.isBranch = false

section Follow

variable {locs : Locations} {i : Instr} {xs ys : List Instr} {s : List StackItem}

theorem stackAfter?_append (xs ys : List Instr) (s : List StackItem) :
    stackAfter? locs (xs ++ ys) s = (stackAfter? locs xs s).bind (stackAfter? locs ys) := by
  induction xs generalizing s with
  | nil => rfl
  | cons i rest ih =>
    rw [List.cons_append, stackAfter?, stackAfter?, Option.bind_assoc]
    exact congrArg _ (funext fun s1 => ih s1)

theorem stackAfter?_singleton (i : Instr) (s : List StackItem) :
    stackAfter? locs [i] s = follow? locs i s := by
  simp [stackAfter?]

theorem follow?_of_defs (hpush : i.op ≠ .push) (hpop : i.op ≠ .pop)
    (hdefs : definesRsp locs i = false) :
    follow? locs i s = some s := by
  rw [follow?, if_neg hpush, if_neg hpop, if_pos hdefs]

theorem stackAfter?_quiet (h : ∀ i ∈ xs, Quiet locs i) (s : List StackItem) :
    stackAfter? locs xs s = some s := by
  induction xs with
  | nil => rfl
  | cons i rest ih =>
    obtain ⟨hi, hrest⟩ := List.forall_mem_cons.mp h
    rw [stackAfter?, follow?_of_defs hi.push hi.pop hi.defs]
    exact ih hrest

/-- Words that are pushed and popped in the opposite order are matched. -/
theorem stackAfter?_pushes (rs : List Reg) (pos : Position) (s : List StackItem) :
    stackAfter? locs (rs.map fun r => ⟨.push, some (.reg r), none, none, none, pos⟩) s =
      some ((rs.reverse.map fun r => .word (.reg r)) ++ s) := by
  induction rs generalizing s with
  | nil => rfl
  | cons r rs ih =>
    rw [List.map_cons, stackAfter?, follow?, if_pos rfl, Option.map_some, Option.bind_some, ih]
    simp

theorem stackAfter?_pops (rs : List Reg) (pos : Position) (s : List StackItem) :
    stackAfter? locs (rs.map fun r => ⟨.pop, none, none, none, some (.reg r), pos⟩)
      ((rs.map fun r => .word (.reg r)) ++ s) = some s := by
  induction rs with
  | nil => rfl
  | cons r rs ih =>
    rw [List.map_cons, stackAfter?, follow?, if_neg (by simp), if_pos rfl, List.map_cons,
      List.cons_append]
    simpa [popInto?] using ih

/-- The line that moves the stack pointer by a number of bytes. -/
def adjustLine (op : Opcode) (bytes : Int64) (pos : Position) : Instr :=
  ⟨op, some (.reg regRsp), some (.imm (.ofInt .i64 bytes)), none, some (.reg regRsp), pos⟩

theorem byteCount?_of_nonneg {bytes : Int64} (h : 0 ≤ bytes) :
    byteCount? (some (.imm (.ofInt .i64 bytes))) = some bytes.toInt.toNat := by
  change ((some bytes).filter _).map _ = _
  rw [Option.filter_some, if_pos (by simpa using h)]
  rfl

theorem follow?_sub {bytes : Int64} (h : 0 ≤ bytes) (pos : Position) (s : List StackItem) :
    follow? locs (adjustLine .sub bytes pos) s = some (.room bytes.toInt.toNat :: s) := by
  have hdefs : definesRsp locs (adjustLine .sub bytes pos) = true := rfl
  have hfirst : (adjustLine .sub bytes pos).first.bind (regKey? locs) = some regRsp.key := rfl
  rw [follow?, if_neg (by simp [adjustLine]), if_neg (by simp [adjustLine]), hdefs,
    if_neg (by simp), if_neg (by simp [hfirst]), if_pos (by rfl)]
  exact congrArg (Option.map _) (byteCount?_of_nonneg h)

theorem follow?_add {bytes : Int64} (h : 0 ≤ bytes) (pos : Position) (s : List StackItem) :
    follow? locs (adjustLine .add bytes pos) s = release? s bytes.toInt.toNat := by
  have hdefs : definesRsp locs (adjustLine .add bytes pos) = true := rfl
  have hfirst : (adjustLine .add bytes pos).first.bind (regKey? locs) = some regRsp.key := rfl
  rw [follow?, if_neg (by simp [adjustLine]), if_neg (by simp [adjustLine]), hdefs,
    if_neg (by simp), if_neg (by simp [hfirst]), if_neg (by simp [adjustLine]), if_pos (by rfl)]
  exact congrArg (Option.bind · (release? s)) (byteCount?_of_nonneg h)

theorem nonneg_ofNat {n : Nat} (h : n < 2 ^ 63) :
    0 ≤ Int64.ofNat n ∧ (Int64.ofNat n).toInt.toNat = n := by
  have hn : (Int64.ofNat n).toInt = n := Int64.toInt_ofNat_of_lt h
  refine ⟨?_, by simp [hn]⟩
  rw [Int64.le_iff_toInt_le, hn]
  exact Int.natCast_nonneg n

/-! ## Which lines write the stack pointer -/

/-- The output is in the stack pointer, or one of its items is. -/
def namesRsp (locs : Locations) : Option Operand → Bool
  | none => false
  | some (.list items) => items.any fun o => regKey? locs o == some regRsp.key
  | some o => regKey? locs o == some regRsp.key

theorem definesRsp_eq (locs : Locations) (i : Instr) :
    definesRsp locs i = (!(i.op.isBranch || i.op == .label) && namesRsp locs i.output) := by
  unfold definesRsp Instr.defs
  cases i.op.isBranch || i.op == .label with
  | true => rfl
  | false =>
    cases i.output with
    | none => rfl
    | some o => cases o <;> simp [namesRsp]

theorem Made.namesRsp {o : Operand} (h : Made o) : namesRsp locs (some o) = false := by
  cases h with
  | _ => rfl

theorem Draft.Keeps.definesRsp {d d' : Draft} (h : d.Keeps d')
    (hd : definesRsp locs d.instr = false) :
    definesRsp locs d'.instr = false := by
  rw [definesRsp_eq, h.op]
  rw [definesRsp_eq] at hd
  rcases h.output with hsame | ⟨o, ho, hmade⟩
  · rw [hsame]
    exact hd
  · rw [ho, hmade.namesRsp, Bool.and_false]

theorem Spares.inner (h : Spares regRsp.key i) : Inner locs i := by
  have hnames : namesRsp locs i.output = false := by
    rcases h.output with ⟨offset, t, ho⟩ | ⟨r, ho, hr⟩ <;> rw [ho]
    · rfl
    · exact beq_eq_false_iff_ne.mpr (by simpa [regKey?] using hr)
  have hdefs : definesRsp locs i = false := by rw [definesRsp_eq, hnames, Bool.and_false]
  rcases h.op with hop | hop | hop | hop | hop <;>
    exact ⟨⟨by simp [hop], by simp [hop], by simp [hop, Opcode.isCall], hdefs⟩,
      by simp [hop, Opcode.isBranch, Opcode.isCondBranch]⟩

theorem Scratchwork.inner (h : Scratchwork i) : Inner locs i := (h.spares (by decide)).inner

theorem StoreLine.inner {output : Option Operand} (h : StoreLine output i)
    (hout : namesRsp locs output = false) : Inner locs i := by
  obtain ⟨hop, ho⟩ := h
  have hnames : namesRsp locs i.output = false := by
    rcases ho with ho | ⟨o, ho, hmade⟩ <;> rw [ho]
    · exact hout
    · exact hmade.namesRsp
  have hdefs : definesRsp locs i = false := by rw [definesRsp_eq, hnames, Bool.and_false]
  exact ⟨⟨by simp [hop], by simp [hop], by simp [hop, Opcode.isCall], hdefs⟩,
    by simp [hop, Opcode.isBranch, Opcode.isCondBranch]⟩

end Follow

/-! ## Instructions that leave the stack alone -/

section Drafts

variable {locs : Locations} {cx : Context} {i : Instr}

theorem Quiet.keeps {d : Draft} (hi : Quiet locs i) (h : (Draft.of i).Keeps d) :
    Quiet locs d.instr := by
  have hop : d.instr.op = i.op := h.op
  exact ⟨by rw [hop]; exact hi.push, by rw [hop]; exact hi.pop, by rw [hop]; exact hi.call,
    h.definesRsp hi.defs⟩

theorem appends_intImmediateIntoTemp (slot : Slot) (d : Draft) :
    Appends Scratchwork (intImmediateIntoTemp cx slot d) d.Keeps := by
  unfold intImmediateIntoTemp
  split
  · split
    · exact appends_intoTemp cx slot d
    · exact appends_pure (.refl d)
  · exact appends_pure (.refl d)

theorem appends_loadFactor (i : Instr) (d : Draft) :
    Appends Scratchwork (loadFactor cx i d) d.Keeps := by
  unfold loadFactor
  dsimp only
  split
  · exact appends_intImmediateIntoTemp .first d
  · refine appends_bind appends_get fun st _ => ?_
    split
    · exact appends_intoTemp cx .second d
    · exact appends_pure (.refl d)

theorem appends_genericDraft (i : Instr) :
    Appends Scratchwork (genericDraft cx i) (Draft.of i).Keeps := by
  unfold genericDraft
  refine appends_bind (appends_source cx .first _ _) fun d1 h1 => ?_
  refine appends_bind (appends_source cx .second true d1) fun d2 h2 => ?_
  refine appends_bind (appends_source cx .addend true d2) fun d3 h3 => ?_
  refine appends_bind (appends_loadFactor i d3) fun d4 h4 => ?_
  refine (appends_dest cx .output d4).mono (fun _ h => h) fun d5 h5 => ?_
  exact (((h1.trans h2).trans h3).trans h4).trans h5

theorem appends_compareDraft (i : Instr) :
    Appends Scratchwork (compareDraft cx i) (Draft.of i).Keeps := by
  unfold compareDraft
  refine appends_bind (appends_source cx .first _ _) fun d1 h1 => ?_
  refine appends_bind (appends_source cx .second true d1) fun d2 h2 => ?_
  refine appends_bind (appends_intImmediateIntoTemp .first d2) fun d3 h3 => ?_
  have hall := (h1.trans h2).trans h3
  split
  · exact (appends_dest cx .output d3).mono (fun _ h => h) fun d4 h4 => hall.trans h4
  · exact appends_pure hall

/-- A move becomes a move or, for a string, an address computation. -/
theorem appends_moveStart (hop : i.op = .move) (hout : namesRsp locs i.output = false) :
    Appends Scratchwork (moveStart cx i) fun d => ∃ j, Quiet locs j ∧ (Draft.of j).Keeps d := by
  have hself : Quiet locs i := by
    refine ⟨by simp [hop], by simp [hop], by simp [hop, Opcode.isCall], ?_⟩
    rw [definesRsp_eq, hout, Bool.and_false]
  have hpure : Appends Scratchwork (pure (Draft.of i) : LowerM Draft) fun d =>
      ∃ j, Quiet locs j ∧ (Draft.of j).Keeps d := appends_pure ⟨i, hself, .refl _⟩
  unfold moveStart
  split
  · split
    · refine appends_bind (appends_materialize _) fun y _ =>
        appends_pure ⟨_, ⟨?_, ?_, ?_, ?_⟩, .refl _⟩
      · simp
      · simp
      · rfl
      · rw [definesRsp_eq, hout, Bool.and_false]
    · split
      · exact hpure
      · have hload : ∀ direct : Bool, Appends Scratchwork
            (if direct then pure (Draft.of i) else intoTemp cx .first (.of i)) fun d =>
              ∃ j, Quiet locs j ∧ (Draft.of j).Keeps d := by
          intro direct
          split
          · exact hpure
          · exact (appends_intoTemp cx .first (.of i)).mono (fun _ h => h) fun d h => ⟨i, hself, h⟩
        dsimp only
        split
        · exact appends_bind (appends_addressable cx (some _)) fun direct _ => hload direct
        · exact hload false
    · exact hpure
  · exact hpure

/-- The line of a draft comes after those that made its operands encodable. -/
theorem quiet_draft {m : LowerM Draft}
    (hm : Appends Scratchwork m fun d => ∃ j, Quiet locs j ∧ (Draft.of j).Keeps d) :
    Appends (Quiet locs) (m >>= fun d => keep d.instr) fun _ => True := by
  refine appends_bind (hm.mono (fun _ h => h.inner.toQuiet) fun _ h => h) fun d hd => ?_
  obtain ⟨j, hj, hkeeps⟩ := hd
  exact appends_keep (hj.keeps hkeeps)

theorem appends_generic {P : Instr → Prop} (hwork : ∀ j, Scratchwork j → P j)
    (hline : ∀ d, (Draft.of i).Keeps d → P d.instr) : Appends P (generic cx i) fun _ => True := by
  rw [generic_eq]
  exact appends_bind ((appends_genericDraft i).mono hwork fun _ h => h) fun d h =>
    appends_keep (hline d h)

theorem quiet_generic (hi : Quiet locs i) : Appends (Quiet locs) (generic cx i) fun _ => True :=
  appends_generic (fun _ h => h.inner.toQuiet) fun _ h => hi.keeps h

theorem quiet_compare (hi : Quiet locs i) : Appends (Quiet locs) (compare cx i) fun _ => True := by
  have hswapped : Quiet locs (literalSecond i) := by
    unfold literalSecond
    split
    · have hop : i.op.swapped ≠ .push ∧ i.op.swapped ≠ .pop ∧ i.op.swapped.isCall = false ∧
          (i.op.swapped.isBranch || i.op.swapped == .label) =
          (i.op.isBranch || i.op == .label) := by
        have h1 := hi.push
        have h2 := hi.pop
        have h3 := hi.call
        revert h1 h2 h3
        cases i.op <;> decide
      refine ⟨hop.1, hop.2.1, hop.2.2.1, ?_⟩
      have hdefs := hi.defs
      rw [definesRsp_eq] at hdefs ⊢
      rw [hop.2.2.2]
      exact hdefs
    · exact hi
  rw [compare_eq]
  exact quiet_draft ((appends_compareDraft _).mono (fun _ h => h) fun d h => ⟨_, hswapped, h⟩)

theorem quiet_move (hop : i.op = .move) (hout : namesRsp locs i.output = false) :
    Appends (Quiet locs) (move cx i) fun _ => True := by
  rw [move_eq]
  refine quiet_draft ?_
  unfold moveDraft
  refine appends_bind (appends_moveStart hop hout) fun d1 h1 => ?_
  obtain ⟨j, hj, hkeeps⟩ := h1
  refine appends_bind (appends_source cx .first false d1) fun d2 h2 => ?_
  exact (appends_dest cx .output d2).mono (fun _ h => h) fun d3 h3 =>
    ⟨j, hj, (hkeeps.trans h2).trans h3⟩

theorem namesRsp_returnReg (t : Ty) : namesRsp locs (some (.reg (returnReg t))) = false := by
  refine beq_eq_false_iff_ne.mpr fun h => ?_
  have hkey : (returnReg t).key = regRsp.key := Option.some.inj h
  rw [returnReg, key_regFor, show regRsp.key = 4 from rfl] at hkey
  split at hkey <;> cases hkey

theorem quiet_ret (i : Instr) : Appends (Quiet locs) (ret cx i) fun _ => True := by
  have hret : ∀ o, Appends (Quiet locs) (emit cx .ret o none none) fun _ => True := fun o =>
    appends_keep ⟨by simp, by simp, rfl, by simp [definesRsp_eq, namesRsp]⟩
  unfold ret
  split
  · exact hret none
  · exact appends_bind (quiet_move rfl (namesRsp_returnReg _)) fun _ _ => hret _

end Drafts

/-! ## Instructions that push and pop -/

/-- When the step ends, the lines that it appended take the stack from one to another. None of them
jumps or calls, the frame stays, and the result satisfies `Q`. -/
def Takes {α : Type} (locs : Locations) (start stop : List StackItem) (m : LowerM α)
    (Q : α → Prop) : Prop :=
  ∀ s a s', m s = .ok (a, s') →
    (∃ code, s'.out = s.out ++ code ∧ (∀ i ∈ code, i.op.isBranch = false ∧ i.op.isCall = false) ∧
      stackAfter? locs code start = some stop) ∧ SameFrame s.closure s'.closure ∧ Q a

section Takes

variable {α β : Type} {locs : Locations} {start middle stop : List StackItem} {Q : α → Prop}
  {R : β → Prop}

theorem takes_pure {a : α} (h : Q a) : Takes locs start start (pure a) Q := by
  intro s b s' hs
  cases hs
  exact ⟨⟨[], by simp, by simp, rfl⟩, .refl _, h⟩

theorem takes_bind {m : LowerM α} {f : α → LowerM β} (hm : Takes locs start middle m Q)
    (hf : ∀ a, Q a → Takes locs middle stop (f a) R) : Takes locs start stop (m >>= f) R := by
  intro s b s' hs
  obtain ⟨a, s1, h1, h2⟩ := run_bind.mp hs
  obtain ⟨⟨code, hcode, hops, hstack⟩, hsame, ha⟩ := hm s a s1 h1
  obtain ⟨⟨code', hcode', hops', hstack'⟩, hsame', hb⟩ := hf a ha s1 b s' h2
  refine ⟨⟨code ++ code', by rw [hcode', hcode, List.append_assoc], fun i hi => ?_, ?_⟩,
    hsame.trans hsame', hb⟩
  · exact (List.mem_append.mp hi).elim (hops i) (hops' i)
  · rw [stackAfter?_append, hstack]
    exact hstack'

theorem Takes.mono {m : LowerM α} {Q' : α → Prop} (h : Takes locs start stop m Q)
    (hq : ∀ a, Q a → Q' a) :
    Takes locs start stop m Q' := by
  intro s a s' hs
  obtain ⟨hcode, hsame, ha⟩ := h s a s' hs
  exact ⟨hcode, hsame, hq a ha⟩

theorem takes_get : Takes locs start start get fun _ => True := by
  intro s a s' hs
  cases hs
  exact ⟨⟨[], by simp, by simp, rfl⟩, .refl _, trivial⟩

theorem takes_of_appends {m : LowerM α} (h : Appends (Inner locs) m Q) (start : List StackItem) :
    Takes locs start start m Q := by
  intro s a s' hs
  obtain ⟨⟨code, hcode, hinner⟩, hsame, ha⟩ := h s a s' hs
  exact ⟨⟨code, hcode, fun i hi => ⟨(hinner i hi).jump, (hinner i hi).call⟩,
    stackAfter?_quiet (fun i hi => (hinner i hi).toQuiet) start⟩, hsame, ha⟩

theorem takes_emit {cx : Context} {op : Opcode} {first second output : Option Operand}
    (hop : op.isBranch = false ∧ op.isCall = false)
    (h : follow? locs ⟨op, first, second, none, output, cx.instr.pos⟩ start = some stop) :
    Takes locs start stop (emit cx op first second output) fun _ => True := by
  intro s a s' hs
  cases hs
  refine ⟨⟨_, rfl, by simpa using hop, ?_⟩, .refl _, trivial⟩
  rw [stackAfter?_singleton]
  exact h

theorem takes_pushes (cx : Context) (rs : List Reg) (start : List StackItem) :
    Takes locs start ((rs.reverse.map fun r => .word (.reg r)) ++ start)
      (each (fun r => emit cx .push (some (.reg r)) none none) rs) fun _ => True := by
  intro s a s' hs
  rw [each_emit cx .push (fun r => some (.reg r)) (fun _ => none) fun _ => none] at hs
  cases hs
  refine ⟨⟨_, rfl, fun i hi => ?_, stackAfter?_pushes rs cx.instr.pos start⟩, .refl _, trivial⟩
  obtain ⟨r, -, rfl⟩ := List.mem_map.mp hi
  exact ⟨rfl, rfl⟩

theorem takes_pops (cx : Context) (rs : List Reg) (stop : List StackItem) :
    Takes locs ((rs.map fun r => .word (.reg r)) ++ stop) stop
      (each (fun r => emit cx .pop none none (some (.reg r))) rs) fun _ => True := by
  intro s a s' hs
  rw [each_emit cx .pop (fun _ => none) (fun _ => none) fun r => some (.reg r)] at hs
  cases hs
  refine ⟨⟨_, rfl, fun i hi => ?_, stackAfter?_pops rs cx.instr.pos stop⟩, .refl _, trivial⟩
  obtain ⟨r, -, rfl⟩ := List.mem_map.mp hi
  exact ⟨rfl, rfl⟩

theorem takes_join {c : Prop} [Decidable c] {m1 m2 : LowerM α} {f : α → LowerM β}
    (h1 : Takes locs start middle m1 Q) (h2 : Takes locs start middle m2 Q)
    (hf : ∀ a, Q a → Takes locs middle stop (f a) R) :
    Takes locs start stop (if c then m1 >>= f else m2 >>= f) R := by
  split
  · exact takes_bind h1 hf
  · exact takes_bind h2 hf

end Takes

section Saving

variable {locs : Locations} {cx : Context}

theorem takes_source (slot : Slot) (narrow : Bool) (d : Draft) (start : List StackItem) :
    Takes locs start start (source cx slot narrow d) d.Keeps :=
  takes_of_appends ((appends_source cx slot narrow d).mono (fun _ h => h.inner) fun _ h => h) start

theorem takes_spill (d : Draft) (start : List StackItem) :
    Takes locs start start (spill cx d) d.Keeps :=
  takes_of_appends ((appends_spill cx d).mono (fun _ h => h.inner) fun _ h => h) start

theorem takes_dest (slot : Slot) (d : Draft) (start : List StackItem) :
    Takes locs start start (dest cx slot d) d.Keeps :=
  takes_of_appends ((appends_dest cx slot d).mono (fun _ h => h.inner) fun _ h => h) start

theorem takes_store (value : Reg) {output : Option Operand} (h : namesRsp locs output = false)
    (start : List StackItem) : Takes locs start start (store cx value output) fun _ => True := by
  refine takes_of_appends ((appends_store value output).mono (fun i hi => ?_) fun _ h => h) start
  exact hi.elim (fun h => h.inner) fun hs => hs.inner h

/-- A line that computes into a register other than the stack pointer. -/
theorem takes_compute {op : Opcode} {first second : Option Operand} {r : Reg}
    (hop : op.isBranch = false ∧ op.isCall = false ∧ op ≠ .push ∧ op ≠ .pop)
    (hr : r.is regRsp = false)
    (start : List StackItem) :
    Takes locs start start (emit cx op first second (some (.reg r))) fun _ => True := by
  refine takes_emit ⟨hop.1, hop.2.1⟩ (follow?_of_defs hop.2.2.1 hop.2.2.2 ?_)
  have hnames : namesRsp locs (some (.reg r)) = false := hr
  rw [definesRsp_eq, hnames, Bool.and_false]

theorem namesRsp_of_keeps {i : Instr} {d : Draft} (h : (Draft.of i).Keeps d)
    (hi : namesRsp locs i.output = false) : namesRsp locs d.instr.output = false := by
  rcases h.output with hsame | ⟨o, ho, hmade⟩
  · rw [hsame]
    exact hi
  · rw [ho]
    exact hmade.namesRsp

/-- A division pushes what it works in if variables live there, and pops it. -/
theorem takes_divide (hop : isDivision cx.instr.op = true)
    (hout : namesRsp locs cx.instr.output = false) (start : List StackItem) :
    Takes locs start start (divide cx cx.instr) fun _ => True := by
  unfold divide
  refine takes_bind (takes_source .first false _ start) fun d1 h1 => ?_
  refine takes_bind (takes_source .second false d1 start) fun d2 h2 => ?_
  have hkept := h1.trans h2
  refine takes_join (Q := (Draft.of cx.instr).Keeps)
    ((takes_spill d2 start).mono fun d h => hkept.trans h) (takes_pure hkept) fun d hd => ?_
  refine takes_bind takes_get fun st _ => ?_
  dsimp only
  generalize List.filter st.closure.locations.occupies [regRax, regRdx] = saves
  let w := max (opType cx.instr).size 4
  have hdefs : definesRsp locs (lineAt cx.instr cx.instr.op (some (.reg (gpr Machine.rax w)))
      (some (.reg (gpr Machine.r10 w)))
      (some (.list [.reg (gpr Machine.rax w), .reg (gpr Machine.rdx w)]))) =
        false := by
    rw [definesRsp_eq, show namesRsp locs (lineAt cx.instr cx.instr.op _ _ _).output =
      false from rfl, Bool.and_false]
  obtain ⟨hpush, hpop, hbranch, hcall⟩ : cx.instr.op ≠ .push ∧ cx.instr.op ≠ .pop ∧
      cx.instr.op.isBranch = false ∧ cx.instr.op.isCall = false := by
    revert hop
    cases cx.instr.op <;> decide
  refine takes_bind (takes_pushes cx saves start) fun _ _ => ?_
  refine takes_bind (takes_compute (by decide) rfl _) fun _ _ => ?_
  refine takes_bind (takes_compute (by decide) rfl _) fun _ _ => ?_
  refine takes_bind (takes_emit ⟨hbranch, hcall⟩ (follow?_of_defs hpush hpop hdefs)) fun _ _ => ?_
  have hnames := namesRsp_of_keeps hd hout
  cases ho : d.instr.output with
  | none =>
    cases saves with
    | nil => exact takes_pure trivial
    | cons r rs => exact takes_bind (takes_pops cx _ start) fun _ _ => takes_pure trivial
  | some o =>
    rw [ho] at hnames
    cases saves with
    | nil => exact takes_store _ hnames start
    | cons r rs =>
      refine takes_bind (takes_compute (by decide) rfl _) fun _ _ => ?_
      exact takes_bind (takes_pops cx _ start) fun _ _ => takes_store _ hnames start

/-- A shift by a count in a register goes through rcx, which is pushed and popped if a variable is
there. -/
theorem takes_shift (hop : cx.instr.op = .shl ∨ cx.instr.op = .shr ∨ cx.instr.op = .sar)
    (hout : namesRsp locs cx.instr.output = false) (start : List StackItem) :
    Takes locs start start (shift cx cx.instr) fun _ => True := by
  obtain ⟨hpush, hpop, hbranch, hcall⟩ : cx.instr.op ≠ .push ∧ cx.instr.op ≠ .pop ∧
      cx.instr.op.isBranch = false ∧ cx.instr.op.isCall = false := by
    rcases hop with h | h | h <;> rw [h] <;> decide
  have hinner : ∀ {i : Instr}, i.op = cx.instr.op → namesRsp locs i.output = false →
      Inner locs i := by
    intro i hi hnames
    refine ⟨⟨by rw [hi]; exact hpush, by rw [hi]; exact hpop, by rw [hi]; exact hcall, ?_⟩,
      by rw [hi]; exact hbranch⟩
    rw [definesRsp_eq, hnames, Bool.and_false]
  unfold shift
  dsimp only
  split
  · refine takes_of_appends (appends_generic (fun _ h => h.inner) fun d hd => ?_) start
    exact hinner hd.op (namesRsp_of_keeps hd hout)
  refine takes_bind (takes_source .first false _ start) fun d1 h1 => ?_
  refine takes_bind (takes_source .second false d1 start) fun d2 h2 => ?_
  have hkept := h1.trans h2
  have hcount : (regFor Machine.rcx (d2.typeAt .second)).is regRsp = false := by
    unfold regFor
    split <;> rfl
  refine takes_bind takes_get fun st _ => ?_
  split
  · refine takes_bind (takes_dest .output d2 start) fun d3 h3 => ?_
    refine takes_bind (takes_compute (by decide) hcount start) fun _ _ => ?_
    have hd := hkept.trans h3
    have hnames : namesRsp locs d3.instr.output = false := namesRsp_of_keeps hd hout
    have hline : Inner locs (d3.put .second (.reg (gpr Machine.rcx 1))).instr := hinner hd.op hnames
    exact takes_of_appends (appends_keep hline) start
  · refine takes_join (Q := (Draft.of cx.instr).Keeps)
      ((takes_spill d2 start).mono fun d h => hkept.trans h) (takes_pure hkept) fun d hd => ?_
    have hpushed : follow? locs (lineAt cx.instr .push (some (.reg regRcx)) none none) start =
        some (.word (.reg regRcx) :: start) := rfl
    have hpopped : follow? locs (lineAt cx.instr .pop none none (some (.reg regRcx)))
        (.word (.reg regRcx) :: start) = some start := by
      simp [follow?, lineAt, popInto?]
    refine takes_bind (takes_compute (by decide) rfl start) fun _ _ => ?_
    refine takes_bind (takes_emit (by decide) hpushed) fun _ _ => ?_
    refine takes_bind (takes_compute (by decide) hcount _) fun _ _ => ?_
    refine takes_bind (takes_compute ⟨hbranch, hcall, hpush, hpop⟩ rfl _) fun _ _ => ?_
    refine takes_bind (takes_emit (by decide) hpopped) fun _ _ => ?_
    exact takes_store _ (namesRsp_of_keeps hd hout) start

end Saving

end Backend.Lowering
