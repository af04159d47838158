-- Calls on the stack. The code of a call leaves the stack as it found it, and at the call itself
-- its stack arguments are on top of it: so many words, with the values that the arguments had
-- before the first line of the code.
import Backend.Proofs.Lowering.PushedArgs
import Backend.Proofs.Lowering.StackEffects

namespace Backend.Lowering

/-! ## What a call needs -/

/-- The bytes that pad the arguments of a call. -/
def paddingItems (st : ArgState) : List StackItem :=
  if argPadding st > 0 then [.room (argPadding st)] else []

/-- What a call needs on the stack: the words of its stack arguments, the first one on top, over the
padding. -/
def argItems (st : ArgState) (words : List Operand) : List StackItem :=
  words.map .word ++ paddingItems st

/-- A word for each stack argument of a call, over their padding, is what was put on a stack. -/
def ArgsOnTop (i : Instr) (below stack : List StackItem) : Prop :=
  ∃ words : List Operand, words.length = (argState i).stack.length ∧
    stack = argItems (argState i) words ++ below

/-- The lines before a call can be run from every state. A run of them takes the stack pointer down
by what the call needs, and leaves its stack arguments from there on, the first one lowest: each of
them, if it can be taken while they are pushed, as it was before the run. -/
structure PutsArgs (e : Scene) (cx : Context) (lines : List Instr) : Prop where
  runs : ∀ s, ∃ s', LineRun e lines s s'
  rsp : ∀ s s', LineRun e lines s s' →
    s'.regs Machine.rsp = roomBelow s (argRoom (argState cx.instr))
  words : ∀ s s', LineRun e lines s s' → ∀ (k : Nat) (a : Operand) (d : Datum),
    (argState cx.instr).stack[k]? = some a → e.datum? s a = some d →
      Takeable e cx s (argRoom (argState cx.instr)) a →
      Carries s' (.mem (s'.regs Machine.rsp + BitVec.ofNat 64 (8 * k))) a.ty d

/-- The code of an instruction leaves the stack as it found it, also where it jumps, and pops what
it pushed. That of a call calls, with its arguments on the stack in every scene of the closure in
which it is lowered. -/
structure Balanced (locs : Locations) (cx : Context) (c : Closure) (code : List Instr) : Prop where
  net : ∀ s, stackAfter? locs code s = some s
  jumps : ∀ before j after, code = before ++ j :: after → j.op.isBranch = true →
    ∀ s, stackAfter? locs before s = some s
  called : cx.instr.op.isCall = true →
    ∃ before j after, code = before ++ j :: after ∧ j.op = cx.instr.op
  calls : ∀ before j after, code = before ++ j :: after → j.op.isCall = true →
    (∀ s, ∃ s', stackAfter? locs before s = some s' ∧ ArgsOnTop cx.instr s s') ∧
      ∀ e : Scene, e.locs = c.locations → e.Places c → PutsArgs e cx before

/-- When the step ends, it has appended balanced code for the instruction and left the frame as it
was. -/
def Balances (locs : Locations) (cx : Context) (m : LowerM Unit) : Prop :=
  ∀ s s', m s = .ok ((), s') → SameFrame s.closure s'.closure ∧
    ∃ code, s'.out = s.out ++ code ∧ Balanced locs cx s'.closure code

section Call

variable {locs : Locations} {cx : Context} {c : Closure} {s s' : State} {code : List Instr}

theorem balanced_of_quiet (hcall : cx.instr.op.isCall = false) (h : ∀ j ∈ code, Quiet locs j) :
    Balanced locs cx c code where
  net := stackAfter?_quiet h
  jumps before j after hcode _ := stackAfter?_quiet fun k hk => h k (by simp [hcode, hk])
  called hop := by
    rw [hcall] at hop
    cases hop
  calls before j after hcode hj := by
    rw [(h j (by simp [hcode])).call] at hj
    cases hj

theorem balances_of_takes {m : LowerM Unit} (hcall : cx.instr.op.isCall = false)
    (h : ∀ start, Takes locs start start m fun _ => True) : Balances locs cx m := by
  intro s s' hok
  obtain ⟨⟨code, hcode, hops, -⟩, hsame, -⟩ := h [] s () s' hok
  have hnone : ∀ before j after, code = before ++ j :: after → j.op.isBranch = false ∧
      j.op.isCall = false :=
    fun before j after heq => hops j (by simp [heq])
  refine ⟨hsame, code, hcode, fun start => ?_, fun before j after heq hj => ?_, fun hop => ?_,
    fun before j after heq hj => ?_⟩
  · obtain ⟨⟨code', hcode', -, hstack⟩, -, -⟩ := h start s () s' hok
    rw [List.append_cancel_left (hcode.symm.trans hcode')]
    exact hstack
  · rw [(hnone before j after heq).1] at hj
    cases hj
  · rw [hcall] at hop
    cases hop
  · rw [(hnone before j after heq).2] at hj
    cases hj

/-- The code that pushes some operands puts a word for each of them on a stack. -/
theorem pushes_stack (locs : Locations) {args : List Operand} {u : PUnit}
    (h : each (pushArg cx) args.reverse s = .ok (u, s')) : SameFrame s.closure s'.closure ∧
      ∃ (code : List Instr) (words : List Operand), s'.out = s.out ++ code ∧
        words.length = args.length ∧
        (∀ j ∈ code, j.op.isBranch = false ∧ j.op.isCall = false) ∧
        ∀ start, stackAfter? locs code start = some (words.map .word ++ start) := by
  induction args generalizing s' with
  | nil =>
    cases h
    exact ⟨.refl _, [], [], by simp, rfl, by simp, fun _ => rfl⟩
  | cons a args ih =>
    rw [List.reverse_cons] at h
    obtain ⟨s1, h1, h2⟩ := each_append h
    obtain ⟨s2, h2, h3⟩ := each_cons h2
    cases h3
    obtain ⟨hsame, code, words, hcode, hlength, hops, hstack⟩ := ih h1
    obtain ⟨hsame', pre, o, hlast, hwork⟩ := (argPushed_of_pushArg h2).code
    have hinner : ∀ j ∈ pre, Inner locs j := fun j hj => ((hwork j hj).spares (by decide)).inner
    refine ⟨hsame.trans hsame', code ++ (pre ++ [⟨.push, some o, none, none, none, cx.instr.pos⟩]),
      o :: words, by rw [hlast, hcode, List.append_assoc], by simp [hlength], fun j hj => ?_,
      fun start => ?_⟩
    · rcases List.mem_append.mp hj with hj | hj
      · exact hops j hj
      · rcases List.mem_append.mp hj with hj | hj
        · exact ⟨(hinner j hj).jump, (hinner j hj).call⟩
        · rw [List.mem_singleton.mp hj]
          exact ⟨rfl, rfl⟩
    · rw [stackAfter?_append, hstack, Option.bind_some, stackAfter?_append,
        stackAfter?_quiet fun j hj => (hinner j hj).toQuiet]
      rfl

/-- A list has one place with a property if nothing before or after it has that. -/
theorem before_unique {α : Type} {p : α → Prop} {xs ys xs' ys' : List α} {x x' : α}
    (h : xs ++ x :: ys = xs' ++ x' :: ys') (hxs : ∀ y ∈ xs, ¬ p y) (hys : ∀ y ∈ ys, ¬ p y)
    (hx : p x') :
    xs' = xs := by
  rcases List.append_eq_append_iff.mp h with ⟨zs, rfl, hrest⟩ | ⟨zs, rfl, hrest⟩
  · cases zs with
    | nil => simp
    | cons z zs =>
      obtain ⟨rfl, rfl⟩ := List.cons_eq_cons.mp hrest
      exact absurd hx (hys x' (by simp))
  · cases zs with
    | nil => simp
    | cons z zs =>
      obtain ⟨rfl, -⟩ := List.cons_eq_cons.mp hrest
      exact absurd hx (hxs _ (by simp))

theorem depth_argItems {st : ArgState} {words : List Operand} (h : words.length = st.stack.length) :
    depth (argItems st words) = argRoom st ∧ ∀ x ∈ argItems st words, 0 < x.bytes := by
  unfold argItems paddingItems
  refine ⟨?_, fun x hx => ?_⟩
  · rw [depth_append, depth_words, h, argRoom]
    split
    · simp [StackItem.bytes]
    · simp only [depth_nil]
      omega
  · rcases List.mem_append.mp hx with hx | hx
    · obtain ⟨o, -, rfl⟩ := List.mem_map.mp hx
      exact Nat.succ_pos 7
    · split at hx
      · rename_i hpos
        rw [List.mem_singleton.mp hx]
        exact hpos
      · cases hx

/-- What follows a call takes its arguments and the padding off the stack. -/
theorem takes_afterCall {items : List StackItem} {bytes : Nat} (hbytes : depth items = bytes)
    (hpos : ∀ x ∈ items, 0 < x.bytes) (hfew : bytes < 2 ^ 63)
    (hout : namesRsp locs cx.instr.output = false) (start : List StackItem) :
    Takes locs (items ++ start) start (afterCall cx bytes) fun _ => True := by
  have hstore : Takes locs start start (storeResult cx) fun _ => True := by
    unfold storeResult
    split
    · exact takes_store _ hout start
    · exact takes_pure trivial
  obtain ⟨hnonneg, hcount⟩ := nonneg_ofNat hfew
  unfold afterCall
  dsimp only
  by_cases hb : bytes > 0
  · rw [if_pos hb]
    refine takes_bind (takes_emit ⟨rfl, rfl⟩ ?_) fun _ _ => hstore
    refine (follow?_add hnonneg cx.instr.pos _).trans ?_
    rw [hcount, ← hbytes]
    exact release?_append hpos start
  · rw [if_neg hb]
    have hnil : items = [] := by
      cases items with
      | nil => rfl
      | cons x rest =>
        have hx := hpos x (by simp)
        rw [depth_cons] at hbytes
        omega
    rw [hnil]
    exact hstore

theorem padding_stack (locs : Locations) (st : ArgState) (start : List StackItem) :
    (∀ j ∈ padding cx st, j.op.isBranch = false ∧ j.op.isCall = false) ∧
      stackAfter? locs (padding cx st) start = some (paddingItems st ++ start) := by
  unfold padding paddingItems
  split
  · obtain ⟨hnonneg, hcount⟩ := nonneg_ofNat (show argPadding st < 2 ^ 63 by
      have := (argRoom_spec st).2.1
      omega)
    refine ⟨by simp [Opcode.isBranch, Opcode.isCondBranch, Opcode.isCall], ?_⟩
    rw [stackAfter?_singleton]
    refine (follow?_sub hnonneg cx.instr.pos start).trans ?_
    rw [hcount]
    rfl
  · exact ⟨by simp, rfl⟩

theorem appends_finishCall (args : ArgState) (f : Operand) (bytes : Nat) :
    Appends (fun _ => True) (finishCall cx args f bytes) fun _ => True := by
  have hcount : Appends (fun _ => True) (countFloats cx args.args.floats) fun _ => True :=
    (appends_countFills cx _).mono (fun _ _ => trivial) fun _ h => h
  exact appends_when hcount
    (appends_bind (appends_keep trivial) fun _ _ => appends_afterCall cx bytes)

theorem argRoom_lt {i : Instr} (h : (callArgs i).length < 2 ^ 59) :
    argRoom (argState i) < 2 ^ 63 := by
  have hslots := length_stack_le i
  obtain ⟨-, hpad, hroom⟩ := argRoom_spec (argState i)
  omega

/-- The lines before a call put its arguments on the stack, over their padding. -/
theorem CallRun.stack_before (locs : Locations) {st : ArgState}
    {padded pushed loaded aimed moved : State} {moves : List Move} {f : Operand}
    {count rest : List Instr} {items : List Operand}
    (run : CallRun cx s s' st padded pushed loaded aimed moved moves f count rest)
    (assigned : Assigned items st) : SameFrame s.closure s'.closure ∧
      ∃ (before : List Instr) (words : List Operand), moved.out ++ count = s.out ++ before ∧
        words.length = st.stack.length ∧
        (∀ j ∈ before, j.op.isBranch = false ∧ j.op.isCall = false) ∧
        ∀ start, stackAfter? locs before start = some (argItems st words ++ start) := by
  obtain ⟨hsame1, pushes, words, hpushed, hlength, hpushes, hstack⟩ := pushes_stack locs run.push
  have hplain : ∀ m ∈ st.moves, Plain m ∧ Elsewhere regRsp.key m := by
    intro m hm
    obtain ⟨before, a, after, r, -, hplace, rfl⟩ := assigned.moves m hm
    exact ⟨⟨r, a, rfl⟩, r, rfl, (key_ne_of_mem_argKeys (mem_argKeys hplace)).1⟩
  obtain ⟨hsame2, others, hothers, hspares⟩ := run.spares hplain (by decide)
  have hsame3 := (appends_finishCall _ _ _ _ _ _ run.finish).2.1
  have hstart : padded.closure = s.closure := by rw [run.start]
  have hinner : ∀ j ∈ others, Inner locs j := fun j hj => (hspares j hj).inner
  refine ⟨hstart ▸ (hsame1.trans hsame2).trans hsame3, padding cx st ++ pushes ++ others, words, ?_,
    hlength, fun j hj => ?_, fun start => ?_⟩
  · rw [hothers, hpushed, run.start]
    simp
  · simp only [List.mem_append] at hj
    rcases hj with (hj | hj) | hj
    · exact (padding_stack locs st []).1 j hj
    · exact hpushes j hj
    · exact ⟨(hinner j hj).jump, (hinner j hj).call⟩
  · rw [stackAfter?_append, stackAfter?_append, (padding_stack locs st start).2, Option.bind_some,
      hstack, Option.bind_some, stackAfter?_quiet fun j hj => (hinner j hj).toQuiet, argItems,
      List.append_assoc]

/-- The lines before a call put the values of its arguments on the stack. -/
theorem CallRun.putsArgs {padded pushed loaded aimed moved : State} {moves : List Move}
    {f : Operand} {count rest before : List Instr} {e : Scene}
    (run : CallRun cx s s' (argState cx.instr) padded pushed loaded aimed moved moves f count rest)
    (hfew : (callArgs cx.instr).length < 2 ^ 59) (hbefore : moved.out ++ count = s.out ++ before)
    (hlocs : e.locs = s.closure.locations) (hplaces : e.Places s'.closure) :
    PutsArgs e cx before := by
  have assigned : Assigned (callArgs cx.instr) (argState cx.instr) := assigned_foldl _
  obtain ⟨pre, dests, hpre, hprelim⟩ := run.exists_preliminary assigned hlocs.symm
  obtain rfl := List.append_cancel_left (hbefore.symm.trans hpre)
  refine ⟨exists_lineRun hprelim.runnable, fun m m' hrun => (hprelim.disturbs m m' hrun).rsp, ?_⟩
  intro m m' hrun k a d hk hd htake
  exact run.carries_slot assigned hlocs.symm hplaces ((length_stack_le _).trans_lt hfew) hk hd htake
    hbefore hrun

/-- The call itself leaves the stack alone. -/
theorem follow?_callInstr (locs : Locations) (hop : cx.instr.op.isCall = true) (f : Operand)
    (used : List Operand) (start : List StackItem) :
    (callInstr cx f used).op.isBranch = false ∧
      follow? locs (callInstr cx f used) start = some start := by
  have hne : cx.instr.op.isBranch = false ∧ cx.instr.op ≠ .push ∧ cx.instr.op ≠ .pop := by
    revert hop
    cases cx.instr.op <;> decide
  refine ⟨hne.1, follow?_of_defs hne.2.1 hne.2.2 ?_⟩
  have hnames : namesRsp locs (callInstr cx f used).output = false := by
    change namesRsp locs
      ((cx.instr.output.map fun o => returnReg o.ty).map fun r => .list [.reg r]) = false
    cases cx.instr.output with
    | none => rfl
    | some o => exact (Bool.or_false _).trans (namesRsp_returnReg o.ty)
  rw [definesRsp_eq, hnames, Bool.and_false]

/-- A call is balanced. -/
theorem balances_call (hop : cx.instr.op.isCall = true)
    (hout : namesRsp locs cx.instr.output = false) (hfew : (callArgs cx.instr).length < 2 ^ 59) :
    Balances locs cx (call cx) := by
  intro s s' h
  obtain ⟨padded, pushed, loaded, aimed, moved, moves, f, count, rest, run⟩ := exists_callRun h
  obtain ⟨hsame, before, words, hbefore, hlength, hquiet, hstack⟩ :=
    run.stack_before locs (assigned_foldl (callArgs cx.instr))
  obtain ⟨called, hcalled, hafter⟩ := run.after
  obtain ⟨hdepth, hpos⟩ := depth_argItems hlength
  have htakes (start : List StackItem) :
      Takes locs (argItems (argState cx.instr) words ++ start) start
      (afterCall cx (argRoom (argState cx.instr))) fun _ => True :=
    takes_afterCall hdepth hpos (argRoom_lt hfew) hout start
  obtain ⟨⟨after, hrest, hops, -⟩, -, -⟩ := htakes [] called () s' hafter
  let line := callInstr cx f (usedRegs cx (argState cx.instr) f)
  have hline := follow?_callInstr locs hop f (usedRegs cx (argState cx.instr) f)
  have hcode : s'.out = s.out ++ (before ++ line :: after) := by
    rw [hrest, hcalled, hbefore]
    simp [line]
  have hnocall : ∀ j ∈ before, ¬ j.op.isCall = true := fun j hj => by simp [(hquiet j hj).2]
  have hnocall' : ∀ j ∈ after, ¬ j.op.isCall = true := fun j hj => by simp [(hops j hj).2]
  refine ⟨hsame, before ++ line :: after, hcode, ⟨fun start => ?_, fun xs j ys heq hj => ?_,
    fun _ => ⟨before, line, after, rfl, rfl⟩, fun xs j ys heq hj => ?_⟩⟩
  · obtain ⟨⟨after', hrest', -, hreleased⟩, -, -⟩ := htakes start called () s' hafter
    rw [List.append_cancel_left (hrest.symm.trans hrest'), stackAfter?_append, hstack,
      Option.bind_some, stackAfter?, (hline _).2]
    exact hreleased
  · have hmem : j ∈ before ++ line :: after := by simp [heq]
    have hnone : j.op.isBranch = false := by
      rcases List.mem_append.mp hmem with hmem | hmem
      · exact (hquiet j hmem).1
      · rcases List.mem_cons.mp hmem with rfl | hmem
        · exact (hline []).1
        · exact (hops j hmem).1
    rw [hnone] at hj
    cases hj
  · rw [before_unique (p := fun j : Instr => j.op.isCall = true) heq hnocall hnocall' hj]
    refine ⟨fun start => ⟨_, hstack start, words, hlength, rfl⟩, fun e hlocs hplaces => ?_⟩
    exact run.putsArgs hfew hbefore (hlocs.trans hsame.locations) hplaces

end Call

end Backend.Lowering
