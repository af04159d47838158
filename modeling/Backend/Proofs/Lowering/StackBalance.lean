-- The stack in a lowered function. The start of the function puts its frame on the stack, and the
-- code of every other instruction leaves that as it found it, so that a call finds its arguments on
-- top of it, at a stack pointer that is aligned.
import Backend.Proofs.Lowering.BalancedCalls
import Backend.Proofs.Lowering.Parameters

namespace Backend.Lowering

/-! ## The start of a function -/

/-- The frame is that of another closure, and what was somewhere still is there. No further variable
is in the stack pointer. -/
structure Evolves (c c' : Closure) : Prop where
  frame : c'.frame = c.frame
  rsp : ∀ o, regKey? c'.locations o = some regRsp.key → regKey? c.locations o = some regRsp.key
  placed : KeepsPlaced c.locations c'.locations
  grows : Grows c c'

theorem Evolves.refl (c : Closure) : Evolves c c := ⟨rfl, fun _ h => h, .refl _, .refl c⟩

theorem Evolves.trans {c c1 c2 : Closure} (h : Evolves c c1) (h' : Evolves c1 c2) : Evolves c c2 :=
  ⟨h'.frame.trans h.frame, fun o ho => h.rsp o (h'.rsp o ho), h.placed.trans h'.placed,
    h.grows.trans h'.grows⟩

theorem SameFrame.evolves {c c' : Closure} (h : SameFrame c c') : Evolves c c' where
  frame := h.frame
  rsp o ho := by rwa [h.locations] at ho
  placed := by
    rw [h.locations]
    exact .refl _
  grows := h.grows

/-- A parameter that stays in its place is not in the stack pointer. -/
theorem GivesHomes.evolves {vars : List Var} {earlier : List Ty} {c c' : Closure}
    (h : GivesHomes (paramsFrom earlier vars) c c') : Evolves c c' where
  frame := by rw [h.rest]
  rsp o ho := by
    cases o with
    | var v =>
      rcases h.homes v.ident with hlook | ⟨p, hp, hlook⟩
      · simpa only [regKey?, Locations.reg?, hlook] using ho
      · simp only [regKey?, Locations.reg?, hlook] at ho
        obtain ⟨-, before, hplace⟩ := mem_paramsFrom hp
        cases hat : p.place with
        | reg r =>
          rw [hat] at ho hplace
          exact absurd (Option.some.inj ho) (key_ne_of_mem_argKeys (mem_argKeys hplace.symm)).1
        | stack k =>
          rw [hat] at ho
          cases ho
    | _ => exact ho
  placed := h.placed
  grows := by
    rw [h.rest]
    exact .refl _

/-- What the prologue leaves on the stack: the frame over the pushed frame pointer. -/
def frameItems (frame : Int64) : List StackItem :=
  (if frame > 0 then [.room frame.toInt.toNat] else []) ++ [.word (.reg regRbp)]

section Prologue

variable {locs : Locations} {cx : Context} {s s' : State}

theorem inner_assignment {op : Opcode} {src dst : Option Operand} {pos : Position}
    (hop : op = .move ∨ op = .lea) (hdst : namesRsp locs dst = false) :
    Inner locs ⟨op, src, none, none, dst, pos⟩ := by
  have hdefs : definesRsp locs ⟨op, src, none, none, dst, pos⟩ = false := by
    rw [definesRsp_eq, hdst, Bool.and_false]
  rcases hop with rfl | rfl <;> exact ⟨⟨by simp, by simp, rfl, hdefs⟩, rfl⟩

/-- Saving registers and taking parameters leaves the stack alone. -/
theorem saveAndTake_stack {saved : List SavedReg} (h : saveAndTake cx saved s = .ok ((), s'))
    (hout : namesRsp locs cx.instr.output = false) : Evolves s.closure s'.closure ∧
      ∃ code, s'.out = s.out ++ code ∧ ∀ i ∈ code, Inner locs i := by
  have hsaves : ∀ i ∈ saved.map (saveLine cx.instr.pos), Inner locs i := by
    intro i hi
    obtain ⟨r, -, rfl⟩ := List.mem_map.mp hi
    exact inner_assignment (.inl rfl) rfl
  rcases saveAndTake_cases h with ⟨-, rfl⟩ | ⟨items, st, taken, ho, htake, hassign⟩
  · exact ⟨.refl _, _, rfl, hsaves⟩
  · obtain ⟨htaken, vars, moved, rfl, hgives, hmoves, htakes⟩ :=
      takeParams_spec htake (argCount_nil.symm : _ = argCount []) rfl
    rw [ho] at hout
    have hinner : Appends (Inner locs) (parallel cx st.moves) fun _ => True := by
      refine appends_parallel cx (fun m hm op src hop => inner_assignment hop ?_) fun src =>
        inner_assignment (.inl rfl) rfl
      rw [hmoves, List.nil_append] at hm
      obtain ⟨p, hp, rfl⟩ := List.mem_map.mp hm
      have hvar := (mem_paramsFrom (htakes.among.mem hp)).1
      exact Bool.eq_false_iff.mpr (List.any_eq_false.mp hout _ (List.mem_map_of_mem hvar))
    obtain ⟨⟨code, hcode, hall⟩, hsame, -⟩ := hinner _ _ _ hassign
    refine ⟨hgives.evolves.trans hsame.evolves, _, ?_, List.forall_mem_append.mpr ⟨hsaves, hall⟩⟩
    rw [hcode, htaken, List.append_assoc]

/-- The prologue pushes the frame pointer and makes room for the frame. -/
theorem prologue_stack (h : prologue cx s = .ok ((), s')) (hop : cx.instr.op = .fnBegin)
    (hout : namesRsp locs cx.instr.output = false) : Evolves s.closure s'.closure ∧
      ∃ code, s'.out = s.out ++ code ∧ (∀ i ∈ code, i.op.isBranch = false ∧ i.op.isCall = false) ∧
        ∀ start, stackAfter? locs code start = some (frameItems s.closure.frame ++ start) := by
  let first : List Instr := [cx.instr, ⟨.push, some (.reg regRbp), none, none, none, cx.instr.pos⟩,
    ⟨.move, some (.reg regRsp), none, none, some (.reg regRbp), cx.instr.pos⟩]
  let adjust : List Instr :=
    if s.closure.frame > 0 then [adjustLine .sub s.closure.frame cx.instr.pos] else []
  have hframed : openingOps s.closure.frame cx.instr = first ++ adjust := rfl
  have h := prologue_opening h
  obtain ⟨hevolves, code, hcode, hinner⟩ := saveAndTake_stack h hout
  have hbegin : Inner locs cx.instr := by
    refine ⟨⟨by simp [hop], by simp [hop], by rw [hop]; rfl, ?_⟩, by rw [hop]; rfl⟩
    rw [definesRsp_eq, hout, Bool.and_false]
  have hfirst : ∀ start, stackAfter? locs first start = some (.word (.reg regRbp) :: start) := by
    intro start
    have hmove : namesRsp locs (some (.reg regRbp)) = false := rfl
    rw [stackAfter?, follow?_of_defs hbegin.push hbegin.pop hbegin.defs, Option.bind_some,
      stackAfter?, follow?, if_pos rfl, Option.map_some, Option.bind_some, stackAfter?_singleton]
    exact follow?_of_defs (by simp) (by simp) (inner_assignment (.inl rfl) hmove).defs
  have hadjust : ∀ start, stackAfter? locs adjust start =
      some ((if s.closure.frame > 0 then [.room s.closure.frame.toInt.toNat] else []) ++
        start) := by
    intro start
    simp only [adjust]
    split
    · rename_i hframe
      rw [stackAfter?_singleton, follow?_sub (Int64.le_of_lt hframe)]
      rfl
    · rfl
  refine ⟨hevolves, first ++ adjust ++ code, ?_, fun i hi => ?_, fun start => ?_⟩
  · rw [hcode, hframed, List.append_assoc]
  · rcases List.mem_append.mp hi with hi | hi
    · rcases List.mem_append.mp hi with hi | hi
      · simp only [first, List.mem_cons, List.not_mem_nil, or_false] at hi
        rcases hi with rfl | rfl | rfl
        · exact ⟨hbegin.jump, hbegin.call⟩
        · exact ⟨rfl, rfl⟩
        · exact ⟨rfl, rfl⟩
      · simp only [adjust] at hi
        split at hi
        · rw [List.mem_singleton.mp hi]
          exact ⟨rfl, rfl⟩
        · cases hi
    · exact ⟨(hinner i hi).jump, (hinner i hi).call⟩
  · rw [stackAfter?_append, stackAfter?_append, hfirst, Option.bind_some, hadjust, Option.bind_some,
      stackAfter?_quiet fun i hi => (hinner i hi).toQuiet, frameItems, List.append_assoc]
    rfl

end Prologue

/-! ## Closures -/

/-- The instruction does not say anything of the stack itself: it is no push or pop, and writes no
operand that is in the stack pointer. -/
structure LeavesStack (locs : Locations) (i : Instr) : Prop where
  push : i.op ≠ .push
  pop : i.op ≠ .pop
  defs : definesRsp locs i = false

/-- The start of a function puts its frame on the stack. Other instructions leave it. -/
structure Followed (locs : Locations) (frame : Int64) (cx : Context) (c : Closure)
    (code : List Instr) :
    Prop where
  opens : cx.instr.op = .fnBegin → (∀ j ∈ code, j.op.isBranch = false ∧ j.op.isCall = false) ∧
    ∀ s, stackAfter? locs code s = some (frameItems frame ++ s)
  balanced : cx.instr.op ≠ .fnBegin → Balanced locs cx c code

section Instr

variable {locs : Locations} {cx : Context} {s s' : State}

theorem namesRsp_of_defines {i : Instr} (h : definesRsp locs i = false)
    (hop : i.op.isBranch = false ∧ i.op ≠ .label) : namesRsp locs i.output = false := by
  rw [definesRsp_eq, hop.1, Bool.false_or, beq_eq_false_iff_ne.mpr hop.2] at h
  simpa using h

theorem balances_of_appends {m : LowerM Unit} (hcall : cx.instr.op.isCall = false)
    (hm : Appends (Quiet locs) m fun _ => True) : Balances locs cx m := by
  intro s s' h
  obtain ⟨⟨code, hcode, hquiet⟩, hsame, -⟩ := hm s () s' h
  exact ⟨hsame, code, hcode, balanced_of_quiet hcall hquiet⟩

/-- Every instruction but the start of a function and a call is balanced, one case for each way to
lower it. -/
theorem balances_other (hop : cx.instr.op ≠ .fnBegin) (hcall : cx.instr.op.isCall = false)
    (hi : LeavesStack locs cx.instr) : Balances locs cx (instr cx) := by
  have hquiet : Quiet locs cx.instr := ⟨hi.push, hi.pop, hcall, hi.defs⟩
  have hnames := namesRsp_of_defines hi.defs
  have happends : ∀ {m : LowerM Unit}, Appends (Quiet locs) m (fun _ => True) →
      Balances locs cx m :=
    balances_of_appends hcall
  have hroute := instr_route cx
  generalize instr cx = m at hroute ⊢
  cases hroute with
  | nothing => exact happends (appends_pure trivial)
  | kept op => exact happends (appends_keep hquiet)
  | safepoint =>
    have hdefs : definesRsp locs ⟨.safepoint, none, none, none, some (.reg regRax), cx.instr.pos⟩ =
        false :=
      rfl
    exact happends (appends_keep ⟨by simp, by simp, rfl, hdefs⟩)
  | prologue op => exact absurd op hop
  | ending op =>
    refine happends (appends_bind appends_get fun st _ => ?_)
    split
    · exact appends_pure trivial
    · exact appends_keep hquiet
  | ret => exact happends (quiet_ret cx.instr)
  | call op =>
    rcases op with op | op <;>
      · rw [op] at hcall
        cases hcall
  | move op => exact happends (quiet_move op (hnames (by rw [op]; decide)))
  | refused => exact happends (appends_fail cx _)
  | divide op =>
    refine balances_of_takes hcall (takes_divide op (hnames ?_))
    revert op
    cases cx.instr.op <;> decide
  | shift op =>
    refine balances_of_takes hcall (takes_shift op (hnames ?_))
    rcases op with op | op | op <;> rw [op] <;> decide
  | compare op => exact happends (quiet_compare hquiet)
  | generic => exact happends (quiet_generic hquiet)

/-- Every instruction but the start of a function is balanced. -/
theorem balances_instr (hop : cx.instr.op ≠ .fnBegin) (hi : LeavesStack locs cx.instr)
    (hfew : (callArgs cx.instr).length < 2 ^ 59) : Balances locs cx (instr cx) := by
  cases hcall : cx.instr.op.isCall with
  | false => exact balances_other hop hcall hi
  | true =>
    have hcases : cx.instr.op = .call ∨ cx.instr.op = .rtCall := by
      revert hcall
      cases cx.instr.op <;> simp [Opcode.isCall]
    have hinstr : instr cx = call cx := by
      unfold instr
      dsimp only
      rcases hcases with h | h <;> rw [h]
    rw [hinstr]
    refine balances_call hcall (namesRsp_of_defines hi.defs ?_) hfew
    rcases hcases with h | h <;> rw [h] <;> decide

theorem followed_instr (h : instr cx s = .ok ((), s')) (hi : LeavesStack locs cx.instr)
    (hfew : (callArgs cx.instr).length < 2 ^ 59) : Evolves s.closure s'.closure ∧
      (cx.instr.op ≠ .fnBegin → SameFrame s.closure s'.closure) ∧
      ∃ code, s'.out = s.out ++ code ∧ Followed locs s.closure.frame cx s'.closure code := by
  by_cases hop : cx.instr.op = .fnBegin
  · have hprologue : instr cx = prologue cx := by
      unfold instr
      dsimp only
      rw [hop]
    rw [hprologue] at h
    obtain ⟨hevolves, code, hcode, hopens⟩ :=
      prologue_stack h hop (namesRsp_of_defines hi.defs (by rw [hop]; decide))
    exact ⟨hevolves, fun hne => absurd hop hne, code, hcode, fun _ => hopens,
      fun hne => absurd hop hne⟩
  · obtain ⟨hsame, code, hcode, hbalanced⟩ := balances_instr hop hi hfew s s' h
    exact ⟨hsame.evolves, fun _ => hsame, code, hcode, fun h => absurd h hop, fun _ => hbalanced⟩

end Instr

/-- Lowering instructions one after the other takes a closure to another one, with some code for
each of them. -/
inductive Lowers (variadic : List String) (scratch : Option Int64) :
    Closure → List (Instr × List Instr) → Closure → Prop
  | nil (c : Closure) : Lowers variadic scratch c [] c
  | cons {c c1 c' : Closure} {i : Instr} {out code : List Instr} {rest : List (Instr × List Instr)}
      (step : instr ⟨variadic, scratch, i⟩ ⟨c, out⟩ = .ok ((), ⟨c1, out ++ code⟩))
      (next : Lowers variadic scratch c1 rest c') : Lowers variadic scratch c ((i, code) :: rest) c'

section Lowers

variable {locs : Locations} {variadic : List String} {scratch : Option Int64} {c c1 c' : Closure}
  {parts parts' : List (Instr × List Instr)} {ops : List Instr}

theorem Lowers.append (h : Lowers variadic scratch c parts c1)
    (h' : Lowers variadic scratch c1 parts' c') :
    Lowers variadic scratch c (parts ++ parts') c' := by
  induction h with
  | nil => exact h'
  | cons step _ ih => exact .cons step (ih h')

theorem Lowers.evolves (h : Lowers variadic scratch c parts c')
    (hparts : ∀ p ∈ parts, LeavesStack locs p.1 ∧ (callArgs p.1).length < 2 ^ 59) :
    Evolves c c' := by
  induction h with
  | nil => exact .refl _
  | cons step _ ih =>
    obtain ⟨hi, hrest⟩ := List.forall_mem_cons.mp hparts
    exact (followed_instr step hi.1 hi.2).1.trans (ih hrest)

/-- Every variable stays where it is while no function starts. -/
theorem Lowers.sameFrame (h : Lowers variadic scratch c parts c')
    (hparts : ∀ p ∈ parts, LeavesStack locs p.1 ∧ (callArgs p.1).length < 2 ^ 59)
    (hops : ∀ p ∈ parts, p.1.op ≠ .fnBegin) : SameFrame c c' := by
  induction h with
  | nil => exact .refl _
  | cons step _ ih =>
    obtain ⟨hi, hrest⟩ := List.forall_mem_cons.mp hparts
    obtain ⟨hop, hops⟩ := List.forall_mem_cons.mp hops
    exact ((followed_instr step hi.1 hi.2).2.1 hop).trans (ih hrest hops)

/-- The code of an instruction in the closure in which it is lowered, which goes on to the last
one. -/
theorem Lowers.followed (h : Lowers variadic scratch c parts c')
    (hparts : ∀ p ∈ parts, LeavesStack locs p.1 ∧ (callArgs p.1).length < 2 ^ 59)
    {before after : List (Instr × List Instr)} {p : Instr × List Instr}
    (hp : parts = before ++ p :: after) :
    ∃ c1, Followed locs c'.frame ⟨variadic, scratch, p.1⟩ c1 p.2 ∧ Evolves c1 c' ∧
      ((∀ q ∈ after, q.1.op ≠ .fnBegin) → SameFrame c1 c') := by
  induction before generalizing c parts with
  | nil =>
    subst hp
    cases h with
    | cons step next =>
      obtain ⟨hi, hrest⟩ := List.forall_mem_cons.mp hparts
      obtain ⟨hevolves, -, code, hcode, hfollowed⟩ := followed_instr step hi.1 hi.2
      obtain rfl := List.append_cancel_left hcode
      have hlater := next.evolves hrest
      rw [← hevolves.frame, ← hlater.frame] at hfollowed
      exact ⟨_, hfollowed, hlater, next.sameFrame hrest⟩
  | cons q before ih =>
    subst hp
    cases h with
    | cons step next => exact ih next (List.forall_mem_cons.mp hparts).2 rfl

/-- The run lemma for a block. -/
theorem lowers_ops {s s' : State} {u : PUnit}
    (h : (ops.forM fun i => instr ⟨variadic, scratch, i⟩) s = .ok (u, s'))
    (hops : ∀ i ∈ ops, LeavesStack locs i ∧ (callArgs i).length < 2 ^ 59) :
    ∃ parts : List (Instr × List Instr), parts.map Prod.fst = ops ∧
      s'.out = s.out ++ parts.flatMap Prod.snd ∧
      Lowers variadic scratch s.closure parts s'.closure := by
  induction ops generalizing s with
  | nil =>
    cases h
    exact ⟨[], rfl, by simp, .nil _⟩
  | cons i rest ih =>
    obtain ⟨hi, hrest⟩ := List.forall_mem_cons.mp hops
    obtain ⟨u1, ⟨c1, out⟩, h1, h⟩ := run_bind.mp h
    obtain ⟨-, -, code, rfl, -⟩ := followed_instr h1 hi.1 hi.2
    obtain ⟨parts, hparts, hout, hlowers⟩ := ih h hrest
    exact ⟨(i, code) :: parts, by simp [hparts], by simp [hout], .cons h1 hlowers⟩

/-- The run lemma for the blocks of a closure. -/
theorem lowers_blocks {bs bs' : List Block} (h : blocks variadic scratch c bs = .ok (c', bs'))
    (hbs : ∀ b ∈ bs, ∀ i ∈ b.ops, LeavesStack locs i ∧ (callArgs i).length < 2 ^ 59) :
    ∃ parts : List (List (Instr × List Instr)), parts.map (List.map Prod.fst) = bs.map Block.ops ∧
      parts.map (List.flatMap Prod.snd) = bs'.map Block.ops ∧
      Lowers variadic scratch c parts.flatten c' := by
  induction bs generalizing c bs' with
  | nil =>
    cases h
    exact ⟨[], rfl, rfl, .nil _⟩
  | cons b rest ih =>
    obtain ⟨hb, hrest⟩ := List.forall_mem_cons.mp hbs
    obtain ⟨st, bs2, hst, h2, rfl⟩ := blocks_cons_eq_ok h
    obtain ⟨ps, hps, hout, hfirst⟩ := lowers_ops hst hb
    obtain ⟨parts, hparts, hlowered, hothers⟩ := ih h2 hrest
    exact ⟨ps :: parts, by simp [hps, hparts], by simp [hlowered, hout], hfirst.append hothers⟩

end Lowers

/-- Laying out a frame puts no variable into the stack pointer. -/
theorem rsp_of_layout {c : Closure} {o : Operand}
    (h : regKey? (layout c).1.locations o = some regRsp.key) :
    regKey? c.locations o = some regRsp.key := by
  have hstep : ∀ (st : Int64 × Locations) (v : Var), regKey? (placeLocal st v).2 o =
      some regRsp.key →
      regKey? st.2 o = some regRsp.key := by
    rintro ⟨size, locs⟩ v hv
    unfold placeLocal at hv
    dsimp only at hv
    split at hv
    · exact hv
    · cases o with
      | var w =>
        by_cases hsame : w.ident = v.ident
        · simp only [regKey?, Locations.reg?, hsame, lookup_assocInsert_self] at hv
          cases hv
        · simpa only [regKey?, Locations.reg?, lookup_assocInsert_ne hsame] using hv
      | _ => exact hv
  have hfold : ∀ (vs : List Var) (st : Int64 × Locations),
      regKey? (vs.foldl placeLocal st).2 o = some regRsp.key →
      regKey? st.2 o = some regRsp.key := by
    intro vs
    induction vs with
    | nil => exact fun st hst => hst
    | cons v vs ih => exact fun st hst => hstep st v (ih (placeLocal st v) hst)
  refine hfold c.locals.reverse (placedExtent c.locations, c.locations) ?_
  have hlocs : (layout c).1.locations =
      (c.locals.reverse.foldl placeLocal (placedExtent c.locations, c.locations)).2 := by
    unfold layout
    dsimp only
    split <;> rfl
  rwa [← hlocs]

/-- A frame is a multiple of sixteen bytes, also one that is too large for an offset. -/
theorem dvd_alignFrame (size : Int64) : (16 : Int) ∣ (alignFrame size 16).toInt := by
  have hsixteen : (16 : Int64).toInt = 16 := by decide
  unfold alignFrame
  rw [if_neg (by decide), Int64.toInt_mul, hsixteen, Int.bmod_def]
  omega

theorem dvd_frame (c : Closure) : (16 : Int) ∣ (layout c).1.frame.toInt := by
  unfold layout
  dsimp only
  split <;> exact dvd_alignFrame _

theorem depth_frameItems (frame : Int64) : depth (frameItems frame) = 8 + frame.toInt.toNat := by
  unfold frameItems
  rw [depth_append]
  split
  · simp [StackItem.bytes, Nat.add_comm]
  · rename_i h
    have hneg : frame.toInt ≤ 0 := by
      have := Int64.lt_iff_toInt_lt.not.mp h
      simpa using this
    simp [StackItem.bytes, Int.toNat_of_nonpos hneg]

/-- At a call the arguments, their padding, the frame, the pushed frame pointer and the return
address are a multiple of sixteen bytes. -/
theorem ArgsOnTop.aligned {i : Instr} {frame : Int64} {s : List StackItem} {rsp : BitVec 64}
    (h : ArgsOnTop i (frameItems frame) s) (hdvd : (16 : Int) ∣ frame.toInt)
    (hentry : rsp.toNat % 16 = 8) : (rsp - BitVec.ofNat 64 (depth s)).toNat % 16 = 0 := by
  obtain ⟨words, hlength, rfl⟩ := h
  obtain ⟨hroom, -⟩ := depth_argItems hlength
  obtain ⟨hargs, -⟩ := argRoom_spec (argState i)
  rw [depth_append, hroom, depth_frameItems, BitVec.toNat_sub, BitVec.toNat_ofNat]
  omega

theorem stackAfter?_path {locs : Locations} {path : List (Instr × List Instr)}
    (h : ∀ p ∈ path, ∀ s, stackAfter? locs p.2 s = some s) (s : List StackItem) :
    stackAfter? locs (path.flatMap Prod.snd) s = some s := by
  induction path with
  | nil => rfl
  | cons p path ih =>
    obtain ⟨hp, hpath⟩ := List.forall_mem_cons.mp h
    rw [List.flatMap_cons, stackAfter?_append, hp, Option.bind_some, ih hpath]

/-- The code of a lowered closure, instruction by instruction. -/
structure Expansion (c c' : Closure) where
  blocks : List (List (Instr × List Instr))
  source : blocks.map (List.map Prod.fst) = c.blocks.map Block.ops
  lowered : blocks.map (List.flatMap Prod.snd) = c'.blocks.map Block.ops

/-- A closure is lowered instruction by instruction. The source says which variables are in the
stack pointer, and lowering adds none. -/
theorem exists_lowers {t : Target} {c c' : Closure} (hok : t.lower c = .ok c')
    (hstack : ∀ b ∈ c.blocks, ∀ i ∈ b.ops, LeavesStack c.locations i)
    (hfew : ∀ b ∈ c.blocks, ∀ i ∈ b.ops, (callArgs i).length < 2 ^ 59) :
    ∃ (x : Expansion c c') (c1 : Closure), c' = { c1 with blocks := c'.blocks } ∧
      Lowers t.options.variadic (layout c).2 (layout c).1 x.blocks.flatten c1 ∧
      Evolves (layout c).1 c1 ∧
      ∀ p ∈ x.blocks.flatten, LeavesStack c1.locations p.1 ∧ (callArgs p.1).length < 2 ^ 59 := by
  unfold Target.lower at hok
  rcases hlayout : layout c with ⟨laid, scratch⟩
  rw [hlayout] at hok
  obtain ⟨⟨c1, bs⟩, hblocks, hpure⟩ := bind_eq_ok.mp hok
  cases hpure
  obtain rfl : (layout c).1 = laid := by rw [hlayout]
  obtain rfl : (layout c).2 = scratch := by rw [hlayout]
  rw [blocks_layout] at hblocks
  obtain ⟨parts, hsource, hlowered, hlowers⟩ :=
    lowers_blocks hblocks fun b hb i hi => ⟨hstack b hb i hi, hfew b hb i hi⟩
  have hof : ∀ p ∈ parts.flatten, ∃ b ∈ c.blocks, p.1 ∈ b.ops := by
    intro p hp
    have hops : parts.flatten.map Prod.fst = c.blocks.flatMap Block.ops := by
      rw [List.map_flatten, hsource, List.flatMap_def]
    rw [← List.mem_flatMap, ← hops]
    exact List.mem_map_of_mem hp
  have hevolves : Evolves (layout c).1 c1 := hlowers.evolves fun p hp => by
    obtain ⟨b, hb, hi⟩ := hof p hp
    exact ⟨hstack b hb p.1 hi, hfew b hb p.1 hi⟩
  refine ⟨⟨parts, hsource, hlowered⟩, c1, rfl, hlowers, hevolves, fun p hp => ?_⟩
  obtain ⟨b, hb, hi⟩ := hof p hp
  obtain ⟨hpush, hpop, hdefs⟩ := hstack b hb p.1 hi
  refine ⟨⟨hpush, hpop, List.any_eq_false.mpr fun o ho hkey => ?_⟩, hfew b hb p.1 hi⟩
  have hlaid := rsp_of_layout (hevolves.rsp o (by simpa using hkey))
  exact List.any_eq_false.mp hdefs o ho (by simpa using hlaid)

/-- Lowered code keeps the stack balanced. After the start of the function, which is its first
instruction, and along any path through the other instructions, the stack is the frame over the
pushed frame pointer: eight bytes and the frame below what it was on entry. Every jump finds it so.
Every call has a word for each of its stack arguments on top of it, over their padding, at a stack
pointer that is a multiple of sixteen. The lines before it can be run, and in every run of them the
words are what the arguments were worth before the first line, the first one uppermost, as far as
these can be taken: in any scene that has the literals of the lowered closure, with its variables
where they are at the call, which is where they stay. That the stack can be followed says that each
pop takes the word that was pushed from its register. -/
theorem lowering_keeps_stack_balanced {t : Target} {c c' : Closure} (hok : t.lower c = .ok c')
    (hbegin : (c.blocks.flatMap Block.ops).head?.map Instr.op = some .fnBegin)
    (hstack : ∀ b ∈ c.blocks, ∀ i ∈ b.ops, LeavesStack c.locations i)
    (hfew : ∀ b ∈ c.blocks, ∀ i ∈ b.ops, (callArgs i).length < 2 ^ 59) :
    ∃ (x : Expansion c c') (start : Instr × List Instr) (rest : List (Instr × List Instr)),
      x.blocks.flatten = start :: rest ∧ start.1.op = .fnBegin ∧
      depth (frameItems c'.frame) = 8 + c'.frame.toInt.toNat ∧
      (∀ p ∈ rest, p.1.op.isCall = true →
        ∃ before j after, p.2 = before ++ j :: after ∧ j.op = p.1.op) ∧
      ∀ path : List (Instr × List Instr), (∀ p ∈ path, p ∈ rest ∧ p.1.op ≠ .fnBegin) →
        let lines := start.2 ++ path.flatMap Prod.snd
        stackAfter? c'.locations lines [] = some (frameItems c'.frame) ∧
        ∀ p ∈ rest, ∀ before j after, p.2 = before ++ j :: after →
          (j.op.isBranch = true →
            stackAfter? c'.locations (lines ++ before) [] = some (frameItems c'.frame)) ∧
          (j.op.isCall = true →
            (∃ s, stackAfter? c'.locations (lines ++ before) [] = some s ∧
              ArgsOnTop p.1 (frameItems c'.frame) s ∧
              ∀ rsp : BitVec 64, rsp.toNat % 16 = 8 →
                (rsp - BitVec.ofNat 64 (depth s)).toNat % 16 = 0) ∧
            ∃ locs, KeepsPlaced locs c'.locations ∧
              ((∀ q ∈ rest, q.1.op ≠ .fnBegin) → locs = c'.locations) ∧
              ∀ e : Scene, e.locs = locs → e.Places c' →
                PutsArgs e ⟨t.options.variadic, (layout c).2, p.1⟩ before) := by
  obtain ⟨x, c1, hc, hlowers, hevolves, hparts⟩ := exists_lowers hok hstack hfew
  have hsame : SameFrame c1 c' := by
    rw [hc]
    exact ⟨rfl, rfl, .refl _⟩
  have hdvd : (16 : Int) ∣ c'.frame.toInt := by
    rw [hsame.frame, hevolves.frame]
    exact dvd_frame c
  rw [← hsame.locations] at hparts
  have hops : x.blocks.flatten.map Prod.fst = c.blocks.flatMap Block.ops := by
    rw [List.map_flatten, x.source, List.flatMap_def]
  rw [← hops] at hbegin
  cases hflat : x.blocks.flatten with
  | nil =>
    rw [hflat] at hbegin
    cases hbegin
  | cons start rest =>
    rw [hflat] at hbegin
    have hop : start.1.op = .fnBegin := Option.some.inj hbegin
    have hfirst : x.blocks.flatten = [] ++ start :: rest := hflat
    obtain ⟨c0, hstart, -, -⟩ := hlowers.followed hparts hfirst
    rw [← hsame.frame] at hstart
    have hrest : ∀ p ∈ rest, ∃ c2,
        Followed c'.locations c'.frame ⟨t.options.variadic, (layout c).2, p.1⟩ c2 p.2 ∧
          Evolves c2 c' ∧ ((∀ q ∈ rest, q.1.op ≠ .fnBegin) → SameFrame c2 c') := by
      intro p hp
      obtain ⟨earlier, later, rfl⟩ := List.append_of_mem hp
      have hhere : x.blocks.flatten = (start :: earlier) ++ p :: later := hflat
      obtain ⟨c2, hfollowed, hlater, hsettled⟩ := hlowers.followed hparts hhere
      rw [← hsame.frame] at hfollowed
      refine ⟨c2, hfollowed, hlater.trans hsame.evolves, fun hall => ?_⟩
      exact (hsettled fun q hq => hall q (by simp [hq])).trans hsame
    refine ⟨x, start, rest, hflat, hop, depth_frameItems _, fun p hp hcall => ?_,
      fun path hpath => ?_⟩
    · obtain ⟨c2, hfollowed, -, -⟩ := hrest p hp
      refine (hfollowed.balanced fun hbegins => ?_).called hcall
      have hbegins : p.1.op = .fnBegin := hbegins
      rw [hbegins] at hcall
      cases hcall
    have hlines : stackAfter? c'.locations (start.2 ++ path.flatMap Prod.snd) [] =
        some (frameItems c'.frame) := by
      rw [stackAfter?_append, (hstart.opens hop).2, Option.bind_some, List.append_nil]
      refine stackAfter?_path (fun p hp => ?_) _
      obtain ⟨c2, hfollowed, -, -⟩ := hrest p (hpath p hp).1
      exact (hfollowed.balanced (hpath p hp).2).net
    refine ⟨hlines, fun p hp before j after hcode => ?_⟩
    have hbefore : stackAfter? c'.locations (start.2 ++ path.flatMap Prod.snd ++ before) [] =
        stackAfter? c'.locations before (frameItems c'.frame) := by
      rw [stackAfter?_append, hlines, Option.bind_some]
    obtain ⟨c2, hfollowed, hlater, hsettled⟩ := hrest p hp
    rw [hbefore]
    by_cases hbegins : p.1.op = .fnBegin
    · obtain ⟨hbranch, hcall⟩ := (hfollowed.opens hbegins).1 j (by simp [hcode])
      simp [hbranch, hcall]
    · have hbalanced := hfollowed.balanced hbegins
      refine ⟨fun hj => hbalanced.jumps before j after hcode hj _, fun hj => ?_⟩
      obtain ⟨htop, hputs⟩ := hbalanced.calls before j after hcode hj
      obtain ⟨s, hs, hargs⟩ := htop (frameItems c'.frame)
      refine ⟨⟨s, hs, hargs, fun rsp hentry => hargs.aligned hdvd hentry⟩, c2.locations,
        hlater.placed, fun hall => (hsettled hall).locations.symm, fun e hlocs hplaces => ?_⟩
      exact hputs e hlocs fun key name h => hplaces key name (hlater.grows key name h)

/-- A call that passes the last of its seven arguments on the stack, a division and a shift. -/
def preservingOps : List Instr :=
  let literal (n : Int64) : Operand := .imm (.int .w64 n)
  let q : Operand := .var ⟨"q", .i64, false, false⟩
  let n : Operand := .var ⟨"n", .i64, false, false⟩
  [.make .fnBegin none none none,
    .make .call (some (.symbol ⟨"g", false, true, .ptr, none⟩))
      (some (.list [literal 1, literal 2, literal 3, literal 4, literal 5, literal 6, literal 7]))
      (some q),
    .make .sdiv (some n) (some (literal 3)) (some n), .make .shl (some q) (some n) (some q),
    .make .ret none none none]

/-- `%q:i64` is in rax, which the division preserves, and `%n:i64` in rcx, which the shift
preserves. -/
def preserving : Closure :=
  ⟨"f", "f", true, .void, [], [⟨"entry", preservingOps, [], [], [], []⟩],
    [("q", ⟨some regRax, none⟩), ("n", ⟨some regRcx, none⟩)], [], [], 0, []⟩

/-- The pushes of all of them are undone at the end of the function, and the call finds the seventh
argument on top of the stack. -/
theorem preserving_keeps_stack_balanced :
    ∃ c', Target.lower (.amd64Linux ⟨false, false, []⟩) preserving = .ok c' ∧
      ∃ start call rest, (start :: call :: rest).map Prod.fst = preservingOps ∧
        stackAfter? c'.locations (start.2 ++ (call :: rest).flatMap Prod.snd) [] =
          some (frameItems c'.frame) ∧
        ∃ before j after, call.2 = before ++ j :: after ∧ j.op = .call ∧
          ∀ (e : Scene) (s : Machine.State), e.locs = c'.locations → e.Places c' →
            (∃ s', LineRun e before s s') ∧ ∀ s', LineRun e before s s' →
              s'.get (.mem (s'.regs Machine.rsp)) 8 = 7 := by
  have hlowers : (Target.lower (.amd64Linux ⟨false, false, []⟩) preserving).toOption.isSome =
      true := by
    decide +kernel
  obtain ⟨c', hok⟩ : ∃ c', Target.lower (.amd64Linux ⟨false, false, []⟩) preserving = .ok c' := by
    cases hlower : Target.lower (.amd64Linux ⟨false, false, []⟩) preserving with
    | error e => simp [hlower, Except.toOption] at hlowers
    | ok c' => exact ⟨c', rfl⟩
  have hops : ∀ i ∈ preservingOps, i.op ≠ .push ∧ i.op ≠ .pop ∧
      definesRsp preserving.locations i = false ∧ (callArgs i).length < 2 ^ 59 := by
    decide +kernel
  have hall : ∀ b ∈ preserving.blocks, ∀ i ∈ b.ops,
      LeavesStack preserving.locations i ∧ (callArgs i).length < 2 ^ 59 := by
    intro b hb i hi
    obtain rfl := List.mem_singleton.mp hb
    obtain ⟨hpush, hpop, hdefs, hfew⟩ := hops i hi
    exact ⟨⟨hpush, hpop, hdefs⟩, hfew⟩
  obtain ⟨x, start, rest, hx, -, -, hcalled, hpaths⟩ := lowering_keeps_stack_balanced hok rfl
    (fun b hb i hi => (hall b hb i hi).1) fun b hb i hi => (hall b hb i hi).2
  have hfst : (start :: rest).map Prod.fst = preservingOps := by
    rw [← hx, List.map_flatten, x.source]
    rfl
  have htail : rest.map Prod.fst = preservingOps.tail := by
    rw [← hfst, List.map_cons, List.tail_cons]
  have hbegins : ∀ p ∈ rest, p.1.op ≠ .fnBegin := fun p hp =>
    (show ∀ i ∈ preservingOps.tail, i.op ≠ .fnBegin by decide +kernel) p.1
      (htail ▸ List.mem_map_of_mem hp)
  obtain ⟨call, rest, rfl⟩ : ∃ call rest', rest = call :: rest' := by
    cases rest with
    | nil => cases htail
    | cons call rest' => exact ⟨call, rest', rfl⟩
  have hcall : call.1 = preservingOps[1] := (List.cons.inj htail).1
  obtain ⟨before, j, after, hcode, hj⟩ := hcalled call List.mem_cons_self (by rw [hcall]; rfl)
  obtain ⟨hlines, hat⟩ := hpaths (call :: rest) fun p hp => ⟨hp, hbegins p hp⟩
  refine ⟨c', hok, start, call, rest, hfst, hlines, before, j, after, hcode, by rw [hj, hcall]; rfl,
    fun e s hlocs hplaces => ?_⟩
  obtain ⟨-, locs, -, hsame, hputs⟩ :=
    (hat call List.mem_cons_self before j after hcode).2 (by rw [hj, hcall]; rfl)
  have hputs := hputs e (hlocs.trans (hsame hbegins).symm) hplaces
  refine ⟨hputs.runs s, fun s' hrun => ?_⟩
  have hword := hputs.words s s' hrun 0 (.imm (.int .w64 7)) ⟨true, 8, 7⟩ (by rw [hcall]; rfl) rfl
    (takeable_int _ _) 8 (by decide) (Nat.le_refl 8)
  simp only [Nat.mul_zero, BitVec.add_zero] at hword
  exact hword

/-- A call that passes the stack pointer as the last of seven arguments. -/
def passingCall : Instr :=
  let literal (n : Int64) : Operand := .imm (.int .w64 n)
  .make .call (some (.symbol ⟨"g", false, true, .ptr, none⟩)) (some (.list [literal 1, literal 2,
      literal 3, literal 4, literal 5, literal 6, .reg regRsp])) none

def passing : Closure :=
  ⟨"f", "f", true, .void, [],
    [⟨"entry", [.make .fnBegin none none none, passingCall], [], [], [], []⟩], [], [], [], 0, []⟩

/-- The moves of the arguments before it. -/
def passingMoves : List Instr :=
  (intArgRegs.zipIdx 1).map fun p =>
    ⟨.move, some (.imm (.int .w64 (Int64.ofNat p.2))), none, none, some (.reg (gpr p.1 8)), ⟨0, 0⟩⟩

/-- The lines before that call. -/
def passingLines : List Instr :=
  [adjustLine .sub 8 ⟨0, 0⟩, ⟨.push, some (.reg regRsp), none, none, none, ⟨0, 0⟩⟩] ++ passingMoves

/-- The call finds another word on top of the stack than the stack pointer was before its first
line: the padding has moved that. -/
theorem pushed_stack_pointer_is_moved :
    ∃ c' opening call after, Target.lower (.amd64Linux ⟨false, false, []⟩) passing = .ok c' ∧
      c'.blocks.map Block.ops = [opening ++ passingLines ++ call :: after] ∧ call.op = .call ∧
      (∀ i ∈ passing.blocks.flatMap Block.ops, LeavesStack passing.locations i) ∧
      (argState passingCall).stack = [.reg regRsp] ∧
      ∀ (e : Scene) (s : Machine.State),
        e.datum? s (.reg regRsp) = some ⟨true, 8, s.get (.reg Machine.rsp) 8⟩ ∧
        (∃ s', LineRun e passingLines s s') ∧ ∀ s', LineRun e passingLines s s' →
          s'.get (.mem (s'.regs Machine.rsp)) 8 = s.get (.reg Machine.rsp) 8 - 8 := by
  let opening := openingOps 0 (.make .fnBegin none none none)
  have hbegin : instr ⟨[], none, .make .fnBegin none none none⟩ ⟨passing, []⟩ =
      .ok ((), ⟨passing, opening⟩) := rfl
  obtain ⟨call, last, hcall, hop⟩ : ∃ call last, instr ⟨[], none, passingCall⟩ ⟨passing, opening⟩ =
      .ok ((), ⟨passing, opening ++ passingLines ++ [call, last]⟩) ∧ call.op = .call :=
        ⟨_, _, rfl, rfl⟩
  have hlower : Target.lower (.amd64Linux ⟨false, false, []⟩) passing = .ok { passing with
      blocks := [⟨"entry", opening ++ passingLines ++ [call, last], [], [], [], []⟩] } := by
    have hrun : ([.make .fnBegin none none none, passingCall].forM fun i => instr ⟨[], none, i⟩)
        ⟨passing, []⟩ = .ok ((), ⟨passing, opening ++ passingLines ++ [call, last]⟩) :=
      run_bind.mpr ⟨_, _, hbegin, run_bind.mpr ⟨_, _, hcall, rfl⟩⟩
    refine bind_eq_ok.mpr ⟨(passing, _), bind_eq_ok.mpr ⟨(passing, _), ?_, rfl⟩, rfl⟩
    exact bind_eq_ok.mpr ⟨((), _), hrun, rfl⟩
  have hmoves (e : Scene) : Preliminary e (intArgRegs.map .reg) 0 passingMoves := by
    refine preliminary_fills fun i hi => ?_
    obtain ⟨p, hp, rfl⟩ := List.mem_map.mp hi
    have hid : p.1 ∈ intArgRegs := List.fst_mem_of_mem_zipIdx hp
    have hkey : (gpr p.1 8).key ∈ argKeys := List.mem_append_left _ (List.mem_map_of_mem hid)
    exact ⟨.inl rfl, _, rfl, List.mem_map_of_mem hid, (key_ne_of_mem_argKeys hkey).1⟩
  refine ⟨_, opening, call, [last], hlower, rfl, hop, ?_, rfl,
    fun e s => ⟨rfl, ?_, fun s' hrun => ?_⟩⟩
  · intro i hi
    simp only [passing, List.flatMap_cons, List.flatMap_nil, List.append_nil, List.mem_cons,
      List.not_mem_nil, or_false] at hi
    rcases hi with rfl | rfl
    · exact ⟨by decide, by decide, rfl⟩
    · exact ⟨by decide, by decide, rfl⟩
  · exact exists_lineRun ((preliminary_padding (e := e) 8 ⟨0, 0⟩).append
      ((preliminary_push (.reg regRsp) ⟨0, 0⟩).append (hmoves e))).runnable s
  · obtain ⟨s2, hfirst, hrest⟩ := lineRun_append hrun
    have htop := ((hmoves e).disturbs s2 s' hrest).get_top (by decide) (Nat.le_refl 8)
    rw [BitVec.add_zero] at htop
    rw [htop]
    cases hfirst with
    | @cons _ _ _ s1 _ padded next =>
      have hpadded := ((preliminary_padding 8 ⟨0, 0⟩).disturbs s s1 (.cons padded (.nil s1))).rsp
      have hword : e.datum? s1 (.reg regRsp) = some ⟨true, 8, s1.get (.reg Machine.rsp) 8⟩ := rfl
      have hpushed := carries_of_push (t := .i64) hword (fun n _ hn => ⟨hn, rfl⟩)
        (lineRun_singleton next) 8 (by decide) (Nat.le_refl 8)
      rw [hpushed, Datum.brought_self ⟨true, 8, s1.get (.reg Machine.rsp) 8⟩]
      have hget : ∀ m : Machine.State, m.get (.reg Machine.rsp) 8 = m.regs Machine.rsp := fun m =>
        BitVec.setWidth_eq _
      rw [hget, hget, hpadded]
      rfl

end Backend.Lowering
