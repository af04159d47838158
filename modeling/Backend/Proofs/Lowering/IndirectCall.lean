-- Calls through an operand. What a call emits before it reads that operand is followed through
-- every run, and the operand is found as it was where it is not read from what is taken for the
-- arguments.
import Backend.Proofs.Lowering.LineRuns
import Backend.Proofs.Lowering.Passing

namespace Backend.Lowering

open Backend.Machine (Place Assigns)

/-! ## What comes before the operand is read -/

/-- Lines that can be run, none of which is a call. Any run of them disturbs so much. -/
structure Preliminary (e : Scene) (dests : List Place) (room : Nat) (code : List Instr) : Prop where
  runnable : ∀ i ∈ code, IsRunnable i
  silent : ∀ i ∈ code, i.op ≠ .call ∧ i.op ≠ .rtCall
  disturbs : ∀ s s', LineRun e code s s' → Disturbs dests room s s'

section Preliminary

variable {e : Scene} {cx : Context} {i : Instr} {code code' : List Instr}
  {dests dests' : List Place} {room room' : Nat}

theorem Preliminary.nil : Preliminary e [] 0 [] where
  runnable := by simp
  silent := by simp
  disturbs s s' h := by
    cases h
    exact .refl s

theorem Preliminary.append (h : Preliminary e dests room code)
    (h' : Preliminary e dests' room' code') :
    Preliminary e (dests ++ dests') (room + room') (code ++ code') where
  runnable i hi := (List.mem_append.mp hi).elim (h.runnable i) (h'.runnable i)
  silent i hi := (List.mem_append.mp hi).elim (h.silent i) (h'.silent i)
  disturbs s s' hrun := by
    obtain ⟨s1, h1, h2⟩ := lineRun_append hrun
    exact (h.disturbs s s1 h1).trans (h'.disturbs s1 s' h2)

/-- A line with a register as its output gives that a value. -/
theorem assigns_of_output {r : Reg} {s s1 : Machine.State} (hop : i.op ≠ .push)
    (hout : i.output = some (.reg r)) (h : LineStep e i s s1) :
    ∃ (n : Nat) (v : BitVec (8 * n)), Assigns r.place v [Machine.r11] s s1 := by
  cases h with
  | write output place value after =>
    obtain rfl := Option.some.inj (hout.symm.trans output)
    obtain rfl := Option.some.inj place
    exact ⟨_, _, after⟩
  | push op => exact absurd op hop

theorem preliminary_tempWork (h : ∀ i ∈ code, TempWork i) : Preliminary e [] 0 code where
  runnable i hi := by
    obtain ⟨-, t, hout⟩ := h i hi
    exact .inr (.inl ⟨_, hout⟩)
  silent i hi := by
    rcases (h i hi).op with hop | hop | hop | hop <;> simp [hop]
  disturbs s s' hrun := by
    induction hrun with
    | nil => exact .refl _
    | cons step _ ih =>
      obtain ⟨hop, t, hout⟩ := h _ List.mem_cons_self
      have hpush : ∀ {o : Opcode}, (o = .move ∨ o = .lea ∨ o = .shl ∨ o = .add) → o ≠ .push := by
        rintro o (rfl | rfl | rfl | rfl) <;> simp
      obtain ⟨n, v, hv⟩ := assigns_of_output (hpush hop) hout step
      exact (disturbs_temp hv).trans (ih fun i hi => h i (by simp [hi]))

theorem preliminary_push (o : Operand) (pos : Position) :
    Preliminary e [] 8 [⟨.push, some o, none, none, none, pos⟩] where
  runnable := by simp [IsRunnable]
  silent := by simp
  disturbs s s' hrun := by
    cases lineRun_singleton hrun with
    | write output => cases output
    | push op value after =>
      subst after
      exact disturbs_push s _

theorem preliminary_load {r : Reg} (hr : r.key ≠ regRsp.key) (o : Operand) (pos : Position) :
    Preliminary e [r.place] 0 [⟨.move, some o, none, none, some (.reg r), pos⟩] where
  runnable := by simp [IsRunnable]
  silent := by simp
  disturbs s s' hrun := by
    obtain ⟨n, v, hv⟩ := assigns_of_output (by simp) rfl (lineRun_singleton hrun)
    exact disturbs_register hr hv

/-- The effect of making room on the stack. -/
theorem effect?_sub (s : Machine.State) (bytes : Int64) (pos : Position) :
    e.effect? s ⟨.sub, some (.reg regRsp), some (.imm (.ofInt .i64 bytes)), none,
      some (.reg regRsp), pos⟩ =
      some (.assign (.reg Machine.rsp) 8
        (s.regs Machine.rsp - bytes.toBitVec : BitVec (8 * 8))) := by
  have hget : s.get (.reg Machine.rsp) 8 = s.regs Machine.rsp := BitVec.setWidth_eq _
  have hword : e.datum? s (.reg regRsp) = some ⟨true, 8, s.get (.reg Machine.rsp) 8⟩ := rfl
  have hbytes : e.datum? s (.imm (.ofInt .i64 bytes)) = some ⟨true, 8, bytes.toBitVec⟩ := rfl
  have hplace : e.place? s (.reg regRsp) = some (.reg Machine.rsp) := rfl
  have hguard : (Opcode.sub.isArithmetic && !((some (Operand.reg regRsp)).map
      fun o => o.ty.isInteger).getD false) = false := by decide
  unfold Scene.effect? Scene.assign? Scene.computed? Scene.source?
  rw [hguard]
  simp only [Option.bind_some, hword, hbytes, hget, hplace, Opcode.isCondBranch, Opcode.isCompare,
    Bool.false_eq_true, if_false, bind, Selection.arithmetic?]
  change Option.bind (Option.bind ((⟨true, 8, s.regs Machine.rsp⟩ : Datum).low? 8) fun x =>
    Option.bind ((⟨true, 8, bytes.toBitVec⟩ : Datum).low? 8) _) _ = _
  rw [low?_self true 8 (s.regs Machine.rsp), low?_self true 8 bytes.toBitVec]
  rfl

theorem preliminary_padding (n : Nat) (pos : Position) :
    Preliminary e [] n [⟨.sub, some (.reg regRsp), some (.imm (.ofInt .i64 (Int64.ofNat n))), none,
      some (.reg regRsp), pos⟩] where
  runnable := by simp [IsRunnable]
  silent := by simp
  disturbs s s' hrun := by
    have h := (lineRun_singleton hrun).assigns (effect?_sub s _ pos)
    refine ⟨?_, fun r _ h11 hsp _ => ?_, fun r _ => h.xmms r (by simp), fun x _ => ?_⟩
    · have hvalue : s'.get (.reg Machine.rsp) 8 =
          s.regs Machine.rsp - (Int64.ofNat n).toBitVec := h.value
      have hget : s'.get (.reg Machine.rsp) 8 = s'.regs Machine.rsp := BitVec.setWidth_eq _
      exact hget.symm.trans hvalue
    · exact h.regs r (fun he => hsp (Place.reg.inj he).symm) (by simpa using h11)
    · exact h.mem x (by simp [Place.covers])

end Preliminary

/-- The registers into which memory arguments are loaded before what is called is found. -/
def loadedRegs (locs : Locations) (moves : List Move) : List Place :=
  (moves.filter fun m => needsTemp locs m.src).filterMap fun m => (regOf? locs m.dst).map Reg.place

section Phases

variable {e : Scene} {cx : Context} {s s' : State}

theorem preliminary_pushes {args : List Operand} {u : PUnit}
    (h : each (pushArg cx) args s = .ok (u, s')) : s'.closure.locations = s.closure.locations ∧
      ∃ code, s'.out = s.out ++ code ∧ Preliminary e [] (8 * args.length) code ∧
        (args = [] → code = []) := by
  induction args generalizing s with
  | nil =>
    cases h
    exact ⟨rfl, [], by simp, .nil, fun _ => rfl⟩
  | cons a args ih =>
    obtain ⟨s1, h1, h2⟩ := each_cons h
    obtain ⟨hsame, pre, o, hpre, hwork⟩ := (argPushed_of_pushArg h1).code
    obtain ⟨hlocs', code, hcode, hrest, -⟩ := ih h2
    refine ⟨hlocs'.trans hsame.locations,
      pre ++ [⟨.push, some o, none, none, none, cx.instr.pos⟩] ++ code, ?_, ?_, by simp⟩
    · rw [hcode, hpre]
      simp
    · have hall := ((preliminary_tempWork hwork).append
        (preliminary_push o cx.instr.pos)).append hrest
      rwa [show 0 + 8 + 8 * args.length = 8 * (a :: args).length by simp; omega] at hall

/-- An argument in a register is left to be assigned, and nothing is emitted for it; or its address
needs the temporary register, and it is loaded. -/
theorem directArg_code {all : List Move} {index : Nat} {r : Reg} {a : Operand} {left : Option Move}
    (h : directArg cx all index ⟨.reg r, a, false⟩ s = .ok (left, s')) :
    s'.closure.locations = s.closure.locations ∧ (∀ m, left = some m → m.dst = .reg r) ∧
      ((needsTemp s.closure.locations a = false ∧ s'.out = s.out) ∨
        needsTemp s.closure.locations a = true ∧ ∃ pre src, (∀ i ∈ pre, TempWork i) ∧
          s'.out = s.out ++ (pre ++
            [⟨.move, some src, none, none, some (.reg r), cx.instr.pos⟩])) := by
  have handled := directed_of_directArg h
  refine ⟨handled.sameFrame.locations, handled.dst, ?_⟩
  cases handled with
  | kept _ memory => exact .inl ⟨needsTemp_of_ne memory, rfl⟩
  | folded here => exact .inl ⟨here, rfl⟩
  | float placed =>
    cases placed
    exact .inl ⟨rfl, rfl⟩
  | string placed =>
    cases placed
    exact .inl ⟨rfl, rfl⟩
  | @loaded base part scale disp t d s1 needs address =>
    obtain ⟨⟨pre, hpre, hwork⟩, -, -⟩ :=
      appends_address_free cx rfl base part scale disp t s d s1 address
    exact .inr ⟨needs, pre, _, hwork, by rw [hpre, List.append_assoc]⟩

theorem preliminary_directArgs {all : List Move} {moves : List (Move × Nat)}
    {lefts : List (Option Move)}
    (hplain : ∀ p ∈ moves, ∃ r a, p.1 = ⟨.reg r, a, false⟩ ∧ r.key ∈ argKeys)
    (hlocs : s.closure.locations = e.locs)
    (h : moves.mapM (fun p => directArg cx all p.2 p.1) s = .ok (lefts, s')) :
    s'.closure.locations = e.locs ∧
      (∀ left ∈ lefts, ∀ m, left = some m → Elsewhere regR10.key m) ∧
      ∃ code, s'.out = s.out ++ code ∧
        Preliminary e (loadedRegs e.locs (moves.map Prod.fst)) 0 code ∧
        (loadedRegs e.locs (moves.map Prod.fst) = [] → code = []) := by
  induction moves generalizing s lefts with
  | nil =>
    cases h
    exact ⟨hlocs, by simp, [], by simp, .nil, fun _ => rfl⟩
  | cons p moves ih =>
    rw [List.mapM_cons] at h
    obtain ⟨left, s1, h1, h⟩ := run_bind.mp h
    obtain ⟨lefts', s2, h2, h⟩ := run_bind.mp h
    cases h
    obtain ⟨r, a, hp, hkey⟩ := hplain p (by simp)
    obtain ⟨hrsp, -, hr10, -⟩ := key_ne_of_mem_argKeys hkey
    rw [hp] at h1
    obtain ⟨hlocs1, hdst, hcases⟩ := directArg_code h1
    obtain ⟨hlocs2, helse, code2, hcode2, hrest, hnil⟩ :=
      ih (fun p hp => hplain p (by simp [hp])) (hlocs1.trans hlocs) h2
    refine ⟨hlocs2, ?_, ?_⟩
    · intro l hl m hm
      rcases List.mem_cons.mp hl with rfl | hl
      · exact ⟨r, hdst m hm, hr10⟩
      · exact helse l hl m hm
    · rw [hlocs] at hcases
      rcases hcases with ⟨hneeds, hout⟩ | ⟨hneeds, pre, src, hwork, hout⟩
      · have hsame : loadedRegs e.locs ((p :: moves).map Prod.fst) =
            loadedRegs e.locs (moves.map Prod.fst) := by
          simp [loadedRegs, hp, hneeds]
        rw [hsame]
        exact ⟨code2, by rw [hcode2, hout], hrest, hnil⟩
      · have hfirst : loadedRegs e.locs ((p :: moves).map Prod.fst) =
            r.place :: loadedRegs e.locs (moves.map Prod.fst) := by
          simp [loadedRegs, hp, hneeds, regOf?]
        rw [hfirst]
        refine ⟨_, by rw [hcode2, hout, List.append_assoc], ?_, by simp⟩
        exact ((preliminary_tempWork hwork).append
          (preliminary_load hrsp src cx.instr.pos)).append hrest

end Phases

/-! ## What is called -/

/-- The address of the operand can be computed, and its parts are not in the temporary registers or
the scratch slots if it takes those. -/
structure Reachable (e : Scene) (cx : Context) (s : Machine.State) (o : Operand) : Prop where
  loadable : ∀ base index scale disp t, o = .indirect base index scale disp t →
    Loadable e.locs base index scale
  parts : needsTemp e.locs o = true → ∀ base index scale disp t,
    o = .indirect base index scale disp t →
    ∀ part, base = some part ∨ index = some part → ∀ p, e.place? s part = some p →
      Outside (e.scratch cx) 0 p (width part)

section Callee

variable {e : Scene} {cx : Context} {s : Machine.State} {o : Operand} {d : Datum}

/-- A memory operand is worth the same at the same address while memory stays. -/
theorem datum?_of_address {s1 : Machine.State} {base index b i : Option Operand} {scale f : UInt8}
    {disp k : Int64} {t : Ty} {a : BitVec 64}
    (hd : e.datum? s (.indirect base index scale disp t) = some d)
    (ha : e.address? s base index scale disp = some a) (ha' : e.address? s1 b i f k = some a)
    (hmem : ∀ x, s1.mem x = s.mem x) : e.datum? s1 (.indirect b i f k t) = some d := by
  have hheld : held s1 (.indirect b i f k t) (.mem a) =
      held s (.indirect base index scale disp t) (.mem a) := by
    have hget : s1.get (.mem a) (registerWidth t) = s.get (.mem a) (registerWidth t) :=
      Machine.readBytes_congr _ _ a _ (by have := registerWidth_le_eight t; omega) fun x _ => hmem x
    exact congrArg (Datum.mk t.isSigned (registerWidth t)) hget
  rw [← hd]
  simp only [Scene.datum?, Scene.place?, ha, ha', Option.map_some, hheld]

/-- A memory operand with its parts in registers is folded, and another one is addressed through the
temporary register. It is worth what it was. -/
theorem works_aimedAddress {base index : Option Operand} {scale : UInt8} {disp : Int64} {t : Ty}
    (hd : e.datum? s (.indirect base index scale disp t) = some d)
    (hreach : Reachable e cx s (.indirect base index scale disp t)) (i : Instr) :
    Works e (address cx .first base index scale disp t (.of i)) (fun s1 => s1 = s) fun d1 s1 =>
      ∃ o', d1.instr.first = some o' ∧ o'.ty = t ∧ e.datum? s1 o' = some d := by
  obtain ⟨a, ha⟩ : ∃ a, e.address? s base index scale disp = some a := by
    obtain ⟨p, hp, -⟩ := Option.map_eq_some_iff.mp hd
    obtain ⟨a, ha, -⟩ := Option.map_eq_some_iff.mp hp
    exact ⟨a, ha⟩
  have hload := hreach.loadable base index scale disp t rfl
  cases hneeds : needsTemp e.locs (.indirect base index scale disp t) with
  | true =>
    refine Works.mono (works_address ha hload (hreach.parts hneeds base index scale disp t rfl)
      fun other o h => by cases h) (fun _ h => h) ?_
    rintro d1 s1 ⟨⟨b, x, f, k, hget, -, -, -, -, haddr, -⟩, hre⟩
    refine ⟨_, hget, rfl, datum?_of_address hd ha haddr fun x => ?_⟩
    cases hre with
    | folded => rfl
    | loaded o reserved rest =>
      cases reserved with
      | free => exact rest.mem x fun a h => by cases h
      | spilled holder => cases holder
  | false =>
    refine ⟨extends_address cx .first base index scale disp t _, ?_⟩
    intro s1 st d1 st1 code hs hok hlocs _ hcode
    subst hs
    rcases address_cases hok with ⟨-, rfl, rfl⟩ | ⟨htemp, -⟩
    · rw [List.self_eq_append_right.mp hcode]
      rcases hfold : foldAddress base index scale disp with ⟨b, x, f, k⟩
      obtain ⟨-, -, haddr⟩ := address?_folded ha hload.lone hfold
      refine ⟨.indirect b x f k t, ?_, rfl, datum?_of_address hd ha haddr fun _ => rfl⟩
      change some (folded base index scale disp t) = _
      rw [folded, hfold]
    · rw [hlocs, hneeds] at htemp
      cases htemp

theorem works_aimed (hliteral : ∀ l, o ≠ .imm l) (hd : e.datum? s o = some d)
    (hreach : Reachable e cx s o) :
    Works e (source cx .first false (.of (.make .move (some o) none none))) (fun s1 => s1 = s)
      fun d1 s1 => ∃ o', d1.instr.first = some o' ∧ o'.ty = o.ty ∧ e.datum? s1 o' = some d := by
  have hself : ∀ s1, s1 = s → ∃ o', some o = some o' ∧ o'.ty = o.ty ∧ e.datum? s1 o' = some d := by
    rintro s1 rfl
    exact ⟨o, rfl, rfl, hd⟩
  cases o with
  | imm l => exact absurd rfl (hliteral l)
  | var v => exact works_bind (works_locate cx v) fun _ => works_pure fun s1 h1 => hself s1 h1.1
  | indirect base index scale disp t => exact works_aimedAddress hd hreach _
  | _ => exact works_pure hself

theorem callee_eq (ho : cx.instr.first = some o) (hsymbol : ∀ y, o ≠ .symbol y) : callee cx = (do
    let d ← source cx .first false (.of (.make .move (some o) none none))
    emit cx .move d.instr.first none (some (.reg regR10))
    pure (.reg regR10)) := by
  unfold callee
  rw [ho]
  cases o with
  | symbol y => exact absurd rfl (hsymbol y)
  | _ => rfl

/-- What is called comes to the temporary register as a whole word. -/
theorem works_callee (ho : cx.instr.first = some o) (hsymbol : ∀ y, o ≠ .symbol y)
    (hliteral : ∀ l, o ≠ .imm l) (hd : e.datum? s o = some d) (hreach : Reachable e cx s o) :
    Works e (callee cx) (fun s1 => s1 = s) fun f s' =>
      f = .reg regR10 ∧ s'.regs Machine.r10 = d.brought 8 := by
  rw [callee_eq ho hsymbol]
  refine works_bind (works_aimed hliteral hd hreach) fun d1 => ?_
  refine works_bind (Q := fun _ s' => s'.regs Machine.r10 = d.brought 8)
    (works_keep fun s1 h1 => ?_) fun _ => works_pure fun s' h => ⟨rfl, h⟩
  obtain ⟨o', ho', -, hd'⟩ := h1
  rw [ho']
  refine ⟨_, 8, _, Nat.le_refl 8, effect?_move hd' rfl, fun s2 h2 => ?_⟩
  have hget : s2.get (.reg Machine.r10) 8 = s2.regs Machine.r10 := BitVec.setWidth_eq _
  exact hget.symm.trans h2.value

end Callee

/-! ## Calls -/

/-- Where an operand is read: at its own place and at those of the parts of its address. -/
def ReadAt (e : Scene) (s : Machine.State) (o : Operand) (p : Place) (n : Nat) : Prop :=
  (e.place? s o = some p ∧ n = width o) ∨
    ∃ base index scale disp t part, o = .indirect base index scale disp t ∧
      (base = some part ∨ index = some part) ∧ e.place? s part = some p ∧ n = width part

/-- What a call emits before it reads what is called leaves that alone. If anything is emitted, it
is not read from r10 or r11, from the stack pointer that moves, from the words of the arguments on
the stack, or from a register into which an argument is loaded, which is what nothing checks. -/
def Undisturbed (e : Scene) (s : Machine.State) (i : Instr) (o : Operand) : Prop :=
  (argState i).stack ≠ [] ∨ loadedRegs e.locs (argState i).moves ≠ [] → ∀ p n, ReadAt e s o p n →
    Spared (loadedRegs e.locs (argState i).moves) (argRoom (argState i)) s p n

section Call

variable {e : Scene} {cx : Context} {st st' : State} {s s' : Machine.State} {o : Operand}
  {d : Datum}

/-- An operand whose bytes are spared is read as it was. -/
theorem worth_of_disturbs {dests : List Place} {room : Nat} (h : Disturbs dests room s s')
    (hspared : ∀ p n, ReadAt e s o p n → Spared dests room s p n) :
    e.place? s' o = e.place? s o ∧ e.datum? s' o = e.datum? s o :=
  worth_of_get
    (fun base index scale disp t ho part hpart p hp =>
      h.get (hspared p _ (.inr ⟨base, index, scale, disp, t, part, ho, hpart, hp, rfl⟩))
        (width_le_eight part))
    fun p hp => h.get (hspared p _ (.inl ⟨hp, rfl⟩)) (width_le_eight o)

/-- The code that spares r10 leaves it. -/
theorem r10_of_spares {code : List Instr} (h : ∀ i ∈ code, Spares regR10.key i)
    (hrun : LineRun e code s s') : s'.regs Machine.r10 = s.regs Machine.r10 := by
  induction hrun with
  | nil => rfl
  | cons step _ ih =>
    have hfirst := h _ List.mem_cons_self
    refine (ih fun i hi => h i (by simp [hi])).trans ?_
    cases step with
    | push op => exact absurd op hfirst.not_push
    | write output place value after =>
      refine after.regs Machine.r10 ?_ (by decide)
      rcases hfirst.output with ⟨offset, t, hout⟩ | ⟨r, hout, hr⟩
      · obtain rfl := Option.some.inj (hout.symm.trans output)
        cases place
        simp
      · obtain rfl := Option.some.inj (hout.symm.trans output)
        cases place
        exact fun he => hr ((Reg.place_eq_iff r regR10).mp he)

theorem extends_parallel (moves : List Move) : Extends (parallel cx moves) :=
  parallel_rule (R := Extends) cx (extends_pure ()) (extends_fail cx)
    (fun i _ _ hk => extends_bind (extends_keep i) fun _ => hk) fun _ hf =>
      extends_bind extends_get hf

theorem extends_finishCall (args : ArgState) (f : Operand) (bytes : Nat) :
    Extends (finishCall cx args f bytes) := by
  have hafter : Extends (afterCall cx bytes) := by
    unfold afterCall storeResult
    refine extends_when (extends_keep _) ?_
    split
    · exact extends_bind (extends_dest cx .output _) fun d => extends_keep _
    · exact extends_pure ()
  have hcount : Extends (countFloats cx args.args.floats) := by
    unfold countFloats
    split <;> exact extends_keep _
  exact extends_when hcount (extends_bind (extends_keep _) fun _ => hafter)

theorem runnable_of_spares {key : Nat} {i : Instr} (h : Spares key i) :
    IsRunnable i ∧ i.op ≠ .call ∧ i.op ≠ .rtCall := by
  refine ⟨.inr ?_, ?_⟩
  · rcases h.output with ⟨offset, t, hout⟩ | ⟨r, hout, -⟩
    · exact .inr ⟨offset, t, hout⟩
    · exact .inl ⟨r, hout⟩
  · rcases h.op with hop | hop | hop | hop | hop <;> simp [hop]

theorem preliminary_argPadding (args : ArgState) :
    Preliminary e [] (argPadding args) (padding cx args) := by
  unfold padding
  split
  · exact preliminary_padding _ _
  · rename_i h
    rw [Nat.eq_zero_of_not_pos h]
    exact .nil

/-- What a call emits before it looks at what it calls: the padding, the arguments on the stack, and
the memory arguments that need the temporary register. -/
theorem CallRun.exists_early {args : ArgState} {padded pushed loaded aimed moved : State}
    {moves : List Move} {f : Operand} {count rest : List Instr} {items : List Operand}
    (run : CallRun cx st st' args padded pushed loaded aimed moved moves f count rest)
    (assigned : Assigned items args) (hlocs : st.closure.locations = e.locs) :
    loaded.closure.locations = e.locs ∧ (∀ m ∈ moves, Elsewhere regR10.key m) ∧
      ∃ early, loaded.out = st.out ++ early ∧
        Preliminary e (loadedRegs e.locs args.moves) (argRoom args) early ∧
        (args.stack = [] → loadedRegs e.locs args.moves = [] → early = []) := by
  have hplain : ∀ p ∈ args.moves.zipIdx, ∃ r a, p.1 = ⟨.reg r, a, false⟩ ∧ r.key ∈ argKeys := by
    intro p hp
    obtain ⟨before, a, after, r, -, hplace, hm⟩ :=
      assigned.moves p.1 (List.fst_mem_of_mem_zipIdx hp)
    exact ⟨r, a, hm, mem_argKeys hplace⟩
  obtain ⟨hlocs1, code1, hcode1, hpush, hnil1⟩ := preliminary_pushes (e := e) run.push
  have hpadded : padded.closure.locations = e.locs := by
    rw [run.start]
    exact hlocs
  have hload := run.load
  rw [directArgs_eq] at hload
  obtain ⟨lefts, s1, hmap, h⟩ := run_bind.mp hload
  cases h
  obtain ⟨hlocs2, helse, code2, hcode2, hloads, hnil2⟩ :=
    preliminary_directArgs hplain (hlocs1.trans hpadded) hmap
  rw [show args.moves.zipIdx.map Prod.fst = args.moves by simp [List.zipIdx_map_fst]]
    at hloads hnil2
  refine ⟨hlocs2, fun m hm => ?_, padding cx args ++ code1 ++ code2, ?_, ?_, fun hstack hregs => ?_⟩
  · obtain ⟨left, hleft, heq⟩ := List.mem_filterMap.mp hm
    exact helse left hleft m heq
  · rw [hcode2, hcode1, run.start]
    simp
  · have hpad : Preliminary e [] (argPadding args) (padding cx args) := preliminary_argPadding args
    have hall := (hpad.append hpush).append hloads
    rw [List.length_reverse] at hall
    rwa [show argPadding args + 8 * args.stack.length + 0 =
      argRoom args by rw [argRoom]; omega] at hall
  · have hzero : argPadding args = 0 := by
      rw [argPadding, hstack]
      rfl
    rw [hnil1 (by simp [hstack]), hnil2 hregs]
    simp [padding, hzero]

/-- An operand that is reachable stays so while the bytes at its place and at those of its parts
do. -/
theorem Reachable.of_places {s1 : Machine.State} (h : Reachable e cx s o)
    (hd : e.datum? s o = some d) :
    Reachable e cx s1 o where
  loadable := h.loadable
  parts hneeds base index scale disp t ho part hpart p hp := by
    subst ho
    obtain ⟨q, hq, -⟩ := Option.map_eq_some_iff.mp hd
    obtain ⟨a, ha, -⟩ := Option.map_eq_some_iff.mp hq
    refine h.parts hneeds base index scale disp t rfl part hpart p ?_
    exact (place?_part ha hpart s1).symm.trans hp

/-- An indirect call goes where its operand said before the first line of the call. The lines before
the call can be run, and after every run of them r10 holds what the operand was worth, if what the
lines before it take is not what it is read from, and its address can be computed. -/
theorem indirect_call_goes_where_told (hok : call cx st = .ok ((), st'))
    (ho : cx.instr.first = some o) (hsymbol : ∀ y, o ≠ .symbol y) (hliteral : ∀ l, o ≠ .imm l)
    (hlocs : st.closure.locations = e.locs) (hplaces : e.Places st'.closure)
    (hd : e.datum? s o = some d) (hreach : Reachable e cx s o)
    (hcalm : Undisturbed e s cx.instr o) :
    ∃ pre used rest, st'.out = st.out ++ pre ++ callInstr cx (.reg regR10) used :: rest ∧
      (∀ i ∈ pre, i.op ≠ .call ∧ i.op ≠ .rtCall) ∧ (∃ s', LineRun e pre s s') ∧
      ∀ s', LineRun e pre s s' → s'.regs Machine.r10 = d.brought 8 := by
  obtain ⟨padded, pushed, loaded, aimed, moved, moves, f, count, rest, run⟩ := exists_callRun hok
  obtain ⟨hlocs1, helse, early, hearly, hprelim, hnone⟩ :=
    run.exists_early (assigned_foldl (callArgs cx.instr)) hlocs
  -- When the operand is read, it is worth what it was.
  have hthere : ∀ s1, LineRun e early s s1 → e.datum? s1 o = some d := by
    intro s1 hrun
    by_cases hbusy : (argState cx.instr).stack ≠ [] ∨
      loadedRegs e.locs (argState cx.instr).moves ≠ []
    · exact (worth_of_disturbs (hprelim.disturbs s s1 hrun) (hcalm hbusy)).2.trans hd
    · obtain ⟨hstack, hregs⟩ := not_or.mp hbusy
      rw [hnone (not_not.mp hstack) (not_not.mp hregs)] at hrun
      cases hrun
      exact hd
  obtain ⟨⟨aim, haim, hwork⟩, -, -⟩ := appends_callee _ _ _ run.aim
  obtain ⟨⟨assign, hassign, hspares⟩, -, -⟩ :=
    appends_assignment (show regR10.key ≠ regXmm13.key by decide) helse _ _ _ run.assign
  have hplaces' : e.Places aimed.closure := by
    obtain ⟨-, -, hgrows⟩ := extends_parallel _ _ _ _ run.assign
    obtain ⟨-, -, hgrows'⟩ := extends_finishCall _ _ _ _ _ _ run.finish
    exact fun key name h => hplaces key name (hgrows' key name (hgrows key name h))
  have haimed : ∀ s1, LineRun e early s s1 →
      Ensures e aim s1 fun s2 => f = .reg regR10 ∧ s2.regs Machine.r10 = d.brought 8 := fun s1 h1 =>
    (works_callee ho hsymbol hliteral (hthere s1 h1) (hreach.of_places hd)).ensures s1 loaded f
      aimed aim rfl run.aim hlocs1 hplaces' haim
  have hcount := run.spared regR10.key (by decide)
  have htemp := preliminary_tempWork (e := e) hwork
  let pre := early ++ aim ++ (assign ++ count)
  have hlines : ∀ i ∈ pre, IsRunnable i ∧ i.op ≠ .call ∧ i.op ≠ .rtCall := by
    intro i hi
    simp only [pre, List.mem_append] at hi
    rcases hi with (hi | hi) | hi | hi
    · exact ⟨hprelim.runnable i hi, hprelim.silent i hi⟩
    · exact ⟨htemp.runnable i hi, htemp.silent i hi⟩
    · exact runnable_of_spares (hspares i hi)
    · exact runnable_of_spares (hcount i hi)
  have hafter : ∀ s', LineRun e pre s s' → f = .reg regR10 ∧ s'.regs Machine.r10 = d.brought 8 := by
    intro s' hrun
    obtain ⟨s2, hrun, hlast⟩ := lineRun_append hrun
    obtain ⟨s1, h1, h2⟩ := lineRun_append hrun
    obtain ⟨hf, hword⟩ := (haimed s1 h1).of_run h2
    refine ⟨hf, (r10_of_spares (fun i hi => ?_) hlast).trans hword⟩
    exact (List.mem_append.mp hi).elim (hspares i) (hcount i)
  obtain ⟨s', hrun⟩ := exists_lineRun (e := e) (fun i hi => (hlines i hi).1) s
  obtain ⟨rfl, -⟩ := hafter s' hrun
  refine ⟨pre, usedRegs cx (argState cx.instr) (.reg regR10), rest, ?_, fun i hi => (hlines i hi).2,
    ⟨s', hrun⟩, fun s' h => (hafter s' h).2⟩
  rw [run.code, hassign, haim, hearly]
  simp [pre]

end Call

theorem mem_not_mem_loadedRegs (locs : Locations) (moves : List Move) (a : BitVec 64) :
    Place.mem a ∉ loadedRegs locs moves := by
  intro h
  obtain ⟨m, -, hm⟩ := List.mem_filterMap.mp h
  obtain ⟨r, -, hr⟩ := Option.map_eq_some_iff.mp hm
  unfold Reg.place at hr
  cases hcls : r.cls <;> simp [hcls] at hr

/-- Without arguments on the stack the memory is left. -/
theorem spared_mem (locs : Locations) (moves : List Move) (s : Machine.State) (a : BitVec 64)
    (n : Nat) :
    Spared (loadedRegs locs moves) 0 s (.mem a) n :=
  ⟨by simp, by simp, by simp, mem_not_mem_loadedRegs locs moves a,
    fun x hx => by simp [Place.covers] at hx⟩

/-- `%p:ptr` and `%t:ptr` are in the frame, and `%f:ptr` is in rdi, the register of the first
argument. -/
def calleeScene : Scene :=
  ⟨⟨⟨fun _ => 0, fun _ => 0⟩, [("p", ⟨none, some (-8)⟩), ("t", ⟨none, some (-16)⟩),
    ("f", ⟨some (gpr Machine.rdi 8), none⟩)], 0x1000⟩, []⟩

def calleePointer : Operand := .var ⟨"p", .ptr, false, false⟩

/-- `%p:ptr` points at a seven and `%t:ptr` at 0x3000, and the second word there is 0x400000, which
is `%f:ptr` as well. -/
def calleeState : Machine.State :=
  ⟨fun id => if id = Machine.rdi then 0x400000 else if id = Machine.rsp then 0xFE0 else 0,
    fun _ => 0, fun x => if x = 0xFF9 then 0x20 else if x = 0xFF1 then 0x30 else if x =
    0x2000 then 7
      else if x = 0x300A then 0x40 else 0⟩

def calleeStart : State := ⟨⟨"g", "g", true, .void, [], [], calleeScene.locs, [], [], 0, []⟩, []⟩

/-- A call of the operand with the argument `[%p:ptr]:i64`. -/
def calling (o : Operand) : Context :=
  ⟨[], none, .make .call (some o)
    (some (.list [.indirect (some calleePointer) none 0 0 .i64])) none⟩

/-- `[%t:ptr + 8]:ptr` -/
def tableEntry : Operand := .indirect (some (.var ⟨"t", .ptr, false, false⟩)) none 0 8 .ptr

/-- A call through a table in the frame goes where the table says. -/
theorem table_call_goes_where_told : ∃ st' pre used rest,
    call (calling tableEntry) calleeStart = .ok ((), st') ∧
      st'.out = pre ++ callInstr (calling tableEntry) (.reg regR10) used :: rest ∧
      (∃ s', LineRun calleeScene pre calleeState s') ∧
      ∀ s', LineRun calleeScene pre calleeState s' → s'.regs Machine.r10 = 0x400000 := by
  obtain ⟨st', hok⟩ : ∃ st', call (calling tableEntry) calleeStart = .ok ((), st') := ⟨_, rfl⟩
  have hplaces : calleeScene.Places st'.closure := by
    cases hok
    exact fun key name h => h
  have hd : calleeScene.datum? calleeState tableEntry = some ⟨false, 8, 0x400000⟩ := rfl
  have hreach : Reachable calleeScene (calling tableEntry) calleeState tableEntry := by
    refine ⟨fun base index scale disp t ho => ?_,
      fun _ base index scale disp t ho part hpart p hp => ?_⟩
    · cases ho
      exact ⟨fun y hy => (by cases hy), fun b i _ hi => (by cases hi)⟩
    · cases ho
      obtain ⟨⟨⟩⟩ | ⟨⟨⟩⟩ := hpart
      cases hp
      exact fun x hx b hb => by cases hb
  have hcalm : Undisturbed calleeScene calleeState (calling tableEntry).instr tableEntry := by
    rintro - p n (⟨hp, rfl⟩ | ⟨base, index, scale, disp, t, part, ho, hpart, hp, rfl⟩)
    · cases hp
      exact spared_mem ..
    · cases ho
      obtain ⟨⟨⟩⟩ | ⟨⟨⟩⟩ := hpart
      cases hp
      exact spared_mem ..
  obtain ⟨pre, used, rest, hout, -, hruns, hword⟩ := indirect_call_goes_where_told hok rfl
    (fun y h => by cases h) (fun l h => by cases h) rfl hplaces hd hreach hcalm
  exact ⟨st', pre, used, rest, hok, hout, hruns, hword⟩

/-- `%f:ptr` -/
def heldCallee : Operand := .var ⟨"f", .ptr, false, false⟩

/-- What a call of `%f:ptr` emits before it. -/
def heldCalleeLines : List Instr :=
  [.make .move (some calleePointer) none (some (.reg regR10)),
    .make .move (some (.indirect (some (.reg regR10)) none 1 0 .i64)) none
    (some (.reg (gpr Machine.rdi 8))),
    .make .move (some heldCallee) none (some (.reg regR10))]

/-- Nothing checks what is called against the arguments that are loaded first: a callee in the
register of such an argument is gone when it is read. -/
theorem callee_lost_to_loaded_argument : ∃ st' used,
    call (calling heldCallee) calleeStart = .ok ((), st') ∧
      st'.out = heldCalleeLines ++ [callInstr (calling heldCallee) (.reg regR10) used] ∧
      calleeScene.datum? calleeState heldCallee = some ⟨false, 8, 0x400000⟩ ∧
      (∃ s', LineRun calleeScene heldCalleeLines calleeState s') ∧
      ∀ s', LineRun calleeScene heldCalleeLines calleeState s' → s'.regs Machine.r10 = 7 := by
  refine ⟨_, _, rfl, rfl, rfl, exists_lineRun (fun i hi => ?_) _, fun s' hrun =>
    Ensures.of_run (Q := fun s' => s'.regs Machine.r10 = 7) ?_ hrun⟩
  · simp only [heldCalleeLines, List.mem_cons, List.not_mem_nil, or_false] at hi
    rcases hi with rfl | rfl | rfl <;> exact .inr (.inl ⟨_, rfl⟩)
  · have hpointer : calleeScene.datum? calleeState calleePointer = some ⟨false, 8, 0x2000⟩ := rfl
    refine ⟨_, 8, _, Nat.le_refl 8, effect?_move hpointer rfl, fun s1 h1 => ?_⟩
    have htemp : InTemp 0x2000 calleeState s1 := inTemp_of_assigns (.refl _) h1
    have haddr : calleeScene.address? s1 (some (.reg regR10)) none 1 0 = some 0x2000 := by
      rw [Scene.address?, show regR10 = tempReg .i64 from rfl, (base?_temp htemp).1]
      rfl
    have hbefore : calleeScene.datum? calleeState (.indirect (some calleePointer) none 0 0 .i64) =
        some ⟨true, 8, 7⟩ := rfl
    have hload : calleeScene.datum? s1 (.indirect (some (.reg regR10)) none 1 0 .i64) =
        some ⟨true, 8, 7⟩ :=
      datum?_of_address hbefore rfl haddr fun x => h1.mem x fun h => by cases h
    refine ⟨_, 8, _, Nat.le_refl 8, effect?_move hload rfl, fun s2 h2 => ?_⟩
    have hheld : calleeScene.datum? s2 heldCallee = some ⟨false, 8, 7⟩ :=
      congrArg some (congrArg (Datum.mk false 8) h2.value)
    refine ⟨_, 8, _, Nat.le_refl 8, effect?_move hheld rfl, fun s3 h3 => ?_⟩
    exact (BitVec.setWidth_eq _).symm.trans h3.value

end Backend.Lowering
