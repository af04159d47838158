-- The words that a call pushes. Every argument on the stack is found there at the call as it was
-- before the first line of the call, if it was not read from what the lines before it take.
import Backend.Proofs.Lowering.IndirectCall

namespace Backend.Lowering

open Backend.Machine (Place Assigns)

/-! ## Values at places -/

/-- The bytes at a place are those of a value, as far as the type goes and the value has them. -/
def Carries (s : Machine.State) (p : Place) (t : Ty) (d : Datum) : Prop :=
  ∀ n ≤ registerWidth t, n ≤ d.width → s.get p n = d.brought n

/-- A float literal is in the data where the scene has it. -/
def FloatThere (e : Scene) (s : Machine.State) (a : Operand) : Prop :=
  ∀ w x name, a = .imm (.float w x) → e.imms.lookup (Literal.float w x).key = some name →
    s.get (.mem (e.link.symbol name)) w.ty.size = (floatBits w x).setWidth _

/-- An argument that can be taken while so many bytes are pushed: it is read neither from r10 or r11
nor from the words that are pushed, from the stack pointer only if that stays, its address can be
computed, and a float literal is in the data. -/
structure Takeable (e : Scene) (cx : Context) (s : Machine.State) (room : Nat) (a : Operand) :
    Prop where
  spared : ∀ p n, ReadAt e s a p n → Spared [] room s p n
  reachable : Reachable e cx s a
  float : FloatThere e s a
  apart : ∀ w x name, a = .imm (.float w x) →
    e.imms.lookup (Literal.float w x).key = some name →
    Spared [] room s (.mem (e.link.symbol name)) w.ty.size

/-- An integer can always be taken. -/
theorem takeable_int {e : Scene} {cx : Context} {s : Machine.State} {room : Nat} (w : IntWidth)
    (value : Int64) : Takeable e cx s room (.imm (.int w value)) := by
  refine ⟨?_, ⟨by simp, by simp⟩, by simp [FloatThere], by simp⟩
  rintro p n (⟨⟨⟩, -⟩ | ⟨base, index, scale, disp, t, part, ⟨⟩, -⟩)

section Disturbs

variable {dests dests' : List Place} {room room' : Nat} {s s' : Machine.State}

theorem Disturbs.mono (h : Disturbs dests room s s') (hsub : dests ⊆ dests') :
    Disturbs dests' room s s' where
  rsp := h.rsp
  regs r h10 h11 hsp hr := h.regs r h10 h11 hsp fun hin => hr (hsub hin)
  xmms r hr := h.xmms r fun hin => hr (hsub hin)
  mem := h.mem

/-- The bytes below the stack pointer are among any larger number of them. -/
theorem covers_roomBelow_mono (hle : room ≤ room') {x : BitVec 64}
    (hx : (Place.mem (roomBelow s room)).covers room x) :
    (Place.mem (roomBelow s room')).covers room' x := by
  have hshift : x - roomBelow s room' = x - roomBelow s room + BitVec.ofNat 64 (room' - room) := by
    have hsum : BitVec.ofNat 64 room' = BitVec.ofNat 64 room + BitVec.ofNat 64 (room' - room) := by
      rw [← BitVec.ofNat_add, Nat.add_sub_cancel' hle]
    rw [roomBelow, roomBelow, hsum]
    abel
  simp only [Place.covers] at hx ⊢
  rw [hshift, BitVec.toNat_add, BitVec.toNat_ofNat]
  omega

theorem Spared.mono {p : Place} {n : Nat} (h : Spared [] room' s p n) (hle : room ≤ room')
    (hdests : p ∉ dests) : Spared dests room s p n := by
  obtain ⟨h10, h11, hsp, -, hsep⟩ := h
  refine ⟨h10, h11, fun hp => ?_, hdests, ?_⟩
  · have := hsp hp
    omega
  · cases p with
    | mem a => exact fun x hx => hsep x (covers_roomBelow_mono hle hx)
    | _ => trivial

/-- A word at the stack pointer stays while less than the whole memory is pushed below it. -/
theorem Disturbs.get_top (h : Disturbs dests room s s') (hroom : room + 8 ≤ 2 ^ 64) {n : Nat}
    (hn : n ≤ 8) :
    s'.get (.mem (s'.regs Machine.rsp + BitVec.ofNat 64 room)) n =
      s.get (.mem (s.regs Machine.rsp)) n := by
  have haddr : s'.regs Machine.rsp + BitVec.ofNat 64 room = s.regs Machine.rsp := by
    rw [h.rsp, roomBelow]
    exact BitVec.sub_add_cancel _ _
  rw [haddr]
  refine Machine.readBytes_congr _ _ _ n (by omega) fun x hx => h.mem x fun hlow => ?_
  have hshift : x - roomBelow s room = x - s.regs Machine.rsp + BitVec.ofNat 64 room := by
    rw [roomBelow]
    abel
  simp only [Place.covers] at hx hlow
  rw [hshift, BitVec.toNat_add, BitVec.toNat_ofNat] at hlow
  omega

end Disturbs

/-! ## One word -/

section Push

variable {e : Scene} {cx : Context} {st st' : State} {s s' : Machine.State} {a : Operand}
  {d : Datum} {code : List Instr}

/-- An argument is brought where a move can take it from, with all its bytes. -/
theorem works_argSource (hd : e.datum? s a = some d) (hreach : Reachable e cx s a)
    (hfloat : FloatThere e s a) :
    Works e (source cx .first false (.of (.make .move (some a) none none))) (fun s1 => s1 = s)
      fun d1 s1 => ∃ o' d', d1.instr.first = some o' ∧ registerWidth o'.ty = registerWidth a.ty ∧
        e.datum? s1 o' = some d' ∧ d.Agrees 8 d' := by
  by_cases hliteral : ∀ l, a ≠ .imm l
  · refine (works_aimed hliteral hd hreach).mono (fun _ h => h) ?_
    rintro d1 s1 ⟨o', ho', hty, hd'⟩
    exact ⟨o', d, ho', by rw [hty], hd', .refl 8 d⟩
  · simp only [ne_eq, not_forall, not_not] at hliteral
    obtain ⟨l, rfl⟩ := hliteral
    cases l with
    | int w v =>
      refine works_pure fun s1 hs1 => ⟨_, d, rfl, rfl, ?_, .refl 8 d⟩
      rwa [hs1]
    | bool word =>
      refine works_pure fun s1 hs1 => ⟨_, d, rfl, rfl, ?_, .refl 8 d⟩
      rwa [hs1]
    | float w x =>
      refine works_bind (works_materialize _) fun y => works_pure ?_
      rintro s1 ⟨rfl, name, rfl, hname⟩
      have hbits := hfloat w x name rfl hname
      refine ⟨_, d, rfl, rfl, ?_, .refl 8 d⟩
      rw [← hd]
      cases w <;> simp only [Scene.datum?, ← hbits] <;> rfl
    | string bytes =>
      refine works_bind (works_materialize _) fun y => ?_
      refine ⟨extends_bind (extends_reserveTemp cx .first _) fun d1 =>
        extends_bind (extends_keep _) fun _ => extends_pure _, ?_⟩
      rintro s1 st d1 st1 code ⟨rfl, name, rfl, hname⟩ hok hlocs hplaces hcode
      rw [reserveTemp_of_free cx rfl] at hok
      cases hok
      obtain rfl := List.append_cancel_left hcode
      refine ⟨_, _, _, width_le_eight _, effect?_lea _ (place?_temp s1 .str), fun s2 h2 => ?_⟩
      obtain rfl : (⟨false, 8, e.link.symbol name⟩ : Datum) = d := by
        simpa [Scene.datum?, hname] using hd
      have hbits : s2.get (.reg Machine.r10) 8 =
          (⟨false, 8, e.link.symbol name⟩ : Datum).brought 8 := by
        rw [Datum.brought_self ⟨false, 8, e.link.symbol name⟩]
        have hvalue : s2.get (.reg Machine.r10) 8 = (e.link.symbol name).setWidth (8 * 8) :=
          h2.value
        exact hvalue.trans (BitVec.setWidth_eq _)
      have hword : e.datum? s2 (.reg (tempReg .str)) =
          some ⟨true, 8, s2.get (.reg Machine.r10) 8⟩ :=
        rfl
      rw [hbits] at hword
      exact ⟨_, _, rfl, rfl, hword, Datum.agrees_brought _ _ (Nat.le_refl 8)⟩

/-- A word that is pushed is on top of the stack. -/
theorem get_pushed (s : Machine.State) (word : BitVec (8 * 8)) {n : Nat} (hn : n ≤ 8) :
    (s.push word).get (.mem ((s.push word).regs Machine.rsp)) n = word.setWidth (8 * n) := by
  have htop : (s.push word).get (.mem ((s.push word).regs Machine.rsp)) 8 = word := by
    rw [(Machine.pushed_push s word).rsp]
    exact Machine.get_push s word
  rw [← Machine.setWidth_get (s.push word) (.mem ((s.push word).regs Machine.rsp)) 8 n hn, htop]

/-- The word that a line pushes is what its operand is worth. -/
theorem carries_of_push {o : Operand} {d' : Datum} {t : Ty} {pos : Position}
    (hd' : e.datum? s o = some d')
    (hd : ∀ n ≤ registerWidth t, n ≤ d.width → n ≤ d'.width ∧ d'.brought n = d.brought n)
    (h : LineStep e ⟨.push, some o, none, none, none, pos⟩ s s') :
    Carries s' (.mem (s'.regs Machine.rsp)) t d := by
  cases h with
  | write output => cases output
  | @push word _ value after =>
    subst after
    intro n hn hwidth
    have hn8 : n ≤ 8 := hn.trans (registerWidth_le_eight t)
    obtain ⟨hwidth', hbytes⟩ := hd n hn hwidth
    rw [get_pushed s word hn8, value d' hd' n hn8 hwidth', hbytes]

/-- The temporary register is pushed when it begins with the bytes of the argument. -/
theorem carries_of_pushTemp {s1 : Machine.State} {pos : Position}
    (htemp : ∀ n ≤ registerWidth a.ty, s1.get (.reg Machine.r10) n = d.brought n)
    (hstep : LineStep e ⟨.push, some (.reg regR10), none, none, none, pos⟩ s1 s') :
    Carries s' (.mem (s'.regs Machine.rsp)) a.ty d := by
  have hword : e.datum? s1 (.reg regR10) = some ⟨true, 8, s1.get (.reg Machine.r10) 8⟩ := rfl
  refine carries_of_push hword (fun n hn _ => ?_) hstep
  have hn8 : n ≤ 8 := hn.trans (registerWidth_le_eight a.ty)
  refine ⟨hn8, ?_⟩
  rw [← htemp n hn]
  exact (Selection.convert_of_le _ _ hn8).trans (Machine.setWidth_get s1 _ 8 n hn8)

/-- The code that pushes an argument leaves its value on top of the stack. -/
theorem pushArg_carries (hok : pushArg cx a st = .ok ((), st'))
    (hcode : st'.out = st.out ++ code) (hlocs : st.closure.locations = e.locs)
    (hplaces : e.Places st'.closure) (hd : e.datum? s a = some d) (hreach : Reachable e cx s a)
    (hfloat : FloatThere e s a) (hrun : LineRun e code s s') :
    Carries s' (.mem (s'.regs Machine.rsp)) a.ty d := by
  have hworks := works_argSource hd hreach hfloat
  cases argPushed_of_pushArg hok with
  | direct =>
    obtain rfl := List.append_cancel_left hcode
    exact carries_of_push hd (fun n _ hn => ⟨hn, rfl⟩) (lineRun_singleton hrun)
  | @moved d1 st2 o brought first =>
    obtain ⟨⟨code1, hcode1⟩, -, -⟩ := hworks.extension _ _ _ brought
    have hens := hworks.ensures s st d1 st2 code1 rfl brought hlocs hplaces hcode1
    have htype : d1.typeAt .first = o.ty := by simp [Draft.typeAt, Slot.get, first]
    rw [hcode1, List.append_assoc, htype] at hcode
    obtain rfl := List.append_cancel_left hcode
    obtain ⟨s1, hrun1, hrun2⟩ := lineRun_append hrun
    obtain ⟨o', d', ho', hty, hd', hagree⟩ := hens.of_run hrun1
    obtain rfl := Option.some.inj (first.symm.trans ho')
    cases hrun2 with
    | @cons _ _ _ s2 _ hstep hrun3 =>
      refine carries_of_pushTemp (fun n hn => ?_) (lineRun_singleton hrun3)
      have hvalue := (hstep.assigns (effect?_move hd' (place?_temp s1 _))).value
      rw [width_tempReg, hty] at hvalue
      rw [← hagree.1 n (hn.trans (registerWidth_le_eight a.ty)), ← d'.convert_brought true hn,
        ← hvalue, Selection.convert_of_le _ _ hn]
      exact (Machine.setWidth_get s2 _ _ n hn).symm
  | @there d1 st2 t brought first =>
    obtain ⟨⟨code1, hcode1⟩, -, -⟩ := hworks.extension _ _ _ brought
    have hens := hworks.ensures s st d1 st2 code1 rfl brought hlocs hplaces hcode1
    rw [hcode1, List.append_assoc] at hcode
    obtain rfl := List.append_cancel_left hcode
    obtain ⟨s2, hrun1, hrun2⟩ := lineRun_append hrun
    obtain ⟨o', d', ho', hty, hd', hagree⟩ := hens.of_run hrun1
    obtain rfl := Option.some.inj (first.symm.trans ho')
    refine carries_of_pushTemp (fun n hn => ?_) (lineRun_singleton hrun2)
    have hwidth : n ≤ width (.reg (tempReg t)) := by
      rw [width_tempReg, ← registerWidth_tempReg, hty]
      exact hn
    obtain rfl := Option.some.inj hd'
    rw [← hagree.1 n (hn.trans (registerWidth_le_eight a.ty))]
    exact ((Selection.convert_of_le _ _ hwidth).trans (Machine.setWidth_get s2 _ _ n hwidth)).symm

end Push

/-! ## The lines after the pushes -/

theorem preliminary_fills {e : Scene} {dests : List Place} {code : List Instr}
    (h : ∀ i ∈ code, Fills dests i) : Preliminary e dests 0 code where
  runnable i hi := by
    obtain ⟨r, hout, -⟩ := (h i hi).output
    exact .inr (.inl ⟨r, hout⟩)
  silent i hi := by
    rcases (h i hi).op with hop | hop | hop <;> simp [hop]
  disturbs s s' hrun := by
    induction hrun with
    | nil => exact (Disturbs.refl _).mono (List.nil_subset _)
    | cons step _ ih =>
      have hfills := h _ List.mem_cons_self
      obtain ⟨r, hout, hr, hrsp⟩ := hfills.output
      have hpush : ∀ {o : Opcode}, (o = .move ∨ o = .lea ∨ o = .clr) → o ≠ .push := by
        rintro o (rfl | rfl | rfl) <;> simp
      obtain ⟨n, v, hv⟩ := assigns_of_output (hpush hfills.op) hout step
      have hfirst : Disturbs dests 0 _ _ :=
        (disturbs_register hrsp hv).mono (List.cons_subset.mpr ⟨hr, List.nil_subset _⟩)
      exact (hfirst.trans (ih fun i hi => h i (by simp [hi]))).mono
        (List.append_subset.mpr ⟨List.Subset.refl _, List.Subset.refl _⟩)

/-- The simultaneous assignment gives values to xmm13 and to the registers that the moves go to. -/
theorem appends_fills (cx : Context) {dests : List Place} {moves : List Move}
    (h : ∀ m ∈ moves, ∃ r, m.dst = .reg r ∧ r.place ∈ dests ∧ r.key ≠ regRsp.key) :
    Appends (Fills (regXmm13.place :: dests)) (parallel cx moves) fun _ => True := by
  refine appends_parallel cx (fun m hm op src hop => ?_) fun src =>
    ⟨.inl rfl, _, rfl, List.mem_cons_self, by decide⟩
  obtain ⟨r, hdst, hr, hrsp⟩ := h m hm
  exact ⟨by tauto, r, by rw [hdst], List.mem_cons_of_mem _ hr, hrsp⟩

/-! ## The steps of a call -/

section Extends

variable (cx : Context)

theorem extends_each {α : Type} {f : α → LowerM Unit} {xs : List α} (h : ∀ x, Extends (f x)) :
    Extends (each f xs) := by
  unfold each
  induction xs with
  | nil => exact extends_pure _
  | cons x xs ih =>
    rw [List.forIn_cons]
    refine extends_bind (extends_bind (h x) fun _ => extends_pure _) fun step => ?_
    cases step with
    | done u => exact extends_pure _
    | yield u => exact ih

theorem extends_mapM {α β : Type} {f : α → LowerM β} {xs : List α} (h : ∀ x, Extends (f x)) :
    Extends (xs.mapM f) := by
  induction xs with
  | nil => exact extends_pure _
  | cons x xs ih =>
    rw [List.mapM_cons]
    exact extends_bind (h x) fun y => extends_bind ih fun ys => extends_pure _

theorem extends_pushArg (a : Operand) : Extends (pushArg cx a) := by
  have hpush : Extends (hasPush cx a) := by
    unfold hasPush
    split
    · exact extends_pure _
    · exact extends_pure _
    · exact extends_bind (extends_locate cx _) fun _ => extends_pure _
    · exact extends_pure _
    · exact extends_pure _
  unfold pushArg
  refine extends_bind hpush fun direct => ?_
  split
  · exact extends_keep _
  · exact extends_bind (extends_source cx .first false _) fun d =>
      extends_when (extends_keep _) (extends_keep _)

theorem extends_directArg (all : List Move) (index : Nat) (m : Move) :
    Extends (directArg cx all index m) := by
  unfold directArg
  split
  · split
    · exact extends_bind (extends_materialize _) fun _ => extends_pure _
    · exact extends_bind (extends_materialize _) fun _ => extends_pure _
    · exact extends_pure _
  · exact extends_bind (extends_locate cx _) fun _ => extends_pure _
  · refine extends_bind (extends_address cx .first _ _ _ _ _ _) fun d => ?_
    split
    · exact extends_pure _
    · refine extends_bind extends_get fun st => ?_
      dsimp only
      split
      · exact extends_fail cx _
      · exact extends_bind (extends_keep _) fun _ => extends_pure _
  · exact extends_pure _

theorem extends_directArgs (moves : List Move) : Extends (directArgs cx moves) :=
  extends_bind (extends_mapM fun p => extends_directArg cx moves p.2 p.1) fun _ => extends_pure _

theorem extends_callee : Extends (callee cx) := by
  unfold callee
  split
  · exact extends_fail cx _
  · exact extends_pure _
  · exact extends_bind (extends_source cx .first false _) fun d =>
      extends_bind (extends_keep _) fun _ => extends_pure _

end Extends

/-- The places of the registers that moves go to. -/
def destPlaces (locs : Locations) (moves : List Move) : List Place :=
  moves.filterMap fun m => (regOf? locs m.dst).map Reg.place

/-- The lines of the steps of a call before the call itself, and what they disturb. -/
structure Phases (e : Scene) (cx : Context) (args : ArgState)
    (padded pushed loaded aimed moved : State) (moves : List Move)
    (count pushes loads aim assign : List Instr) : Prop where
  pushed_out : pushed.out = padded.out ++ pushes
  loaded_out : loaded.out = pushed.out ++ loads
  aimed_out : aimed.out = loaded.out ++ aim
  moved_out : moved.out = aimed.out ++ assign
  pushed_locs : pushed.closure.locations = e.locs
  aimed_locs : aimed.closure.locations = e.locs
  pushes : Preliminary e [] (8 * args.stack.length) pushes
  loads : Preliminary e (loadedRegs e.locs args.moves) 0 loads
  aim : Preliminary e [] 0 aim
  assign : Preliminary e (regXmm13.place :: destPlaces e.locs moves) 0 assign
  count : Preliminary e [regRax.place] 0 count

section Run

variable {e : Scene} {cx : Context} {st st' : State} {s s' : Machine.State} {args : ArgState}
  {padded pushed loaded aimed moved : State} {moves : List Move} {f : Operand}
  {count rest : List Instr} {items : List Operand}

theorem CallRun.places (run : CallRun cx st st' args padded pushed loaded aimed moved moves f
    count rest) (hplaces : e.Places st'.closure) :
    e.Places pushed.closure ∧ e.Places loaded.closure ∧ e.Places aimed.closure := by
  obtain ⟨-, -, hfinish⟩ := extends_finishCall _ _ _ _ _ _ run.finish
  obtain ⟨-, -, hassign⟩ := extends_parallel _ _ _ _ run.assign
  obtain ⟨-, -, haim⟩ := extends_callee cx _ _ _ run.aim
  obtain ⟨-, -, hload⟩ := extends_directArgs cx _ _ _ _ run.load
  have haimed : e.Places aimed.closure := fun key name h =>
    hplaces key name (hfinish key name (hassign key name h))
  have hloaded : e.Places loaded.closure := fun key name h => haimed key name (haim key name h)
  exact ⟨fun key name h => hloaded key name (hload key name h), hloaded, haimed⟩

/-- What an argument becomes goes to the register of the argument. -/
theorem dst_of_directArgs {all : List Move} {moves : List (Move × Nat)} {lefts : List (Option Move)}
    {st st' : State} (hplain : ∀ p ∈ moves, ∃ r a, p.1 = ⟨.reg r, a, false⟩ ∧ r.key ∈ argKeys)
    (h : moves.mapM (fun p => directArg cx all p.2 p.1) st = .ok (lefts, st')) :
    ∀ m ∈ lefts.filterMap id, ∃ r, m.dst = .reg r ∧ r.key ∈ argKeys := by
  have hall := appends_mapM (P := fun _ => True)
    (f := fun p : Move × Nat => directArg cx all p.2 p.1) (Q := fun left => ∀ m, left = some m →
      ∃ r, m.dst = .reg r ∧ r.key ∈ argKeys)
    fun p (hp : p ∈ moves) s left s' h1 => by
      obtain ⟨r, a, hpair, hkey⟩ := hplain p hp
      obtain ⟨⟨code, hcode⟩, -, -⟩ := extends_directArg cx all p.2 p.1 _ _ _ h1
      rw [hpair] at h1
      exact ⟨⟨code, hcode, fun _ _ => trivial⟩, (directed_of_directArg h1).sameFrame,
        fun m hm => ⟨r, (directed_of_directArg h1).dst m hm, hkey⟩⟩
  intro m hm
  obtain ⟨left, hleft, heq⟩ := List.mem_filterMap.mp hm
  exact (hall _ _ _ h).2.2 left hleft m heq

theorem Assigned.plain (h : Assigned items args) : ∀ p ∈ args.moves.zipIdx,
    ∃ r a, p.1 = ⟨.reg r, a, false⟩ ∧ r.key ∈ argKeys := by
  intro p hp
  obtain ⟨before, a, after, r, -, hplace, hm⟩ := h.moves p.1 (List.fst_mem_of_mem_zipIdx hp)
  exact ⟨r, a, hm, mem_argKeys hplace⟩

/-- The steps of a call one after the other. -/
theorem CallRun.exists_phases
    (run : CallRun cx st st' args padded pushed loaded aimed moved moves f count rest)
    (assigned : Assigned items args) (hlocs : st.closure.locations = e.locs) :
    ∃ pushes loads aim assign,
      Phases e cx args padded pushed loaded aimed moved moves count pushes loads aim assign := by
  obtain ⟨hlocs1, pushes, hpushes, hpush, -⟩ := preliminary_pushes (e := e) run.push
  have hpadded : padded.closure.locations = e.locs := by
    rw [run.start]
    exact hlocs
  have hload := run.load
  rw [directArgs_eq] at hload
  obtain ⟨lefts, s1, hmap, h⟩ := run_bind.mp hload
  cases h
  obtain ⟨hlocs2, -, loads, hloads, hload, -⟩ :=
    preliminary_directArgs assigned.plain (hlocs1.trans hpadded) hmap
  rw [show args.moves.zipIdx.map Prod.fst = args.moves by simp [List.zipIdx_map_fst]] at hload
  obtain ⟨⟨aim, haim, hwork⟩, -, -⟩ := appends_callee _ _ _ run.aim
  obtain ⟨-, hlocs3, -⟩ := extends_callee cx _ _ _ run.aim
  have hdests : ∀ m ∈ lefts.filterMap id,
      ∃ r, m.dst = .reg r ∧ r.place ∈ destPlaces e.locs (lefts.filterMap id) ∧
      r.key ≠ regRsp.key := by
    intro m hm
    obtain ⟨r, hdst, hkey⟩ := dst_of_directArgs assigned.plain hmap m hm
    refine ⟨r, hdst, List.mem_filterMap.mpr ⟨m, hm, ?_⟩, (key_ne_of_mem_argKeys hkey).1⟩
    rw [hdst]
    rfl
  obtain ⟨⟨assign, hassign, hfills⟩, -, -⟩ := appends_fills cx hdests _ _ _ run.assign
  rw [List.length_reverse] at hpush
  exact ⟨pushes, loads, aim, assign, hpushes, hloads, haim, hassign, hlocs1.trans hpadded,
    hlocs3.trans hlocs2, hpush, hload, preliminary_tempWork hwork, preliminary_fills hfills,
    preliminary_fills run.counts⟩

/-- The lines of a call before the call itself: they can be run, there is no call among them, and a
run of them takes the room of the call. -/
theorem CallRun.exists_preliminary {args : ArgState} {items : List Operand}
    (run : CallRun cx st st' args padded pushed loaded aimed moved moves f count rest)
    (assigned : Assigned items args) (hlocs : st.closure.locations = e.locs) :
    ∃ pre dests, moved.out ++ count = st.out ++ pre ∧ Preliminary e dests (argRoom args) pre := by
  obtain ⟨pushes, loads, aim, assign, hphases⟩ := run.exists_phases assigned hlocs
  have hpad : Preliminary e [] (argPadding args) (padding cx args) := preliminary_argPadding args
  have hall := hpad.append (hphases.pushes.append
    (hphases.loads.append (hphases.aim.append (hphases.assign.append hphases.count))))
  have hroom : argPadding args + (8 * args.stack.length + (0 + (0 + (0 + 0)))) = argRoom args := by
    rw [argRoom]
    omega
  rw [hroom] at hall
  refine ⟨_, _, ?_, hall⟩
  rw [hphases.moved_out, hphases.aimed_out, hphases.loaded_out, hphases.pushed_out, run.start]
  simp

/-- What an argument needs stays as it was while no more is pushed than the call takes. -/
theorem Takeable.of_disturbs {dests : List Place} {room room' : Nat} {a : Operand} {d : Datum}
    (h : Takeable e cx s room' a) (hd : e.datum? s a = some d) (hs : Disturbs dests room s s')
    (hle : room ≤ room') (hdests : ∀ p n, ReadAt e s a p n → p ∉ dests)
    (hregs : ∀ x, Place.mem x ∉ dests) :
    e.datum? s' a = some d ∧ Reachable e cx s' a ∧ FloatThere e s' a := by
  have hworth := worth_of_disturbs hs fun p n hp => (h.spared p n hp).mono hle (hdests p n hp)
  refine ⟨hworth.2.trans hd, h.reachable.of_places hd, fun w x name ha hname => ?_⟩
  have hspared := (h.apart w x name ha hname).mono hle (hregs _)
  exact (hs.get hspared (by cases w <;> decide)).trans (h.float w x name ha hname)

/-- Every argument on the stack is there at the call, in the slot of its number. -/
theorem CallRun.carries_slot
    (run : CallRun cx st st' args padded pushed loaded aimed moved moves f count rest)
    (assigned : Assigned items args) (hlocs : st.closure.locations = e.locs)
    (hplaces : e.Places st'.closure) (hfew : args.stack.length < 2 ^ 59) {k : Nat} {a : Operand}
    {d : Datum} (hk : args.stack[k]? = some a) (hd : e.datum? s a = some d)
    (htake : Takeable e cx s (argRoom args) a) {pre : List Instr}
    (hpre : moved.out ++ count = st.out ++ pre) (hrun : LineRun e pre s s') :
    Carries s' (.mem (s'.regs Machine.rsp + BitVec.ofNat 64 (8 * k))) a.ty d := by
  obtain ⟨front, back, hstack, hlen⟩ : ∃ front back, args.stack = front ++ a :: back ∧
      front.length = k := by
    obtain ⟨hlt, hget⟩ := List.getElem?_eq_some_iff.mp hk
    refine ⟨args.stack.take k, args.stack.drop (k + 1), ?_, by simp; omega⟩
    rw [← hget, List.getElem_cons_drop, List.take_append_drop]
  obtain ⟨pushes, loads, aim, assign, hphases⟩ := run.exists_phases assigned hlocs
  have hpush := run.push
  rw [hstack, List.reverse_append, List.reverse_cons, List.append_assoc, List.singleton_append]
    at hpush
  obtain ⟨t1, h1, hpush⟩ := each_append hpush
  obtain ⟨t2, h2, h3⟩ := each_cons hpush
  obtain ⟨hlocs1, code1, hcode1, hbefore, -⟩ := preliminary_pushes (e := e) h1
  obtain ⟨⟨code2, hcode2⟩, hlocs2, -⟩ := extends_pushArg cx a _ _ _ h2
  obtain ⟨-, code3, hcode3, hafter, -⟩ := preliminary_pushes (e := e) h3
  obtain ⟨-, -, hgrows⟩ := extends_each (extends_pushArg cx) _ _ _ h3
  have hplaces2 : e.Places t2.closure := fun key name h =>
    (run.places hplaces).1 key name (hgrows key name h)
  -- What is before the push of the argument, the push, and what follows up to the call.
  obtain rfl : pre = (padding cx args ++ code1) ++ (code2 ++
      (code3 ++ (loads ++ (aim ++ (assign ++ count))))) := by
    rw [hphases.moved_out, hphases.aimed_out, hphases.loaded_out, hcode3, hcode2, hcode1,
      run.start] at hpre
    simpa using hpre.symm
  obtain ⟨s1, hrun1, hrun⟩ := lineRun_append hrun
  obtain ⟨s2, hrun2, hrun3⟩ := lineRun_append hrun
  have hfirst := ((preliminary_argPadding args).append hbefore).disturbs s s1 hrun1
  have hroom : argPadding args + 8 * back.reverse.length ≤ argRoom args := by
    rw [argRoom, hstack]
    simp
    omega
  have hstart : t1.closure.locations = e.locs := by
    rw [hlocs1, run.start]
    exact hlocs
  obtain ⟨hd1, hreach1, hfloat1⟩ := htake.of_disturbs hd hfirst hroom (by simp) (by simp)
  have htop := pushArg_carries h2 hcode2 hstart hplaces2 hd1 hreach1 hfloat1 hrun2
  have hlast := (hafter.append (hphases.loads.append (hphases.aim.append
    (hphases.assign.append hphases.count)))).disturbs s2 s' hrun3
  rw [List.length_reverse, hlen] at hlast
  intro n hn hwidth
  have hlt : k < args.stack.length := (List.getElem?_eq_some_iff.mp hk).1
  rw [← htop n hn hwidth]
  exact hlast.get_top (by omega) (hn.trans (registerWidth_le_eight a.ty))

end Run

end Backend.Lowering
