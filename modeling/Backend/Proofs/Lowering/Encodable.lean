-- What lowering and selection accept can be encoded, if the operands of the source go with its
-- operations and no literal is exchanged with an operand that its output overwrites.
import Backend.Proofs.Lowering.Passing
import Backend.Proofs.Lowering.Readiness
import Backend.Proofs.Selection.Footprint

namespace Backend.Lowering

variable {locs : Locations} {cx : Context}

/-! ## Moves at once -/

/-- Both operands of the move exist on the machine. -/
structure Move.WellPlaced (locs : Locations) (m : Move) : Prop where
  dst : WellFormed locs m.dst
  src : WellFormed locs m.src

theorem maintains_move_emit {m : Move} (h : m.WellPlaced locs) :
    Maintains (Lowered locs) (m.emit cx) fun _ => True := by
  unfold Move.emit
  refine maintains_emit ?_ (wellFormedOption_some.mpr h.src) wellFormedOption_none
    (wellFormedOption_some.mpr h.dst)
  split <;> rfl

theorem wellFormed_fullReg (locs : Locations) (key : Nat) :
    WellFormed locs (.reg (fullReg key)) := by
  simp only [WellFormed]
  unfold fullReg
  split <;> exact .inr (.inr (.inr rfl))

theorem Move.WellPlaced.redirect {m : Move} (h : m.WellPlaced locs) (locs' : Locations)
    (key : Nat) :
    (redirect locs' key m).WellPlaced locs := by
  unfold Lowering.redirect
  split
  · refine ⟨h.dst, ?_⟩
    simp only [WellFormed]
    exact isWidth_registerWidth m.src.ty
  · exact h

theorem maintains_parallelUpTo (locs' : Locations) (n : Nat) {moves : List Move}
    (h : ∀ m ∈ moves, m.WellPlaced locs) :
    Maintains (Lowered locs) (parallelUpTo cx locs' n moves) fun _ => True := by
  induction n generalizing moves with
  | zero =>
    unfold parallelUpTo
    split
    · exact maintains_pure trivial
    · exact maintains_fail cx _
    · contradiction
  | succ n ih =>
    -- A ready move and the others, before and after a cycle is broken.
    have hnext : ∀ {pending before after : List Move} {m : Move},
        (∀ m ∈ pending, m.WellPlaced locs) → splitReady locs' [] pending = some (before, m, after) →
        Maintains (Lowered locs) (do m.emit cx; parallelUpTo cx locs' n (before ++ after))
          fun _ => True := by
      intro pending before after m hp hsplit
      have he : pending = before ++ m :: after := (splitReady_some hsplit).1
      subst he
      exact maintains_bind (maintains_move_emit (hp m (by simp))) fun _ _ =>
        ih fun m' hm' => hp m' (mem_of_others hm')
    unfold parallelUpTo
    split
    · exact maintains_pure trivial
    split
    · rename_i hsplit
      exact hnext h hsplit
    split
    · exact maintains_fail cx _
    · rename_i key pending hbreak
      have hpending : ∀ m ∈ pending, m.WellPlaced locs := by
        obtain ⟨b, m, a, he, -, -, rfl⟩ := breakCycle?_some hbreak
        have he : moves = b ++ m :: a := he
        subst he
        intro m' hm'
        rcases mem_redirected hm' with rfl | ⟨m'', hm'', rfl⟩
        · exact h m' (by simp)
        · exact (h m'' (mem_of_others hm'')).redirect locs' key
      have hsave : WellFormedOption locs (some (.reg regXmm13)) := by
        rw [wellFormedOption_some]
        simp only [WellFormed]
        exact .inr (.inr (.inr rfl))
      refine maintains_bind (maintains_emit rfl
        (wellFormedOption_some.mpr (wellFormed_fullReg locs key)) wellFormedOption_none hsave)
        fun _ _ => ?_
      split
      · rename_i hsplit
        exact hnext hpending hsplit
      · exact maintains_fail cx _

theorem maintains_parallel {moves : List Move} (h : ∀ m ∈ moves, m.WellPlaced locs) :
    Maintains (Lowered locs) (parallel cx moves) fun _ => True :=
  maintains_bind maintains_get fun _ _ =>
    maintains_parallelUpTo _ _ fun m hm => h m (List.mem_of_mem_filter hm)

/-! ## The start of a function -/

theorem wellFormed_whole (locs : Locations) (id : Machine.RegId) :
    WellFormed locs (.reg (gpr id 8)) :=
  wellFormed_gpr locs id (.inr rfl)

/-- The stack pointer is adjusted by what fits 32 bits. -/
theorem maintains_adjustStack {op : Opcode} (hop : op = .add ∨ op = .sub) {bytes : Int64}
    (h : Machine.fitsInt32 bytes = true) :
    Maintains (Lowered locs) (adjustStack cx op bytes) fun _ => True := by
  refine maintains_keep (ready_addition hop (wellFormed_whole locs _) rfl ?_ ?_ ?_)
  · simp [Literal.ofInt, Ty.size, WellFormed]
  · exact intForm_of_memory rfl fun l h => by cases h
  · intro l value hl hv
    cases hl
    cases hv
    exact h

theorem next_cases (count : ArgCount) (t : Ty) :
    (∃ id, (count.next t).1 = some (regFor id t)) ∨ (count.next t).1 = none := by
  unfold ArgCount.next
  split
  · split
    · exact .inl ⟨_, rfl⟩
    · exact .inr rfl
  · split
    · exact .inl ⟨_, rfl⟩
    · exact .inr rfl

/-- A parameter is moved from an argument register or the frame. -/
theorem maintains_takeParam {st : ParamState} (h : ∀ m ∈ st.moves, m.WellPlaced locs)
    (item : Operand) :
    Maintains (Lowered locs) (takeParam cx st item) fun st' => ∀ m ∈ st'.moves,
      m.WellPlaced locs := by
  unfold takeParam
  split
  · rename_i p
    dsimp only
    refine maintains_bind maintains_get fun s _ => ?_
    split
    · refine maintains_bind (maintains_modify fun s hs => ?_) fun _ _ => maintains_pure h
      exact ⟨hs.ready, hs.sane.named, hs.sane.frame, hs.sane.saved⟩
    · refine maintains_pure fun m hm => ?_
      rcases List.mem_append.mp hm with hm | hm
      · exact h m hm
      · obtain rfl := List.mem_singleton.mp hm
        refine ⟨by simp only [WellFormed], ?_⟩
        dsimp only
        rcases next_cases st.args p.ty with ⟨id, hnext⟩ | hnext <;> rw [hnext]
        · exact wellFormed_regFor locs id p.ty
        · simp only [WellFormed]
  · exact maintains_fail cx _

theorem fitsInt32_of_frame {frame : Int64} (hpos : frame > 0) (h : frame ≤ 2147483647) :
    Machine.fitsInt32 frame = true := by
  rw [Selection.fitsInt32_iff]
  rw [GT.gt, Int64.lt_iff_toInt_lt] at hpos
  rw [Int64.le_iff_toInt_le] at h
  have hzero : (0 : Int64).toInt = 0 := rfl
  have hmax : (2147483647 : Int64).toInt = 2147483647 := rfl
  omega

theorem maintains_prologue (hi : WellPlaced locs cx.instr) (hop : cx.instr.op = .fnBegin) :
    Maintains (Lowered locs) (prologue cx) fun _ => True := by
  have hwhole := fun id => wellFormedOption_some.mpr (wellFormed_whole locs id)
  have hstack : ∀ offset t, WellFormedOption locs (some (.stack offset t)) := by
    intro offset t
    simp only [WellFormedOption, WellFormed]
  unfold prologue
  refine maintains_bind maintains_get fun st hst => ?_
  refine maintains_bind (maintains_keep (ready_of_plain hi (by rw [hop]; rfl))) fun _ _ => ?_
  refine maintains_bind (maintains_pushReg (wellFormed_whole locs _)) fun _ _ => ?_
  refine maintains_bind (maintains_emit rfl (hwhole _) wellFormedOption_none (hwhole _))
    fun _ _ => ?_
  refine maintains_when (fun hpos => maintains_adjustStack (.inr rfl)
    (fitsInt32_of_frame hpos hst.sane.frame)) ?_
  refine maintains_bind (maintains_each fun s hs => maintains_emit rfl ?_ wellFormedOption_none
    (hstack _ _)) fun _ _ => ?_
  · rw [wellFormedOption_some]
    simp only [WellFormed]
    exact hst.sane.saved s hs
  split
  · refine maintains_bind (maintains_foldlM (R := fun st => ∀ m ∈ st.moves, m.WellPlaced locs)
      (fun item _ st h => maintains_takeParam h item) ?_) fun st h => maintains_parallel h
    rintro m hm
    cases hm
  · exact maintains_pure trivial

/-! ## Calls -/

theorem maintains_hasPush (a : Operand) :
    Maintains (Lowered locs) (hasPush cx a) fun push => push = true → ∀ l value, a = .imm l →
      l.int? = some value → Machine.fitsInt32 value = true := by
  unfold hasPush
  split
  · refine maintains_pure fun h l' value hl hv => ?_
    cases hl
    simpa [hv] using h
  · exact maintains_pure fun _ l value hl => by cases hl
  · exact maintains_bind (maintains_locate cx _) fun _ _ =>
      maintains_pure fun _ l value hl => by cases hl
  · exact maintains_pure fun _ l value hl => by cases hl
  · exact maintains_pure fun h => by cases h

theorem wellPlaced_move {a : Operand} (h : WellFormed locs a) :
    WellPlaced locs (.make .move (some a) none none) :=
  wellPlaced_make (wellFormedOption_some.mpr h) wellFormedOption_none wellFormedOption_none

theorem maintains_pushArg {a : Operand} (ha : WellFormed locs a) :
    Maintains (Lowered locs) (pushArg cx a) fun _ => True := by
  unfold pushArg
  refine maintains_bind (maintains_hasPush a) fun push hpush => ?_
  split
  · rename_i h
    exact maintains_push ha (hpush h)
  · refine maintains_bind (maintains_source (by decide) false (wellPlaced_move ha)
      (by simp [Draft.of])) fun d hd => ?_
    have hdi := (wellPlaced_move ha).refines hd.refines
    refine maintains_when (fun _ => ?_) (maintains_pushReg (wellFormed_whole locs _))
    exact maintains_emit rfl (hdi .first) wellFormedOption_none
      (wellFormedOption_some.mpr (wellFormed_tempReg locs _))

/-- The move that is left of an argument. -/
theorem maintains_directArg {moves : List Move} {index : Nat} {m : Move} (h : m.WellPlaced locs) :
    Maintains (Lowered locs) (directArg cx moves index m) fun left =>
      ∀ m', left = some m' → m'.WellPlaced locs := by
  have hsame : ∀ m', some m = some m' → m'.WellPlaced locs := by
    rintro m' ⟨⟩
    exact h
  have hsymbol : ∀ {s : Symbol} {lea : Bool}, s.name ≠ "" →
      ∀ m', some ({ m with src := .symbol s, lea := lea } : Move) = some m' →
        m'.WellPlaced locs := by
    rintro s lea hs m' ⟨⟩
    refine ⟨h.dst, ?_⟩
    simpa only [WellFormed] using hs
  unfold directArg
  split
  · split
    · exact maintains_bind (maintains_materialize _) fun _ hs => maintains_pure (hsymbol hs.2)
    · exact maintains_bind (maintains_materialize _) fun _ hs => maintains_pure (hsymbol hs.2)
    · exact maintains_pure hsame
  · exact maintains_bind (maintains_locate cx _) fun _ _ => maintains_pure hsame
  · rename_i hsrc
    refine maintains_bind (maintains_address (wellPlaced_move h.src) (by simp [Draft.of]) ?_)
      fun d hd => ?_
    · rw [hsrc]
      rfl
    have hloaded : WellFormed locs (d.instr.first.getD m.src) := by
      cases hf : d.instr.first with
      | none => exact h.src
      | some o => exact ((wellPlaced_move h.src).refines hd.1).wellFormed .first hf
    split
    · refine maintains_pure ?_
      rintro m' ⟨⟩
      exact ⟨h.dst, hloaded⟩
    refine maintains_bind maintains_get fun st _ => ?_
    dsimp only
    split
    · exact maintains_fail cx _
    · refine maintains_bind (maintains_emit rfl (wellFormedOption_some.mpr hloaded)
        wellFormedOption_none (wellFormedOption_some.mpr h.dst)) fun _ _ => maintains_pure ?_
      intro m' hm'
      cases hm'
  · exact maintains_pure hsame

theorem maintains_directArgs {moves : List Move} (h : ∀ m ∈ moves, m.WellPlaced locs) :
    Maintains (Lowered locs) (directArgs cx moves) fun left => ∀ m ∈ left, m.WellPlaced locs := by
  refine maintains_bind (maintains_mapM
    (R := fun left => ∀ m', left = some m' → m'.WellPlaced locs) fun p hp => ?_)
    fun left hleft => maintains_pure fun m hm => ?_
  · exact maintains_directArg (h p.1 (List.fst_mem_of_mem_zipIdx hp))
  · obtain ⟨m', hm', hid⟩ := List.mem_filterMap.mp hm
    exact hleft m' hm' m hid

theorem maintains_callee (hi : WellFormedOption locs cx.instr.first) :
    Maintains (Lowered locs) (callee cx) fun f => WellFormed locs f := by
  unfold callee
  split
  · exact maintains_fail cx _
  · rename_i s hs
    rw [hs, wellFormedOption_some] at hi
    exact maintains_pure hi
  · rename_i f _ hf
    rw [hf, wellFormedOption_some] at hi
    refine maintains_bind (maintains_source (by decide) false (wellPlaced_move hi)
      (by simp [Draft.of])) fun d hd => ?_
    refine maintains_bind (maintains_emit rfl ((wellPlaced_move hi).refines hd.refines .first)
      wellFormedOption_none (wellFormedOption_some.mpr (wellFormed_whole locs _))) fun _ _ => ?_
    exact maintains_pure (wellFormed_whole locs _)

theorem maintains_countFloats (n : Nat) :
    Maintains (Lowered locs) (countFloats cx n) fun _ => True := by
  have hwhole := fun id => wellFormedOption_some.mpr (wellFormed_whole locs id)
  unfold countFloats
  split
  · exact maintains_emit rfl wellFormedOption_none wellFormedOption_none (hwhole _)
  · refine maintains_emit rfl ?_ wellFormedOption_none
      (wellFormedOption_some.mpr (wellFormed_gpr locs _ (.inl rfl)))
    rw [wellFormedOption_some]
    simp [Literal.ofInt, Ty.size, WellFormed]

/-- Places that are handed out to well-formed arguments. -/
structure ArgState.WellPlaced (locs : Locations) (args : Nat) (st : ArgState) : Prop where
  moves : ∀ m ∈ st.moves, m.WellPlaced locs
  stack : ∀ a ∈ st.stack, WellFormed locs a
  length : st.stack.length ≤ args

theorem ArgState.WellPlaced.assign {st : ArgState} {n : Nat} {a : Operand}
    (h : st.WellPlaced locs n) (ha : WellFormed locs a) :
    (assignArg st a).WellPlaced locs (n + 1) := by
  have hlength := h.length
  unfold assignArg
  rcases next_cases st.args a.ty with ⟨id, hnext⟩ | hnext
  · split
    · rename_i r args heq
      rw [heq] at hnext
      cases hnext
      refine ⟨fun m hm => ?_, h.stack, by dsimp only; omega⟩
      rcases List.mem_append.mp hm with hm | hm
      · exact h.moves m hm
      · obtain rfl := List.mem_singleton.mp hm
        exact ⟨wellFormed_regFor locs id a.ty, ha⟩
    · rename_i heq
      rw [heq] at hnext
      cases hnext
  · split
    · rename_i heq
      rw [heq] at hnext
      cases hnext
    · refine ⟨h.moves, fun b hb => ?_, by simpa using hlength⟩
      rcases List.mem_append.mp hb with hb | hb
      · exact h.stack b hb
      · obtain rfl := List.mem_singleton.mp hb
        exact ha

theorem wellPlaced_foldl {args : List Operand} (h : ∀ a ∈ args, WellFormed locs a) {st : ArgState}
    {n : Nat} (hst : st.WellPlaced locs n) :
    (args.foldl assignArg st).WellPlaced locs (n + args.length) := by
  induction args generalizing st n with
  | nil => exact hst
  | cons a rest ih =>
    obtain ⟨ha, hrest⟩ := List.forall_mem_cons.mp h
    have hnext := ih hrest (hst.assign ha)
    rwa [Nat.add_assoc, Nat.add_comm 1, ← List.length_cons] at hnext

theorem fitsInt32_ofNat {n : Nat} (h : n < 2 ^ 31) : Machine.fitsInt32 (Int64.ofNat n) = true := by
  have hn : (Int64.ofNat n).toInt = n := Int64.toInt_ofNat_of_lt (by omega)
  rw [Selection.fitsInt32_iff, hn]
  omega

theorem maintains_afterCall {bytes : Nat} (hi : WellFormedOption locs cx.instr.output)
    (hbytes : bytes < 2 ^ 31) : Maintains (Lowered locs) (afterCall cx bytes) fun _ => True := by
  unfold afterCall storeResult
  refine maintains_when (fun _ => maintains_adjustStack (.inl rfl) (fitsInt32_ofNat hbytes)) ?_
  split
  · rename_i r hr
    obtain ⟨o, -, rfl⟩ := Option.map_eq_some_iff.mp hr
    exact maintains_store (wellFormed_regFor locs 0 o.ty) hi
  · exact maintains_pure trivial

theorem maintains_callBody {st : ArgState} {n bytes : Nat} (hi : WellPlaced locs cx.instr)
    (hop : cx.instr.op.isCall = true) (hst : st.WellPlaced locs n) (hbytes : bytes < 2 ^ 31) :
    Maintains (Lowered locs) (callBody cx st bytes) fun _ => True := by
  unfold callBody
  refine maintains_bind (maintains_each fun a ha =>
    maintains_pushArg (hst.stack a (List.mem_reverse.mp ha))) fun _ _ => ?_
  refine maintains_bind (maintains_directArgs hst.moves) fun moves hmoves => ?_
  refine maintains_bind (maintains_callee (hi .first)) fun f hf => ?_
  refine maintains_bind (maintains_parallel hmoves) fun _ _ => ?_
  refine maintains_when (fun _ => maintains_countFloats _) ?_
  refine maintains_bind (maintains_keep (ready_of_plain ?_ ?_)) fun _ _ =>
    maintains_afterCall (hi .output) hbytes
  · refine wellPlaced_make (wellFormedOption_some.mpr hf) (wellFormedOption_list locs _) ?_
    cases cx.instr.output with
    | none => exact wellFormedOption_none
    | some o => exact wellFormedOption_list locs _
  · change isPlain cx.instr.op = true
    cases hc : cx.instr.op <;> rw [hc] at hop <;> first | rfl | cases hop

theorem maintains_call (hi : WellPlaced locs cx.instr) (hop : cx.instr.op.isCall = true)
    (hargs : ∀ a ∈ callArgs cx.instr, WellFormed locs a)
    (hlength : (callArgs cx.instr).length < 2 ^ 27) :
    Maintains (Lowered locs) (call cx) fun _ => True := by
  have hempty : (⟨⟨0, 0⟩, [], []⟩ : ArgState).WellPlaced locs 0 :=
    ⟨fun m hm => (by cases hm), fun a ha => (by cases ha), Nat.le_refl 0⟩
  have hst := wellPlaced_foldl hargs hempty
  have hstack := hst.length
  obtain ⟨-, hpadding, hroom⟩ := argRoom_spec (argState cx.instr)
  rw [argState] at hpadding hroom
  rw [call_eq, argState]
  dsimp only
  exact maintains_when (fun _ => maintains_adjustStack (.inr rfl) (fitsInt32_ofNat (by omega)))
    (maintains_callBody hi hop hst (by omega))

/-! ## Instructions and closures -/

/-- A comparison with its literal behind, as lowering looks at it. -/
def ordered (i : Instr) : Instr :=
  if i.op.isCompare || i.op.isCondBranch then literalSecond i else i

/-- The operands of a source instruction exist on the machine and go with the operation, no literal
is exchanged, and a call has not too many arguments. -/
structure Encodable (locs : Locations) (i : Instr) : Prop where
  placed : WellPlaced locs i
  typed : Typed locs (ordered i)
  kept : ¬ Exchanged locs i
  arguments : i.op.isCall = true → ∀ a ∈ callArgs i, WellFormed locs a
  count : i.op.isCall = true → (callArgs i).length < 2 ^ 27

theorem Encodable.typed_self {i : Instr} (h : Encodable locs i)
    (hop : (i.op.isCompare || i.op.isCondBranch) = false) : Typed locs i := by
  have ht := h.typed
  rwa [ordered, if_neg (by simp [hop])] at ht

/-- Lowering one instruction leaves instructions that are ready. -/
theorem maintains_instr (h : Encodable locs cx.instr) :
    Maintains (Lowered locs) (instr cx) fun _ => True := by
  have hi := h.placed
  have hplain : isPlain cx.instr.op = true →
      Maintains (Lowered locs) (keep cx.instr) fun _ => True :=
    fun hop => maintains_keep (ready_of_plain hi hop)
  have hroute := instr_route cx
  generalize instr cx = m at hroute ⊢
  cases hroute with
  | nothing => exact maintains_pure trivial
  | kept op =>
    rcases op with op | op | op | op
    case inr.inr.inl =>
      have ht := h.typed_self (by rw [op]; rfl)
      refine maintains_keep ⟨hi, ht, h.kept, ?_, ?_, ?_, ?_⟩ <;>
      · intro h
        rw [op] at h
        cases h
    all_goals exact hplain (by rw [op]; rfl)
  | safepoint =>
    exact maintains_emit rfl wellFormedOption_none wellFormedOption_none
      (wellFormedOption_some.mpr (wellFormed_whole locs _))
  | prologue op => exact maintains_prologue hi op
  | ending op =>
    refine maintains_bind maintains_get fun st _ => ?_
    split
    · exact maintains_pure trivial
    · exact hplain (by rw [op]; rfl)
  | ret => exact maintains_ret hi
  | call op =>
    have hcall : cx.instr.op.isCall = true := by rcases op with op | op <;> rw [op] <;> rfl
    exact maintains_call hi hcall (h.arguments hcall) (h.count hcall)
  | move op => exact maintains_move hi op
  | refused => exact maintains_fail cx _
  | divide op => exact maintains_divide hi op
  | shift op => exact maintains_shift hi op
  | compare op =>
    have ht := h.typed
    rw [ordered, if_pos op] at ht
    exact maintains_compare hi ht op
  | generic division _ comparison =>
    exact maintains_generic hi (h.typed_self comparison) h.kept comparison division

theorem maintains_forM {variadic : List String} {scratch : Option Int64} {ops : List Instr}
    (h : ∀ i ∈ ops, Encodable locs i) :
    Maintains (Lowered locs) (ops.forM fun i => instr ⟨variadic, scratch, i⟩) fun _ => True := by
  induction ops with
  | nil => exact maintains_pure trivial
  | cons i rest ih =>
    obtain ⟨hi, hrest⟩ := List.forall_mem_cons.mp h
    exact maintains_bind (maintains_instr hi) fun _ _ => ih hrest

theorem ready_of_blocks {variadic : List String} {scratch : Option Int64} {c c' : Closure}
    {bs bs' : List Block} (hc : Sane c) (h : ∀ b ∈ bs, ∀ i ∈ b.ops, Encodable locs i)
    (hbs : blocks variadic scratch c bs = .ok (c', bs')) :
    ∀ b ∈ bs', ∀ i ∈ b.ops, Ready locs i := by
  induction bs generalizing c bs' with
  | nil =>
    cases hbs
    exact fun b hb => by cases hb
  | cons b rest ih =>
    obtain ⟨hb, hrest⟩ := List.forall_mem_cons.mp h
    obtain ⟨st, bs2, hst, h2, rfl⟩ := blocks_cons_eq_ok hbs
    have hlowered := (maintains_forM hb _ _ st hst ⟨fun i hi => (by cases hi), hc⟩).1
    exact List.forall_mem_cons.mpr ⟨hlowered.ready, ih hlowered.sane hrest h2⟩

theorem isWidth_of_placeSaved {ids : List Machine.RegId} {st : Int64 × List SavedReg}
    (h : ∀ s ∈ st.2, Machine.IsWidth s.reg.width) :
    ∀ s ∈ (ids.foldl (placeSaved locs) st).2, Machine.IsWidth s.reg.width := by
  induction ids generalizing st with
  | nil => exact h
  | cons id rest ih =>
    refine ih ?_
    unfold placeSaved
    dsimp only
    split
    · intro s hs
      rcases List.mem_append.mp hs with hs | hs
      · exact h s hs
      · obtain rfl := List.mem_singleton.mp hs
        exact .inr (.inr (.inr rfl))
    · exact h

theorem sane_layout {c : Closure} (hnames : ∀ p ∈ c.imms, p.2 ≠ "")
    (hframe : (layout c).1.frame ≤ 2147483647) : Sane (layout c).1 := by
  have hsaved : ∀ locs st, ∀ s ∈ (calleeSaved.foldl (placeSaved locs) (st, [])).2,
      Machine.IsWidth s.reg.width := fun locs st =>
    isWidth_of_placeSaved fun s hs => by cases hs
  refine ⟨?_, hframe, ?_⟩
  · unfold layout
    dsimp only
    split <;> exact hnames
  · unfold layout
    dsimp only
    split <;> exact hsaved _ _

/-- What lowering and selection accept can be encoded: every selected instruction that is no direct
branch has machine code, when the operands of every source instruction go with its operation, none
exchanges a literal with what its output overwrites, and the frame is less than 2 GiB. -/
theorem selected_code_encodes {t : Target} {c c' : Closure} {insts : List Machine.Inst}
    (hlower : t.lower c = .ok c') (hselect : c'.select = .ok insts)
    (hops : ∀ b ∈ c.blocks, ∀ i ∈ b.ops, Encodable c'.locations i)
    (hframe : (layout c).1.frame ≤ 2147483647) (hnames : ∀ p ∈ c.imms, p.2 ≠ "") :
    ∀ m ∈ insts, m.branchTarget? = none → m.Encodes := by
  obtain ⟨⟨c1, bs⟩, hbs, hlower⟩ := bind_eq_ok.mp hlower
  have hbs : blocks t.options.variadic (layout c).2 (layout c).1 (layout c).1.blocks =
    .ok (c1, bs) := hbs
  rw [blocks_layout] at hbs
  cases hlower
  have hready := ready_of_blocks (sane_layout hnames hframe) hops hbs
  refine Selection.encoded_instrs (fun i hi => ?_) hselect
  obtain ⟨b, hb, hi⟩ := List.mem_flatMap.mp hi
  exact hready b hb i hi

open Selection (linux straightLine)

def wholeRbx : Operand := .reg (gpr Machine.rbx 8)

def three : Operand := .imm (.int .w64 3)

/-- A sum with the literal in front, which has a place behind, and a product with the literal
behind. -/
def scaling : Closure :=
  straightLine [.make .add (some three) (some wholeRbx) (some wholeRbx),
    .make .mul (some wholeRbx) (some three) (some wholeRbx)] 0

def scalingCode : List Machine.Inst :=
  [.op .add ⟨0⟩ (some (.reg ⟨Machine.rbx, 8⟩)) (some (.imm 3)) none,
    .op .imul ⟨0⟩ (some (.reg ⟨Machine.rbx, 8⟩)) (some (.reg ⟨Machine.rbx, 8⟩)) (some (.imm 3))]

theorem wellFormed_wholeRbx : WellFormedOption [] (some wholeRbx) :=
  wellFormedOption_some.mpr (wellFormed_whole [] _)

theorem wellFormed_three : WellFormedOption [] (some three) := by
  simp [wellFormedOption_some, three, WellFormed]

theorem intForm_wholeRbx : IntForm [] wholeRbx :=
  ⟨fun r hr => (by cases hr; rfl), fun l h => by cases h⟩

theorem intForm_three : IntForm [] three := intForm_of_memory rfl fun l h => by cases h

theorem encodable_of_bothInt {i : Instr} (hop : isTwoAddress i.op = true) (hi : WellPlaced locs i)
    (hb : BothInt locs i) (hx : ¬ Exchanged locs i) : Encodable locs i := by
  have hother : i.op.isCompare = false ∧ i.op.isCondBranch = false ∧ i.op.isBranch = false ∧
      i.op.isFused = false ∧ i.op.isCall = false ∧ i.op ≠ .itof ∧ i.op ≠ .ftoi ∧ i.op ≠ .fext ∧
      i.op ≠ .ftrunc := by
    cases hi : i.op <;> rw [hi] at hop <;>
      first | (refine ⟨rfl, rfl, rfl, rfl, rfl, ?_⟩; decide) | cases hop
  obtain ⟨hcompare, hcond, hbranch, hfused, hcall, hitof, hftoi, hfext, hftrunc⟩ := hother
  refine ⟨hi, ?_, hx, by simp [hcall], by simp [hcall]⟩
  rw [ordered, if_neg (by simp [hcompare, hcond])]
  constructor <;> simp_all

theorem selected_code_encodes_scaling :
    linux.lower scaling = .ok scaling ∧ scaling.select = .ok scalingCode ∧
      ∀ m ∈ scalingCode, m.branchTarget? = none → m.Encodes := by
  have hlower : linux.lower scaling = .ok scaling := rfl
  have hselect : scaling.select = .ok scalingCode := rfl
  refine ⟨hlower, hselect, selected_code_encodes hlower hselect ?_
    (by decide) fun p hp => by cases hp⟩
  intro b hb i hi
  obtain rfl := List.mem_singleton.mp hb
  simp only [List.mem_cons, List.not_mem_nil, or_false] at hi
  rcases hi with rfl | rfl
  · refine encodable_of_bothInt rfl
      (wellPlaced_make wellFormed_three wellFormed_wholeRbx wellFormed_wholeRbx)
      ⟨_, _, rfl, rfl, intForm_three, intForm_wholeRbx⟩ ?_
    -- The literal is exchanged with rbx, but it is no product and the literal is small.
    rintro ⟨-, -, l, value, o, r, b, hl, hv, -, -, -, -, -, ⟨hmul, -⟩ | ⟨-, hfit⟩⟩
    · cases hmul
    · cases hl
      cases hv
      cases hfit
  · refine encodable_of_bothInt rfl
      (wellPlaced_make wellFormed_wholeRbx wellFormed_three wellFormed_wholeRbx)
      ⟨_, _, rfl, rfl, intForm_wholeRbx, intForm_three⟩ ?_
    rintro ⟨-, -, l, value, o, r, b, hl, -⟩
    cases hl

/-- The product with the literal in front, of a variable in rbx. -/
def exchanged : Closure :=
  { straightLine [.make .mul (some three) (some (.var ⟨"b", .i64, false, false⟩))
      (some (.var ⟨"b", .i64, false, false⟩))] 0 with
    locations := [("b", ⟨some (gpr Machine.rbx 8), none⟩)] }

/-- Lowering lets the literal stand in front, selection exchanges it with the variable, and there is
no such multiplication. -/
theorem exchanged_literal_has_no_code :
    linux.lower exchanged =
        .ok { exchanged with frame := 16, saved := [⟨gpr Machine.rbx 8, -8⟩] } ∧
      Closure.select { exchanged with frame := 16, saved := [⟨gpr Machine.rbx 8, -8⟩] } =
        .ok [.op .imul ⟨0⟩ (some (.reg ⟨Machine.rbx, 8⟩)) (some (.imm 3)) none] ∧
      ¬ (Machine.Inst.op .imul ⟨0⟩ (some (.reg ⟨Machine.rbx, 8⟩))
        (some (.imm 3)) none).Encodes := by
  refine ⟨rfl, rfl, ?_⟩
  rintro ⟨e, he⟩
  cases he

end Backend.Lowering
