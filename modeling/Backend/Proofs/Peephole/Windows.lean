-- Each rule replaces the first instructions it looks at by one that leaves the same state, up to
-- the cells of temporaries that nothing reads any more. Here are the moves and the doublings.
import Backend.Proofs.Peephole.Rules

namespace Backend.Peephole

universe u

/-! ## Windows -/

/-- What the rules rely on: no two variables share a cell, and the instructions are regular and
name each variable at one type. -/
structure Suitable (locs : Locations) (ops : List Instr) : Prop where
  separate : Separate locs
  regular : ∀ i ∈ ops, Regular i
  oneType : OneType ops

/-- A fused float multiplication. -/
def isFloatFusion (i : Instr) : Bool := i.op.isFused && (typeOf i.output).isFloat

/-- The number of fused float multiplications. -/
def floatFusions (ops : List Instr) : Nat := ops.countP isFloatFusion

@[simp] theorem floatFusions_nil : floatFusions [] = 0 := rfl

@[simp] theorem floatFusions_cons (i : Instr) (ops : List Instr) :
    floatFusions (i :: ops) = floatFusions ops + if isFloatFusion i then 1 else 0 :=
  List.countP_cons

@[simp] theorem floatFusions_append (ops ops' : List Instr) :
    floatFusions (ops ++ ops') = floatFusions ops + floatFusions ops' :=
  List.countP_append

/-- An instruction does what some instructions did before it, up to cells of variables that are
neither live nor read by what follows. -/
def Replaces (locs : Locations) (liveOut : List String) (old : List Instr) (new : Instr)
    (rest : List Instr) : Prop :=
  ∃ idents : List String, (∀ ident ∈ idents, ident ∉ liveOut) ∧
    (∀ i ∈ rest, ∀ o ∈ i.uses, ¬ Touches locs (cellsOf locs idents) o) ∧
    ∀ (μ : Type u) (M : Meaning μ), M.Lawful → ∀ s,
      AgreeOff (cellsOf locs idents) (runBlock M locs old s) (exec M locs new s)

/-- A step of a rule: one instruction takes the place of the first few, and does the same unless
it is a fused float multiplication. -/
structure Window (locs : Locations) (liveOut : List String) (old : List Instr) (new : Instr)
    (rest : List Instr) : Prop where
  regular : Regular new
  named : ∀ v ∈ namedVars new, ∃ i ∈ old, v ∈ namedVars i
  fusions : floatFusions old ≤ floatFusions [new]
  replaces : floatFusions [new] = floatFusions old → Replaces.{u} locs liveOut old new rest

section Windows

variable {st : Setting} {b : Block} {done old rest : List Instr} {new : Instr} {t t' : Var}

theorem count_window {ident : String} (hops : b.ops = done ++ (old ++ rest))
    (ht : b.canRemove st.locations ident = true) :
    varCount ident (old.flatMap Instr.uses) + varCount ident (rest.flatMap Instr.uses) ≤ 1 := by
  have hcount := count_of_canRemove ht
  simp only [hops, List.flatMap_append, varCount_append] at hcount
  omega

/-- Temporaries that the replaced instructions read are not read again. -/
theorem replaces_of_temps (idents : List String) (suit : Suitable st.locations b.ops)
    (hops : b.ops = done ++ (old ++ rest))
    (htemps : ∀ ident ∈ idents, b.canRemove st.locations ident = true ∧
      1 ≤ varCount ident (old.flatMap Instr.uses))
    (hrun : ∀ (μ : Type u) (M : Meaning μ), M.Lawful → ∀ s,
      AgreeOff (cellsOf st.locations idents) (runBlock M st.locations old s)
        (exec M st.locations new s)) :
    Replaces.{u} st.locations b.liveOut old new rest := by
  refine ⟨idents, fun ident hid => not_live_of_canRemove (htemps ident hid).1,
    fun i hi o ho htouch => ?_, hrun⟩
  obtain ⟨ident, hid, htouch⟩ := touches_cellsOf.mp htouch
  obtain ⟨hrem, hused⟩ := htemps ident hid
  have hcount := count_window hops hrem
  have hzero : varCount ident i.uses = 0 := by
    have hrest : varCount ident (rest.flatMap Instr.uses) = 0 := by omega
    rw [varCount_eq_zero] at hrest ⊢
    exact fun v hv => hrest v (List.mem_flatMap.mpr ⟨i, hi, hv⟩)
  exact untouched hrem suit.separate (by simp [hops, hi]) (fun _ h => h) hzero o ho htouch

/-! ## Moves -/

theorem memoryRef?_of_direct {μ : Type u} (M : Meaning μ) (locs : Locations) (s : State μ)
    {o : Operand} (h : isDirect (some o) = true) : memoryRef? M locs s o = none := by
  cases o <;> simp_all [isDirect, memoryRef?]

theorem shape_of_direct {o : Operand} (h : isDirect (some o) = true) : shape o = .direct o.ty := by
  cases o <;> simp_all [isDirect, shape, Operand.ty]

section Moves

variable {μ : Type u} {M : Meaning μ} {locs : Locations} {op mv : Instr} {t' : Var} {d x : Operand}

/-- The state after a move to a register or a variable. -/
theorem exec_move_direct (hmv : mv.op = .move) (hd : mv.output = some d)
    (hdir : isDirect (some d) = true) (s : State μ) :
    exec M locs mv s = ⟨writeCell M locs s.cells d
      (trunc d.ty.size (bitsOf (mv.first.map (reading M locs s)))), s.mem, s.log⟩ := by
  have hop : mv.op.isBranch = false ∧ mv.op ≠ .label := by
    simp [hmv, Opcode.isBranch, Opcode.isCondBranch]
  have hs : isSilent mv.op = false := by simp [hmv, isSilent]
  have hres := result_move (M := M) d.ty (readings M locs s mv)
  have htarget : (readings M locs s mv).target = none := by
    simp [readings, hs, hop.1, hd, memoryRef?_of_direct M locs s hdir]
  rw [exec_direct M locs hop hd hdir]
  simp only [outcome, hmv, hres, stored, htarget, (readings_sources locs s hs).1]

/-- Computing into a temporary and moving it is computing in place, but for the temporary. -/
theorem exec_retarget (law : M.Lawful) (hop : op.op.computes = true)
    (ho : op.output = some (.var t)) (hmv : mv.op = .move) (hfirst : mv.first = some (.var t'))
    (hid : t'.ident = t.ident) (hsize : t'.ty.size = t.ty.size) (hd : mv.output = some d)
    (hdir : isDirect (some d) = true) (hty : d.ty = t.ty) (s : State μ) :
    AgreeOff (cellsOf locs [t.ident]) (exec M locs mv (exec M locs op s))
      (exec M locs { op with output := mv.output } s) := by
  obtain ⟨hs, hplain, -⟩ := op_of_computes hop
  have hread : readings M locs s { op with output := some d } = readings M locs s op := by
    have hvar := memoryRef?_of_direct M locs s (o := .var t) rfl
    simp [readings, hs, hplain.1, ho, memoryRef?_of_direct M locs s hdir, hvar]
  rw [hd, exec_direct M locs (i := { op with output := some d }) hplain rfl hdir, hread,
    shape_of_direct hdir, hty, exec_move_direct hmv hd hdir, exec_direct M locs hplain ho rfl]
  simp only [shape, show (Operand.var t).ty = t.ty from rfl]
  generalize outcome M op.op t.ty (readings M locs s op) [.direct t.ty] s.mem s.log = e
  have hbits : bitsOf (mv.first.map (reading M locs
      ⟨writeCell M locs s.cells (.var t) (e.values 0), e.mem, e.log⟩)) =
      trunc t.ty.size (e.values 0) := by
    rw [hfirst, bitsOf_var, hid, hsize]
    simp [writeCell, cell?, Operand.ty, law.fill, trunc_trunc]
  refine ⟨fun c hc => ?_, rfl, rfl⟩
  have hkeep : ∀ c, ¬ cellsOf locs [t.ident] c →
      writeCell M locs s.cells (.var t) (e.values 0) c = s.cells c := by
    intro c hc
    rw [cellsOf_singleton] at hc
    simp [writeCell, cell?, hc]
  show writeCell M locs (writeCell M locs s.cells (.var t) (e.values 0)) d _ c = _
  rw [hbits, hty, trunc_trunc, writeCell_congr hkeep d _ c hc]
  simp only [writeCell, hty, trunc_trunc]

/-- Reading a temporary after a move to it shows what was moved. -/
theorem reading_moved (law : M.Lawful) (hmv : mv.op = .move) (hx : mv.first = some x)
    (hxd : isDirect (some x) = true) (ho : mv.output = some (.var t)) (hty : x.ty = t.ty)
    (hid : t'.ident = t.ident) (hty' : t'.ty = t.ty) (s : State μ) :
    reading M locs (exec M locs mv s) (.var t') = reading M locs s x := by
  have hval : trunc t.ty.size ((exec M locs mv s).cells (varCell locs t.ident)) =
      (reading M locs s x).bits := by
    have h := (exec_temp law locs s ho (by rw [hmv]; exact result_move _ _)).2
    rw [h, (readings_sources locs s (by simp [hmv, isSilent])).1, hx]
    cases x <;> simp_all [isDirect, bitsOf, reading, Reading.bits, Operand.ty, trunc_trunc]
  have hshow : reading M locs s x = .value x.ty (reading M locs s x).bits := by
    cases x <;> simp_all [isDirect, reading, Reading.bits, Operand.ty]
  rw [hshow, hty, ← hval]
  simp [reading, hty', hid]

/-- A source of a computation before and after a temporary is replaced by what was moved into it. -/
def Substituted (t : Var) (x o o' : Option Operand) : Prop :=
  (o' = x ∧ ∃ t' : Var, o = some (.var t') ∧ t'.ident = t.ident ∧ t'.ty = t.ty) ∨
    (o' = o ∧ varCount t.ident (Instr.readsOption o) = 0)

/-- Computing with a temporary that was just moved is computing with what was moved. -/
theorem exec_substitute {new : Instr} (law : M.Lawful) (hop : op.op.computes = true)
    (hmv : mv.op = .move) (ho : mv.output = some (.var t)) (hnew : new.op = op.op)
    (hout : new.output = op.output) (haddr : PlainAddresses op) (s : State μ)
    (hfirst : op.first.map (reading M locs (exec M locs mv s)) =
      new.first.map (reading M locs s))
    (hsecond : op.second.map (reading M locs (exec M locs mv s)) =
      new.second.map (reading M locs s))
    (haddend : op.addend.map (reading M locs (exec M locs mv s)) =
      new.addend.map (reading M locs s))
    (htouch : ∀ p ∈ outputParts op, ¬ Touches locs (cellsOf locs [t.ident]) p) :
    AgreeOff (cellsOf locs [t.ident]) (exec M locs op (exec M locs mv s)) (exec M locs new s) := by
  obtain ⟨hs, hplain, -⟩ := op_of_computes hop
  have hagree : AgreeOff (cellsOf locs [t.ident]) (exec M locs mv s) s :=
    (exec_temp law locs s ho (by rw [hmv]; exact result_move _ _)).1
  have htarget : op.output.bind (memoryRef? M locs (exec M locs mv s)) =
      op.output.bind (memoryRef? M locs s) := by
    cases hout' : op.output with
    | none => rfl
    | some o =>
      refine memoryRef?_congr hagree (haddr o (by simp [hout'])) fun p hp => htouch p ?_
      simp [outputParts, hout', hp]
  have hread : readings M locs (exec M locs mv s) op = readings M locs s new := by
    simp only [readings, hnew, hs, hplain.1, Bool.false_eq_true, if_false, hfirst, hsecond, haddend,
      hout, htarget]
  apply exec_congr hagree
  · simp only [Instr.defs, hnew, hout]
  · rw [hread, hagree.mem, hagree.log]
    simp only [hnew, hout, outputShapes]

end Moves

section MoveWindows

variable {op mv mul : Instr}

theorem exists_of_isDirect {o : Option Operand} (h : isDirect o = true) :
    ∃ p, o = some p ∧ isDirect (some p) = true ∧ typesOf p = [p.ty] := by
  unfold isDirect at h
  split at h
  · exact ⟨_, rfl, rfl, rfl⟩
  · exact ⟨_, rfl, rfl, rfl⟩
  · simp at h

theorem varCount_isVar {o : Option Operand} (h : isVar o t = true) :
    varCount t.ident (Instr.readsOption o) = 1 := by
  obtain ⟨v, rfl, hid⟩ := isVar_iff.mp h
  simp [Instr.readsOption, Instr.reads, Instr.addressParts, ← hid, varCount_cons_var]

theorem varCount_uses {i : Instr} (hs : isSilent i.op = false) (hb : i.op.isBranch = false)
    (ident : String) :
    varCount ident i.uses = varCount ident (Instr.readsOption i.first) +
      varCount ident (Instr.readsOption i.second) + varCount ident (Instr.readsOption i.addend) +
      varCount ident (outputParts i) := by
  rw [uses_eq hs, hb]
  simp only [Bool.false_eq_true, if_false, varCount_append]

theorem move_plain {i : Instr} (h : i.op = .move) :
    isSilent i.op = false ∧ i.op.isBranch = false ∧ isFloatFusion i = false := by
  simp [h, isSilent, Opcode.isBranch, Opcode.isCondBranch, isFloatFusion, Opcode.isFused]

theorem retarget_window (suit : Suitable st.locations b.ops)
    (hops : b.ops = done ++ ([op, mv] ++ rest)) (h : retarget? st b op mv = some new) :
    Window.{u} st.locations b.liveOut [op, mv] new rest := by
  obtain ⟨hop, hmv, hdir, rfl, t, ht, hfirst, hty⟩ := retarget?_eq_some h
  obtain ⟨hs, hplain, hnot⟩ := op_of_computes hop
  obtain ⟨hsMv, hbMv, hfMv⟩ := move_plain hmv
  obtain ⟨hout, -, hrem⟩ := temp?_eq_some.mp ht
  obtain ⟨d, hd, hdd, hdt⟩ := exists_of_isDirect hdir
  have hdty : d.ty = t.ty := by simpa [typeOf, hd] using hty
  have hregOp := suit.regular op (by simp [hops])
  have hregMv := suit.regular mv (by simp [hops])
  refine ⟨⟨?_, ?_⟩, ?_, ?_, fun _ => ?_⟩
  · obtain ⟨h1, h2, h3, -⟩ := (plainAddresses_iff hs).mp hregOp.addresses
    refine (plainAddresses_iff (i := { op with output := mv.output }) hs).mpr ⟨h1, h2, h3, ?_⟩
    simpa [hd] using addressedDirectly_of_isDirect hdd
  · -- The new output is of the type of the old one.
    refine hregOp.uniform.of_types fun o ho ty hty => ?_
    by_cases ha : isArith op.op = true
    · rw [boundOperands_of_arith (i := { op with output := mv.output }) ha, List.mem_append] at ho
      rw [boundOperands_of_arith ha]
      rcases ho with ho | ho
      · exact ⟨o, List.mem_append_left _ ho, hty⟩
      · have hod : o = d := by simpa [hd, eq_comm] using ho
        rw [hod, hdt, hdty] at hty
        exact ⟨.var t, by simp [hout], hty⟩
    · simp [boundOperands, ha, hnot] at ho
  · intro v hv
    rw [mem_namedVars_of_computes (i := { op with output := mv.output }) hop] at hv
    exact ⟨op, by simp, (mem_namedVars_of_computes hop).mpr hv⟩
  · have htyOp : typeOf op.output = t.ty := by rw [hout]; rfl
    have hsame : isFloatFusion { op with output := mv.output } = isFloatFusion op := by
      simp only [isFloatFusion, hty, htyOp]
    simp [hfMv, hsame]
  · obtain ⟨t', hfirst', hid⟩ := isVar_iff.mp hfirst
    have hkind : SameKind t'.ty d.ty := by
      have hb := boundOperands_of_move hmv
      exact hregMv.uniform.kind (.var t') d (by simp [hb, hfirst']) (by simp [hb, hd])
    refine replaces_of_temps [t.ident] suit hops ?_ fun μ M law s => ?_
    · have hcount := varCount_isVar hfirst
      have huses := varCount_uses hsMv hbMv t.ident
      simp only [List.mem_singleton, forall_eq, List.flatMap_cons, varCount_append]
      exact ⟨hrem, by omega⟩
    · exact exec_retarget law hop hout hmv hfirst' hid (by rw [hkind.1, hdty]) hd hdd hdty s

/-- The variable has one type in the move to it and in the computation that reads it. -/
theorem ty_of_moved (suit : Suitable st.locations b.ops) {i j : Instr} (hi : i ∈ b.ops)
    (hj : j ∈ b.ops) (hmv : i.op = .move) (hout : i.output = some (.var t))
    (hop : j.op.computes = true) {t' : Var}
    (hsrc : j.first = some (.var t') ∨ j.second = some (.var t')) (hid : t'.ident = t.ident) :
    t'.ty = t.ty :=
  suit.oneType j hj i hi t' ((mem_namedVars_of_computes hop).mpr hsrc) t
    ((mem_namedVars_of_move hmv).mpr (.inr hout)) hid

theorem Substituted.plain {x o o' : Option Operand} (h : Substituted t x o o')
    (hx : isDirect x = true) (ho : PlainSource o) : PlainSource o' := by
  rcases h with ⟨rfl, -⟩ | ⟨rfl, -⟩
  · exact plainSource_of_isDirect hx
  · exact ho

theorem Substituted.types {x o o' : Option Operand} (h : Substituted t x o o')
    (hx : isDirect x = true) (hty : typeOf x = t.ty) {p : Operand} (hp : p ∈ o'.toList) {ty : Ty}
    (hpt : ty ∈ typesOf p) : ∃ q ∈ o.toList, ty ∈ typesOf q := by
  rcases h with ⟨rfl, t', rfl, -, ht'⟩ | ⟨rfl, -⟩
  · obtain ⟨y, rfl, -, hy⟩ := exists_of_isDirect hx
    obtain rfl : p = y := by simpa [eq_comm] using hp
    have hyt : p.ty = t'.ty := by rw [ht', ← hty]; rfl
    rw [hy, hyt] at hpt
    exact ⟨.var t', by simp, hpt⟩
  · exact ⟨p, hp, hpt⟩

theorem Substituted.source {x o o' : Option Operand} (h : Substituted t x o o') {p : Operand}
    (hp : o' = some p) : x = some p ∨ o = some p := by
  rcases h with ⟨rfl, -⟩ | ⟨rfl, -⟩
  · exact .inl hp
  · exact .inr hp

/-- A source shows the same after the move as its substitute did before. -/
theorem Substituted.reading {μ : Type u} {M : Meaning μ} {x o o' : Option Operand} {i : Instr}
    (h : Substituted t x o o') (law : M.Lawful) (suit : Suitable st.locations b.ops)
    (hrem : b.canRemove st.locations t.ident = true) (hi : i ∈ b.ops)
    (hsub : ∀ p ∈ Instr.readsOption o, p ∈ i.uses) (ho : PlainSource o) (hmv : mv.op = .move)
    (hfirst : mv.first = x) (hx : isDirect x = true) (hty : typeOf x = t.ty)
    (hout : mv.output = some (.var t)) (s : State μ) :
    o.map (Peephole.reading M st.locations (exec M st.locations mv s)) =
      o'.map (Peephole.reading M st.locations s) := by
  rcases h with ⟨rfl, t', rfl, hid, ht'⟩ | ⟨rfl, hcount⟩
  · obtain ⟨y, rfl, hyd, -⟩ := exists_of_isDirect hx
    have hyt : y.ty = t.ty := by rw [← hty]; rfl
    simp only [Option.map_some, reading_moved law hmv hfirst hyd hout hyt hid ht']
  · have hagree := (exec_temp law st.locations s hout
      (by rw [hmv]; exact result_move _ _)).1
    exact reading_option_congr hagree _ ho
      (untouched hrem suit.separate hi hsub hcount)

/-- Both slots of a computation after a substitution. -/
theorem substituted_of (suit : Suitable st.locations b.ops)
    (hops : b.ops = done ++ ([mv, op] ++ rest)) (h : substitute? st b mv op = some new)
    (ht : temp? st b mv.output = some t) :
    new.op = op.op ∧ new.output = op.output ∧ new.addend = op.addend ∧
      Substituted t mv.first op.first new.first ∧ Substituted t mv.first op.second new.second ∧
      varCount t.ident (Instr.readsOption op.addend) = 0 ∧
      varCount t.ident (outputParts op) = 0 ∧ 1 ≤ varCount t.ident op.uses := by
  obtain ⟨hmv, hop, -, t₁, ht₁, -, hcase⟩ := substitute?_eq_some h
  obtain rfl : t₁ = t := by simpa [ht] using ht₁.symm
  obtain ⟨hs, hplain, -⟩ := op_of_computes hop
  obtain ⟨hout, -, hrem⟩ := temp?_eq_some.mp ht
  have hcount := count_window hops hrem
  have huses := varCount_uses hs hplain.1 t₁.ident
  simp only [List.flatMap_cons, varCount_append, List.flatMap_nil, varCount_nil] at hcount
  have hty : ∀ t', op.first = some (.var t') ∨ op.second = some (.var t') → t'.ident = t₁.ident →
      t'.ty = t₁.ty := fun t' hsrc hid =>
    ty_of_moved suit (by simp [hops]) (by simp [hops]) hmv hout hop hsrc hid
  rcases hcase with ⟨hvar, rfl⟩ | ⟨hvar, rfl⟩
  · have hone := varCount_isVar hvar
    obtain ⟨t', ht', hid⟩ := isVar_iff.mp hvar
    exact ⟨rfl, rfl, rfl, .inl ⟨rfl, t', ht', hid, hty t' (.inl ht') hid⟩, .inr ⟨rfl, by omega⟩,
      by omega, by omega, by omega⟩
  · have hone := varCount_isVar hvar
    obtain ⟨t', ht', hid⟩ := isVar_iff.mp hvar
    exact ⟨rfl, rfl, rfl, .inr ⟨rfl, by omega⟩, .inl ⟨rfl, t', ht', hid, hty t' (.inr ht') hid⟩,
      by omega, by omega, by omega⟩

theorem substitute_window (suit : Suitable st.locations b.ops)
    (hops : b.ops = done ++ ([mv, op] ++ rest)) (h : substitute? st b mv op = some new) :
    Window.{u} st.locations b.liveOut [mv, op] new rest := by
  obtain ⟨hmv, hop, hdir, t, ht, hty, -⟩ := substitute?_eq_some h
  obtain ⟨hnew, hout, hadd, hfirst, hsecond, hcountAdd, hcountOut, hone⟩ :=
    substituted_of suit hops h ht
  obtain ⟨hs, hplain, hnot⟩ := op_of_computes hop
  obtain ⟨hmvOut, -, hrem⟩ := temp?_eq_some.mp ht
  have hmem : op ∈ b.ops := by simp [hops]
  have hregOp := suit.regular op hmem
  obtain ⟨h1, h2, h3, h4⟩ := (plainAddresses_iff hs).mp hregOp.addresses
  have huses := uses_eq hs
  refine ⟨⟨?_, ?_⟩, ?_, ?_, fun _ => ?_⟩
  · refine (plainAddresses_iff (by rw [hnew]; exact hs)).mpr
      ⟨hfirst.plain hdir h1, hsecond.plain hdir h2, by rw [hadd]; exact h3, by rw [hout]; exact h4⟩
  · refine hregOp.uniform.of_types fun o ho ty hoty => ?_
    by_cases ha : isArith op.op = true
    · rw [boundOperands_of_arith (by rw [hnew]; exact ha), hadd, hout] at ho
      rw [boundOperands_of_arith ha]
      simp only [List.mem_append] at ho ⊢
      rcases ho with ((ho | ho) | ho) | ho
      · obtain ⟨q, hq, hqt⟩ := hfirst.types hdir hty ho hoty
        exact ⟨q, .inl (.inl (.inl hq)), hqt⟩
      · obtain ⟨q, hq, hqt⟩ := hsecond.types hdir hty ho hoty
        exact ⟨q, .inl (.inl (.inr hq)), hqt⟩
      · exact ⟨o, .inl (.inr ho), hoty⟩
      · exact ⟨o, .inr ho, hoty⟩
    · simp [boundOperands, hnew, ha, hnot] at ho
  · intro v hv
    rw [mem_namedVars_of_computes (by rw [hnew]; exact hop)] at hv
    have hnamed : mv.first = some (.var v) ∨ op.first = some (.var v) ∨
        op.second = some (.var v) := by
      rcases hv with hv | hv
      · exact (hfirst.source hv).imp id .inl
      · exact (hsecond.source hv).imp id .inr
    rcases hnamed with hv | hv
    · exact ⟨mv, by simp, (mem_namedVars_of_move hmv).mpr (.inl hv)⟩
    · exact ⟨op, by simp, (mem_namedVars_of_computes hop).mpr hv⟩
  · have hsame : isFloatFusion new = isFloatFusion op := by
      simp only [isFloatFusion, hnew, hout]
    simp [(move_plain hmv).2.2, hsame]
  · refine replaces_of_temps [t.ident] suit hops ?_ fun μ M law s => ?_
    · simp only [List.mem_singleton, forall_eq, List.flatMap_cons, varCount_append]
      exact ⟨hrem, by omega⟩
    · have hadd' : Substituted t mv.first op.addend new.addend := .inr ⟨hadd, hcountAdd⟩
      refine exec_substitute law hop hmv hmvOut hnew hout hregOp.addresses s
        (hfirst.reading law suit hrem hmem ?_ h1 hmv rfl hdir hty hmvOut s)
        (hsecond.reading law suit hrem hmem ?_ h2 hmv rfl hdir hty hmvOut s)
        (hadd'.reading law suit hrem hmem ?_ h3 hmv rfl hdir hty hmvOut s)
        (untouched hrem suit.separate hmem ?_ hcountOut)
      all_goals
        intro p hp
        rw [huses]
        simp [hp, hplain.1]

/-! ## Doubling -/

/-- The sum of a factor with itself is as regular as the product. -/
theorem doubled_regular {x : Option Operand} (hop : mul.op = .mul)
    (hx : x = mul.first ∨ x = mul.second) (hreg : Regular mul) : Regular (doubled mul x) := by
  have hs : isSilent mul.op = false := by simp [hop, isSilent]
  have ha : isArith mul.op = true := by simp [hop, isArith]
  obtain ⟨h1, h2, h3, h4⟩ := (plainAddresses_iff hs).mp hreg.addresses
  have hplain : PlainSource x := by
    rcases hx with rfl | rfl
    · exact h1
    · exact h2
  refine ⟨(plainAddresses_iff rfl).mpr ⟨hplain, hplain, h3, h4⟩, ?_⟩
  refine hreg.uniform.of_types fun o ho ty hty => ⟨o, ?_, hty⟩
  rw [boundOperands_of_arith rfl] at ho
  rw [boundOperands_of_arith ha]
  simp only [doubled, List.mem_append] at ho ⊢
  rcases hx with rfl | rfl <;> tauto

theorem doubled_named {x : Option Operand} (hop : mul.op = .mul)
    (hx : x = mul.first ∨ x = mul.second) {v : Var} (hv : v ∈ namedVars (doubled mul x)) :
    v ∈ namedVars mul := by
  rw [mem_namedVars_of_computes (by rfl)] at hv
  rw [mem_namedVars_of_computes (by rw [hop]; rfl)]
  simp only [doubled] at hv
  rcases hx with rfl | rfl <;> tauto

/-- A product with a two is the sum, in states that agree on what both read. -/
theorem exec_doubled {μ : Type u} {M : Meaning μ} {locs : Locations} {D : Cell → Prop}
    {s s' : State μ} {x : Option Operand} (law : M.Lawful) (hop : mul.op = .mul)
    (hagree : AgreeOff D s' s) (hreg : Regular mul) {l : Literal} (two : literalIsTwo l = true)
    {f : BitVec 64}
    (hf : ∀ o, mul.output = some o → SameKind l.ty o.ty ∧ f = trunc o.ty.size (M.bits l))
    (hfactors : (bitsOf (mul.first.map (reading M locs s')) = bitsOf (x.map (reading M locs s)) ∧
        bitsOf (mul.second.map (reading M locs s')) = f) ∨
      (bitsOf (mul.second.map (reading M locs s')) = bitsOf (x.map (reading M locs s)) ∧
        bitsOf (mul.first.map (reading M locs s')) = f))
    (haddend : mul.addend.map (reading M locs s') = mul.addend.map (reading M locs s))
    (ht : ∀ p ∈ outputParts mul, ¬ Touches locs D p) :
    AgreeOff D (exec M locs mul s') (exec M locs (doubled mul x) s) := by
  have hs : isSilent mul.op = false := by simp [hop, isSilent]
  obtain ⟨-, -, -, h4⟩ := (plainAddresses_iff hs).mp hreg.addresses
  obtain ⟨hr1, hr2, hr3⟩ := readings_sources (M := M) locs s' hs
  obtain ⟨hd1, hd2, hd3⟩ :=
    readings_sources (M := M) locs s (i := doubled mul x) rfl
  have hvalue := value_mul_two law mul.output two hf (bitsOf (x.map (reading M locs s)))
    (bitsOf (mul.addend.map (reading M locs s)))
  refine exec_congr_of_result hagree rfl (v := M.value .add (typeOf mul.output)
    (bitsOf (x.map (reading M locs s))) (bitsOf (x.map (reading M locs s)))
    (bitsOf (mul.addend.map (reading M locs s)))) ?_ ?_ (fun o ho => h4 o ho) ht
  · rw [hop, result_arith rfl, hr1, hr2, hr3, haddend]
    rcases hfactors with ⟨h1, h2⟩ | ⟨h2, h1⟩
    · rw [h1, h2, hvalue.1]
    · rw [h1, h2, hvalue.2]
  · rw [show (doubled mul x).op = .add from rfl, result_arith rfl, hd1, hd2, hd3]
    rfl

/-- A multiplication by a literal two becomes the sum of the other factor with itself. -/
theorem double_window (suit : Suitable st.locations b.ops) {x two : Option Operand}
    (hops : b.ops = done ++ ([mul] ++ rest)) (hop : mul.op = .mul) (htwo : isTwo two = true)
    (hx : (x = mul.first ∧ two = mul.second) ∨ (x = mul.second ∧ two = mul.first)) :
    Window.{u} st.locations b.liveOut [mul] (doubled mul x) rest := by
  have hreg := suit.regular mul (by simp [hops])
  have hx' : x = mul.first ∨ x = mul.second := by tauto
  refine ⟨doubled_regular hop hx' hreg, fun v hv => ⟨mul, by simp, doubled_named hop hx' hv⟩, ?_,
    fun _ => ?_⟩
  · simp [isFloatFusion, hop, Opcode.isFused]
  · refine replaces_of_temps [] suit hops (by simp) fun μ M law s => ?_
    obtain ⟨p, l, hp, hl, hlt, hbits⟩ := bits_of_isTwo (M := M) st.locations s htwo
    have hbound := boundOperands_of_arith (i := mul) (by simp [hop, isArith])
    have hpb : p ∈ boundOperands mul := by
      rw [hbound]
      rcases hx with ⟨-, rfl⟩ | ⟨-, rfl⟩ <;> simp [hp]
    refine exec_doubled law hop (AgreeOff.refl _ s) hreg hl
      (f := bitsOf (two.map (reading M st.locations s))) (fun o ho => ?_) ?_ rfl ?_
    · have hob : o ∈ boundOperands mul := by rw [hbound]; simp [ho]
      exact ⟨hreg.uniform p hpb o hob _ hlt _ (ty_mem_typesOf o), by
        rw [hbits, (hreg.uniform.kind p o hpb hob).1]⟩
    · rcases hx with ⟨rfl, rfl⟩ | ⟨rfl, rfl⟩
      · exact .inl ⟨rfl, rfl⟩
      · exact .inr ⟨rfl, rfl⟩
    · rintro o - ⟨c, -, ident, hmem, -⟩
      simp at hmem

/-- An instruction reads a temporary as one of its two sources and nowhere else. -/
structure ReadsOnce (locs : Locations) (i : Instr) (t : Var) (other : Option Operand) : Prop where
  used : 1 ≤ varCount t.ident i.uses
  other : ∀ p ∈ Instr.readsOption other, ¬ Touches locs (cellsOf locs [t.ident]) p
  addend : ∀ p ∈ Instr.readsOption i.addend, ¬ Touches locs (cellsOf locs [t.ident]) p
  output : ∀ p ∈ outputParts i, ¬ Touches locs (cellsOf locs [t.ident]) p

theorem readsOnce_of_isVar (suit : Suitable st.locations b.ops) {i : Instr} {x y : Option Operand}
    (hops : b.ops = done ++ (old ++ rest)) (hi : i ∈ old)
    (hrem : b.canRemove st.locations t.ident = true) (hs : isSilent i.op = false)
    (hb : i.op.isBranch = false) (hxy : Sources i x y) (hx : isVar x t = true) :
    ReadsOnce st.locations i t y := by
  have hcount : varCount t.ident i.uses ≤ 1 := by
    have hwindow := count_window hops hrem
    obtain ⟨p, q, rfl⟩ := List.append_of_mem hi
    simp only [List.flatMap_append, List.flatMap_cons, varCount_append] at hwindow
    omega
  have huses := varCount_uses hs hb t.ident
  have hone := varCount_isVar hx
  have huntouched : ∀ os : List Operand, (∀ o ∈ os, o ∈ i.uses) → varCount t.ident os = 0 →
      ∀ o ∈ os, ¬ Touches st.locations (cellsOf st.locations [t.ident]) o := fun os hsub hzero =>
    untouched hrem suit.separate (by simp [hops, hi]) hsub hzero
  rcases hxy with ⟨rfl, rfl⟩ | ⟨rfl, rfl⟩
  all_goals
    refine ⟨by omega, huntouched _ ?_ (by omega), huntouched _ ?_ (by omega),
      huntouched _ ?_ (by omega)⟩
    all_goals
      intro o ho
      rw [uses_eq hs]
      simp [hb, ho]

/-- The two may come through a temporary. -/
theorem double_moved_window (suit : Suitable st.locations b.ops) {x : Option Operand}
    (hops : b.ops = done ++ ([mv, mul] ++ rest)) (hop : mul.op = .mul) (hmv : mv.op = .move)
    (htwo : isTwo mv.first = true) (ht : temp? st b mv.output = some t)
    {y : Option Operand} (hxy : Sources mul y x) (hy : isVar y t = true) :
    Window.{u} st.locations b.liveOut [mv, mul] (doubled mul x) rest := by
  have hreg := suit.regular mul (by simp [hops])
  have hregMv := suit.regular mv (by simp [hops])
  have hx' : x = mul.first ∨ x = mul.second := by unfold Sources at hxy; tauto
  have hs : isSilent mul.op = false := by simp [hop, isSilent]
  obtain ⟨hout, -, hrem⟩ := temp?_eq_some.mp ht
  obtain ⟨h1, h2, h3, -⟩ := (plainAddresses_iff hs).mp hreg.addresses
  refine ⟨doubled_regular hop hx' hreg, fun v hv => ⟨mul, by simp, doubled_named hop hx' hv⟩, ?_,
    fun _ => ?_⟩
  · simp [isFloatFusion, hop, hmv, Opcode.isFused]
  have once := readsOnce_of_isVar suit hops (by simp) hrem hs
    (by simp [hop, Opcode.isBranch, Opcode.isCondBranch]) hxy hy
  obtain ⟨t', rfl, hid⟩ := isVar_iff.mp hy
  have hsource : mul.first = some (.var t') ∨ mul.second = some (.var t') :=
    hxy.imp (fun h => h.1.symm) fun h => h.1.symm
  have hty : t'.ty = t.ty := ty_of_moved suit (by simp [hops]) (by simp [hops]) hmv hout
    (by rw [hop]; rfl) hsource hid
  refine replaces_of_temps [t.ident] suit hops ?_ fun μ M law s => ?_
  · have hused := once.used
    simp only [List.mem_singleton, forall_eq, List.flatMap_cons, varCount_append]
    exact ⟨hrem, by omega⟩
  obtain ⟨p, l, hp, hl, hlt, hbits⟩ :=
    bits_of_isTwo (M := M) st.locations s htwo
  obtain ⟨hagree, hval⟩ := exec_temp law st.locations s hout
    (by rw [hmv]; exact result_move _ _)
  have hboundMv := boundOperands_of_move hmv
  have hpt : SameKind p.ty t.ty := hregMv.uniform.kind p (.var t)
    (by simp [hboundMv, hp]) (by simp [hboundMv, hout])
  have hlit : SameKind l.ty t.ty := hregMv.uniform p (by simp [hboundMv, hp]) (.var t)
    (by simp [hboundMv, hout]) _ hlt _ (by simp [typesOf, Operand.ty])
  rw [(readings_sources st.locations s (move_plain hmv).1).1, hbits, hpt.1, trunc_trunc] at hval
  have hf : bitsOf ((some (Operand.var t')).map
      (reading M st.locations (exec M st.locations mv s))) = trunc t.ty.size (M.bits l) := by
    rw [bitsOf_var, hid, hty, hval]
  have hxr := reading_option_congr (M := M) hagree x
    (by rcases hx' with rfl | rfl <;> assumption) once.other
  refine exec_doubled law hop hagree hreg hl (f := trunc t.ty.size (M.bits l)) (fun o ho => ?_) ?_
    (reading_option_congr hagree _ h3 once.addend) once.output
  · have hbound := boundOperands_of_arith (i := mul) (by simp [hop, isArith])
    have hkind : SameKind t'.ty o.ty := hreg.uniform.kind (.var t') o
      (by rw [hbound]; rcases hsource with h | h <;> simp [h])
      (by rw [hbound]; simp [ho])
    rw [hty] at hkind
    exact ⟨hlit.trans hkind, by rw [hkind.1]⟩
  · rcases hxy with ⟨h, rfl⟩ | ⟨h, rfl⟩
    · exact .inr ⟨by rw [hxr], by rw [← h, hf]⟩
    · exact .inl ⟨by rw [hxr], by rw [← h, hf]⟩

end MoveWindows

end Windows

end Backend.Peephole
