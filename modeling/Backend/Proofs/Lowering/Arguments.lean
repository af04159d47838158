-- Caller and callee agree on where arguments are. A call leaves every argument in the place that
-- the convention gives to it, and a function with parameters of the same types takes each of them
-- from there.
import Backend.Proofs.Lowering.Parameters
import Backend.Proofs.Lowering.RegisterArgs

namespace Backend.Lowering

open Backend.Machine (Place)

/-! ## From the call to the function -/

/-- The place of an argument at the call is that of the parameter below the return address. -/
theorem incoming_push (s : Machine.State) (ret : BitVec (8 * 8)) (p : Param) :
    p.incoming (s.push ret) = p.place.place (s.regs Machine.rsp) := by
  have hback : (s.push ret).regs Machine.rsp + 8 = s.regs Machine.rsp := by
    rw [(Machine.pushed_push s ret).rsp]
    exact BitVec.sub_add_cancel _ _
  rw [Param.incoming, hback]

/-- The return address does not change what is in the place of an argument. -/
theorem get_incoming_push {p : Param} (h : p.Placed) (s : Machine.State) (ret : BitVec (8 * 8))
    {n : Nat} (hn : n ≤ 8) :
    (s.push ret).get (p.incoming (s.push ret)) n =
      s.get (p.place.place (s.regs Machine.rsp)) n := by
  have hspared := h.spared (m := s) (Nat.zero_le 8) hn
  rw [BitVec.add_zero] at hspared
  rw [incoming_push]
  exact (disturbs_push s ret).get hspared hn

/-- For a call and a function with parameters of the types of its arguments. No two arguments have
one place. The lines before the call can be run, and a run of them leaves every argument in its
place: in a register of the call, or in the words from the stack pointer on. The lines of the start
of the function can be run where it finds its parameters, and a run of them from any entry points
the frame pointer sixteen bytes below those words and leaves in every parameter what was in its
place. So a parameter is what the argument was worth before the first line of the call. -/
theorem parameters_taken_where_arguments_are_passed {cx cx' : Context} {st st' t t' : State}
    {e e' : Scene} {s : Machine.State} {items : List Operand} (hcall : call cx st = .ok ((), st'))
    (hstart : prologue cx' t = .ok ((), t')) (hitems : cx'.instr.output = some (.list items))
    (htypes : items.map Operand.ty = (callArgs cx.instr).map Operand.ty)
    (hfew : items.length < 2 ^ 59) (hlocs : st.closure.locations = e.locs)
    (hplaces : e.Places st'.closure) (hlocs' : t'.closure.locations = e'.locs)
    (hpass : ∀ a ∈ callArgs cx.instr, Passable e cx s (argRoom (argState cx.instr)) a) :
    ∃ (vars : List Var) (pre rest body : List Instr) (f : Operand) (used : List Operand),
      items = vars.map Operand.var ∧ ((paramsOf vars).map Param.place).Pairwise ArgPlace.Apart ∧
      st'.out = st.out ++ pre ++ callInstr cx f used :: rest ∧
      (∀ i ∈ pre, i.op ≠ .call ∧ i.op ≠ .rtCall) ∧
      (∀ p ∈ paramsOf vars, ∀ r, p.place = .reg r → .reg r ∈ used) ∧
      t'.out = t.out ++ cx'.instr :: body ∧
      (∃ s', LineRun e pre s s') ∧
      (∀ s', LineRun e pre s s' →
        s'.regs Machine.rsp = roomBelow s (argRoom (argState cx.instr)) ∧
        ∀ (i : Nat) (a : Operand) (p : Param) (d : Datum), (callArgs cx.instr)[i]? = some a →
          (paramsOf vars)[i]? = some p → e.datum? s a = some d →
          (∀ r, p.place = .reg r → Orderly e.locs (leftMoves cx st)) →
          Carries s' (p.place.place (s'.regs Machine.rsp)) a.ty d ∧
          ∀ ret m', Receives e' (s'.push ret) t.closure.saved (paramsOf vars) →
            LineRun e' body (s'.push ret) m' →
            ∃ home, e'.toSetting.home? (.var p.var) = some home ∧ Carries m' home a.ty d) ∧
      ∀ m, Receives e' m t.closure.saved (paramsOf vars) → (∃ m', LineRun e' body m m') ∧
        ∀ m', LineRun e' body m m' → m'.regs Machine.rbp + 16 = m.regs Machine.rsp + 8 ∧
          ∀ p ∈ paramsOf vars, ∃ home, e'.toSetting.home? (.var p.var) = some home ∧
            ∀ n ≤ registerWidth p.var.ty,
              m'.get home n = m.get (p.place.place (m.regs Machine.rsp + 8)) n := by
  obtain ⟨padded, pushed, loaded, aimed, moved, moves, f, count, rest, run⟩ := exists_callRun hcall
  have assigned : Assigned (callArgs cx.instr) (argState cx.instr) := assigned_foldl _
  obtain ⟨pre, dests, hpre, hprelim⟩ := run.exists_preliminary assigned hlocs
  obtain ⟨vars, taken, movedParams, assign, rfl, htaking, hbody⟩ := exists_taking hstart hitems
  have htypes : vars.map Var.ty = (callArgs cx.instr).map Operand.ty := by
    rw [← htypes, List.map_map]
    rfl
  have hmap : (paramsOf vars).map Param.place = argPlaces ((callArgs cx.instr).map Operand.ty) := by
    rw [← htypes]
    exact map_place_paramsFrom [] vars
  rw [List.length_map] at hfew
  have hcount : (callArgs cx.instr).length < 2 ^ 59 := by
    have hlen := congrArg List.length htypes
    rw [List.length_map, List.length_map] at hlen
    omega
  -- A parameter and the argument of its number are of one type and have one place.
  have hat : ∀ (i : Nat) (p : Param), (paramsOf vars)[i]? = some p →
      (argPlaces ((callArgs cx.instr).map Operand.ty))[i]? = some p.place ∧
        ∃ a, (callArgs cx.instr)[i]? = some a ∧ p.var.ty = a.ty := by
    intro i p hp
    have hplace : (argPlaces ((callArgs cx.instr).map Operand.ty))[i]? = some p.place := by
      rw [← hmap, List.getElem?_map, hp]
      rfl
    refine ⟨hplace, ?_⟩
    rw [paramsOf, getElem?_paramsFrom] at hp
    obtain ⟨v, hv, rfl⟩ := Option.map_eq_some_iff.mp hp
    have hsame := congrArg (·[i]?) htypes
    simp only [List.getElem?_map, hv, Option.map_some] at hsame
    obtain ⟨a, ha, hty⟩ := Option.map_eq_some_iff.mp hsame.symm
    exact ⟨a, ha, hty.symm⟩
  refine ⟨vars, pre, rest, _, f, usedRegs cx (argState cx.instr) f, rfl,
    hmap ▸ argPlaces_pairwise _, ?_, hprelim.silent, fun p hp r hr => ?_, hbody,
    exists_lineRun hprelim.runnable s,
    fun s' hrun => ⟨(hprelim.disturbs s s' hrun).rsp, fun i a p d ha hp hd horder => ?_⟩,
    fun m hrec => ⟨htaking.exists_run hrec, fun m' hrun => ⟨?_, fun p hp => ?_⟩⟩⟩
  · rw [run.code, hpre]
  · obtain ⟨i, hi⟩ := List.mem_iff_getElem?.mp hp
    obtain ⟨hplace, a, ha, -⟩ := hat i p hi
    have hmove := assigned.at_place ha (hr ▸ hplace)
    exact List.mem_append_left _ (List.mem_map.mpr ⟨_, hmove, rfl⟩)
  · obtain ⟨hplace, a', ha', hty⟩ := hat i p hp
    obtain rfl := Option.some.inj (ha.symm.trans ha')
    have hcarried := run.carries hlocs hplaces hcount hpass horder ha hplace hd hpre hrun
    refine ⟨hcarried, fun ret m' hrec hrun' => ?_⟩
    have hmem := List.mem_of_getElem? hp
    obtain ⟨home, hhome, hget⟩ := htaking.get_param hrec hfew hlocs' hrun' hmem
    refine ⟨home, hhome, fun n hn hw => ?_⟩
    rw [hget n (hty ▸ hn), get_incoming_push (placed_of_mem hfew hmem) s' ret
      (hn.trans (registerWidth_le_eight _))]
    exact hcarried n hn hw
  · rw [htaking.rbp_eq hrec hrun, hrec.base]
    ring
  · exact htaking.get_param hrec hfew hlocs' hrun hp

/-- The call of a function with a float and seven integers, of which the last one finds no
register. -/
def eightArgs : Context :=
  let literal (n : Int64) : Operand := .imm (.int .w64 n)
  ⟨[], none, .make .call (some (.symbol ⟨"g", false, true, .ptr, none⟩))
    (some (.list [literal 1, .reg (xmm 3 8), literal 2, literal 3, literal 4, literal 5, literal 6,
      literal 7])) none⟩

/-- The parameters of that function. -/
def eightParams : List Var :=
  let param (name : String) (t : Ty) : Var := ⟨name, t, true, false⟩
  [param "a" .i64, param "x" .f64, param "b" .i64, param "c" .i64, param "d" .i64, param "e" .i64,
    param "f" .i64, param "g" .i64]

/-- The start of that function. -/
def eightEntry : Context :=
  ⟨[], none, .make .fnBegin none none (some (.list (eightParams.map .var)))⟩

/-- Nothing has a place, and every symbol is at zero. -/
def bareScene : Scene := ⟨bareSetting, []⟩

/-- The function is entered with its stack pointer at `0x1008`. -/
def eightScene (c : Closure) : Scene := ⟨⟨bareSetting.link, c.locations, 0x1000⟩, []⟩

/-- The call is made where two words make its stack pointer `0x1010`. -/
def eightState : Machine.State :=
  { numbered with regs := Function.update numbered.regs Machine.rsp 0x1020 }

theorem passable_eightArgs : ∀ a ∈ callArgs eightArgs.instr,
    Passable bareScene eightArgs eightState (argRoom (argState eightArgs.instr)) a := by
  intro a ha
  have hcases : (∃ n, a = .imm (.int .w64 n)) ∨ a = .reg (xmm 3 8) := by
    simp only [eightArgs, callArgs, Instr.make, List.mem_cons, List.not_mem_nil, or_false] at ha
    rcases ha with rfl | rfl | rfl | rfl | rfl | rfl | rfl | rfl <;> simp
  rcases hcases with ⟨n, rfl⟩ | rfl
  · exact ⟨takeable_int _ _, ⟨_, rfl⟩, by simp [Filled]⟩
  · refine ⟨⟨?_, ⟨by simp, by simp⟩, by simp [FloatThere], by simp⟩, ⟨_, rfl⟩, by simp [Filled]⟩
    rintro p n' (⟨hp, -⟩ | ⟨base, index, scale, disp, t, part, ⟨⟩, -⟩)
    cases hp
    have hne (id : Machine.RegId) : (xmm 3 8).place ≠ .reg id := by simp [Reg.place, xmm]
    exact ⟨hne _, hne _, fun h => absurd h (hne _), by simp, trivial⟩

/-- A parameter on the stack and one in a register are what the arguments were. -/
theorem eighth_parameter_taken_where_passed :
    ∃ (st' t' : State) (pre rest body : List Instr) (f : Operand) (used : List Operand),
      call eightArgs emptyState = .ok ((), st') ∧ prologue eightEntry emptyState = .ok ((), t') ∧
      st'.out = pre ++ callInstr eightArgs f used :: rest ∧ t'.out = eightEntry.instr :: body ∧
      (∃ s', LineRun bareScene pre eightState s') ∧
      ∀ s', LineRun bareScene pre eightState s' →
        s'.get (.mem (s'.regs Machine.rsp)) 8 = 7 ∧
        ∀ ret m', LineRun (eightScene t'.closure) body (s'.push ret) m' →
          m'.get (.mem 0x1010) 8 = 7 ∧ m'.get (.xmm 0) 8 = eightState.get (.xmm 3) 8 := by
  obtain ⟨st', hcall⟩ : ∃ st', call eightArgs emptyState = .ok ((), st') := ⟨_, rfl⟩
  obtain ⟨t', hstart⟩ : ∃ t', prologue eightEntry emptyState = .ok ((), t') := ⟨_, rfl⟩
  have hkept : ∀ p ∈ paramsOf eightParams,
      t'.closure.locations.lookup p.var.ident = some p.place.home := by
    cases hstart
    decide
  have horder : Orderly [] (leftMoves eightArgs emptyState) :=
    ⟨_, .ready rfl (.ready rfl (.ready rfl (.ready rfl (.ready rfl (.ready rfl (.ready rfl
      (.stop _)))))))⟩
  have hplaces : bareScene.Places st'.closure := by
    cases hcall
    exact fun key name h => h
  have hlocs : t'.closure.locations = (eightScene t'.closure).locs := rfl
  obtain ⟨vars, pre, rest, body, f, used, hvars, -, hout, -, -, hbody, hruns, hcarries, -⟩ :=
    parameters_taken_where_arguments_are_passed (e := bareScene)
      (s := eightState) hcall hstart rfl rfl (by decide) rfl hplaces hlocs passable_eightArgs
  obtain rfl : eightParams = vars := List.map_injective_iff.mpr (fun _ _ => Operand.var.inj) hvars
  refine ⟨st', t', pre, rest, body, f, used, hcall, hstart, hout, hbody, hruns, fun s' hrun => ?_⟩
  obtain ⟨hrsp, hargs⟩ := hcarries s' hrun
  obtain ⟨hword, hlast⟩ := hargs 7 (.imm (.int .w64 7)) ⟨⟨"g", .i64, true, false⟩, .stack 0⟩
    ⟨true, 8, 7⟩
    rfl rfl rfl fun r hr => by cases hr
  obtain ⟨-, hfloat⟩ := hargs 1 (.reg (xmm 3 8)) ⟨⟨"x", .f64, true, false⟩, .reg (xmm 0 8)⟩
    ⟨false, 8, eightState.get (.xmm 3) 8⟩ rfl rfl rfl fun _ _ => horder
  refine ⟨?_, fun ret m' hrun' => ?_⟩
  · have hvalue := hword 8 (by decide) (Nat.le_refl 8)
    simp only [ArgPlace.place, Nat.mul_zero, BitVec.add_zero] at hvalue
    exact hvalue
  · have hbase : (eightScene t'.closure).base = (s'.push ret).regs Machine.rsp - 8 := by
      rw [(Machine.pushed_push s' ret).rsp, Machine.State.below, hrsp]
      rfl
    have hrec := receives_of_kept hbase (by decide) hkept
    have hslot := home?_kept hbase
      (hkept ⟨⟨"g", .i64, true, false⟩, .stack 0⟩ (List.mem_of_getElem? (i := 7) rfl))
    have hreg := home?_kept hbase
      (hkept ⟨⟨"x", .f64, true, false⟩, .reg (xmm 0 8)⟩ (List.mem_of_getElem? (i := 1) rfl))
    obtain ⟨home, hhome, hvalue⟩ := hlast ret m' hrec hrun'
    obtain ⟨home', hhome', hvalue'⟩ := hfloat ret m' hrec hrun'
    obtain rfl := Option.some.inj (hslot.symm.trans hhome)
    obtain rfl := Option.some.inj (hreg.symm.trans hhome')
    have htop : roomBelow eightState (argRoom (argState eightArgs.instr)) + BitVec.ofNat 64
        (8 * 0) =
        0x1010 := by decide
    rw [incoming_push, hrsp, ArgPlace.place, htop] at hvalue
    exact ⟨hvalue 8 (by decide) (Nat.le_refl 8), hvalue' 8 (by decide) (Nat.le_refl 8)⟩

/-- A call with an argument that waits in xmm13 when the second cycle is broken. -/
def contendedCall : Context :=
  ⟨[], none, .make .call (some (.symbol ⟨"g", false, true, .ptr, none⟩))
    (some (.list (contended.map Move.src))) none⟩

def contendedLines : List Instr :=
  let move (src dst : Operand) : Instr :=
    ⟨.move, some src, none, none, some dst, contendedCall.instr.pos⟩
  let reg (id : Machine.RegId) : Operand := .reg (gpr id 8)
  [move (reg Machine.rdi) (.reg regXmm13), move (.imm (.int .w64 5)) (reg Machine.rdi),
    move (reg Machine.rdx) (.reg regXmm13),
    move (.indirect (some (reg Machine.rsi)) (some (reg Machine.rcx)) 1 0 .i64) (reg Machine.rdx),
    move (.reg regXmm13) (reg Machine.rsi), move (.reg regXmm13) (reg Machine.rcx)]

/-- At that call the register of the second argument holds another value than that was worth. -/
theorem argument_lost_to_second_cycle : ∃ st' f used,
    call contendedCall emptyState = .ok ((), st') ∧
      st'.out = contendedLines ++ [callInstr contendedCall f used] ∧
      (callArgs contendedCall.instr)[1]? = some (.reg (gpr Machine.rdi 8)) ∧
      (argPlaces ((callArgs contendedCall.instr).map Operand.ty))[1]? =
        some (.reg (gpr Machine.rsi 8)) ∧
      bareScene.datum? numbered (.reg (gpr Machine.rdi 8)) = some ⟨true, 8, 7⟩ ∧
      (∃ s', LineRun bareScene contendedLines numbered s') ∧
      ∀ s', LineRun bareScene contendedLines numbered s' → s'.get (.reg Machine.rsi) 8 = 2 := by
  refine ⟨_, _, _, rfl, rfl, rfl, rfl, rfl, exists_lineRun (fun i hi => ?_) _, fun s' hrun =>
    Ensures.of_run (Q := fun s' => s'.get (.reg Machine.rsi) 8 = 2) ?_ hrun⟩
  · simp only [contendedLines, List.mem_cons, List.not_mem_nil, or_false] at hi
    rcases hi with rfl | rfl | rfl | rfl | rfl | rfl <;> exact .inr (.inl ⟨_, rfl⟩)
  · refine ⟨_, 8, _, Nat.le_refl 8, effect?_move rfl rfl, fun s1 h1 => ?_⟩
    refine ⟨_, 8, _, Nat.le_refl 8, effect?_move rfl rfl, fun s2 h2 => ?_⟩
    refine ⟨_, 8, _, Nat.le_refl 8, effect?_move rfl rfl, fun s3 h3 => ?_⟩
    refine ⟨_, 8, _, Nat.le_refl 8, effect?_move rfl rfl, fun s4 h4 => ?_⟩
    refine ⟨_, 8, _, Nat.le_refl 8, effect?_move rfl rfl, fun s5 h5 => ?_⟩
    refine ⟨_, 8, _, Nat.le_refl 8, effect?_move rfl rfl, fun s6 h6 => ?_⟩
    have hrsi : s6.get (.reg Machine.rsi) 8 = s5.get (.reg Machine.rsi) 8 :=
      h6.get_of_separate_scratch (by simp [Machine.rsi, Machine.r11])
        (show Machine.rcx ≠ Machine.rsi by decide) (by decide)
    have hsecond : s5.get (.reg Machine.rsi) 8 = s4.get (.xmm 13) 8 :=
      h5.value.trans (Datum.brought_self ⟨false, 8, s4.get (.xmm 13) 8⟩)
    have hwaits : s4.get (.xmm 13) 8 = s3.get (.xmm 13) 8 :=
      h4.get_of_separate_scratch (by simp) trivial (by decide)
    -- The second cycle is broken: xmm13 holds rdx from here on.
    have hbroken : s3.get (.xmm 13) 8 = s2.get (.reg Machine.rdx) 8 :=
      h3.value.trans (Datum.brought_self ⟨true, 8, s2.get (.reg Machine.rdx) 8⟩)
    have hrdx : s2.get (.reg Machine.rdx) 8 = s1.get (.reg Machine.rdx) 8 :=
      h2.get_of_separate_scratch (by simp [Machine.rdx, Machine.r11])
        (show Machine.rdi ≠ Machine.rdx by decide) (by decide)
    have hfirst : s1.get (.reg Machine.rdx) 8 = numbered.get (.reg Machine.rdx) 8 :=
      h1.get_of_separate_scratch (by simp [Machine.rdx, Machine.r11]) trivial (by decide)
    change s6.get (.reg Machine.rsi) 8 = 2
    rw [hrsi, hsecond, hwaits, hbroken, hrdx, hfirst]
    rfl

end Backend.Lowering
