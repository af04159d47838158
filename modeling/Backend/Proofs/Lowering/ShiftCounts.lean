-- A shift by a count at a place and the same shift by a literal: what the lowered and selected code
-- of each leaves. They are the same shift wherever the literal is cut to no fewer bits than the
-- machine counts.
import Backend.Proofs.Lowering.ShiftRuns

namespace Backend.Lowering

open Backend.Machine (Place Assigns acts)
open Backend.Selection (shifted? Resolves)

/-! ## The store after a shift in the temporary register -/

section Store

variable {e : Scene} {cx : Context} {c : Closure} {s : Machine.State} {output : Operand}

/-- The temporary register holds the value that is stored. -/
theorem standing_storeDraft (e : Scene) (cx : Context) (s : Machine.State) (t : Ty)
    (output : Option Operand) :
    Standing e cx 8 s (storeDraft cx (tempReg t) output).instr
      (storeDraft cx (tempReg t) output) s where
  untouched := .refl s
  op := rfl
  output := rfl
  source slot hne := by
    cases slot with
    | first => exact .some ⟨.refl, fun h => absurd rfl h⟩
    | second => exact .none
    | addend => exact .none
    | output => exact absurd rfl hne
  holder slot hh := by
    obtain rfl := Option.some.inj hh
    refine ⟨by decide, fun o ho => ?_⟩
    obtain rfl := Option.some.inj ho
    exact keepable_tempReg s t

theorem prepared_storeDraft (e : Scene) (cx : Context) (s : Machine.State) (t : Ty)
    (output : Option Operand) :
    Prepared e (e.scratch cx) s (fun _ => []) (storeDraft cx (tempReg t) output).instr [.first]
      (storeDraft cx (tempReg t) output) where
  admits slot hslot o ho := by
    obtain rfl := List.mem_singleton.mp hslot
    obtain rfl := Option.some.inj ho
    exact ⟨usable_temp e _ s t, fun _ h => nomatch h⟩
  pending _ _ := rfl
  op := rfl
  holder slot hh := by
    obtain rfl := Option.some.inj hh
    exact List.mem_singleton_self _

/-- The code of the store leaves what the temporary register holds in the output. -/
theorem acts_storeDraft {st st1 : State} {d : Draft} {p : Place} (h : IntegerPlace e cx s output)
    (hok : dest cx .output (storeDraft cx (tempReg output.ty) (some output)) st = .ok (d, st1))
    (hst : st.closure.locations = e.locs) (hplaces : e.Places st1.closure)
    (hlocs : c.locations = e.locs)
    (hrbp : s.regs Machine.rbp = e.base) (hp : e.place? s output = some p) :
    ∃ lines, st1.out = st.out ++ lines ∧ ∀ code last, Selection.instrs c lines = .ok code →
      Selection.instr c d.instr = .ok last → ∃ s1 s2, acts e.link (code ++ last) s = some s2 ∧
        Untouched (e.scratch cx) 0 s s1 ∧
        Assigns p (s.get (.reg Machine.r10) (width output)) [Machine.r11] s1 s2 := by
  let i : Instr := (storeDraft cx (tempReg output.ty) (some output)).instr
  have hsuit : ∀ o, i.output = some o → Suited e cx s o := by
    intro o ho
    obtain rfl := Option.some.inj ho
    exact h.toSuited
  have hworks : Works e (dest cx .output (storeDraft cx (tempReg output.ty) (some output)))
      (fun s1 => s1 = s) fun d s1 => Finished e cx 8 s i d s1 :=
    (works_dest (Nat.le_refl 8) hsuit rfl).mono
      (fun s1 h1 => h1 ▸ standing_storeDraft e cx s output.ty (some output)) fun d s1 h1 => h1.1
  have hproper : Proper e (e.scratch cx) s [] output := h.proper fun _ hid => nomatch hid
  have hlines : Maintains (Lines e cx s st.out)
      (dest cx .output (storeDraft cx (tempReg output.ty) (some output))) _ :=
    built_dest rfl hproper List.not_mem_nil (prepared_storeDraft e cx s output.ty (some output))
  obtain ⟨hprep, lines, hout, hruns⟩ := acts_of_works hworks hlines hok hst hplaces hlocs hrbp
  refine ⟨lines, hout, fun code last hcode hlast => ?_⟩
  obtain ⟨s1, hacts, hfin, huntouched⟩ := hruns code hcode
  -- The last line is a move of what stands for the temporary register.
  obtain ⟨hform1, -, hform2⟩ := Selection.operands_of_instr (i := d.instr)
    ((congrArg Selection.isSelectedByOperands hfin.op).trans rfl) hlast
  obtain ⟨o1, a1, p1, ho1, hfound1⟩ :=
    exists_sourceFound hfin.toSourceful hprep (by simp) (by decide)
    (show Slot.first.get i = some (.reg (tempReg output.ty)) from rfl) (fun l hl => by cases hl)
    (place?_temp s output.ty) hlocs hrbp List.not_mem_nil hform1
  obtain ⟨o2, a2, p2, ho2, hfound2⟩ :=
    exists_outputFound hfin hprep (by simp) (show i.output = some output from rfl)
    hlocs hrbp List.not_mem_nil hform2
  have hmove : d.instr = ⟨.move, some o1, none, none, some o2, d.instr.pos⟩ := by
    have hop : d.instr.op = .move := hfin.op
    have hsecond : d.instr.second = none := hprep.pending .second (by simp)
    have haddend : d.instr.addend = none := hprep.pending .addend (by simp)
    change d.instr.first = some o1 at ho1
    generalize d.instr = j at *
    obtain ⟨op, first, second, addend, out, pos⟩ := j
    simp_all
  rw [hmove] at hlast
  obtain ⟨q, s2, hq, hrun, hassigns⟩ :=
    run_moveOperands (l := e.link) (s := s1) hfound1.int hfound2.width
    hfound2.int hfound1.operand hfound2.operand hfound2.free hlast
  obtain rfl : p2 = q := Option.some.inj (hfound2.machine_place.symm.trans hq)
  obtain rfl : p = p2 := Option.some.inj (hp.symm.trans hfound2.placed)
  refine ⟨s1, s2, ?_, huntouched, ?_⟩
  · rw [Machine.acts_append_of_some hacts]
    exact Machine.acts_of_steps (Machine.steps_of_run hrun)
  · have hwidth : width (.reg (tempReg output.ty)) = width output := by
      rw [width_tempReg, h.width_eq]
    have hsame : machineWidth o1 = machineWidth o2 := by
      rw [machineWidth, machineWidth, hfound1.width_eq, hfound2.width_eq, hwidth]
    rw [Selection.convert_value e.link s1 _ hfound2.width (hsame ▸ hfound1.int), toNat_machineWidth,
      hfound2.width_eq, ← hwidth, hfound1.reads, hwidth] at hassigns
    exact hassigns

end Store

/-! ## What a shift leaves -/

/-- The bytes are outside what a shift may overwrite: the temporary registers, the scratch slots,
and the pushed word if rcx is saved. -/
structure ShiftSpares (e : Scene) (cx : Context) (s : Machine.State) (p : Place) (n : Nat) :
    Prop where
  scratch : Outside (e.scratch cx) 0 p n
  pushed : e.locs.occupies regRcx = true → Outside (stackWords s) 1 p n

/-- The place has the value, and the variables that are spared and apart from it are as they
were. -/
structure Leaves (e : Scene) (cx : Context) (s : Machine.State) (p : Place) {n : Nat}
    (v : BitVec (8 * n)) (s' : Machine.State) : Prop where
  value : s'.get p n = v
  kept : ∀ x q, e.place? s (.var x) = some q → ShiftSpares e cx s q (width (.var x)) →
    p.Separate n q (width (.var x)) → s'.get q (width (.var x)) = s.get q (width (.var x))

/-- The lines that the step appends are selected as the code, where the variables of the scene live
and with its literals. -/
structure Compiled (e : Scene) (m : LowerM Unit) (c : Closure) (st st' : State) (lines : List Instr)
    (code : List Machine.Inst) : Prop where
  lowered : m st = .ok ((), st')
  appended : st'.out = st.out ++ lines
  selected : Selection.instrs c lines = .ok code
  locations : st.closure.locations = e.locs
  literals : e.Places st'.closure
  homes : c.locations = e.locs

/-- The step is lowered and selected to the code. -/
def CompilesTo (e : Scene) (m : LowerM Unit) (code : List Machine.Inst) : Prop :=
  ∃ c st st' lines, Compiled e m c st st' lines code

section Shifts

variable {e : Scene} {cx : Context} {c : Closure} {s s1 s' : Machine.State} {st st' : State}
  {value count output : Operand} {f : (n : Nat) → BitVec n → Nat → BitVec n} {p : Place} {n : Nat}

/-- Where a variable is in rcx, rcx is occupied. -/
theorem occupies_of_place {x : Var} (h : e.place? s (.var x) = some (.reg Machine.rcx)) :
    e.locs.occupies regRcx = true := by
  simp only [Scene.place?, Setting.home?] at h
  split at h
  · rename_i r stack hlookup
    obtain ⟨before, after, hsplit, -⟩ := List.lookup_eq_some_iff.mp hlookup
    have hkey : r.key = regRcx.key := (Reg.place_eq_iff r regRcx).mp (Option.some.inj h)
    refine List.any_eq_true.mpr ⟨(x.ident, ⟨some r, stack⟩), by simp [hsplit], ?_⟩
    simp [Reg.is, hkey]
  · cases h
  · cases h

theorem leaves_of_free {v : BitVec (8 * n)} (hfree : e.locs.occupies regRcx = false)
    (hs : Untouched (e.scratch cx) 0 s s1) (h : Assigns p v [Machine.rcx, Machine.r11] s1 s') :
    Leaves e cx s p v s' where
  value := h.value
  kept x q hq hspared hseparate := by
    have hn := width_le_eight (.var x)
    refine (h.get_of_separate_scratch (fun r hr heq => ?_) hseparate (by omega)).trans
      (get_of_untouched hs hspared.scratch hn)
    subst heq
    simp only [List.mem_cons, List.not_mem_nil, or_false] at hr
    rcases hr with rfl | rfl
    · rw [occupies_of_place hq] at hfree
      cases hfree
    · exact hspared.scratch.2 rfl

theorem leaves_of_scratch {v : BitVec (8 * n)}
    (hs : ∀ q k, k ≤ 8 → ShiftSpares e cx s q k → s1.get q k = s.get q k)
    (h : Assigns p v [Machine.r11] s1 s') : Leaves e cx s p v s' where
  value := h.value
  kept x q hq hspared hseparate := by
    have hn := width_le_eight (.var x)
    refine (h.get_of_separate_scratch (fun r hr heq => ?_) hseparate (by omega)).trans
      (hs q _ hn hspared)
    subst heq
    exact hspared.scratch.2 (List.mem_singleton.mp hr)

/-! ## A count at a place -/

/-- What the operands have to keep clear of, by whether rcx is free for the count. -/
structure Unmixed (e : Scene) (cx : Context) (s : Machine.State) (value count output : Operand) :
    Prop where
  free : e.locs.occupies regRcx = false → FreeCount e.locs value output
  saved : e.locs.occupies regRcx = true → SavedCount e cx s count output

section Counted

variable {code : List Machine.Inst} {qv qc : Place}

/-- A count at a place is no literal. -/
theorem CountedShift.second_ne_imm {i : Instr} (h : CountedShift e cx s i value count output)
    (l : Literal) :
    i.second ≠ some (.imm l) := fun hl =>
  h.placedCount.ne_imm l (Option.some.inj (h.hasCount.symm.trans hl))

/-- The code of a shift if no variable lives in rcx. -/
theorem acts_freeShift (h : CountedShift e cx s cx.instr value count output)
    (hoccupied : e.locs.occupies regRcx = false) (hfree : FreeCount e.locs value output)
    (hop : shifted? cx.instr.op = some f) (hrbp : s.regs Machine.rbp = e.base)
    (hqv : e.place? s value = some qv) (hqc : e.place? s count = some qc)
    (hcode : CompilesTo e (shift cx cx.instr) code) :
    ∃ p s', e.place? s output = some p ∧ acts e.link code s = some s' ∧
      Leaves e cx s p (f _ (s.get qv (width output))
        ((s.get qc (width count)).toNat % Machine.shiftModulus (width output))) s' := by
  obtain ⟨c, st, _, lines, hok, hout, hsel, hst, hplaces, hlocs⟩ := hcode
  obtain ⟨d, r, st1, hdraft, rfl⟩ := shift_of_free h.second_ne_imm (hst ▸ hoccupied) hok
  obtain ⟨hprep, pre, hpre, hruns⟩ :=
    acts_of_works (works_freeDraft h) (built_freeDraft h hfree) hdraft hst
    hplaces hlocs hrbp
  obtain rfl : lines = pre ++ freeLines cx d r := by
    rw [hpre, List.append_assoc] at hout
    exact (List.append_cancel_left hout).symm
  obtain ⟨code1, code2, hcode1, hcode2, rfl⟩ := Selection.instrs_append_eq_ok.mp hsel
  obtain ⟨s1, hacts1, ⟨hfin, hr⟩, huntouched⟩ := hruns code1 hcode1
  obtain ⟨p, s', hp, hacts2, hassigns⟩ :=
    acts_freeLines h hop hfin hprep hr hlocs hrbp hqv hqc hcode2
  refine ⟨p, s', hp, ?_, leaves_of_free hoccupied huntouched hassigns⟩
  rw [Machine.acts_append_of_some hacts1, hacts2]

/-- The code of a shift if a variable lives in rcx. -/
theorem acts_savedShift (h : CountedShift e cx s cx.instr value count output)
    (hoccupied : e.locs.occupies regRcx = true) (hsaved : SavedCount e cx s count output)
    (hop : shifted? cx.instr.op = some f) (hrbp : s.regs Machine.rbp = e.base)
    (hqv : e.place? s value = some qv) (hqc : e.place? s count = some qc)
    (hcode : CompilesTo e (shift cx cx.instr) code) :
    ∃ p s', e.place? s output = some p ∧ acts e.link code s = some s' ∧
      Leaves e cx s p (f _ (s.get qv (width output))
        ((s.get qc (width count)).toNat % Machine.shiftModulus (width output))) s' := by
  obtain ⟨c, st, _, lines, hok, hout, hsel, hst, hplaces, hlocs⟩ := hcode
  obtain ⟨d, r, st1, d', st2, hdraft, hdest, rfl⟩ :=
    shift_of_occupied h.second_ne_imm rfl (hst ▸ hoccupied) hok
  have hworks := works_savedDraft h
  obtain ⟨-, hlocs1, -⟩ := hworks.extension st _ st1 hdraft
  obtain ⟨⟨post, hpost⟩, -, hgrows⟩ := extends_dest cx .output _ _ _ _ hdest
  have hplaces1 : e.Places st1.closure :=
    fun key name hkey => hplaces key name (hgrows key name hkey)
  obtain ⟨⟨hprep, hslots⟩, pre, hpre, hruns⟩ :=
    acts_of_works hworks (built_savedDraft h hsaved) hdraft hst hplaces1 hlocs hrbp
  have houtput : d.instr.output = some output := (hprep.pending .output (by simp)).trans h.hasOutput
  rw [opType_shift hop h.hasOutput h.placedOutput.integer] at hdest hpost
  rw [houtput] at hdest
  obtain rfl : lines = pre ++ (savedLines cx d r (tempReg output.ty) ++ (post ++ [d'.instr])) := by
    simp only [hpost, hpre, List.append_assoc] at hout
    exact (List.append_cancel_left hout).symm
  obtain ⟨code1, _, hcode1, hsel1, rfl⟩ := Selection.instrs_append_eq_ok.mp hsel
  obtain ⟨code2, _, hcode2, hsel2, rfl⟩ := Selection.instrs_append_eq_ok.mp hsel1
  obtain ⟨code3, _, hcode3, hsel3, rfl⟩ := Selection.instrs_append_eq_ok.mp hsel2
  obtain ⟨last, _, hlast, hnone, rfl⟩ := Selection.instrs_cons_eq_ok.mp hsel3
  cases hnone
  rw [List.append_nil]
  -- The result is in the temporary register.
  obtain ⟨s1, hacts1, hstands, huntouched⟩ := hruns code1 hcode1
  obtain ⟨s2, s3, hacts2, htemp, hpushed, hresult⟩ :=
    acts_savedLines h hsaved hop hstands hprep hslots hlocs hrbp hqv hqc hcode2
  -- The output is where it was.
  have hkept := huntouched.trans htemp.of_none
  have hplaced2 := h.placedOutput.moved h.placedOutput.clear hkept
  have hplace2 := (h.placedOutput.clear.stable s2 hkept).1
  have hclear2 := hsaved.clearOutput.moved h.placedOutput.toSuited hplace2
  have hplaced3 := hplaced2.moved hclear2 hpushed
  have hplace3 := (hclear2.stable s3 hpushed).1
  obtain ⟨p, hp⟩ := hplaced3.exists_place
  have hrbp3 : s3.regs Machine.rbp = e.base :=
    (hpushed.regs Machine.rbp (by decide) (by decide)).trans
      ((hkept.regs Machine.rbp (by decide) (by decide)).trans hrbp)
  obtain ⟨post', hpost', hstore⟩ :=
    acts_storeDraft hplaced3 hdest (hlocs1.trans hst) hplaces hlocs hrbp3 hp
  obtain rfl := List.append_cancel_left (hpost.symm.trans hpost')
  obtain ⟨s4, s', hacts3, hspilled, hassigns⟩ := hstore code3 last hcode3 hlast
  rw [hresult] at hassigns
  refine ⟨p, s', hplace2.symm.trans (hplace3.symm.trans hp), ?_,
    leaves_of_scratch (fun q k hk hq => ?_) hassigns⟩
  · rw [Machine.acts_append_of_some hacts1, Machine.acts_append_of_some hacts2, hacts3]
  · rw [get_of_untouched hspilled hq.scratch hk, get_of_untouched hpushed (hq.pushed hoccupied) hk,
      get_of_untouched hkept hq.scratch hk]

/-- The code of a shift by a count at a place. -/
theorem acts_countedShift (h : CountedShift e cx s cx.instr value count output)
    (hunmixed : Unmixed e cx s value count output)
    (hop : shifted? cx.instr.op = some f) (hrbp : s.regs Machine.rbp = e.base)
    (hqv : e.place? s value = some qv) (hqc : e.place? s count = some qc)
    (hcode : CompilesTo e (shift cx cx.instr) code) :
    ∃ p s', e.place? s output = some p ∧ acts e.link code s = some s' ∧
      Leaves e cx s p (f _ (s.get qv (width output))
        ((s.get qc (width count)).toNat % Machine.shiftModulus (width output))) s' := by
  cases hoccupied : e.locs.occupies regRcx with
  | false =>
    exact acts_freeShift h hoccupied (hunmixed.free hoccupied) hop hrbp hqv hqc hcode
  | true =>
    exact acts_savedShift h hoccupied (hunmixed.saved hoccupied) hop hrbp hqv hqc hcode

end Counted

/-! ## A literal count -/

/-- A literal is cut to the width in bits. -/
theorem toNat_literalMask (k : Int64) {t : Ty} (ht : t.isInteger = true) :
    (k &&& (Int64.ofNat (t.size * 8) - 1)).toBitVec.toNat = k.toBitVec.toNat % (8 * t.size) := by
  obtain ⟨j, hmask, hbits⟩ :
    ∃ j, (Int64.ofNat (t.size * 8) - 1).toBitVec.toNat = 2 ^ j - 1 ∧ 8 * t.size = 2 ^ j := by
    cases t <;> first
      | exact ⟨3, by decide, by decide⟩
      | exact ⟨4, by decide, by decide⟩
      | exact ⟨5, by decide, by decide⟩
      | exact ⟨6, by decide, by decide⟩
      | cases ht
  rw [Int64.toBitVec_and, BitVec.toNat_and, hmask, Nat.and_two_pow_sub_one_eq_mod, hbits]

/-- The literal that a shift is lowered to is small enough for an instruction. -/
theorem fitsInt32_literalMask (k : Int64) {t : Ty} (ht : t.isInteger = true) :
    Machine.fitsInt32 (k &&& (Int64.ofNat (t.size * 8) - 1)) = true := by
  have hpos : 0 < 8 * t.size := by
    cases t <;> first | decide | cases ht
  have hle : 8 * t.size ≤ 64 := by
    cases t <;> decide
  have hlt := Nat.mod_lt k.toBitVec.toNat hpos
  rw [← toNat_literalMask k ht] at hlt
  have hint : (k &&& (Int64.ofNat (t.size * 8) - 1)).toInt =
      ((k &&& (Int64.ofNat (t.size * 8) - 1)).toBitVec.toNat : Int) :=
    BitVec.toInt_eq_toNat_of_lt (by omega)
  rw [Selection.fitsInt32_iff, hint]
  omega

/-- Nothing is done about the count of a shift by a literal. -/
theorem rest_of_literalShift {i : Instr} {d : Draft} {wd : IntWidth} {k : Int64}
    (hop : shifted? i.op = some f) (hsecond : d.instr.second = some (.imm (.int wd k)))
    (hfit : Machine.fitsInt32 k = true) (hadd : d.instr.addend = none) :
    (source cx .second true d >>= fun d => source cx .addend true d >>=
      fun d => loadFactor cx i d >>= fun d =>
      dest cx .output d) = dest cx .output d := by
  have hliteral : source cx .second true d = pure d := by
    unfold source
    rw [show Slot.second.get d.instr = some (.imm (.int wd k)) from hsecond]
    simp [hfit]
  have hthird : source cx .addend true d = pure d :=
    source_none (show Slot.addend.get d.instr = none from hadd)
  have hfactor : loadFactor cx i d = pure d := by
    unfold loadFactor
    have hitof : (i.op == .itof) = false := by
      cases hi : i.op <;> first | rfl | (rw [hi] at hop; cases hop)
    have hmul : (i.op == .mul) = false := by
      cases hi : i.op <;> first | rfl | (rw [hi] at hop; cases hop)
    simp only [hitof, hmul, Bool.false_and, Bool.false_eq_true, if_false]
    rfl
  rw [hliteral, pure_bind, hthird, pure_bind, hfactor, pure_bind]

/-- A shift by an integer literal that an instruction has room for. -/
structure LiteralShift (e : Scene) (cx : Context) (s : Machine.State) (i : Instr)
    (value output : Operand) (k : Int64) : Prop extends PlacedShift e cx s i value output where
  hasCount : ∃ wd, i.second = some (.imm (.int wd k))
  fits : Machine.fitsInt32 k = true

section Literal

variable {i : Instr} {k : Int64} {wd : IntWidth}

theorem LiteralShift.stable (h : LiteralShift e cx s i value output k) :
    ∀ slot : Slot, slot ≠ .output → ∀ o, slot.get i = some o → Stable e (e.scratch cx) 0 s o := by
  intro slot hne o ho
  cases slot with
  | first =>
    obtain rfl := Option.some.inj (h.hasValue.symm.trans ho)
    exact h.placedValue.clear.stable
  | second =>
    obtain ⟨wd, hcount⟩ := h.hasCount
    obtain rfl := Option.some.inj (hcount.symm.trans ho)
    exact fun s' _ => ⟨rfl, rfl⟩
  | addend => cases h.hasAddend.symm.trans ho
  | output => exact absurd rfl hne

/-- The draft of a shift by a literal prepares the value and the output. -/
theorem genericDraft_shift (hop : shifted? i.op = some f) : genericDraft cx i =
    (source cx .first false (.of i) >>= fun d => source cx .second true d >>= fun d =>
      source cx .addend true d >>= fun d => loadFactor cx i d >>= fun d => dest cx .output d) := by
  have hpush : (i.op == .push) = false := by
    cases hi : i.op <;> first | rfl | (rw [hi] at hop; cases hop)
  unfold genericDraft
  rw [hpush]

theorem works_literalDraft (h : LiteralShift e cx s i value output k)
    (hop : shifted? i.op = some f) :
    Works e (genericDraft cx i) (fun s1 => s1 = s) fun d s1 => Finished e cx 8 s i d s1 := by
  obtain ⟨wd, hcount⟩ := h.hasCount
  have hsuit : ∀ o, i.first = some o → Suited e cx s o := by
    intro o ho
    obtain rfl := Option.some.inj (h.hasValue.symm.trans ho)
    exact h.placedValue.toSuited
  rw [genericDraft_shift hop]
  refine works_bind (works_first (Nat.le_refl 8) hsuit h.stable) fun d => ?_
  refine works_each ?_ fun s1 h1 => ?_
  · exact extends_bind (extends_source cx _ _ d) fun d =>
      extends_bind (extends_source cx _ _ d) fun d =>
      extends_bind (extends_loadFactor cx i d) fun d => extends_dest cx _ d
  · have hsecond := h1.touches.others .second (by decide) fun h => by cases h
    have hthird := h1.touches.others .addend (by decide) fun h => by cases h
    rw [rest_of_literalShift hop (hsecond.trans hcount) h.fits (hthird.trans h.hasAddend)]
    refine (works_dest (Nat.le_refl 8) h.suitedOutput h1.standing.output).mono (fun s2 h2 => ?_)
      fun d s2 h2 => h2.1
    rw [h2]
    exact h1.standing

theorem built_literalDraft {out : List Instr} (h : LiteralShift e cx s i value output k)
    (hop : shifted? i.op = some f) : Maintains (Lines e cx s out) (genericDraft cx i) fun d =>
      Prepared e (e.scratch cx) s (fun _ => []) i [.output, .first] d := by
  obtain ⟨wd, hcount⟩ := h.hasCount
  rw [genericDraft_shift hop]
  refine maintains_bind (built_source h.hasValue
    (h.placedValue.proper fun _ hid => absurd hid List.not_mem_nil) List.not_mem_nil
    (prepared_start e _ s (fun _ => []) i)) fun d h1 => ?_
  have hsecond : d.instr.second = i.second := h1.1.pending .second (by simp)
  have hthird : d.instr.addend = i.addend := h1.1.pending .addend (by simp)
  have houtput : d.instr.output = some output := (h1.1.pending .output (by simp)).trans h.hasOutput
  rw [rest_of_literalShift hop (hsecond.trans hcount) h.fits (hthird.trans h.hasAddend)]
  exact built_dest houtput (h.placedOutput.proper fun _ hid => absurd hid List.not_mem_nil)
    List.not_mem_nil h1.1

/-- The shift by the literal itself. -/
theorem acts_literalLine {d : Draft} {code : List Machine.Inst} {qv : Place}
    (h : LiteralShift e cx s i value output k) (hop : shifted? i.op = some f)
    (hfin : Finished e cx 8 s i d s1)
    (hprep : Prepared e (e.scratch cx) s (fun _ => []) i [.output, .first] d)
    (hlocs : c.locations = e.locs) (hrbp : s.regs Machine.rbp = e.base)
    (hqv : e.place? s value = some qv)
    (hsel : Selection.instr c d.instr = .ok code) :
    ∃ p s', e.place? s output = some p ∧ acts e.link code s1 = some s' ∧
      Assigns p (f _ (s.get qv (width output)) (k.toBitVec.toNat % (8 * width output)))
      [Machine.r11] s1 s' := by
  obtain ⟨wd, hcount⟩ := h.hasCount
  have hsecond : d.instr.second = some (.imm (.int wd k)) :=
    (hprep.pending .second (by simp)).trans hcount
  have hop' : shifted? d.instr.op = some f := hprep.op ▸ hop
  -- Where the machine finds the operands.
  obtain ⟨hform1, -, hform3⟩ :=
    Selection.operands_of_instr (isSelectedByOperands_of_shifted hop') hsel
  obtain ⟨o1, a1, p1, ho1, hfound1⟩ :=
    exists_sourceFound hfin.toSourceful hprep (by simp) (by decide)
    (show Slot.first.get i = some value from h.hasValue) h.placedValue.ne_imm hqv hlocs hrbp
    List.not_mem_nil
    hform1
  obtain ⟨o3, a3, p3, ho3, hfound3⟩ :=
    exists_outputFound hfin hprep (by simp) h.hasOutput hlocs hrbp
    List.not_mem_nil hform3
  have hsame : machineWidth o1 = machineWidth o3 := by
    rw [machineWidth, machineWidth, hfound1.width_eq, hfound3.width_eq, h.sameWidth]
  have hint : (opType d.instr).isFloat = false := by
    rw [opType_shift hop' ho3 (hfound3.ty_eq ▸ h.placedOutput.integer), hfound3.ty_eq]
    exact h.placedOutput.isFloat_eq
  obtain ⟨p, s', hp, hrun, hassigns⟩ := run_literalShift (e := e) (s := s1) hfound3.width hop' hint
    (ho3 ▸ hfound3.resolves rfl) ((show d.instr.first = some o1 from ho1) ▸ hfound1.resolves hsame)
    (by rw [hsecond]; rfl) hsel
  obtain rfl : p3 = p := Option.some.inj (hfound3.machine_place.symm.trans hp)
  refine ⟨p3, s', hfound3.placed, Machine.acts_of_steps (Machine.steps_of_run hrun), ?_⟩
  rw [toNat_machineWidth, hfound3.width_eq, ← h.sameWidth, hfound1.reads] at hassigns
  rw [← h.sameWidth]
  exact hassigns

/-- The code of a shift by a literal. -/
theorem acts_literalShift {l : Literal} {code : List Machine.Inst} {qv : Place}
    (h : PlacedShift e cx s cx.instr value output) (hcount : cx.instr.second = some (.imm l))
    (hop : shifted? cx.instr.op = some f) (hrbp : s.regs Machine.rbp = e.base)
    (hqv : e.place? s value = some qv) (hcode : CompilesTo e (shift cx cx.instr) code) :
    ∃ p s', e.place? s output = some p ∧ acts e.link code s = some s' ∧
      Leaves e cx s p (f _ (s.get qv (width output))
        ((literalWord l).toBitVec.toNat % (8 * width output))) s' := by
  obtain ⟨c, st, _, lines, hok, hout, hsel, hst, hplaces, hlocs⟩ := hcode
  have hint := h.placedOutput.integer
  have hwidth : width output = output.ty.size := by
    rw [h.placedOutput.width_eq, registerWidth_of_isInteger hint]
  -- The literal is cut before anything else.
  let k : Int64 := literalWord l &&& (Int64.ofNat (output.ty.size * 8) - 1)
  let i : Instr := { cx.instr with second := some (.imm (.int .w8 k)) }
  have hshift : shift cx cx.instr = genericDraft cx i >>= fun d => keep d.instr := by
    unfold shift
    rw [hcount, opType_shift hop h.hasOutput hint]
    exact generic_eq cx i
  have hlit : LiteralShift e cx s i value output k :=
    ⟨⟨h.hasValue, h.hasOutput, h.hasAddend, h.placedValue, h.placedOutput, h.sameWidth⟩, ⟨.w8, rfl⟩,
      fitsInt32_literalMask _ hint⟩
  rw [hshift] at hok
  obtain ⟨d, st1, hdraft, hkeep⟩ := run_bind.mp hok
  cases hkeep
  obtain ⟨hprep, pre, hpre, hruns⟩ :=
    acts_of_works (works_literalDraft hlit hop) (built_literalDraft hlit hop)
    hdraft hst hplaces hlocs hrbp
  obtain rfl : lines = pre ++ [d.instr] := by
    simp only [hpre, List.append_assoc] at hout
    exact (List.append_cancel_left hout).symm
  obtain ⟨code1, _, hcode1, hsel1, rfl⟩ := Selection.instrs_append_eq_ok.mp hsel
  obtain ⟨last, _, hlast, hnone, rfl⟩ := Selection.instrs_cons_eq_ok.mp hsel1
  cases hnone
  obtain ⟨s1, hacts1, hfin, huntouched⟩ := hruns code1 hcode1
  obtain ⟨p, s', hp, hacts2, hassigns⟩ := acts_literalLine hlit hop hfin hprep hlocs hrbp hqv hlast
  rw [toNat_literalMask _ hint, ← hwidth, Nat.mod_mod] at hassigns
  refine ⟨p, s', hp, ?_, leaves_of_scratch
    (fun q n hn hq => get_of_untouched huntouched hq.scratch hn) hassigns⟩
  rw [Machine.acts_append_of_some hacts1, List.append_nil, hacts2]

end Literal

/-! ## Both forms -/

theorem instr_of_shifted (hop : shifted? cx.instr.op = some f) : instr cx = shift cx cx.instr := by
  unfold instr
  dsimp only
  cases hi : cx.instr.op <;> rw [hi] at hop <;> first | rfl | cases hop

/-- The machine and the width cut a count alike unless the machine counts to the width or more. -/
theorem mod_shiftModulus_eq_iff {o : Operand} (h : IntegerPlace e cx s o) (k : Nat) :
    k % Machine.shiftModulus (width o) = k % (8 * width o) ↔ k % 32 < 8 * width o := by
  rw [h.width_eq, registerWidth_of_isInteger h.integer]
  have hint := h.integer
  generalize o.ty = t at *
  cases t <;> first
    | (cases hint; done)
    | (simp only [Ty.size, Machine.shiftModulus]; norm_num; omega)

/-- One shift, by a literal and by a count at a place. -/
structure SameShift (e : Scene) (literal counted : Context) (s : Machine.State)
    (value count output : Operand) (l : Literal) : Prop where
  byLiteral : PlacedShift e literal s literal.instr value output
  hasLiteral : literal.instr.second = some (.imm l)
  byCount : CountedShift e counted s counted.instr value count output
  sameOp : literal.instr.op = counted.instr.op
  unmixed : Unmixed e counted s value count output

/-- A literal is counted modulo the width, and a count at a place as the machine counts. Both forms
of a shift leave the same output unless the machine shifts a byte or a word by its width or more.
What else the program holds stays as it was, with a variable in rcx as well. -/
theorem shift_counts_agree {literal counted : Context} {l : Literal}
    {code1 code2 : List Machine.Inst} {qv qc : Place}
    (h : SameShift e literal counted s value count output l)
    (hop : shifted? counted.instr.op = some f) (hrbp : s.regs Machine.rbp = e.base)
    (hqv : e.place? s value = some qv) (hqc : e.place? s count = some qc)
    (hsame : (s.get qc (width count)).toNat = (literalWord l).toBitVec.toNat)
    (hcode1 : CompilesTo e (instr literal) code1) (hcode2 : CompilesTo e (instr counted) code2) :
    ∃ p s1 s2, e.place? s output = some p ∧ acts e.link code1 s = some s1 ∧
      acts e.link code2 s = some s2 ∧
      Leaves e literal s p (f _ (s.get qv (width output))
        ((literalWord l).toBitVec.toNat % (8 * width output))) s1 ∧
      Leaves e counted s p (f _ (s.get qv (width output))
        ((literalWord l).toBitVec.toNat % Machine.shiftModulus (width output))) s2 ∧
      ((literalWord l).toBitVec.toNat % 32 < 8 * width output →
        s1.get p (width output) = s2.get p (width output)) := by
  have hop1 : shifted? literal.instr.op = some f := h.sameOp ▸ hop
  rw [instr_of_shifted hop1] at hcode1
  rw [instr_of_shifted hop] at hcode2
  obtain ⟨p, s1, hp, hacts1, hleaves1⟩ :=
    acts_literalShift h.byLiteral h.hasLiteral hop1 hrbp hqv hcode1
  obtain ⟨p2, s2, hp2, hacts2, hleaves2⟩ :=
    acts_countedShift h.byCount h.unmixed hop hrbp hqv hqc hcode2
  obtain rfl := Option.some.inj (hp.symm.trans hp2)
  rw [hsame] at hleaves2
  refine ⟨p, s1, s2, hp, hacts1, hacts2, hleaves1, hleaves2, fun hlt => ?_⟩
  rw [hleaves1.value, hleaves2.value, (mod_shiftModulus_eq_iff h.byCount.placedOutput _).mpr hlt]

end Shifts

/-- `%a` is in rbx, `%n` in rcx and `%q` in rdx. -/
def shiftScene : Scene :=
  ⟨⟨⟨fun _ => 0, fun _ => 0⟩,
    [("a", ⟨some (gpr Machine.rbx 8), none⟩), ("n", ⟨some (gpr Machine.rcx 8), none⟩),
    ("q", ⟨some (gpr Machine.rdx 8), none⟩)], 0⟩, []⟩

/-- `%a` is one and `%n` is nine. The stack is below 0x1000. -/
def shiftState : Machine.State :=
  ⟨fun id => if id = Machine.rbx then 1 else if id = Machine.rcx then 9 else if id =
    Machine.rsp then 0x1000
    else 0, fun _ => 0, fun _ => 0⟩

def shiftVar (ident : String) (t : Ty) : Operand := .var ⟨ident, t, false, false⟩

/-- The shift of `%a` to `%q`. -/
def shifting (t : Ty) (count : Operand) : Context :=
  ⟨[], none, .make .shl (some (shiftVar "a" t)) (some count) (some (shiftVar "q" t))⟩

def shiftStart : State := ⟨⟨"f", "f", true, .void, [], [], shiftScene.locs, [], [], 0, []⟩, []⟩

theorem integerPlace_shiftVar {ident : String} {r : Machine.RegId} (cx : Context) {t : Ty}
    (ht : t.isInteger = true) (hreg : shiftScene.locs.reg? ident = some (gpr r 8))
    (hr : r ≠ Machine.r10 ∧ r ≠ Machine.r11)
    (hplace : shiftScene.place? shiftState (shiftVar ident t) = some (.reg r)) :
    IntegerPlace shiftScene cx shiftState (shiftVar ident t) where
  meaning := ⟨_, datum?_of_place hplace⟩
  clear := ⟨fun p hp => Option.some.inj (hplace.symm.trans hp) ▸ hr, fun _ _ _ _ _ h => by cases h⟩
  loadable _ _ _ _ _ h := by cases h
  data _ _ h := by cases h
  float _ _ _ h := by cases h
  integer := ht
  addressed r' hr' := by
    obtain rfl := Option.some.inj (hreg.symm.trans hr')
    rfl

theorem sameShift_shifting {t : Ty} (ht : t.isInteger = true) (l : Literal) :
    SameShift shiftScene (shifting t (.imm l)) (shifting t (shiftVar "n" t)) shiftState
      (shiftVar "a" t) (shiftVar "n" t) (shiftVar "q" t) l := by
  have ha : ∀ cx, IntegerPlace shiftScene cx shiftState (shiftVar "a" t) := fun cx =>
    integerPlace_shiftVar cx ht rfl (by decide) rfl
  have hn : ∀ cx, IntegerPlace shiftScene cx shiftState (shiftVar "n" t) := fun cx =>
    integerPlace_shiftVar cx ht rfl (by decide) rfl
  have hq : ∀ cx, IntegerPlace shiftScene cx shiftState (shiftVar "q" t) := fun cx =>
    integerPlace_shiftVar cx ht rfl (by decide) rfl
  have hsaved : SavedCount shiftScene (shifting t (shiftVar "n" t)) shiftState (shiftVar "n" t)
      (shiftVar "q" t) := by
    refine ⟨⟨fun p hp => ?_, fun _ _ _ _ _ h => nomatch h⟩,
      ⟨fun p hp => ?_, fun _ _ _ _ _ h => nomatch h⟩, fun a h => (nomatch h), rfl⟩
    · cases hp
      exact ⟨by decide, by decide⟩
    · cases hp
      exact ⟨by decide, by decide⟩
  exact ⟨⟨rfl, rfl, rfl, ha _, hq _, rfl⟩, rfl, ⟨⟨rfl, rfl, rfl, ha _, hq _, rfl⟩, rfl, hn _⟩, rfl,
    ⟨fun h => (by cases h), fun _ => hsaved⟩⟩

/-- A word shifted by nine, with the count in rcx. -/
theorem shift_counts_agree_on_nine : ∃ code1 code2 s1 s2,
    CompilesTo shiftScene (instr (shifting .i32 (.imm (.int .w32 9)))) code1 ∧
      CompilesTo shiftScene (instr (shifting .i32 (shiftVar "n" .i32))) code2 ∧
      acts shiftScene.link code1 shiftState = some s1 ∧ acts shiftScene.link code2 shiftState =
      some s2 ∧
      s1.get (.reg Machine.rdx) 4 = (512 : BitVec 32) ∧
      s2.get (.reg Machine.rdx) 4 = (512 : BitVec 32) ∧
      s2.get (.reg Machine.rcx) 4 = (9 : BitVec 32) := by
  obtain ⟨code1, hcode1⟩ : ∃ code,
      CompilesTo shiftScene (instr (shifting .i32 (.imm (.int .w32 9)))) code :=
    ⟨_, shiftStart.closure, shiftStart, _, _, rfl, rfl, rfl, rfl, fun _ _ h => h, rfl⟩
  obtain ⟨code2, hcode2⟩ : ∃ code,
      CompilesTo shiftScene (instr (shifting .i32 (shiftVar "n" .i32))) code :=
    ⟨_, shiftStart.closure, shiftStart, _, _, rfl, rfl, rfl, rfl, fun _ _ h => h, rfl⟩
  obtain ⟨p, s1, s2, hp, hacts1, hacts2, hleaves1, hleaves2, hagree⟩ := shift_counts_agree
    (sameShift_shifting rfl (.int .w32 9)) rfl rfl rfl rfl (by decide) hcode1 hcode2
  cases hp
  have hspares : ShiftSpares shiftScene (shifting .i32 (shiftVar "n" .i32)) shiftState
      (.reg Machine.rcx) 4 :=
    ⟨⟨by decide, by decide⟩, fun _ => ⟨by decide, by decide⟩⟩
  have hcount := hleaves2.kept ⟨"n", .i32, false, false⟩ (.reg Machine.rcx) rfl hspares
    (show Machine.rdx ≠ Machine.rcx by decide)
  exact ⟨code1, code2, s1, s2, hcode1, hcode2, hacts1, hacts2, hleaves1.value,
    hleaves2.value, hcount⟩

/-- A byte shifted by nine: the literal counts as one, and the machine shifts by nine. -/
theorem byte_shift_counts_differ : ∃ code1 code2 s1 s2,
    CompilesTo shiftScene (instr (shifting .i8 (.imm (.int .w8 9)))) code1 ∧
      CompilesTo shiftScene (instr (shifting .i8 (shiftVar "n" .i8))) code2 ∧
      acts shiftScene.link code1 shiftState = some s1 ∧ acts shiftScene.link code2 shiftState =
      some s2 ∧
      s1.get (.reg Machine.rdx) 1 = (2 : BitVec 8) ∧
      s2.get (.reg Machine.rdx) 1 = (0 : BitVec 8) := by
  obtain ⟨code1, hcode1⟩ : ∃ code,
      CompilesTo shiftScene (instr (shifting .i8 (.imm (.int .w8 9)))) code :=
    ⟨_, shiftStart.closure, shiftStart, _, _, rfl, rfl, rfl, rfl, fun _ _ h => h, rfl⟩
  obtain ⟨code2, hcode2⟩ : ∃ code,
      CompilesTo shiftScene (instr (shifting .i8 (shiftVar "n" .i8))) code :=
    ⟨_, shiftStart.closure, shiftStart, _, _, rfl, rfl, rfl, rfl, fun _ _ h => h, rfl⟩
  have h := sameShift_shifting (t := .i8) rfl (.int .w8 9)
  obtain ⟨p, s1, hp, hacts1, hleaves1⟩ :=
    acts_literalShift h.byLiteral h.hasLiteral rfl rfl rfl hcode1
  obtain ⟨q, s2, hq, hacts2, hleaves2⟩ :=
    acts_countedShift h.byCount h.unmixed rfl rfl rfl rfl hcode2
  cases hp
  cases hq
  exact ⟨code1, code2, s1, s2, hcode1, hcode2, hacts1, hacts2, hleaves1.value, hleaves2.value⟩

end Backend.Lowering
