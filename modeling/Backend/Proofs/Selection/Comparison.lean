-- Comparisons of integers keep their meaning: the code that lowering and selection give a
-- comparison or a conditional branch stores one, or jumps, exactly when the relation of its
-- operation holds between its sources, wherever these are.
import Backend.Proofs.Lowering.Comparison
import Backend.Proofs.Lowering.Realized
import Backend.Proofs.Lowering.SharedEffects
import Backend.Proofs.Machine.Flags
import Backend.Proofs.Selection.Division

namespace Backend.Selection

open Backend.Lowering (Comparable InPlace Writable opType order? holdsFor isUnsignedComparison
  isLiteral isWide literalSecond temporaryOf spilledOf loadLine lineAt comparisonLines
  contextFor layout)
open Backend.Machine (Inst Linkage State Place Assigns convert run run_singleton run_append_of_some
  Cpu Flags runTo runTo_cons runTo_of_run ChangesOnly changesOnly_of_assigns)

/-! ## Setting the flags -/

/-- A number that fits 32 bits still does after it was cut to a width. -/
theorem fitsInt32_truncate {v : Int64} {w : UInt8} (hw : IsWidth w)
    (h : Machine.fitsInt32 v = true) :
    Machine.fitsInt32 (truncate v w) = true := by
  by_contra hne
  have h8 := width_of_not_fits hw hne
  subst h8
  exact hne h

section Compare

variable {l : Linkage} {w : UInt8} {a b : Machine.Operand}

/-- A comparison of operands of a width that the machine can compare. -/
theorem next_cmp {s : State} {f : Option Flags} (hw : IsWidth w) (ha : IntOperand w a)
    (hb : IntOperand w b) (himm : ∀ v, a ≠ .imm v) (hmem : ∀ m m', a = .mem m → b ≠ .mem m')
    (hfits : ∀ v, b = .imm v → Machine.fitsInt32 (truncate v w) = true) :
    (inst .cmp (some a) (some (resize b w))).next l ⟨s, f⟩ =
      some ⟨s, some (.ofDifference (a.value l s w.toNat) (b.value l s w.toNat))⟩ := by
  have hwidth : Machine.differenceWidth? a (resize b w) = some w.toNat := by
    cases a with
    | reg r =>
      have hr : r.width = w := ha
      cases b with
      | reg r' => simp [Machine.differenceWidth?, resize, Machine.Operand.readableAt, hr]
      | mem m => simp [Machine.differenceWidth?, resize, Machine.Operand.readableAt, hr,
          Machine.Memory.sized]
      | imm v =>
        simp [Machine.differenceWidth?, resize, Machine.Operand.readableAt, hr,
          hfits v rfl]
      | xmm x => exact absurd hb (by simp [IntOperand])
      | target t => exact absurd hb (by simp [IntOperand])
    | mem m =>
      have hm : m.width = w := ha
      cases b with
      | reg r' => simp [Machine.differenceWidth?, resize, Machine.Operand.readableAt, hm]
      | mem m' => exact absurd rfl (hmem m m' rfl)
      | imm v =>
        simp [Machine.differenceWidth?, resize, Machine.Operand.readableAt, hm,
          hfits v rfl]
      | xmm x => exact absurd hb (by simp [IntOperand])
      | target t => exact absurd hb (by simp [IntOperand])
    | imm v => exact absurd rfl (himm v)
    | xmm x => exact absurd ha (by simp [IntOperand])
    | target t => exact absurd ha (by simp [IntOperand])
  have hnext : (inst .cmp (some a) (some (resize b w))).next l ⟨s, f⟩ = (do
      let n ← Machine.differenceWidth? a (resize b w)
      some ⟨s, some (.ofDifference (a.value l s n) ((resize b w).value l s n))⟩) := rfl
  rw [hnext, hwidth]
  simp only [Option.bind_eq_bind, Option.bind_some, value_resize l s hw b]

/-- The code of a comparison leaves the flags of the difference. A first operand in memory is loaded
into the scratch register if the second one is there too. -/
theorem compare_runs (l : Linkage) (hw : IsWidth w) (ha : IntOperand w a) (hb : IntOperand w b)
    (himm : ∀ v, a ≠ .imm v) (hub : usesReg Machine.r11 b = false)
    (hfits : ∀ v, b = .imm v → Machine.fitsInt32 (truncate v w) = true) :
    ∃ code, compare (some a) (some b) false = .ok code ∧ ∀ s f rest, ∃ s',
      ChangesOnly [Machine.r11] s s' ∧ runTo l (code ++ rest) ⟨s, f⟩ =
        runTo l rest ⟨s', some (.ofDifference (a.value l s w.toNat) (b.value l s w.toNat))⟩ := by
  have hwidth : compareWidth (some a) (some b) = w := by
    rw [compareWidth, opWidth_of_int ha himm, if_neg]
    rcases hw with rfl | rfl | rfl | rfl <;> decide
  have hnot : isImm (some a) = false := by
    cases a <;> first | rfl | exact absurd rfl (himm _)
  have hstep : ∀ {x : Machine.Operand} {s : State} {f : Option Flags} (rest : List Inst),
      IntOperand w x →
      (∀ v, x ≠ .imm v) → (∀ m m', x = .mem m → b ≠ .mem m') →
      runTo l ([inst .cmp (some x) (some (resize b w))] ++ rest) ⟨s, f⟩ =
        runTo l rest ⟨s, some (.ofDifference (x.value l s w.toNat) (b.value l s w.toNat))⟩ := by
    intro x s f rest hx hximm hxmem
    rw [List.singleton_append, runTo_cons (by rintro c t ⟨⟩), next_cmp hw hx hb hximm hxmem hfits]
    rfl
  unfold compare
  simp only [hwidth, Bool.false_eq_true, if_false, Option.map_some, hnot, Bool.false_or]
  by_cases hboth : (!isGpr (some a) && isMem (some b)) = true
  · obtain ⟨load, hload⟩ := exists_move_reg (d := r11 w) false ha
    refine ⟨load ++ [inst .cmp (some (.reg (r11 w))) (some (resize b w))], ?_, fun s f rest => ?_⟩
    · rw [if_pos hboth, hload]
      rfl
    · obtain ⟨s1, hrun, h1⟩ := run_move_reg l s (d := r11 w) hw ha hload
      have hx : (Machine.Operand.reg (r11 w)).value l s1 w.toNat = a.value l s w.toNat :=
        h1.value.trans (convert_value l s false hw ha)
      obtain ⟨f1, hf1⟩ := runTo_of_run (f := f) hrun
        ([inst .cmp (some (.reg (r11 w))) (some (resize b w))] ++ rest)
      refine ⟨s1, changesOnly_of_assigns h1, ?_⟩
      rw [List.append_assoc, hf1, hstep (x := .reg (r11 w)) rest rfl (by simp) (by simp), hx,
        value_of_not_uses h1 b hub]
  · refine ⟨[inst .cmp (some a) (some (resize b w))], by rw [if_neg hboth]; rfl, fun s f rest => ?_⟩
    refine ⟨s, .refl _ s, hstep rest ha himm ?_⟩
    rintro m m' rfl rfl
    exact hboth rfl

end Compare

/-! ## Reading the flags -/

/-- The width is that of an integer in memory or in a general purpose register or of a float in an
SSE register. -/
def Receives : Machine.Operand → Prop
  | .reg r => IsWidth r.width
  | .xmm x => x.width = 4 ∨ x.width = 8
  | .mem m => IsWidth m.width
  | _ => False

/-- One or zero in some bytes. -/
def flag (n : Nat) (b : Bool) : BitVec (8 * n) := BitVec.ofNat (8 * n) b.toNat

theorem setWidth_flag {n k : Nat} (hn : 1 ≤ n) (hk : 1 ≤ k) (b : Bool) :
    (flag n b).setWidth (8 * k) = flag k b := by
  have hone : ∀ m, 1 ≤ m → 1 < 2 ^ (8 * m) := fun m hm => Nat.one_lt_two_pow (by omega)
  have h1 := hone n hn
  have h2 := hone k hk
  apply BitVec.eq_of_toNat_eq
  cases b
  · simp [flag]
  · simp [flag, Nat.mod_eq_of_lt h1]

section Set

variable {l : Linkage} {s : State} {f : Flags} {c : Machine.Cond} {d : Machine.Operand}

/-- A byte is set in place. -/
theorem next_setcc (hd : Receives d) (h1 : opWidth (some d) = 1) (hx : isXmm (some d) = false) :
    ∃ p s', d.place? l s = some p ∧
      (Inst.op .setcc c (some d) none none).next l ⟨s, some f⟩ = some ⟨s', some f⟩ ∧
      Assigns p (flag (opWidth (some d)).toNat (c.holds f)) [] s s' := by
  cases d with
  | reg r =>
    have hr : r.width = 1 := h1
    refine ⟨_, s.setReg r.id (flag r.width.toNat (c.holds f)), rfl, ?_,
      Machine.assigns_setReg s r.id _ (by rw [h1]; decide) []⟩
    simp only [Inst.next, Machine.Inst.gprWidth?, hr, if_true]
    rfl
  | mem m =>
    have hm : m.width = 1 := h1
    refine ⟨_, s.store (m.addr.eval l s) (flag m.width.toNat (c.holds f)), rfl, ?_,
      Machine.assigns_store s _ _ (by rw [h1]; decide) []⟩
    simp only [Inst.next, Machine.Inst.gprWidth?, hm, if_true]
    rfl
  | xmm x => cases hx
  | imm v => exact hd.elim
  | target t => exact hd.elim

/-- The outcome goes to the scratch register as a word. -/
theorem runTo_word (l : Linkage) (s : State) (f : Flags) (c : Machine.Cond) (rest : List Inst) :
    ∃ s' f', runTo l ([Inst.op .setcc c (some (.reg (r11 1))) none none,
        two .movzx (.reg (r11 4)) (.reg (r11 1))] ++ rest) ⟨s, some f⟩ = runTo l rest ⟨s', f'⟩ ∧
      s'.regs Machine.r11 = flag 8 (c.holds f) ∧ ChangesOnly [Machine.r11] s s' := by
  let s1 := s.setReg Machine.r11 (flag 1 (c.holds f))
  let s2 := s1.setReg Machine.r11 (convert false 4 (s1.get (.reg Machine.r11) 1))
  have hset : (Inst.op .setcc c (some (.reg (r11 1))) none none).next l ⟨s, some f⟩ =
      some ⟨s1, some f⟩ := rfl
  have hext : run l [two .movzx (.reg (r11 4)) (.reg (r11 1))] s1 = some s2 := by
    rw [run_singleton]
    exact exec_extend_reg l s1 (r11 4) (r11 1) false (by decide)
  obtain ⟨f', hf'⟩ := runTo_of_run (f := some f) hext rest
  have hbyte : s1.get (.reg Machine.r11) 1 = flag 1 (c.holds f) :=
    Machine.get_setReg_self s Machine.r11 _ (by decide)
  have hword : Machine.insertLow (s1.regs Machine.r11)
      (convert false 4 (s1.get (.reg Machine.r11) 1)) =
      flag 8 (c.holds f) := by
    rw [hbyte, Machine.insertLow, if_pos (by decide), convert, if_neg (by decide),
      setWidth_flag (k := 4) (by decide) (by decide)]
    exact setWidth_flag (k := 8) (by decide) (by decide) _
  refine ⟨s2, f', ?_, ?_, ?_⟩
  · rw [List.cons_append, runTo_cons (by rintro c t ⟨⟩), hset]
    exact hf'
  · simp only [s2, Machine.State.setReg, Function.update_self]
    exact hword
  · refine (changesOnly_of_assigns (Machine.assigns_setReg s _ _ (by decide) [])).trans
      (changesOnly_of_assigns (Machine.assigns_setReg s1 _ _ (by decide) []))

/-- What goes to an SSE register from the scratch register. -/
theorem runTo_movq {x : Machine.Xmm} {v : BitVec 64} {g : Option Flags}
    (hx : x.width = 4 ∨ x.width = 8) (hv : s.regs Machine.r11 = v) : ∃ s',
      runTo l [two .movq (.xmm x) (.reg (r11 x.width))] ⟨s, g⟩ = some (⟨s', g⟩, none) ∧
      Assigns (.xmm x.id) (v.setWidth (8 * x.width.toNat)) [Machine.r11] s s' := by
  have hwide : 4 ≤ x.width := by rcases hx with h | h <;> rw [h] <;> decide
  have hle : x.width.toNat ≤ 8 := by rcases hx with h | h <;> rw [h] <;> decide
  refine ⟨s.setXmm x.id ((s.get (.reg Machine.r11) x.width.toNat).setWidth 64), ?_, ?_, ?_, ?_, ?_⟩
  · have hnext : (two .movq (.xmm x) (.reg (r11 x.width))).next l ⟨s, g⟩ =
        (do some ⟨← Machine.copyBits l s (.xmm x) (.reg (r11 x.width)), g⟩) := rfl
    have hcopy : Machine.copyBits l s (.xmm x) (.reg (r11 x.width)) =
        some (s.setXmm x.id ((s.get (.reg Machine.r11) x.width.toNat).setWidth 64)) := if_pos hwide
    rw [runTo_cons (by rintro c t ⟨⟩), hnext, hcopy]
    rfl
  · simp only [State.get, Machine.State.setXmm, Function.update_self, hv]
    rw [BitVec.setWidth_setWidth_of_le _ (by omega), BitVec.setWidth_setWidth_of_le _ (by omega)]
  · exact fun _ _ _ => rfl
  · intro r hr
    exact Function.update_of_ne (fun h => hr (congrArg Place.xmm h.symm)) _ _
  · exact fun _ _ => rfl

/-- None of the registers addresses the operand. -/
def NotAddressed (ids : List Machine.RegId) : Machine.Operand → Prop
  | .mem m => ∀ r ∈ ids, addressUses r m.addr = false
  | _ => True

theorem NotAddressed.mono {ids ids' : List Machine.RegId} {o : Machine.Operand}
    (h : NotAddressed ids o) (hsub : ids' ⊆ ids) : NotAddressed ids' o := by
  cases o with
  | mem m => exact fun r hr => h r (hsub hr)
  | _ => trivial

/-- A place that the changed registers do not address stays where it is. -/
theorem place_of_notAddressed {ids : List Machine.RegId} {s s' : State} {o : Machine.Operand}
    (h : ∀ r, r ∉ ids → s'.regs r = s.regs r) (hu : NotAddressed ids o) :
    o.place? l s' = o.place? l s := by
  cases o with
  | mem m =>
    refine place_of_regs _ fun r hr => h r fun hin => ?_
    have hnot : usesReg r (.mem m) = false := hu r hin
    rw [hnot] at hr
    cases hr
  | _ => rfl

/-- A word in the scratch register that is one or zero goes to the destination at its width. -/
theorem exists_storeOutcome (l : Linkage) (hd : Receives d) (hu : NotAddressed [Machine.r11] d) :
    ∃ code, move (some d) (some (.reg (r11 (max (opWidth (some d)) 4)))) false = .ok code ∧
      ∀ s f b, s.regs Machine.r11 = flag 8 b → ∃ p m, d.place? l s = some p ∧
        runTo l code ⟨s, f⟩ = some (m, none) ∧
        Assigns p (flag (opWidth (some d)).toNat b) [Machine.r11] s m.state := by
  -- Into a general purpose register or memory the word is moved at no more than its own width.
  have hvalue : ∀ {w : UInt8}, IsWidth w → ∀ {s : State} {b : Bool}, s.regs Machine.r11 = flag 8 b →
      convert false w.toNat (s.get (.reg Machine.r11) (max w 4).toNat) = flag w.toNat b := by
    intro w hw s b hb
    have hle : w.toNat ≤ (max w 4).toNat := by
      rcases hw with rfl | rfl | rfl | rfl <;> decide
    have hpos : 1 ≤ w.toNat := by
      rcases hw with rfl | rfl | rfl | rfl <;> decide
    rw [convert_get _ _ _ hle]
    simp only [State.get, hb]
    exact setWidth_flag (by decide) hpos b
  cases d with
  | reg r =>
    have hsource : IntOperand (max r.width 4) (.reg (r11 (max r.width 4))) := rfl
    obtain ⟨code, hcode⟩ := exists_move_reg (d := r) false hsource
    refine ⟨code, hcode, fun s f b hb => ?_⟩
    obtain ⟨s', hrun, h⟩ := run_move_reg l s hd hsource hcode
    obtain ⟨f', hf'⟩ := runTo_of_run (f := f) hrun []
    rw [List.append_nil] at hf'
    have hstored : Assigns (.reg r.id) (flag r.width.toNat b) [] s s' := by
      rw [← hvalue hd hb]
      exact h
    exact ⟨_, _, rfl, hf', hstored.weaken⟩
  | mem m =>
    have hsource : IntOperand (max m.width 4) (.reg (r11 (max m.width 4))) := rfl
    obtain ⟨code, hcode⟩ := exists_move_mem (d := m) false hsource
    refine ⟨code, hcode, fun s f b hb => ?_⟩
    obtain ⟨s', hrun, h⟩ := run_move_mem l s hd (hu _ (by decide)) hsource hcode
    obtain ⟨f', hf'⟩ := runTo_of_run (f := f) hrun []
    rw [List.append_nil] at hf'
    have hstored : Assigns (.mem (m.addr.eval l s)) (flag m.width.toNat b) [Machine.r11] s s' := by
      rw [← hvalue hd hb]
      exact h
    exact ⟨_, _, rfl, hf', hstored⟩
  | xmm x =>
    have hwide : max x.width 4 = x.width := by rcases hd with h | h <;> rw [h] <;> decide
    have hnarrow : ¬ x.width < 4 := by rcases hd with h | h <;> rw [h] <;> decide
    have hpos : 1 ≤ x.width.toNat := by rcases hd with h | h <;> rw [h] <;> decide
    refine ⟨[two .movq (.xmm x) (.reg (r11 x.width))], ?_, fun s f b hb => ?_⟩
    · simp only [opWidth, hwide, move, sameOperand, Bool.false_eq_true, if_false, moveToXmm, r11,
        hnarrow]
    · obtain ⟨s', hrun, h⟩ := runTo_movq (l := l) (s := s) (g := f) hd hb
      refine ⟨_, _, rfl, hrun, ?_⟩
      rw [setWidth_flag (by decide) hpos] at h
      exact h
  | imm v => exact hd.elim
  | target t => exact hd.elim

/-- An assignment after changes to scratch registers. -/
theorem assigns_after_changes {ids : List Machine.RegId} {p : Place} {n : Nat} {v : BitVec (8 * n)}
    {s s1 s2 : State} (h : ChangesOnly ids s s1) (h' : Assigns p v ids s1 s2) :
    Assigns p v ids s s2 where
  value := h'.value
  regs r hp hr := (h'.regs r hp hr).trans (h.regs r hr)
  xmms r hp := (h'.xmms r hp).trans (congrFun h.xmms r)
  mem x hx := (h'.mem x hx).trans (congrFun h.mem x)

/-- The outcome is stored at the width of the destination. -/
theorem setCond_runs (l : Linkage) (c : Machine.Cond) (hd : Receives d)
    (hu : NotAddressed [Machine.r11] d) :
    ∃ code, setCond c (some d) = .ok code ∧ ∀ s f, ∃ p m, d.place? l s = some p ∧
      runTo l code ⟨s, some f⟩ = some (m, none) ∧
      Assigns p (flag (opWidth (some d)).toNat (c.holds f)) [Machine.r11] s m.state := by
  by_cases hbyte : (opWidth (some d) == 1 && !isXmm (some d)) = true
  · refine ⟨[.op .setcc c (some d) none none], by rw [setCond, if_pos hbyte]; rfl, fun s f => ?_⟩
    rw [Bool.and_eq_true, beq_iff_eq, Bool.not_eq_true'] at hbyte
    obtain ⟨p, s', hp, hnext, h⟩ :=
      next_setcc (l := l) (s := s) (f := f) (c := c) hd hbyte.1 hbyte.2
    refine ⟨p, ⟨s', some f⟩, hp, ?_, h.weaken⟩
    rw [runTo_cons (by rintro c t ⟨⟩), hnext]
    rfl
  · obtain ⟨result, hresult, hstore⟩ := exists_storeOutcome l hd hu
    refine ⟨[.op .setcc c (some (.reg (r11 1))) none none,
      two .movzx (.reg (r11 4)) (.reg (r11 1))] ++ result, ?_, fun s f => ?_⟩
    · rw [setCond, if_neg hbyte]
      dsimp only
      rw [hresult]
      rfl
    · obtain ⟨s1, f1, hrun1, hword, hkept⟩ := runTo_word l s f c result
      obtain ⟨p, m, hp, hrun2, h⟩ := hstore s1 f1 _ hword
      rw [place_of_notAddressed hkept.regs hu] at hp
      exact ⟨p, m, hp, hrun1.trans hrun2, assigns_after_changes hkept h⟩

end Set

/-! ## Outcomes -/

/-- Where a jump to the operand goes. -/
def target? : Machine.Operand → Option Machine.Target
  | .target t => some t
  | _ => none

/-- A conditional branch has a label as its output, a comparison what it can store its outcome
in. -/
def Accepts (op : Opcode) (d : Machine.Operand) : Prop :=
  if op.isCondBranch then ∃ t, d = .target t else Receives d

/-- The code stored one or zero in the output, or took or did not take the jump to it. -/
structure Tells (l : Linkage) (d : Machine.Operand) (holds : Bool) (s s' : State)
    (exit : Option Machine.Target) : Prop where
  exit : exit = if holds then target? d else none
  value : ∀ p, d.place? l s = some p →
    s'.get p (opWidth (some d)).toNat = flag (opWidth (some d)).toNat holds

/-- The code told the outcome, and nothing but the output, the scratch registers and some room in
memory changed. -/
structure Answered (l : Linkage) (d : Machine.Operand) (holds : Bool) (scratch : List Machine.RegId)
    (room : BitVec 64 → Prop) (s s' : State) (exit : Option Machine.Target) : Prop
    extends Tells l d holds s s' exit where
  regs : ∀ r, d.place? l s ≠ some (.reg r) → r ∉ scratch → s'.regs r = s.regs r
  xmms : ∀ r, d.place? l s ≠ some (.xmm r) → s'.xmms r = s.xmms r
  mem : ∀ x, (∀ p, d.place? l s = some p → ¬ p.covers (opWidth (some d)).toNat x) → ¬ room x →
    s'.mem x = s.mem x

/-- The code that reads the flags of a comparison. -/
def outcome (op : Opcode) (float : Bool) (d : Machine.Operand) : Result (List Inst) :=
  if op.isCondBranch then pure [.op .jcc (condOf op float) (some d) none none]
  else setCond (condOf op float) (some d)

section Outcome

variable {l : Linkage} {d : Machine.Operand}

theorem answered_of_assigns {p : Place} {b : Bool} {s s' : State} (hd : Receives d)
    (hp : d.place? l s = some p)
    (h : Assigns p (flag (opWidth (some d)).toNat b) [Machine.r11] s s') :
    Answered l d b [Machine.r11] (fun _ => False) s s' none where
  exit := by
    have hnone : target? d = none := by
      cases d <;> first | rfl | exact hd.elim
    rw [hnone, ite_self]
  value q hq := by
    cases hp.symm.trans hq
    exact h.value
  regs r hr hs := h.regs r (fun e => hr (e ▸ hp)) hs
  xmms r hr := h.xmms r fun e => hr (e ▸ hp)
  mem x hx _ := h.mem x (hx p hp)

theorem outcome_runs (l : Linkage) (op : Opcode) (float : Bool) (hd : Accepts op d)
    (hu : NotAddressed [Machine.r11] d) : ∃ code, outcome op float d = .ok code ∧ ∀ s f, ∃ m exit,
      runTo l code ⟨s, some f⟩ = some (m, exit) ∧
      Answered l d ((condOf op float).holds f) [Machine.r11] (fun _ => False) s m.state exit := by
  unfold Accepts at hd
  unfold outcome
  split at hd
  · rename_i hbranch
    obtain ⟨t, rfl⟩ := hd
    refine ⟨_, if_pos hbranch,
      fun s f => ⟨⟨s, some f⟩, if (condOf op float).holds f then some t else none, ?_,
      ⟨rfl, nofun⟩, fun _ _ _ => rfl, fun _ _ => rfl, fun _ _ _ => rfl⟩⟩
    rw [runTo]
    dsimp only [Option.bind_eq_bind, Option.bind_some]
    cases (condOf op float).holds f <;> rfl
  · rename_i hbranch
    obtain ⟨code, hcode, hruns⟩ := setCond_runs l (condOf op float) hd hu
    refine ⟨code, (if_neg hbranch).trans hcode, fun s f => ?_⟩
    obtain ⟨p, m, hp, hrun, h⟩ := hruns s f
    exact ⟨m, none, hrun, answered_of_assigns hd hp h⟩

/-- The answer to a comparison after changes to scratch registers and to the room. -/
theorem Answered.after {b : Bool} {ids : List Machine.RegId} {room : BitVec 64 → Prop}
    {s s1 s2 : State} {exit : Option Machine.Target} (hregs : ∀ r, r ∉ ids → s1.regs r = s.regs r)
    (hxmms : s1.xmms = s.xmms) (hmem : ∀ x, ¬ room x → s1.mem x = s.mem x)
    (hu : NotAddressed ids d) (hsub : Machine.r11 ∈ ids)
    (h : Answered l d b [Machine.r11] (fun _ => False) s1 s2 exit) :
    Answered l d b ids room s s2 exit := by
  have hplace : d.place? l s1 = d.place? l s := place_of_notAddressed hregs hu
  refine ⟨⟨h.exit, fun p hp => h.value p (hplace ▸ hp)⟩, fun r hr hs => ?_, fun r hr => ?_,
    fun x hx hroom => ?_⟩
  · refine (h.regs r (hplace ▸ hr) fun hin => hs ?_).trans (hregs r hs)
    rw [List.mem_singleton.mp hin]
    exact hsub
  · exact (h.xmms r (hplace ▸ hr)).trans (congrFun hxmms r)
  · exact (h.mem x (fun p hp => hx p (hplace ▸ hp)) not_false).trans (hmem x hroom)

/-- A comparison is selected as what sets the flags and what reads them. -/
theorem instr_comparison {c : Closure} {i : Instr} {a b : Machine.Operand}
    (hop : (i.op.isCompare || i.op.isCondBranch) = true) (hd : optional c i.output = .ok (some d))
    (ha : optional c i.first = .ok (some a)) (hb : optional c i.second = .ok (some b)) :
    instr c i = (do
      let flags ← compare (some a) (some b) (opType i).isFloat
      let rest ← outcome i.op (opType i).isFloat d
      pure (flags ++ rest)) := by
  have hselected : isSelectedByOperands i.op = true := by
    cases hi : i.op <;> rw [hi] at hop <;> first | rfl | cases hop
  rw [instr_eq hselected, outputOperand_of_optional hd, ha, hb]
  dsimp only [bind, Except.bind, pure, Except.pure]
  cases hi : i.op <;> rw [hi] at hop <;> first | (cases hop; done) | skip
  all_goals
    simp only [compute, hi, Opcode.isCondBranch, Opcode.isCompare, outcome, bind, Except.bind, pure,
      Except.pure, if_true, Bool.false_eq_true, if_false]

end Outcome

/-! ## Operands -/

/-- A byte of the scratch slot. -/
def InScratch (scratch : Option Int64) (s : State) (x : BitVec 64) : Prop :=
  ∃ base, scratch = some base ∧ (Place.mem (s.regs Machine.rbp + base.toBitVec)).covers 8 x

/-- The registers that the code of a comparison works in. -/
def worked : List Machine.RegId := [Machine.r10, Machine.r11]

/-- An integer of the width in a register, a slot of the frame or at a symbol, or a literal of
it. -/
structure ComparisonOperand (c : Closure) (w : UInt8) (o : Operand) (a : Machine.Operand) :
    Prop where
  form : operand c o = .ok a
  comparable : Comparable c o
  int : IntOperand w a
  size : registerWidth o.ty = w.toNat
  plain : o.ty.isFloat = false
  free : ∀ r ∈ worked, usesReg r a = false

section Operands

variable {c : Closure} {w : UInt8} {o : Operand} {a : Machine.Operand}

/-- Only literals are immediates. -/
theorem ComparisonOperand.literal (h : ComparisonOperand c w o a) :
    (∃ l v, o = .imm l ∧ l.int? = some v ∧ a = .imm v) ∨ isLiteral (some o) = false ∧ ∀ v,
      a ≠ .imm v := by
  obtain ⟨hform, hcomp, -⟩ := h
  cases hcomp with
  | symbol y =>
    cases hform
    exact .inr ⟨rfl, by simp⟩
  | inPlace hin =>
    cases hin with
    | int width value =>
      cases hform
      exact .inl ⟨_, value, rfl, rfl, rfl⟩
    | bool word =>
      cases hform
      exact .inl ⟨_, word, rfl, rfl, rfl⟩
    | reg r =>
      cases hform
      exact .inr ⟨rfl, machineReg_ne_imm _ _⟩
    | stack offset t => exact .inr ⟨rfl, frameSlot_ne_imm hform⟩
    | var placed =>
      refine .inr ⟨rfl, ?_⟩
      obtain ⟨loc, -, ⟨home, -, rfl⟩ | hslot⟩ := operand_var hform
      · exact machineReg_ne_imm _ _
      · exact frameSlot_ne_imm hslot

/-- A literal that is not wide can be compared with. -/
theorem ComparisonOperand.fits (hw : IsWidth w) (h : ComparisonOperand c w o a)
    (hwide : isWide o = false) (v : Int64) (ha : a = .imm v) :
    Machine.fitsInt32 (truncate v w) = true := by
  rcases h.literal with ⟨l, v', rfl, hl, hv⟩ | ⟨-, hne⟩
  · cases hv.symm.trans ha
    cases l with
    | int width value =>
      cases hl
      exact fitsInt32_truncate hw (by simpa [isWide] using hwide)
    | bool word =>
      by_contra hne
      have h8 := width_of_not_fits hw hne
      have hsize := h.size
      subst h8
      cases hsize
    | float width x => cases hl
    | string bytes => cases hl
  · exact absurd ha (hne v)

theorem temporaryOf_eq (hsize : registerWidth o.ty = w.toNat) :
    temporaryOf o = .reg (gpr Machine.r10 w.toNat) := by
  rw [temporaryOf, Lowering.tempReg, hsize]

/-- The temporary register has the width of the operand. -/
theorem operand_temporaryOf (hsize : registerWidth o.ty = w.toNat) :
    operand c (temporaryOf o) = .ok (.reg ⟨Machine.r10, w⟩) := by
  rw [temporaryOf_eq hsize, operand_gpr, UInt8.ofNat_toNat]

theorem ty_temporaryOf (hw : IsWidth w) (hsize : registerWidth o.ty = w.toNat) :
    (temporaryOf o).ty = Ty.ofIntWidth w.toNat := by
  rw [temporaryOf_eq hsize]
  rcases hw with rfl | rfl | rfl | rfl <;> rfl

/-- So has the slot that it is moved to. -/
theorem spilledOf_eq (hw : IsWidth w) (hsize : registerWidth o.ty = w.toNat) (base : Int64) :
    spilledOf base o = .stack base (Ty.ofIntWidth w.toNat) := by
  rw [spilledOf, ty_temporaryOf hw hsize]
  rcases hw with rfl | rfl | rfl | rfl <;> rfl

theorem operand_spilledOf (hw : IsWidth w) (hsize : registerWidth o.ty = w.toNat) {base : Int64}
    (hfit : Machine.fitsInt32 base = true) : operand c (spilledOf base o) =
      .ok (.mem (.ofBase ⟨Machine.rbp, 8⟩ (toDisp base) w)) := by
  have hslot : widthOf (Ty.ofIntWidth w.toNat) = w := by
    rcases hw with rfl | rfl | rfl | rfl <;> rfl
  rw [spilledOf_eq hw hsize, operand, frameSlot, if_pos hfit, hslot]

/-- A comparison computes in the type of its first source, or of the second if the first has
none. -/
theorem opType_plain {i : Instr} {o' : Operand} (hop : (i.op.isCompare || i.op.isCondBranch) = true)
    (hfirst : i.first = some o) (hsecond : i.second = some o') (h : o.ty.isFloat = false)
    (h' : o'.ty.isFloat = false) : (opType i).isFloat = false := by
  have hsources : (!i.op.isCompare && !i.op.isBranch) = false := by
    cases hi : i.op <;> rw [hi] at hop <;> first | rfl | cases hop
  simp only [opType, hsources, Bool.false_and, Bool.false_eq_true, if_false, hfirst, hsecond,
    Option.map_some, Option.getD_some]
  split <;> assumption

theorem plain_ofIntWidth (hw : IsWidth w) : (Ty.ofIntWidth w.toNat).isFloat = false := by
  rcases hw with rfl | rfl | rfl | rfl <;> rfl

end Operands

/-! ## Loading literals -/

/-- The code of the lines leaves the values of two operands in two others, and changes nothing but
the registers that comparisons work in and the scratch slot. -/
def Stages (l : Linkage) (c : Closure) (w : UInt8) (scratch : Option Int64) (pre : List Instr)
    (a b a' b' : Machine.Operand) : Prop :=
  ∃ code, instrs c pre = .ok code ∧ ∀ s, ∃ s', run l code s = some s' ∧
    a'.value l s' w.toNat = a.value l s w.toNat ∧ b'.value l s' w.toNat = b.value l s w.toNat ∧
    (∀ r, r ∉ worked → s'.regs r = s.regs r) ∧ s'.xmms = s.xmms ∧
    ∀ x, ¬ InScratch scratch s x → s'.mem x = s.mem x

section Stages

variable (l : Linkage) {c : Closure} {w : UInt8} (cx : Lowering.Context) {o : Operand}
  {a : Machine.Operand}

theorem instr_loadLine (hw : IsWidth w) (h : ComparisonOperand c w o a) :
    ∃ code, instr c (loadLine cx o) = .ok code ∧ ∀ s, ∃ s', run l code s = some s' ∧
      Assigns (.reg Machine.r10) (a.value l s w.toNat) [] s s' := by
  obtain ⟨code, hcode⟩ := exists_move_reg (d := ⟨Machine.r10, w⟩) o.ty.isSigned h.int
  refine ⟨code, (instr_move h.form (operand_temporaryOf h.size)).trans hcode, fun s => ?_⟩
  obtain ⟨s', hrun, hassigns⟩ := run_move_reg l s (d := ⟨Machine.r10, w⟩) hw h.int hcode
  rw [convert_value l s _ hw h.int] at hassigns
  exact ⟨s', hrun, hassigns⟩

/-- The slot of the frame that the temporary register is moved to. -/
theorem eval_slot {s : State} {base : Int64} (hfit : Machine.fitsInt32 base = true) :
    (Machine.Memory.ofBase ⟨Machine.rbp, 8⟩ (toDisp base) w).addr.eval l s =
      s.regs Machine.rbp + base.toBitVec := by
  simp only [Machine.Memory.ofBase, Machine.Address.eval, Option.map_some, Option.map_none,
    Option.getD_some, Option.getD_none, Lowering.signExtend_toDisp hfit]
  exact congrArg (· + base.toBitVec) (BitVec.add_zero _)

theorem instr_spillLine (c : Closure) (hw : IsWidth w) (hsize : registerWidth o.ty = w.toNat)
    {base : Int64} (hfit : Machine.fitsInt32 base = true) :
    ∃ code, instr c (lineAt cx.instr .move (some (temporaryOf o)) none (some (spilledOf base o))) =
      .ok code ∧
      ∀ s, ∃ s', run l code s = some s' ∧ Assigns (.mem (s.regs Machine.rbp + base.toBitVec))
        (s.get (.reg Machine.r10) w.toNat) [Machine.r11] s s' := by
  let slot : Machine.Memory := .ofBase ⟨Machine.rbp, 8⟩ (toDisp base) w
  have hint : IntOperand w (.reg ⟨Machine.r10, w⟩) := rfl
  obtain ⟨code, hcode⟩ := exists_move_mem (d := slot) (temporaryOf o).ty.isSigned hint
  refine ⟨code, (instr_move (operand_temporaryOf hsize)
    (operand_spilledOf hw hsize hfit)).trans hcode, fun s => ?_⟩
  obtain ⟨s', hrun, hassigns⟩ := run_move_mem l s (d := slot) hw (by rfl) hint hcode
  rw [eval_slot l hfit] at hassigns
  refine ⟨s', hrun, ?_⟩
  have hvalue : s.get (.reg Machine.r10) w.toNat = _ :=
    (convert_value l s (temporaryOf o).ty.isSigned hw hint).symm
  rw [hvalue]
  exact hassigns

/-- A literal is worth the same in every state. -/
theorem value_imm {v : Int64} {s s' : State} (ha : a = .imm v) (k : Nat) :
    a.value l s' k = a.value l s k := by
  subst ha
  rfl

variable {b : Machine.Operand} {first second : Operand} (scratch : Option Int64)

theorem stages_nil : Stages l c w scratch [] a b a b :=
  ⟨[], rfl, fun s => ⟨s, rfl, rfl, rfl, fun _ _ => rfl, rfl, fun _ _ => rfl⟩⟩

theorem stages_first (hw : IsWidth w) (h : ComparisonOperand c w first a)
    (h' : ComparisonOperand c w second b) :
    Stages l c w scratch [loadLine cx first] a b (.reg ⟨Machine.r10, w⟩) b := by
  obtain ⟨code, hcode, hruns⟩ := instr_loadLine l cx hw h
  refine ⟨code, instrs_singleton hcode, fun s => ?_⟩
  obtain ⟨s', hrun, hassigns⟩ := hruns s
  have hchanges := changesOnly_of_assigns hassigns
  refine ⟨s', hrun, hassigns.value, value_of_not_uses hassigns b (h'.free _ (by decide)) _,
    fun r hr => hchanges.regs r fun hin => hr ?_, hchanges.xmms, fun x _ => congrFun hchanges.mem x⟩
  rw [List.mem_singleton.mp hin]
  decide

theorem stages_second (hw : IsWidth w) (h : ComparisonOperand c w first a)
    (h' : ComparisonOperand c w second b) :
    Stages l c w scratch [loadLine cx second] a b a (.reg ⟨Machine.r10, w⟩) := by
  obtain ⟨code, hcode, hruns⟩ := stages_first l cx scratch hw h' h
  refine ⟨code, hcode, fun s => ?_⟩
  obtain ⟨s', hrun, hsecond, hfirst, hkept⟩ := hruns s
  exact ⟨s', hrun, hfirst, hsecond, hkept⟩

/-- Both literals go through the temporary register, the second one on to the scratch slot. -/
theorem stages_both (hw : IsWidth w) (h : ComparisonOperand c w first a)
    (h' : ComparisonOperand c w second b) {v : Int64} (ha : a = .imm v) {base : Int64}
    (hfit : Machine.fitsInt32 base = true) :
    Stages l c w (some base) [loadLine cx second,
        lineAt cx.instr .move (some (temporaryOf second)) none (some (spilledOf base second)),
        loadLine cx first]
      a b (.reg ⟨Machine.r10, w⟩) (.mem (.ofBase ⟨Machine.rbp, 8⟩ (toDisp base) w)) := by
  obtain ⟨code1, hcode1, hruns1⟩ := instr_loadLine l cx hw h'
  obtain ⟨code2, hcode2, hruns2⟩ := instr_spillLine l cx c hw h'.size hfit
  obtain ⟨code3, hcode3, hruns3⟩ := instr_loadLine l cx hw h
  refine ⟨code1 ++ (code2 ++ code3), instrs_append (instrs_singleton hcode1)
    (instrs_append (instrs_singleton hcode2) (instrs_singleton hcode3)), fun s => ?_⟩
  obtain ⟨s1, hrun1, h1⟩ := hruns1 s
  obtain ⟨s2, hrun2, h2⟩ := hruns2 s1
  obtain ⟨s3, hrun3, h3⟩ := hruns3 s2
  have hrbp : s1.regs Machine.rbp = s.regs Machine.rbp :=
    h1.regs _ (by simp [Machine.r10, Machine.rbp]) (by simp)
  have hrbp2 : s2.regs Machine.rbp = s1.regs Machine.rbp := h2.regs _ (by simp) (by decide)
  have hrbp3 : s3.regs Machine.rbp = s2.regs Machine.rbp :=
    h3.regs _ (by simp [Machine.r10, Machine.rbp]) (by simp)
  refine ⟨s3, ?_, h3.value.trans (value_imm l ha _), ?_, fun r hr => ?_, ?_, fun x hx => ?_⟩
  · rw [run_append_of_some hrun1, run_append_of_some hrun2, hrun3]
  · -- The slot still has what the first load and the store put there.
    have hslot : (Machine.Operand.mem (.ofBase ⟨Machine.rbp, 8⟩ (toDisp base) w)).value l s3
        w.toNat =
        s3.get (.mem (s1.regs Machine.rbp + base.toBitVec)) w.toNat := by
      simp only [Machine.Operand.value, eval_slot l hfit, hrbp3, hrbp2]
    have hsmall := hw.le_eight
    rw [hslot, h3.get_of_separate (q := .mem (s1.regs Machine.rbp + base.toBitVec)) trivial
      (by omega), h2.value, h1.value]
  · obtain ⟨h10, h11⟩ : r ≠ Machine.r10 ∧ r ∉ [Machine.r11] := by
      simpa [worked] using hr
    rw [h3.regs r (by simpa using Ne.symm h10) (by simp), h2.regs r (by simp) h11,
      h1.regs r (by simpa using Ne.symm h10) (by simp)]
  · exact funext fun r => (h3.xmms r (by simp)).trans
      ((h2.xmms r (by simp)).trans (h1.xmms r (by simp)))
  · rw [h3.mem x (by simp [Place.covers]), h2.mem x ?_, h1.mem x (by simp [Place.covers])]
    intro hin
    rw [hrbp] at hin
    exact hx ⟨base, rfl, Nat.lt_of_lt_of_le hin hw.le_eight⟩

/-- The machine can compare the operands: the first one is no immediate, the second one no wide
one. -/
structure Compares (w : UInt8) (a b : Machine.Operand) : Prop where
  first : IntOperand w a
  second : IntOperand w b
  place : ∀ v, a ≠ .imm v
  free : usesReg Machine.r11 b = false
  fits : ∀ v, b = .imm v → Machine.fitsInt32 (truncate v w) = true

/-- The lines of a comparison stage its sources for the last of them. -/
theorem stages_comparisonLines (hw : IsWidth w) {i : Instr} {base : Int64}
    (hop : (i.op.isCompare || i.op.isCondBranch) = true) (hfirst : i.first = some first)
    (hsecond : i.second = some second) (h : ComparisonOperand c w first a)
    (h' : ComparisonOperand c w second b)
    (hroom : isLiteral (some first) = true → isWide second = true →
      scratch = some base ∧ Machine.fitsInt32 base = true) :
    ∃ pre last a' b', comparisonLines cx base i first second = pre ++ [last] ∧ last.op = i.op ∧
      last.output = i.output ∧ (opType last).isFloat = false ∧
      optional c last.first = .ok (some a') ∧
      optional c last.second = .ok (some b') ∧ Compares w a' b' ∧
      Stages l c w scratch pre a b a' b' := by
  have hform : optional c i.first = .ok (some a) := by rw [hfirst, optional, h.form]; rfl
  have hform' : optional c i.second = .ok (some b) := by rw [hsecond, optional, h'.form]; rfl
  have htemp : ∀ {o : Operand}, registerWidth o.ty = w.toNat →
      optional c (some (temporaryOf o)) = .ok (some (.reg ⟨Machine.r10, w⟩)) := by
    intro o hsize
    rw [optional, operand_temporaryOf hsize]
    rfl
  have hplain : ∀ {o : Operand}, registerWidth o.ty = w.toNat →
      (temporaryOf o).ty.isFloat = false := by
    intro o hsize
    rw [ty_temporaryOf hw hsize]
    exact plain_ofIntWidth hw
  have hfree' := h'.free Machine.r11 (by decide)
  unfold comparisonLines
  rcases h.literal with ⟨lit, v, rfl, -, hav⟩ | ⟨hlit, himm⟩
  · cases hwide : isWide second with
    | false =>
      exact ⟨[loadLine cx (.imm lit)], _, _, b, rfl, rfl, rfl,
        opType_plain hop rfl hsecond (hplain h.size) h'.plain, htemp h.size, hform',
        ⟨rfl, h'.int, by simp, hfree', h'.fits hw hwide⟩, stages_first l cx scratch hw h h'⟩
    | true =>
      obtain ⟨rfl, hfit⟩ := hroom rfl hwide
      have hslot : optional c (some (spilledOf base second)) =
          .ok (some (.mem (.ofBase ⟨Machine.rbp, 8⟩ (toDisp base) w))) := by
        rw [optional, operand_spilledOf hw h'.size hfit]
        rfl
      have hslotPlain : (spilledOf base second).ty.isFloat = false := by
        rw [spilledOf_eq hw h'.size]
        exact plain_ofIntWidth hw
      exact ⟨[loadLine cx second, _, loadLine cx (.imm lit)], _, _, _, rfl, rfl, rfl,
        opType_plain hop rfl rfl (hplain h.size) hslotPlain, htemp h.size, hslot,
        ⟨rfl, rfl, by simp, rfl, by simp⟩, stages_both l cx hw h h' hav hfit⟩
  · rw [hlit]
    cases hwide : isWide second with
    | false =>
      exact ⟨[], i, a, b, rfl, rfl, rfl, opType_plain hop hfirst hsecond h.plain h'.plain,
        hform, hform', ⟨h.int, h'.int, himm, hfree', h'.fits hw hwide⟩, stages_nil l scratch⟩
    | true =>
      exact ⟨[loadLine cx second], _, a, _, rfl, rfl, rfl,
        opType_plain hop hfirst rfl h.plain (hplain h'.size), hform, htemp h'.size,
        ⟨h.int, rfl, himm, rfl, by simp⟩, stages_second l cx scratch hw h h'⟩

end Stages

/-! ## The law of comparisons -/

/-- The output of a comparison is in a register or in a slot of the frame, that of a branch is a
label. -/
structure PlacedOutput (c : Closure) (op : Opcode) (o : Operand) (d : Machine.Operand) : Prop where
  compares : (op.isCompare || op.isCondBranch) = true
  form : operand c o = .ok d
  accepts : Accepts op d
  inPlace : op.isCompare = true → InPlace c o ∧ Writable o

/-- What is in place is in a register or in a slot of the frame, if it is no literal. -/
theorem notAddressed_of_inPlace {c : Closure} {o : Operand} {d : Machine.Operand} (h : InPlace c o)
    (hform : operand c o = .ok d) : NotAddressed worked d := by
  have hslot : ∀ {offset : Int64} {width : UInt8}, frameSlot offset width = .ok d →
      NotAddressed worked d := by
    intro offset width hslot
    unfold frameSlot at hslot
    split at hslot
    · cases hslot
      intro r hr
      simp only [worked, List.mem_cons, List.not_mem_nil, or_false] at hr
      rcases hr with rfl | rfl <;> rfl
    · cases hslot
  have hreg : ∀ (r : Reg) (width : UInt8), NotAddressed worked (machineReg r width) := by
    intro r width
    unfold machineReg
    split <;> trivial
  cases h with
  | reg r =>
    cases hform
    exact hreg r _
  | stack offset t => exact hslot hform
  | var placed =>
    obtain ⟨loc, -, ⟨home, -, rfl⟩ | hhome⟩ := operand_var hform
    · exact hreg home _
    · exact hslot hhome
  | int width value =>
    cases hform
    trivial
  | bool word =>
    cases hform
    trivial

theorem PlacedOutput.notAddressed {c : Closure} {op : Opcode} {o : Operand} {d : Machine.Operand}
    (h : PlacedOutput c op o d) : NotAddressed worked d := by
  have haccepts := h.accepts
  unfold Accepts at haccepts
  split at haccepts
  · obtain ⟨t, rfl⟩ := haccepts
    trivial
  · rename_i hbranch
    have hcompare : op.isCompare = true := by simpa [hbranch] using h.compares
    exact notAddressed_of_inPlace (h.inPlace hcompare).1 h.form

theorem PlacedOutput.swap {c : Closure} {op : Opcode} {o : Operand} {d : Machine.Operand}
    (h : PlacedOutput c op o d) : PlacedOutput c op.swapped o d where
  compares := by
    rw [Lowering.isCompare_swapped, Lowering.isCondBranch_swapped]
    exact h.compares
  form := h.form
  accepts := by
    have haccepts := h.accepts
    unfold Accepts at haccepts ⊢
    rwa [Lowering.isCondBranch_swapped]
  inPlace hop := h.inPlace ((Lowering.isCompare_swapped op).symm.trans hop)

/-- An integer comparison or a conditional branch on integers whose operands are placed. -/
structure PlacedComparison (c : Closure) (w : UInt8) (i : Instr) (first second output : Operand)
    (a b d : Machine.Operand) : Prop where
  width : IsWidth w
  hasFirst : i.first = some first
  hasSecond : i.second = some second
  hasOutput : i.output = some output
  left : ComparisonOperand c w first a
  right : ComparisonOperand c w second b
  result : PlacedOutput c i.op output d

theorem PlacedComparison.swap {c : Closure} {w : UInt8} {i : Instr} {first second output : Operand}
    {a b d : Machine.Operand} (h : PlacedComparison c w i first second output a b d) :
    PlacedComparison c w { i with op := i.op.swapped, first := i.second, second := i.first }
      second first output b a d :=
  ⟨h.width, h.hasSecond, h.hasFirst, h.hasOutput, h.right, h.left, h.result.swap⟩

/-- The relation that the operation names holds between the low bytes of two operands. -/
def related (l : Linkage) (s : State) (w : UInt8) (op : Opcode) (a b : Machine.Operand) : Bool :=
  holdsFor op (order? false (isUnsignedComparison op) (a.value l s w.toNat) (b.value l s w.toNat))

/-- A comparison with its operands swapped names the same relation. -/
theorem related_swapped (l : Linkage) (s : State) (w : UInt8) (op : Opcode)
    (a b : Machine.Operand) :
    related l s w op.swapped b a = related l s w op a b := by
  rw [related, Lowering.isUnsignedComparison_swapped, Lowering.order?_swap,
    Lowering.holdsFor_swapped]
  rfl

/-- The law for a comparison that has no literal as its first source alone. -/
theorem exists_answer (l : Linkage) (base : Int64) {w : UInt8} {i : Instr}
    {first second output : Operand} {a b d : Machine.Operand} {cx : Lowering.Context}
    {st : Lowering.State}
    (hi : literalSecond cx.instr = i)
    (h : PlacedComparison st.closure w i first second output a b d)
    (hroom : isLiteral (some first) = true → isWide second = true →
      cx.scratch = some base ∧ Machine.fitsInt32 base = true) :
    ∃ lines code, Lowering.compare cx cx.instr st = .ok ((), { st with out := st.out ++ lines }) ∧
      instrs st.closure lines = .ok code ∧ ∀ s f, ∃ m exit, runTo l code ⟨s, f⟩ = some (m, exit) ∧
        Answered l d (related l s w i.op a b) worked (InScratch cx.scratch s) s m.state exit := by
  have hlines := Lowering.compare_inPlace cx st base hi h.hasFirst h.hasSecond
    (fun hop => ⟨h.hasOutput, h.result.inPlace hop⟩) h.left.comparable h.right.comparable
    fun hlit hwide => (hroom hlit hwide).1
  obtain ⟨pre, last, a', b', hsplit, hop, hout, hint, ha', hb', hcompares, code1, hcode1, hruns1⟩ :=
    stages_comparisonLines l cx cx.scratch h.width h.result.compares h.hasFirst h.hasSecond h.left
      h.right hroom
  obtain ⟨code2, hcode2, hruns2⟩ :=
    compare_runs l h.width hcompares.first hcompares.second hcompares.place
    hcompares.free hcompares.fits
  obtain ⟨code3, hcode3, hruns3⟩ :=
    outcome_runs l i.op false h.result.accepts (h.result.notAddressed.mono (by decide))
  have hd : optional st.closure last.output = .ok (some d) := by
    rw [hout, h.hasOutput, optional, h.result.form]
    rfl
  have hlast : instr st.closure last = .ok (code2 ++ code3) := by
    rw [instr_comparison (hop ▸ h.result.compares) hd ha' hb', hint, hop, hcode2, hcode3]
    rfl
  rw [hsplit] at hlines
  refine ⟨pre ++ [last], code1 ++ (code2 ++ code3), hlines,
    instrs_append hcode1 (instrs_singleton hlast), fun s f => ?_⟩
  obtain ⟨s1, hrun1, hx, hy, hregs1, hxmms1, hmem1⟩ := hruns1 s
  obtain ⟨f1, hf1⟩ := runTo_of_run (f := f) hrun1 (code2 ++ code3)
  obtain ⟨s2, hchanges, hrun2⟩ := hruns2 s1 f1 code3
  obtain ⟨m, exit, hrun3, hanswer⟩ := hruns3 s2
    (.ofDifference (a'.value l s1 w.toNat) (b'.value l s1 w.toNat))
  refine ⟨m, exit, (hf1.trans hrun2).trans hrun3, ?_⟩
  have hcond : condOf i.op false = intCond i.op := rfl
  rw [hcond, Machine.intCond_holds h.result.compares, hx, hy] at hanswer
  refine hanswer.after (fun r hr => ?_) (hchanges.xmms.trans hxmms1)
    (fun x hx => ?_) h.result.notAddressed (by decide)
  · refine (hchanges.regs r fun hin => hr ?_).trans (hregs1 r hr)
    rw [List.mem_singleton.mp hin]
    decide
  · exact (congrFun hchanges.mem x).trans (hmem1 x hx)

/-- Integer comparisons and conditional branches keep their meaning. Lowering and selection succeed,
and the code stores one rather than zero, or jumps, exactly when the relation that the operation
names holds between the low bytes of its sources in their order. It changes no register but that of
the output, r10 and r11, and in memory the output and the scratch slot alone, which only two
literals need of which the second one is wide. -/
theorem comparison_keeps_its_relation (l : Linkage) {c : Closure} {blk : Block} {i : Instr}
    (hblk : blk ∈ c.blocks) (hi : i ∈ blk.ops) (variadic : List String) (st : Lowering.State)
    {w : UInt8}
    {first second output : Operand} {a b d : Machine.Operand}
    (h : PlacedComparison st.closure w i first second output a b d)
    (hreach : isLiteral (some first) = true → isWide second = true →
      ∀ base, (layout c).2 = some base → Machine.fitsInt32 base = true) :
    ∃ lines code,
      Lowering.instr (contextFor variadic c i) st = .ok ((), { st with out := st.out ++ lines }) ∧
      instrs st.closure lines = .ok code ∧ ∀ s f, ∃ m exit, runTo l code ⟨s, f⟩ = some (m, exit) ∧
        Answered l d (related l s w i.op a b) worked (InScratch (layout c).2 s) s m.state exit := by
  let cx : Lowering.Context := contextFor variadic c i
  rw [Lowering.instr_comparison h.result.compares]
  by_cases hswap : (isLiteral i.first && !isLiteral i.second) = true
  · -- A lone literal becomes the second source.
    have hlast : literalSecond cx.instr =
        { i with op := i.op.swapped, first := i.second, second := i.first } := if_pos hswap
    obtain ⟨hlit, hnot⟩ := Bool.and_eq_true_iff.mp hswap
    rw [h.hasSecond, Bool.not_eq_true'] at hnot
    obtain ⟨lines, code, hlines, hcode, hruns⟩ := exists_answer l 0 hlast h.swap fun hlit' =>
      absurd (hnot.symm.trans hlit') (by decide)
    refine ⟨lines, code, hlines, hcode, fun s f => ?_⟩
    rw [← related_swapped]
    exact hruns s f
  · have hlast : literalSecond cx.instr = i := if_neg hswap
    by_cases hboth : isLiteral (some first) = true ∧ isWide second = true
    · -- Both sources need the temporary register, so the frame has a scratch slot.
      have hneeds : Lowering.mayNeedTemp second = true := by
        have hwide := hboth.2
        unfold isWide at hwide
        split at hwide
        · exact hwide
        · cases hwide
      obtain ⟨base, hbase⟩ := Option.isSome_iff_exists.mp
        (Lowering.foreseen_of_layout hblk hi variadic i .second second h.hasSecond hneeds)
      exact exists_answer l base hlast h fun _ _ => ⟨hbase, hreach hboth.1 hboth.2 base hbase⟩
    · exact exists_answer l 0 hlast h fun hlit hwide => absurd ⟨hlit, hwide⟩ hboth

/-- A comparison of two integers that no field of 32 bits holds. -/
def wideComparison : Instr :=
  .make .slt (some (.imm (.int .w64 5000000000))) (some (.imm (.int .w64 5000000001)))
    (some (.var ⟨"t", .bool, false, false⟩))

def comparisonClosure : Closure :=
  ⟨"f", "f", true, .void, [], [⟨"entry", [wideComparison], [], [], [], []⟩],
    [("t", ⟨some regRax, none⟩)], [], [], 0, []⟩

/-- The law at the wide comparison, whose second source goes through the scratch slot. -/
theorem wide_comparison_stores_one :
    let l : Linkage := ⟨fun _ => 0, fun _ => 0⟩
    ∃ lines code, Lowering.instr (contextFor [] comparisonClosure wideComparison)
    ⟨comparisonClosure, []⟩ =
        .ok ((), ⟨comparisonClosure, lines⟩) ∧ lines.length = 4 ∧
      instrs comparisonClosure lines = .ok code ∧ ∀ s f, ∃ m, runTo l code ⟨s, f⟩ = some (m, none) ∧
        m.state.get (.reg Machine.rax) 1 = flag 1 true ∧
        ∀ r, r ≠ Machine.rax → r ∉ worked → m.state.regs r = s.regs r := by
  intro l
  have hx : ComparisonOperand comparisonClosure 8 (.imm (.int .w64 5000000000)) (.imm 5000000000) :=
    ⟨rfl, .inPlace (.int _ _), trivial, rfl, rfl, fun _ _ => rfl⟩
  have hy : ComparisonOperand comparisonClosure 8 (.imm (.int .w64 5000000001)) (.imm 5000000001) :=
    ⟨rfl, .inPlace (.int _ _), trivial, rfl, rfl, fun _ _ => rfl⟩
  have hplaced : PlacedComparison comparisonClosure 8 wideComparison _ _
      (.var ⟨"t", .bool, false, false⟩) (.imm 5000000000) (.imm 5000000001)
      (.reg ⟨Machine.rax, 1⟩) :=
    ⟨.inr (.inr (.inr rfl)), rfl, rfl, rfl, hx, hy, rfl, rfl, .inl rfl,
      fun _ => ⟨.var rfl, trivial⟩⟩
  obtain ⟨lines, code, hlines, hcode, hruns⟩ :=
    comparison_keeps_its_relation l (c := comparisonClosure) List.mem_cons_self List.mem_cons_self
      [] ⟨comparisonClosure, []⟩ hplaced (by rintro - - base ⟨⟩; decide)
  have hlength : lines.length = 4 := by
    cases hlines
    rfl
  refine ⟨lines, code, hlines, hlength, hcode, fun s f => ?_⟩
  obtain ⟨m, exit, hrun, hanswer⟩ := hruns s f
  have hexit : exit = none := by
    rw [hanswer.exit]
    exact ite_self none
  have htrue : related l s 8 .slt (.imm 5000000000) (.imm 5000000001) = true := by
    change holdsFor .slt (order? false false (n := 8) 5000000000#64 5000000001#64) = true
    decide
  refine ⟨m, hexit ▸ hrun, ?_, fun r hr hs => hanswer.regs r (by rintro ⟨⟩; exact hr rfl) hs⟩
  rw [← htrue]
  exact hanswer.value _ rfl

end Backend.Selection
