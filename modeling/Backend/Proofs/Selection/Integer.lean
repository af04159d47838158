-- The laws of selected integer arithmetic. The destination may be the first source, the second, or
-- a register that either is addressed by: the code still computes the operation on the values that
-- the sources had before it.
import Backend.Proofs.Selection.Move
import Backend.Selection.Closure

namespace Backend.Selection

open Backend.Machine (Inst Linkage State Place Assigns convert run run_append_of_some run_singleton
  setWidth_get)
open Backend.Lowering (opType)

/-! ## The work of one instruction -/

/-- On a register of the width, the instruction with this second operand applies `g`, as long as the
operand is worth what it was in `s`. -/
def Applies (l : Linkage) (s : State) (op : Machine.Op) (w : UInt8) (b : Machine.Operand)
    (g : BitVec (8 * w.toNat) → BitVec (8 * w.toNat)) : Prop :=
  ∀ (s1 : State) (r : Machine.Reg), r.width = w → (∀ k, b.value l s1 k = b.value l s k) →
    (inst op (some (.reg r)) (some b)).exec l s1 =
      some (s1.setReg r.id (g (s1.get (.reg r.id) w.toNat)))

/-- A load into a register followed by an instruction that applies `g` to it. -/
theorem run_load_step {l : Linkage} {s s1 : State} {r : Machine.Reg} {i : Inst}
    {load : List Inst} {x : BitVec (8 * r.width.toNat)}
    {g : BitVec (8 * r.width.toNat) → BitVec (8 * r.width.toNat)} (hw : IsWidth r.width)
    (hload : run l load s = some s1) (h1 : Assigns (.reg r.id) x [] s s1)
    (hi : i.exec l s1 = some (s1.setReg r.id (g (s1.get (.reg r.id) r.width.toNat)))) :
    ∃ s2, run l (load ++ [i]) s = some s2 ∧ Assigns (.reg r.id) (g x) [] s s2 := by
  rw [h1.value] at hi
  refine ⟨_, by rw [run_append_of_some hload, run_singleton, hi], ?_⟩
  exact h1.trans (Machine.assigns_setReg s1 r.id (g x) hw.le_eight [])

/-- What was computed in the scratch register goes to the destination. -/
theorem run_result {l : Linkage} {s s1 : State} {w : UInt8} {d : Machine.Operand} {signed : Bool}
    {code result : List Inst} {v : BitVec (8 * w.toNat)} (hw : IsWidth w) (hd : IntOperand w d)
    (hu : usesReg Machine.r11 d = false) (hcode : run l code s = some s1)
    (h1 : Assigns (.reg Machine.r11) v [] s s1)
    (h : move (some d) (some (.reg (r11 w))) signed = .ok result) :
    ∃ p s2, d.place? l s = some p ∧ run l (code ++ result) s = some s2 ∧
      Assigns p v [Machine.r11] s s2 := by
  have hr11 : IntOperand w (.reg (r11 w)) := rfl
  obtain ⟨p, s2, hp, hrun, ha⟩ := run_move l s1 hw hd hu hr11 h
  refine ⟨p, s2, ?_, by rw [run_append_of_some hcode, hrun], ?_⟩
  · rw [← hp]
    cases d with
    | mem m =>
      have haddr : m.addr.eval l s1 = m.addr.eval l s :=
        eval_of_not_uses m.addr (by simpa [usesReg, clobbers] using hu)
          fun r hr => h1.regs r (by simpa using fun e => hr e.symm) (by simp)
      simp [Machine.Operand.place?, haddr]
    | _ => rfl
  · have hval : convert signed w.toNat (s1.get (.reg Machine.r11) w.toNat) = v := by
      rw [convert_self]
      exact h1.value
    have ha' : Assigns p v [Machine.r11] s1 s2 := by
      rw [← hval]
      exact ha
    exact h1.after_scratch ha' (by simp)

/-! ## Two-address forms -/

theorem move_self (r : Machine.Reg) (signed : Bool) :
    move (some (.reg r)) (some (.reg r)) signed = .ok [] := by
  simp [move, sameOperand]

/-- The three forms of a two-source operation: in the destination, in the destination with the
sources swapped, and in the scratch register. -/
theorem binary_cases {op : Machine.Op} {d a b : Option Machine.Operand}
    {commutative signed : Bool} {code : List Inst}
    (h : binary op d a b commutative signed = .ok code) :
    (∃ r load, d = some (.reg r) ∧ clobbers d b = false ∧ move d a signed = .ok load ∧
      code = load ++ [inst op d b]) ∨
    (∃ r load, d = some (.reg r) ∧ commutative = true ∧ clobbers d b = true ∧
      clobbers d a = false ∧ move d b signed = .ok load ∧
      code = load ++ [inst op d (a.map fun o => resize o (opWidth d))]) ∨
    (∃ load result, move (some (.reg (r11 (opWidth d)))) a signed = .ok load ∧
      move d (some (.reg (r11 (opWidth d)))) signed = .ok result ∧
      code = load ++ [inst op (some (.reg (r11 (opWidth d)))) b] ++ result) := by
  unfold binary at h
  by_cases hd : ∃ r, d = some (.reg r)
  · obtain ⟨r, rfl⟩ := hd
    cases hb : clobbers (some (.reg r)) b with
    | false =>
      simp only [isGpr, hb, Bool.and_false, Bool.false_and, Bool.and_true, Bool.false_or,
        Bool.not_false, if_true, Bool.false_eq_true, if_false, bind_eq_ok, move_self,
        Except.ok.injEq, exists_eq_left', pure, Except.pure, List.append_nil] at h
      obtain ⟨load, hload, rfl⟩ := h
      exact .inl ⟨r, load, rfl, rfl, hload, rfl⟩
    | true =>
      by_cases hs : commutative = true ∧ clobbers (some (.reg r)) a = false
      · obtain ⟨rfl, ha⟩ := hs
        simp only [isGpr, hb, ha, Bool.and_true, Bool.not_false, Bool.true_or, if_true,
          bind_eq_ok, move_self, Except.ok.injEq, exists_eq_left', pure, Except.pure,
          List.append_nil] at h
        obtain ⟨load, hload, rfl⟩ := h
        exact .inr (.inl ⟨r, load, rfl, rfl, rfl, ha, hload, rfl⟩)
      · have hswap : (commutative && !clobbers (some (.reg r)) a) = false := by
          cases commutative <;> simp_all
        simp only [isGpr, hb, Bool.and_true, Bool.true_and, hswap, Bool.not_true, Bool.or_self,
          Bool.false_eq_true, if_false, bind_eq_ok, pure, Except.pure, Except.ok.injEq] at h
        obtain ⟨load, hload, result, hresult, rfl⟩ := h
        exact .inr (.inr ⟨load, result, hload, hresult, rfl⟩)
  · have hg : isGpr d = false := by
      unfold isGpr
      split
      · exact absurd ⟨_, rfl⟩ hd
      · rfl
    simp only [hg, Bool.false_and, Bool.false_eq_true, if_false, bind_eq_ok, pure, Except.pure,
      Except.ok.injEq] at h
    obtain ⟨load, hload, result, hresult, rfl⟩ := h
    exact .inr (.inr ⟨load, result, hload, hresult, rfl⟩)

/-- The forms of a multiplication: of bytes in the scratch register, by an immediate, and in
two-address form. -/
theorem mul_cases {d a b : Option Machine.Operand} {signed : Bool} {code : List Inst}
    (h : mul d a b signed = .ok code) :
    (opWidth d = 1 ∧ ∃ load product result,
      move (some (.reg (r11 4))) (a.map fun o => resize o 1) false = .ok load ∧
      ((∃ k, b = some (.imm k) ∧
          product = .op .imul ⟨0⟩ (some (.reg (r11 4))) (some (.reg (r11 4))) (some (.imm k))) ∨
        ∃ r, b = some (.reg r) ∧ product = two .imul (.reg (r11 4)) (.reg ⟨r.id, 4⟩)) ∧
      move d (some (.reg (r11 1))) signed = .ok result ∧ code = load ++ [product] ++ result) ∨
    (opWidth d ≠ 1 ∧ ∃ k load src result, b = some (.imm k) ∧
      ((isImm a = true ∧ move (workReg d) a signed = .ok load ∧ src = workReg d) ∨
        (isImm a = false ∧ load = [] ∧ src = a.map fun o => resize o (opWidth d))) ∧
      move d (workReg d) signed = .ok result ∧
      code = load ++ [.op .imul ⟨0⟩ (workReg d) src (some (.imm (truncate k (opWidth d))))] ++
        result) ∨
    (opWidth d ≠ 1 ∧ isImm b = false ∧
      binary .imul d a (b.map fun o => resize o (opWidth d)) true signed = .ok code) := by
  unfold mul at h
  by_cases hw : opWidth d = 1
  · left
    simp only [hw, beq_self_eq_true, if_true, bind_eq_ok] at h
    obtain ⟨load, hload, h⟩ := h
    refine ⟨hw, load, ?_⟩
    split at h
    · simp only [bind_eq_ok, pure, Except.pure, Except.ok.injEq, exists_eq_left'] at h
      obtain ⟨result, hresult, rfl⟩ := h
      exact ⟨_, result, hload, .inl ⟨_, rfl, rfl⟩, hresult, rfl⟩
    · simp only [bind_eq_ok, pure, Except.pure, Except.ok.injEq, exists_eq_left'] at h
      obtain ⟨result, hresult, rfl⟩ := h
      exact ⟨_, result, hload, .inr ⟨_, rfl, rfl⟩, hresult, rfl⟩
    · cases h
  · right
    simp only [beq_iff_eq, hw, if_false] at h
    split at h
    · left
      rename_i k hk
      obtain ⟨k', rfl, rfl⟩ : ∃ k', b = some (.imm k') ∧ truncate k' (opWidth d) = k := by
        cases b with
        | none => cases hk
        | some o =>
          cases o with
          | imm v =>
            cases hk
            exact ⟨v, rfl, rfl⟩
          | _ => cases hk
      refine ⟨hw, k', ?_⟩
      cases hi : isImm a with
      | true =>
        simp only [hi, if_true, bind_eq_ok, pure, Except.pure, Except.ok.injEq] at h
        obtain ⟨load, hload, result, hresult, rfl⟩ := h
        exact ⟨load, _, result, rfl, .inl ⟨rfl, hload, rfl⟩, hresult, rfl⟩
      | false =>
        simp only [hi, Bool.false_eq_true, if_false, bind_eq_ok, pure, Except.pure,
          Except.ok.injEq, exists_eq_left', List.nil_append] at h
        obtain ⟨result, hresult, rfl⟩ := h
        exact ⟨[], _, result, rfl, .inr ⟨rfl, rfl, rfl⟩, hresult, rfl⟩
    · rename_i hne
      refine .inr ⟨hw, ?_, h⟩
      cases b with
      | none => rfl
      | some o =>
        cases o with
        | imm v => exact absurd rfl (hne _)
        | _ => rfl

theorem opWidth_of_int {w : UInt8} {d : Machine.Operand} (hd : IntOperand w d)
    (hp : ∀ v, d ≠ .imm v) : opWidth (some d) = w := by
  cases d with
  | reg r => exact hd
  | mem m => exact hd
  | imm v => exact absurd rfl (hp v)
  | xmm x => exact absurd hd (by simp [IntOperand])
  | target t => exact absurd hd (by simp [IntOperand])

/-- No code moves a value into an immediate. -/
theorem not_imm_of_move {d : Machine.Operand} {src : Option Machine.Operand} {signed : Bool}
    {code : List Inst} (h : move (some d) src signed = .ok code) (v : Int64) : d ≠ .imm v := by
  rintro rfl
  simp [move, sameOperand] at h

theorem not_imm_of_binary {op : Machine.Op} {d : Machine.Operand} {a b : Option Machine.Operand}
    {commutative signed : Bool} {code : List Inst}
    (h : binary op (some d) a b commutative signed = .ok code) (v : Int64) : d ≠ .imm v := by
  rintro rfl
  rcases binary_cases h with ⟨r, _, hr, _⟩ | ⟨r, _, hr, _⟩ | ⟨_, result, _, hresult, _⟩
  · cases hr
  · cases hr
  · exact not_imm_of_move hresult v rfl

theorem usesReg_eq_clobbers (r : Machine.Reg) (o : Machine.Operand) :
    usesReg r.id o = clobbers (some (.reg r)) (some o) := by
  cases o <;> rfl

theorem usesReg_resize (id : Machine.RegId) (o : Machine.Operand) (w : UInt8) :
    usesReg id (resize o w) = usesReg id o := by
  cases o <;> rfl

theorem int_resize {w : UInt8} {o : Machine.Operand} (h : IntOperand w o) (w' : UInt8) :
    IntOperand w' (resize o w') := by
  cases o with
  | reg r => rfl
  | mem m => rfl
  | imm v => exact trivial
  | xmm x => exact absurd h (by simp [IntOperand])
  | target t => exact absurd h (by simp [IntOperand])

/-- A view at another width has the same low bytes. -/
theorem value_resize (l : Linkage) (s : State) {w : UInt8} (hw : IsWidth w) (o : Machine.Operand) :
    (resize o w).value l s w.toNat = o.value l s w.toNat := by
  cases o with
  | imm v => exact setWidth_truncate v hw
  | _ => rfl

/-- The two-address form of an operation computes it whatever its operands share. Swapped sources
have to give the same result. -/
theorem run_binary {l : Linkage} {s : State} {op : Machine.Op} {w : UInt8}
    {d a b : Machine.Operand} {commutative signed : Bool} {code : List Inst}
    {f g : BitVec (8 * w.toNat) → BitVec (8 * w.toNat)} (hw : IsWidth w) (hd : IntOperand w d)
    (hud : usesReg Machine.r11 d = false) (ha : IntOperand w a)
    (hub : usesReg Machine.r11 b = false) (hb : Applies l s op w b g)
    (hswap : commutative = true → IntOperand w b ∧ Applies l s op w (resize a w) f ∧
      f (b.value l s w.toNat) = g (a.value l s w.toNat))
    (h : binary op (some d) (some a) (some b) commutative signed = .ok code) :
    ∃ p s', d.place? l s = some p ∧ run l code s = some s' ∧
      Assigns p (g (a.value l s w.toNat)) [Machine.r11] s s' := by
  rcases binary_cases h with ⟨r, load, hr, hc, hload, rfl⟩ |
    ⟨r, load, hr, hcom, -, hc, hload, rfl⟩ | ⟨load, result, hload, hresult, rfl⟩
  · -- The second source does not use the destination.
    cases hr
    have hrw : r.width = w := hd
    subst hrw
    obtain ⟨s1, hrun, h1⟩ := run_move_reg l s hw ha hload
    rw [convert_value l s signed hw ha] at h1
    rw [← usesReg_eq_clobbers] at hc
    have hi := hb s1 r rfl fun k => value_of_not_uses h1 b hc k
    obtain ⟨s2, hrun2, h2⟩ := run_load_step hw hrun h1 hi
    exact ⟨_, s2, rfl, hrun2, h2.weaken⟩
  · -- The first source does not use it either, so the sources change places.
    cases hr
    have hrw : r.width = w := hd
    subst hrw
    obtain ⟨hb', happ, heq⟩ := hswap hcom
    obtain ⟨s1, hrun, h1⟩ := run_move_reg l s hw hb' hload
    rw [convert_value l s signed hw hb'] at h1
    rw [← usesReg_eq_clobbers, ← usesReg_resize r.id a r.width] at hc
    have hi := happ s1 r rfl fun k => value_of_not_uses h1 _ hc k
    obtain ⟨s2, hrun2, h2⟩ := run_load_step hw hrun h1 hi
    rw [heq] at h2
    exact ⟨_, s2, rfl, hrun2, h2.weaken⟩
  · have hwd := opWidth_of_int hd (not_imm_of_move hresult)
    rw [hwd] at hload hresult ⊢
    obtain ⟨s1, hrun, h1⟩ := run_move_reg l s (d := r11 w) hw ha hload
    rw [show (r11 w).width = w from rfl, convert_value l s signed hw ha] at h1
    have hi := hb s1 (r11 w) rfl fun k => value_of_not_uses h1 b hub k
    obtain ⟨s2, hrun2, h2⟩ := run_load_step (r := r11 w) hw hrun h1 hi
    exact run_result hw hd hud hrun2 h2 hresult

/-! ## Instructions of the machine -/

theorem readableAt_of_int {w : UInt8} {o : Machine.Operand} (h : IntOperand w o) :
    o.readableAt w.toNat = true := by
  cases o with
  | reg r => simp [Machine.Operand.readableAt, show r.width = w from h]
  | mem m => simp [Machine.Operand.readableAt, show m.width = w from h]
  | imm v => rfl
  | xmm x => exact absurd h (by simp [IntOperand])
  | target t => exact absurd h (by simp [IntOperand])

theorem applies_arith (l : Linkage) (s : State) {op : Machine.Op} {w : UInt8} {b : Machine.Operand}
    {f : (n : Nat) → BitVec n → BitVec n → BitVec n} (hop : op.binary? = some f)
    (hb : IntOperand w b) : Applies l s op w b fun x => f _ x (b.value l s w.toNat) := by
  intro s1 r hr hval
  subst hr
  have hread := readableAt_of_int hb
  rw [← hval]
  cases op <;> simp [Machine.Op.binary?] at hop <;>
    simp [inst, Inst.exec, Machine.Op.binary?, Machine.twoAddress, Machine.update, hread, ← hop,
      Machine.Operand.value]

theorem applies_imul (l : Linkage) (s : State) {w : UInt8} {b : Machine.Operand} (hw : w ≠ 1)
    (hb : IntOperand w b) : Applies l s .imul w b fun x => x * b.value l s w.toNat := by
  intro s1 r hr hval
  subst hr
  have hread := readableAt_of_int hb
  rw [← hval]
  simp [inst, Inst.exec, Machine.multiply, Machine.twoAddress, Machine.update, hread, hw,
    Machine.Operand.value]

theorem applies_shift (l : Linkage) (s : State) {op : Machine.Op} {w : UInt8}
    {b : Machine.Operand} {count : BitVec 8} {f : (n : Nat) → BitVec n → Nat → BitVec n}
    (hop : op.shift? = some f)
    (hcount : ∀ s1 : State, (∀ k, b.value l s1 k = b.value l s k) →
      Machine.shiftCount? s1 b = some count) :
    Applies l s op w b fun x => f _ x (count.toNat % Machine.shiftModulus w.toNat) := by
  intro s1 r hr hval
  subst hr
  have hc := hcount s1 hval
  cases op <;> simp [Machine.Op.shift?] at hop <;>
    simp [inst, Inst.exec, Machine.Op.binary?, Machine.Op.shift?, Machine.update, hc, ← hop,
      Machine.Operand.value]

theorem exec_unary (l : Linkage) (s : State) {op : Machine.Op} (r : Machine.Reg)
    {f : (n : Nat) → BitVec n → BitVec n} (hop : op.unary? = some f) :
    (inst op (some (.reg r)) none).exec l s =
      some (s.setReg r.id (f _ (s.get (.reg r.id) r.width.toNat))) := by
  cases op <;> simp [Machine.Op.unary?] at hop <;>
    simp [inst, Inst.exec, Machine.Op.unary?, Machine.update, ← hop, Machine.Operand.value]

theorem exec_imul_imm (l : Linkage) (s : State) (r : Machine.Reg) (src : Machine.Operand)
    (k : Int64) (hw : r.width ≠ 1) (hsrc : IntOperand r.width src) (himm : ∀ v, src ≠ .imm v) :
    (Inst.op .imul ⟨0⟩ (some (.reg r)) (some src) (some (.imm k))).exec l s =
      some (s.setReg r.id
        (src.value l s r.width.toNat * k.toBitVec.setWidth (8 * r.width.toNat))) := by
  have hread := readableAt_of_int hsrc
  cases src with
  | imm v => exact absurd rfl (himm v)
  | _ => simp [Inst.exec, Machine.multiply, Machine.twoAddress, Machine.update, hw, hread]

/-! ## Operations -/

/-- The register in which a destination of the width is computed. -/
theorem workReg_of_int {w : UInt8} {d : Machine.Operand} (hd : IntOperand w d)
    (hp : ∀ v, d ≠ .imm v) :
    ∃ r, workReg (some d) = some (.reg r) ∧ r.width = w ∧ (d = .reg r ∨ r = r11 w) := by
  cases d with
  | reg r => exact ⟨r, rfl, hd, .inl rfl⟩
  | mem m => exact ⟨r11 m.width, rfl, hd, .inr (by rw [show m.width = w from hd])⟩
  | imm v => exact absurd rfl (hp v)
  | xmm x => exact absurd hd (by simp [IntOperand])
  | target t => exact absurd hd (by simp [IntOperand])

/-- What was computed in the destination stays there, and what was computed in the scratch register
goes there. -/
theorem run_work_result {l : Linkage} {s s1 : State} {w : UInt8} {d : Machine.Operand}
    {r : Machine.Reg} {signed : Bool} {code result : List Inst} {v : BitVec (8 * w.toNat)}
    (hw : IsWidth w) (hd : IntOperand w d) (hu : usesReg Machine.r11 d = false)
    (hr : d = .reg r ∨ r = r11 w) (hcode : run l code s = some s1)
    (h1 : Assigns (.reg r.id) v [] s s1) (h : move (some d) (some (.reg r)) signed = .ok result) :
    ∃ p s2, d.place? l s = some p ∧ run l (code ++ result) s = some s2 ∧
      Assigns p v [Machine.r11] s s2 := by
  rcases hr with rfl | rfl
  · rw [move_self] at h
    cases h
    exact ⟨_, s1, rfl, by rw [List.append_nil, hcode], h1.weaken⟩
  · exact run_result hw hd hu hcode h1 h

/-- An operation with one source. -/
theorem run_unary {l : Linkage} {s : State} {op : Machine.Op} {w : UInt8} {d a : Machine.Operand}
    {signed : Bool} {code : List Inst} {f : (n : Nat) → BitVec n → BitVec n} (hw : IsWidth w)
    (hd : IntOperand w d) (hud : usesReg Machine.r11 d = false) (ha : IntOperand w a)
    (hop : op.unary? = some f) (h : unary op (some d) (some a) signed = .ok code) :
    ∃ p s', d.place? l s = some p ∧ run l code s = some s' ∧
      Assigns p (f _ (a.value l s w.toNat)) [Machine.r11] s s' := by
  simp only [unary, bind_eq_ok, pure, Except.pure, Except.ok.injEq] at h
  obtain ⟨load, hload, result, hresult, rfl⟩ := h
  obtain ⟨r, hwork, rfl, hr⟩ := workReg_of_int hd (not_imm_of_move hresult)
  rw [hwork] at hload hresult ⊢
  obtain ⟨s1, hrun, h1⟩ := run_move_reg l s hw ha hload
  rw [convert_value l s signed hw ha] at h1
  obtain ⟨s2, hrun2, h2⟩ := run_load_step hw hrun h1 (exec_unary l s1 r hop)
  exact run_work_result hw hd hud hr hrun2 h2 hresult

/-- Extending an operand and cutting it again gives its low bytes. -/
theorem setWidth_convert_value (l : Linkage) (s : State) {w : UInt8} {o : Machine.Operand}
    (ho : IntOperand w o) (k : Nat) {m : Nat} (hm : k ≤ m) (hk : k ≤ sourceWidth o) :
    (convert false m (o.value l s (sourceWidth o))).setWidth (8 * k) = o.value l s k := by
  have hcut : (convert false m (o.value l s (sourceWidth o))).setWidth (8 * k) =
      (o.value l s (sourceWidth o)).setWidth (8 * k) :=
    BitVec.setWidth_setWidth_of_le _ (by omega)
  rw [hcut]
  cases o with
  | reg r => exact setWidth_get s _ _ k hk
  | mem m => exact setWidth_get s _ _ k hk
  | imm v => exact BitVec.setWidth_setWidth_of_le _ (by simp only [sourceWidth] at hk ⊢; omega)
  | xmm x => exact absurd ho (by simp [IntOperand])
  | target t => exact absurd ho (by simp [IntOperand])

/-- A multiplication of bytes, done in four bytes of the scratch register. -/
theorem run_mul_byte {l : Linkage} {s : State} {d a b : Machine.Operand} {signed : Bool}
    {load result : List Inst} {product : Inst} (hd : IntOperand 1 d)
    (hud : usesReg Machine.r11 d = false) (ha : IntOperand 1 a)
    (hub : usesReg Machine.r11 b = false)
    (hload : move (some (.reg (r11 4))) (some (resize a 1)) false = .ok load)
    (hproduct : (∃ k, b = .imm k ∧
        product = .op .imul ⟨0⟩ (some (.reg (r11 4))) (some (.reg (r11 4))) (some (.imm k))) ∨
      ∃ r, b = .reg r ∧ product = two .imul (.reg (r11 4)) (.reg ⟨r.id, 4⟩))
    (hresult : move (some d) (some (.reg (r11 1))) signed = .ok result) :
    ∃ p s', d.place? l s = some p ∧ run l (load ++ [product] ++ result) s = some s' ∧
      Assigns p (a.value l s 1 * b.value l s 1) [Machine.r11] s s' := by
  have hw1 : IsWidth 1 := .inl rfl
  have hw4 : IsWidth (r11 4).width := .inr (.inr (.inl rfl))
  obtain ⟨s1, hrun, h1⟩ := run_move_reg l s (d := r11 4) hw4 (int_resize ha 1) hload
  generalize hx : convert false (r11 4).width.toNat
    ((resize a 1).value l s (sourceWidth (resize a 1))) = x at h1
  have hxlow : x.setWidth (8 * 1) = a.value l s 1 := by
    have hview : (resize a 1).value l s 1 = a.value l s 1 := value_resize l s hw1 a
    rw [← hx, ← hview]
    exact setWidth_convert_value l s (int_resize ha 1) 1 (by decide) 
      (by cases a <;> simp [resize, sourceWidth, Machine.Memory.sized])
  -- The product by `y` in four bytes has the product by the low byte of `y` as its low byte.
  have hdone : ∀ y : BitVec (8 * (r11 4).width.toNat), y.setWidth (8 * 1) = b.value l s 1 →
      product.exec l s1 =
        some (s1.setReg (r11 4).id (s1.get (.reg (r11 4).id) (r11 4).width.toNat * y)) →
      ∃ p s', d.place? l s = some p ∧ run l (load ++ [product] ++ result) s = some s' ∧
        Assigns p (a.value l s 1 * b.value l s 1) [Machine.r11] s s' := by
    intro y hy hexec
    obtain ⟨s2, hrun2, h2⟩ := run_load_step (r := r11 4) (g := fun z => z * y) hw4 hrun h1 hexec
    have h3 := h2.narrow 1 (by decide)
    rw [BitVec.setWidth_mul x y (by decide), hxlow, hy] at h3
    exact run_result hw1 hd hud hrun2 h3 hresult
  rcases hproduct with ⟨k, rfl, rfl⟩ | ⟨r, rfl, rfl⟩
  · refine hdone (k.toBitVec.setWidth _) (BitVec.setWidth_setWidth_of_le _ (by decide)) ?_
    exact exec_imul_imm l s1 (r11 4) (.reg (r11 4)) k (by decide) rfl (by simp)
  · refine hdone (s.get (.reg r.id) 4) (setWidth_get s (.reg r.id) 4 1 (by decide)) ?_
    have hb4 : IntOperand 4 (.reg ⟨r.id, 4⟩) := rfl
    exact applies_imul l s (by decide) hb4 s1 (r11 4) rfl fun k =>
      value_of_not_uses (l := l) h1 _ hub k

/-- A multiplication by an immediate. -/
theorem run_mul_imm {l : Linkage} {s : State} {w : UInt8} {d a : Machine.Operand} {k : Int64}
    {src : Option Machine.Operand} {signed : Bool} {load result : List Inst} (hw : IsWidth w)
    (hw1 : w ≠ 1) (hd : IntOperand w d) (hud : usesReg Machine.r11 d = false)
    (ha : IntOperand w a)
    (hsrc : (isImm (some a) = true ∧ move (workReg (some d)) (some a) signed = .ok load ∧
        src = workReg (some d)) ∨
      (isImm (some a) = false ∧ load = [] ∧ src = some (resize a w)))
    (hresult : move (some d) (workReg (some d)) signed = .ok result) :
    ∃ p s', d.place? l s = some p ∧
      run l (load ++ [.op .imul ⟨0⟩ (workReg (some d)) src (some (.imm (truncate k w)))] ++ result)
        s = some s' ∧
      Assigns p (a.value l s w.toNat * k.toBitVec.setWidth (8 * w.toNat)) [Machine.r11] s s' := by
  obtain ⟨r, hwork, rfl, hr⟩ := workReg_of_int hd (not_imm_of_move hresult)
  rw [hwork] at hsrc hresult ⊢
  rw [← setWidth_truncate k hw]
  rcases hsrc with ⟨_, hload, rfl⟩ | ⟨himm, rfl, rfl⟩
  · obtain ⟨s1, hrun, h1⟩ := run_move_reg l s hw ha hload
    rw [convert_value l s signed hw ha] at h1
    have hi := exec_imul_imm l s1 r (.reg r) (truncate k r.width) hw1 rfl (by simp)
    obtain ⟨s2, hrun2, h2⟩ :=
      run_load_step (g := fun x => x * (truncate k r.width).toBitVec.setWidth _) hw hrun h1 hi
    exact run_work_result hw hd hud hr hrun2 h2 hresult
  · have hi := exec_imul_imm l s r (resize a r.width) (truncate k r.width) hw1
      (int_resize ha r.width) (by cases a <;> simp_all [resize, isImm])
    rw [value_resize l s hw a] at hi
    have hrun : run l [.op .imul ⟨0⟩ (some (.reg r)) (some (resize a r.width))
        (some (.imm (truncate k r.width)))] s = some _ := (run_singleton l _ s).trans hi
    exact run_work_result hw hd hud hr hrun (Machine.assigns_setReg s r.id _ hw.le_eight [])
      hresult

/-- A multiplication. -/
theorem run_mul {l : Linkage} {s : State} {w : UInt8} {d a b : Machine.Operand} {signed : Bool}
    {code : List Inst} (hw : IsWidth w) (hd : IntOperand w d)
    (hud : usesReg Machine.r11 d = false) (ha : IntOperand w a) (hb : IntOperand w b)
    (hub : usesReg Machine.r11 b = false) (h : mul (some d) (some a) (some b) signed = .ok code) :
    ∃ p s', d.place? l s = some p ∧ run l code s = some s' ∧
      Assigns p (a.value l s w.toNat * b.value l s w.toNat) [Machine.r11] s s' := by
  rcases mul_cases h with ⟨hwd, load, product, result, hload, hproduct, hresult, rfl⟩ |
    ⟨hwd, k, load, src, result, hk, hsrc, hresult, rfl⟩ | ⟨hwd, -, hbin⟩
  · rw [opWidth_of_int hd (not_imm_of_move hresult)] at hwd
    subst hwd
    exact run_mul_byte hd hud ha hub hload (by simpa using hproduct) hresult
  · rw [opWidth_of_int hd (not_imm_of_move hresult)] at hwd hsrc ⊢
    cases hk
    exact run_mul_imm hw hwd hd hud ha hsrc hresult
  · rw [opWidth_of_int hd (not_imm_of_binary hbin)] at hwd hbin
    have hfirst := applies_imul l s hwd (int_resize ha w)
    have hsecond := applies_imul l s hwd (int_resize hb w)
    rw [value_resize l s hw a] at hfirst
    rw [← value_resize l s hw b]
    have hres := run_binary hw hd hud ha (by rw [usesReg_resize, hub]) hsecond
      (fun _ => ⟨int_resize hb w, hfirst, BitVec.mul_comm _ _⟩) hbin
    exact hres

/-! ## What lowered instructions compute -/

/-- The result of a two-source operation. -/
def arithmetic? : Opcode → Option ((n : Nat) → BitVec n → BitVec n → BitVec n)
  | .add => some fun _ x y => x + y
  | .sub => some fun _ x y => x - y
  | .mul => some fun _ x y => x * y
  | .and => some fun _ x y => x &&& y
  | .or => some fun _ x y => x ||| y
  | .xor => some fun _ x y => x ^^^ y
  | _ => none

/-- The result of a one-source operation. -/
def complement? : Opcode → Option ((n : Nat) → BitVec n → BitVec n)
  | .neg => some fun _ x => -x
  | .not => some fun _ x => ~~~x
  | _ => none

/-- The result of a shift by a count. -/
def shifted? : Opcode → Option ((n : Nat) → BitVec n → Nat → BitVec n)
  | .shl => some fun _ x k => x <<< k
  | .shr => some fun _ x k => x >>> k
  | .sar => some fun _ x k => x.sshiftRight k
  | _ => none

/-- The operand of an instruction is a general purpose register or memory of the width or an
integer, and does not use the scratch register. -/
structure Resolves (c : Closure) (w : UInt8) (o : Option Operand) (a : Machine.Operand) : Prop where
  operand : optional c o = .ok (some a)
  int : IntOperand w a
  free : usesReg Machine.r11 a = false

/-- The value that an integer instruction gives its output of the width, from the values its sources
have in the state. A move brings a source of any width to that of the output, by the sign of its
type. A literal shifts by itself modulo the width in bits, and cl as the machine counts. -/
inductive Computes (l : Linkage) (s : State) (c : Closure) (w : UInt8) (i : Instr) :
    BitVec (8 * w.toNat) → Prop where
  | move (ws : UInt8) (a : Machine.Operand) (op : i.op = .move)
      (first : Resolves c ws i.first a) :
      Computes l s c w i (convert (isSigned i.first) w.toNat (a.value l s (sourceWidth a)))
  | unary (f : (n : Nat) → BitVec n → BitVec n) (a : Machine.Operand)
      (op : complement? i.op = some f) (int : (opType i).isFloat = false)
      (first : Resolves c w i.first a) : Computes l s c w i (f _ (a.value l s w.toNat))
  | binary (f : (n : Nat) → BitVec n → BitVec n → BitVec n) (a b : Machine.Operand)
      (op : arithmetic? i.op = some f) (int : (opType i).isFloat = false)
      (first : Resolves c w i.first a) (second : Resolves c w i.second b) :
      Computes l s c w i (f _ (a.value l s w.toNat) (b.value l s w.toNat))
  | shiftLiteral (f : (n : Nat) → BitVec n → Nat → BitVec n) (a : Machine.Operand) (k : Int64)
      (op : shifted? i.op = some f) (int : (opType i).isFloat = false)
      (first : Resolves c w i.first a) (second : optional c i.second = .ok (some (.imm k))) :
      Computes l s c w i (f _ (a.value l s w.toNat) (k.toBitVec.toNat % (8 * w.toNat)))
  | shiftCl (f : (n : Nat) → BitVec n → Nat → BitVec n) (a : Machine.Operand) (r : Machine.Reg)
      (op : shifted? i.op = some f) (int : (opType i).isFloat = false)
      (first : Resolves c w i.first a) (second : optional c i.second = .ok (some (.reg r)))
      (cl : r.id = Machine.rcx) :
      Computes l s c w i (f _ (a.value l s w.toNat)
        (((s.regs Machine.rcx).setWidth 8).toNat % Machine.shiftModulus w.toNat))

/-- The machine form of an output that is not a list. -/
theorem outputOperand_of_optional {c : Closure} {o : Option Operand} {d : Machine.Operand}
    (h : optional c o = .ok (some d)) : outputOperand c o = .ok (some d) := by
  unfold outputOperand
  split
  · simp [optional, operand, bind, Except.bind] at h
  · exact h

/-- The operation is selected from the machine forms of its output and its two sources. -/
def isSelectedByOperands : Opcode → Bool
  | .nop | .phi | .fnBegin | .safepoint | .label | .ret | .fnEnd | .bal | .call | .rtCall
  | .retValue => false
  | _ => true

theorem instr_eq {c : Closure} {i : Instr} (hop : isSelectedByOperands i.op = true) :
    instr c i = (do
      let d ← outputOperand c i.output
      let a ← optional c i.first
      let b ← optional c i.second
      compute c i d a b) := by
  unfold instr
  cases hi : i.op <;> simp_all [isSelectedByOperands]

theorem instr_eq_compute {c : Closure} {i : Instr} {code : List Inst}
    (hop : isSelectedByOperands i.op = true) (h : instr c i = .ok code) :
    ∃ d a b, outputOperand c i.output = .ok d ∧ optional c i.first = .ok a ∧
      optional c i.second = .ok b ∧ compute c i d a b = .ok code := by
  rw [instr_eq hop] at h
  simp only [bind_eq_ok] at h
  obtain ⟨d, hd, a, ha, b, hb, h⟩ := h
  exact ⟨d, a, b, hd, ha, hb, h⟩

/-- The code of some instructions is that of the first one, followed by that of the others. -/
theorem instrs_cons_eq_ok {c : Closure} {i : Instr} {rest : List Instr} {code : List Inst} :
    instrs c (i :: rest) = .ok code ↔
      ∃ first more, instr c i = .ok first ∧ instrs c rest = .ok more ∧ code = first ++ more := by
  rw [instrs]
  constructor
  · intro h
    split at h
    · cases h
    · obtain ⟨more, hmore, hcode⟩ := bind_eq_ok.mp h
      exact ⟨_, more, ‹_›, hmore, (Except.ok.inj hcode).symm⟩
  · rintro ⟨first, more, hfirst, hmore, rfl⟩
    rw [hfirst, hmore]
    rfl

theorem instrs_append_eq_ok {c : Closure} {xs ys : List Instr} {code : List Inst} :
    instrs c (xs ++ ys) = .ok code ↔
      ∃ first more, instrs c xs = .ok first ∧ instrs c ys = .ok more ∧ code = first ++ more := by
  induction xs generalizing code with
  | nil => simp [instrs]
  | cons i rest ih =>
    simp only [List.cons_append, instrs_cons_eq_ok, ih]
    constructor
    · rintro ⟨first, _, hfirst, ⟨middle, last, hmiddle, hlast, rfl⟩, rfl⟩
      exact ⟨first ++ middle, last, ⟨first, middle, hfirst, hmiddle, rfl⟩, hlast, by simp⟩
    · rintro ⟨_, last, ⟨first, middle, hfirst, hmiddle, rfl⟩, hlast, rfl⟩
      exact ⟨first, middle ++ last, hfirst, ⟨middle, last, hmiddle, hlast, rfl⟩, by simp⟩

/-- An integer operation is selected from the machine forms of its operands. -/
theorem instr_eq_intArithmetic {c : Closure} {i : Instr} {d : Machine.Operand} {code : List Inst}
    (hop : i.op.isArithmetic = true) (hint : (opType i).isFloat = false)
    (hd : optional c i.output = .ok (some d)) (h : instr c i = .ok code) :
    ∃ a b, optional c i.first = .ok a ∧ optional c i.second = .ok b ∧
      intArithmetic i (some d) a b (isSigned i.first) = .ok code := by
  have hsel : isSelectedByOperands i.op = true := by
    cases hi : i.op <;> simp [hi, Opcode.isArithmetic] at hop <;> rfl
  obtain ⟨d', a, b, hd', ha, hb, hcomp⟩ := instr_eq_compute hsel h
  rw [outputOperand_of_optional hd, Except.ok.injEq] at hd'
  subst hd'
  refine ⟨a, b, ha, hb, ?_⟩
  rw [← hcomp]
  cases hi : i.op <;> simp [hi, Opcode.isArithmetic] at hop <;>
    simp [compute, hi, hint, Opcode.isCondBranch, Opcode.isCompare, Opcode.isFused]

/-- The low bits of a literal, as the machine counts them. -/
theorem toNat_masked (k mask : Int64) (j : Nat) {m : Nat} (hmask : mask.toBitVec.toNat = 2 ^ j - 1)
    (h256 : 2 ^ j ≤ 256) (hm : 2 ^ j ≤ m) :
    ((k &&& mask).toBitVec.setWidth 8).toNat % m = k.toBitVec.toNat % 2 ^ j := by
  have hlt : k.toBitVec.toNat % 2 ^ j < 2 ^ j := Nat.mod_lt _ (Nat.two_pow_pos j)
  rw [Int64.toBitVec_and, BitVec.toNat_setWidth, BitVec.toNat_and, hmask,
    Nat.and_two_pow_sub_one_eq_mod, Nat.mod_eq_of_lt (Nat.lt_of_lt_of_le hlt h256),
    Nat.mod_eq_of_lt (Nat.lt_of_lt_of_le hlt hm)]

/-- A literal count is cut to the width of the register, where the machine cuts it no further. -/
theorem shiftCount_literal {w : UInt8} (hw : IsWidth w) (k : Int64) :
    ((k &&& (Int64.ofNat (w.toNat * 8) - 1)).toBitVec.setWidth 8).toNat %
      Machine.shiftModulus w.toNat = k.toBitVec.toNat % (8 * w.toNat) := by
  rcases hw with rfl | rfl | rfl | rfl
  · exact toNat_masked k _ 3 (by decide) (by decide) (by decide)
  · exact toNat_masked k _ 4 (by decide) (by decide) (by decide)
  · exact toNat_masked k _ 5 (by decide) (by decide) (by decide)
  · exact toNat_masked k _ 6 (by decide) (by decide) (by decide)

/-- The machine has an instruction for each two-source operation but multiplication, which takes
forms of its own. The commutative ones give the same result with their sources swapped. -/
theorem intOp_of_arithmetic {op : Opcode} {f : (n : Nat) → BitVec n → BitVec n → BitVec n}
    (h : arithmetic? op = some f) (hmul : op ≠ .mul) :
    ∃ mop, intOp? op = some mop ∧ mop.binary? = some f ∧
      (op.isCommutative = true → ∀ n x y, f n x y = f n y x) := by
  cases op <;> simp [arithmetic?] at h hmul <;> subst h
  · exact ⟨.add, rfl, rfl, fun _ _ x y => BitVec.add_comm x y⟩
  · exact ⟨.sub, rfl, rfl, by simp [Opcode.isCommutative]⟩
  · exact ⟨.and, rfl, rfl, fun _ _ x y => BitVec.and_comm x y⟩
  · exact ⟨.or, rfl, rfl, fun _ _ x y => BitVec.or_comm x y⟩
  · exact ⟨.xor, rfl, rfl, fun _ _ x y => BitVec.xor_comm x y⟩

theorem intArithmetic_of_binary {i : Instr} {d a b : Option Machine.Operand} {signed : Bool}
    {mop : Machine.Op} {f : (n : Nat) → BitVec n → BitVec n → BitVec n}
    (h : arithmetic? i.op = some f) (hmul : i.op ≠ .mul) (hop : intOp? i.op = some mop) :
    intArithmetic i d a b signed =
      binary mop d a (b.map fun o => resize o (opWidth d)) i.op.isCommutative signed := by
  cases hi : i.op <;> simp [hi, arithmetic?] at h hmul <;> simp [intArithmetic, hi, hi ▸ hop]

/-- The code of a two-source operation. -/
theorem run_arithmetic {l : Linkage} {s : State} {i : Instr} {w : UInt8} {d a b : Machine.Operand}
    {signed : Bool} {code : List Inst} {f : (n : Nat) → BitVec n → BitVec n → BitVec n}
    (hw : IsWidth w) (hd : IntOperand w d) (hud : usesReg Machine.r11 d = false)
    (ha : IntOperand w a) (hb : IntOperand w b) (hub : usesReg Machine.r11 b = false)
    (hf : arithmetic? i.op = some f)
    (h : intArithmetic i (some d) (some a) (some b) signed = .ok code) :
    ∃ p s', d.place? l s = some p ∧ run l code s = some s' ∧
      Assigns p (f _ (a.value l s w.toNat) (b.value l s w.toNat)) [Machine.r11] s s' := by
  by_cases hmul : i.op = .mul
  · have hf' : f = fun _ x y => x * y := by simpa [hmul, arithmetic?, eq_comm] using hf
    subst hf'
    exact run_mul hw hd hud ha hb hub (by simpa [intArithmetic, hmul] using h)
  · obtain ⟨mop, hop, happ, hcomm⟩ := intOp_of_arithmetic hf hmul
    rw [intArithmetic_of_binary hf hmul hop] at h
    rw [opWidth_of_int hd (not_imm_of_binary h)] at h
    have hfirst := applies_arith l s happ (int_resize ha w)
    have hsecond := applies_arith l s happ (int_resize hb w)
    rw [value_resize l s hw a] at hfirst
    rw [← value_resize l s hw b]
    have hres := run_binary hw hd hud ha (by rw [usesReg_resize, hub]) hsecond
      (fun hc => ⟨int_resize hb w, hfirst, hcomm hc _ _ _⟩) h
    exact hres

/-- The code of a one-source operation. -/
theorem run_complement {l : Linkage} {s : State} {i : Instr} {w : UInt8} {d a : Machine.Operand}
    {b : Option Machine.Operand} {signed : Bool} {code : List Inst}
    {f : (n : Nat) → BitVec n → BitVec n} (hw : IsWidth w) (hd : IntOperand w d)
    (hud : usesReg Machine.r11 d = false) (ha : IntOperand w a) (hf : complement? i.op = some f)
    (h : intArithmetic i (some d) (some a) b signed = .ok code) :
    ∃ p s', d.place? l s = some p ∧ run l code s = some s' ∧
      Assigns p (f _ (a.value l s w.toNat)) [Machine.r11] s s' := by
  cases hi : i.op <;> simp only [hi, complement?, Option.some.injEq, reduceCtorEq] at hf
  · have hop : Machine.Op.unary? .neg = some f := congrArg some hf
    exact run_unary hw hd hud ha hop (by simpa [intArithmetic, hi] using h)
  · have hop : Machine.Op.unary? .not = some f := congrArg some hf
    exact run_unary hw hd hud ha hop (by simpa [intArithmetic, hi] using h)

theorem isArithmetic_of_shifted {op : Opcode} {f : (n : Nat) → BitVec n → Nat → BitVec n}
    (h : shifted? op = some f) : op.isArithmetic = true := by
  cases op <;> simp [shifted?] at h <;> rfl

/-- A shift is one two-address operation once its count is known. -/
theorem intArithmetic_of_shift {i : Instr} {d a b : Option Machine.Operand} {signed : Bool}
    {code : List Inst} {f : (n : Nat) → BitVec n → Nat → BitVec n}
    (hf : shifted? i.op = some f) (h : intArithmetic i d a b signed = .ok code) :
    ∃ mop count, mop.shift? = some f ∧ shiftCount (opWidth d) b = .ok count ∧
      binary mop d a (some count) false signed = .ok code := by
  cases hi : i.op <;> simp only [hi, shifted?, Option.some.injEq, reduceCtorEq] at hf <;>
    simp only [intArithmetic, hi, bind_eq_ok] at h <;> obtain ⟨count, hcount, h⟩ := h
  · exact ⟨.shl, count, congrArg some hf, hcount, h⟩
  · exact ⟨.shr, count, congrArg some hf, hcount, h⟩
  · exact ⟨.sar, count, congrArg some hf, hcount, h⟩

/-- The code of a shift whose count the machine reads from a literal or from cl. -/
theorem run_shift {l : Linkage} {s : State} {i : Instr} {w : UInt8} {d a : Machine.Operand}
    {b : Option Machine.Operand} {signed : Bool} {code : List Inst} {count : BitVec 8}
    {f : (n : Nat) → BitVec n → Nat → BitVec n} (hw : IsWidth w) (hd : IntOperand w d)
    (hud : usesReg Machine.r11 d = false) (ha : IntOperand w a) (hf : shifted? i.op = some f)
    (hcount : ∀ o, shiftCount w b = .ok o → usesReg Machine.r11 o = false ∧
      ∀ s1 : State, (∀ k, o.value l s1 k = o.value l s k) → Machine.shiftCount? s1 o = some count)
    (h : intArithmetic i (some d) (some a) b signed = .ok code) :
    ∃ p s', d.place? l s = some p ∧ run l code s = some s' ∧
      Assigns p (f _ (a.value l s w.toNat) (count.toNat % Machine.shiftModulus w.toNat))
        [Machine.r11] s s' := by
  obtain ⟨mop, o, hop, ho, hbin⟩ := intArithmetic_of_shift hf h
  rw [opWidth_of_int hd (not_imm_of_binary hbin)] at ho
  obtain ⟨huo, hval⟩ := hcount o ho
  have hres := run_binary (f := id) hw hd hud ha huo (applies_shift l s hop hval) (by simp) hbin
  exact hres

/-! ## The law of selection -/

/-- Integer instructions are selected correctly under every aliasing: the code that selection gives
for a move or an integer operation leaves its result, on the values that the sources had before, in
the output, and changes nothing else but the scratch register. -/
theorem selected_integer_code_assigns_result (l : Linkage) (s : State) (c : Closure) (i : Instr)
    (w : UInt8) (d : Machine.Operand) (v : BitVec (8 * w.toNat)) (code : List Inst)
    (hw : IsWidth w) (hd : Resolves c w i.output d) (hv : Computes l s c w i v)
    (h : instr c i = .ok code) :
    ∃ p s', d.place? l s = some p ∧ run l code s = some s' ∧ Assigns p v [Machine.r11] s s' := by
  cases hv with
  | move ws a op first =>
    obtain ⟨d', a', b, hd', ha', _, hcode⟩ := instr_eq_compute (by rw [op]; rfl) h
    rw [outputOperand_of_optional hd.operand, Except.ok.injEq] at hd'
    rw [first.operand, Except.ok.injEq] at ha'
    subst hd' ha'
    exact run_move l s hw hd.int hd.free first.int (by simpa [compute, op] using hcode)
  | unary f a op int first =>
    have harith : i.op.isArithmetic = true := by
      cases hi : i.op <;> simp [hi, complement?] at op <;> rfl
    obtain ⟨a', b, ha', _, hcode⟩ := instr_eq_intArithmetic harith int hd.operand h
    rw [first.operand, Except.ok.injEq] at ha'
    subst ha'
    exact run_complement hw hd.int hd.free first.int op hcode
  | binary f a b op int first second =>
    have harith : i.op.isArithmetic = true := by
      cases hi : i.op <;> simp [hi, arithmetic?] at op <;> rfl
    obtain ⟨a', b', ha', hb', hcode⟩ := instr_eq_intArithmetic harith int hd.operand h
    rw [first.operand, Except.ok.injEq] at ha'
    rw [second.operand, Except.ok.injEq] at hb'
    subst ha' hb'
    exact run_arithmetic hw hd.int hd.free first.int second.int second.free op hcode
  | shiftLiteral f a k op int first second =>
    obtain ⟨a', b', ha', hb', hcode⟩ :=
      instr_eq_intArithmetic (isArithmetic_of_shifted op) int hd.operand h
    rw [first.operand, Except.ok.injEq] at ha'
    rw [second, Except.ok.injEq] at hb'
    subst ha' hb'
    rw [← shiftCount_literal hw k]
    refine run_shift hw hd.int hd.free first.int op ?_ hcode
    rintro o ⟨⟩
    exact ⟨rfl, fun _ _ => rfl⟩
  | shiftCl f a r op int first second cl =>
    obtain ⟨a', b', ha', hb', hcode⟩ :=
      instr_eq_intArithmetic (isArithmetic_of_shifted op) int hd.operand h
    rw [first.operand, Except.ok.injEq] at ha'
    rw [second, Except.ok.injEq] at hb'
    subst ha' hb'
    refine run_shift hw hd.int hd.free first.int op ?_ hcode
    intro o ho
    simp only [shiftCount, cl, bne_self_eq_false, Bool.false_eq_true, if_false,
      Except.ok.injEq] at ho
    subst ho
    refine ⟨rfl, fun s1 hval => ?_⟩
    have hrcx : (s1.regs Machine.rcx).setWidth 8 = (s.regs Machine.rcx).setWidth 8 := hval 1
    simp [Machine.shiftCount?, hrcx]

/-- A difference whose output is also its second source and the index of its first one. -/
def aliasedDifference : Instr :=
  .make .sub (some (.indirect (some (.reg (gpr Machine.rbx 8))) (some (.reg regRcx)) 8 16 .i64))
    (some (.reg regRcx)) (some (.reg regRcx))

/-- The law at the aliased difference. It is computed in the scratch register, and rcx gets
the word in memory less its own value. -/
theorem selected_integer_code_of_aliased_difference :
    let c : Closure := ⟨"f", "f", true, .void, [], [], [], [], [], 0, []⟩
    let l : Linkage := ⟨fun _ => 0, fun _ => 0⟩
    let s : State := ⟨fun r => BitVec.ofNat 64 r.toNat, fun _ => 0, fun _ => 9⟩
    let source : Machine.Memory := .ofIndex ⟨Machine.rbx, 8⟩ ⟨Machine.rcx, 8⟩ 8 16 8
    instr c aliasedDifference = .ok [two .mov (.reg (r11 8)) (.mem source),
      two .sub (.reg (r11 8)) (.reg ⟨Machine.rcx, 8⟩),
      two .mov (.reg ⟨Machine.rcx, 8⟩) (.reg (r11 8))] ∧
    ∃ p s', Machine.Operand.place? l s (.reg ⟨Machine.rcx, 8⟩) = some p ∧
      run l [two .mov (.reg (r11 8)) (.mem source), two .sub (.reg (r11 8)) (.reg ⟨Machine.rcx, 8⟩),
        two .mov (.reg ⟨Machine.rcx, 8⟩) (.reg (r11 8))] s = some s' ∧
      Assigns p (n := 8) (0x0909090909090908) [Machine.r11] s s' := by
  intro c l s source
  have hval : (Machine.Operand.mem source).value l s 8 -
      (Machine.Operand.reg ⟨Machine.rcx, 8⟩).value l s 8 = 0x0909090909090908 := by decide
  have hv : Computes l s c 8 aliasedDifference 0x0909090909090908 := by
    rw [← hval]
    exact .binary (fun _ x y => x - y) (.mem source) (.reg ⟨Machine.rcx, 8⟩) rfl rfl
      ⟨rfl, rfl, rfl⟩ ⟨rfl, rfl, rfl⟩
  exact ⟨rfl, selected_integer_code_assigns_result l s c aliasedDifference 8
    (.reg ⟨Machine.rcx, 8⟩) _ _ (.inr (.inr (.inr rfl))) ⟨rfl, rfl, rfl⟩ hv rfl⟩

end Backend.Selection
