-- The laws of selected moves. Whatever the two operands are, the code of a move leaves the source,
-- cut or extended, in the destination and changes nothing else but the scratch register.
import Backend.Proofs.Machine.Step
import Backend.Selection.Move

namespace Backend.Selection

open Backend.Machine (Inst Linkage State Place Assigns convert run run_append_of_some run_singleton
  setWidth_get)

/-! ## Integer operands -/

/-- The widths that integers have. -/
def IsWidth (w : UInt8) : Prop := w = 1 ∨ w = 2 ∨ w = 4 ∨ w = 8

theorem IsWidth.le_eight {w : UInt8} (h : IsWidth w) : w.toNat ≤ 8 := by
  rcases h with rfl | rfl | rfl | rfl <;> decide

/-- A general purpose register or memory of the width, or an immediate. -/
def IntOperand (w : UInt8) : Machine.Operand → Prop
  | .reg r => r.width = w
  | .mem m => m.width = w
  | .imm _ => True
  | _ => False

/-- The operand is or is addressed by the register. -/
def usesReg (id : Machine.RegId) (o : Machine.Operand) : Bool :=
  clobbers (some (.reg ⟨id, 8⟩)) (some o)

/-- The width at which an operand supplies its value: its own, or eight bytes for an immediate. -/
def sourceWidth : Machine.Operand → Nat
  | .reg r => r.width.toNat
  | .mem m => m.width.toNat
  | _ => 8

/-- Cutting a word to `k` bits and extending it again keeps those bits. -/
theorem setWidth_signExtend (x : BitVec 64) (k : Nat) (hk : k ≤ 64) :
    ((x.signExtend k).signExtend 64).setWidth k = x.setWidth k := by
  apply BitVec.eq_of_getLsbD_eq
  intro i hi
  have h64 : i < 64 := by omega
  simp only [BitVec.getLsbD_setWidth, BitVec.getLsbD_signExtend, hi, h64]
  simp

/-- The value of the low bytes of an immediate survives its truncation. -/
theorem setWidth_truncate (v : Int64) {w : UInt8} (hw : IsWidth w) :
    (truncate v w).toBitVec.setWidth (8 * w.toNat) = v.toBitVec.setWidth (8 * w.toNat) := by
  rcases hw with rfl | rfl | rfl | rfl
  · exact setWidth_signExtend v.toBitVec 8 (by omega)
  · exact setWidth_signExtend v.toBitVec 16 (by omega)
  · exact setWidth_signExtend v.toBitVec 32 (by omega)
  · rfl

/-! ## Registers that an operand does not use -/

/-- An address depends on its registers alone. -/
theorem eval_of_regs {l : Linkage} {s s' : State} (a : Machine.Address)
    (h : ∀ r, addressUses r a = true → s'.regs r = s.regs r) : a.eval l s' = a.eval l s := by
  cases a with
  | regs base index disp =>
    simp only [Machine.Address.eval]
    congr 2
    · cases base with
      | none => rfl
      | some b => simpa using h b.id (by simp [addressUses])
    · cases index with
      | none => rfl
      | some i => simp [h i.1.id (by simp [addressUses])]
  | rip symbol => rfl
  | tls symbol => rfl

theorem eval_of_not_uses {l : Linkage} {s s' : State} {id : Machine.RegId} (a : Machine.Address)
    (hu : addressUses id a = false) (h : ∀ r, r ≠ id → s'.regs r = s.regs r) :
    a.eval l s' = a.eval l s := by
  refine eval_of_regs a fun r hr => h r ?_
  rintro rfl
  rw [hu] at hr
  cases hr

/-- A place depends on the registers that the operand uses. -/
theorem place_of_regs {l : Linkage} {s s' : State} (o : Machine.Operand)
    (h : ∀ r, usesReg r o = true → s'.regs r = s.regs r) : o.place? l s' = o.place? l s := by
  cases o with
  | mem m =>
    have heval := eval_of_regs (l := l) m.addr h
    simp only [Machine.Operand.place?, heval]
  | _ => rfl

/-- The value of an operand depends on the registers that it uses and on the bytes at its place. -/
theorem value_of_regs {l : Linkage} {s s' : State} {n : Nat} (o : Machine.Operand) (hn : n ≤ 8)
    (hregs : ∀ r, usesReg r o = true → s'.regs r = s.regs r) (hxmms : ∀ r, s'.xmms r = s.xmms r)
    (hmem : ∀ a, o.place? l s = some (.mem a) → ∀ x, (Place.mem a).covers n x →
      s'.mem x = s.mem x) :
    o.value l s' n = o.value l s n := by
  cases o with
  | reg r =>
    have hr := hregs r.id (by simp [usesReg, clobbers])
    simp only [Machine.Operand.value, State.get, hr]
  | xmm x => simp only [Machine.Operand.value, State.get, hxmms x.id]
  | mem m =>
    simp only [Machine.Operand.value, State.get, eval_of_regs (l := l) m.addr hregs]
    exact Machine.readBytes_congr _ _ _ n (by omega) (hmem _ rfl)
  | imm _ => rfl
  | target _ => rfl

/-- Writing a register leaves the operands that do not use it as they were. -/
theorem value_of_not_uses {l : Linkage} {s s' : State} {id : Machine.RegId} {n : Nat}
    {v : BitVec (8 * n)} (h : Assigns (.reg id) v [] s s') (o : Machine.Operand)
    (hu : usesReg id o = false) (k : Nat) : o.value l s' k = o.value l s k := by
  have hregs : ∀ r, r ≠ id → s'.regs r = s.regs r := fun r hr =>
    h.regs r (by simpa using fun e => hr e.symm) (by simp)
  have hmem : s'.mem = s.mem := funext fun x => h.mem x (by simp [Place.covers])
  cases o with
  | reg r =>
    simp [Machine.Operand.value, State.get, hregs r.id (by simpa [usesReg, clobbers] using hu)]
  | xmm x => simp [Machine.Operand.value, State.get, h.xmms x.id (by simp)]
  | mem m =>
    simp only [Machine.Operand.value, State.get, hmem]
    rw [eval_of_not_uses m.addr (by simpa [usesReg, clobbers] using hu) hregs]
  | imm _ => rfl
  | target _ => rfl

/-! ## Conversions -/

/-- A value keeps its bytes at its own width. -/
theorem convert_self (signed : Bool) {n : Nat} (v : BitVec (8 * n)) : convert signed n v = v := by
  cases signed <;> simp [convert]

/-- At a smaller width the sign of a value plays no part. -/
theorem convert_of_le (signed : Bool) {n m : Nat} (v : BitVec (8 * n)) (h : m ≤ n) :
    convert signed m v = v.setWidth (8 * m) := by
  cases signed with
  | false => rfl
  | true =>
    simp only [convert, if_true]
    exact BitVec.signExtend_eq_setWidth_of_le _ (by omega)

theorem convert_get (signed : Bool) (s : State) (p : Place) {n k : Nat} (h : k ≤ n) :
    convert signed k (s.get p n) = s.get p k := by
  rw [convert_of_le signed _ h, setWidth_get s p n k h]

/-- An operand of the width of the destination is neither cut nor extended. -/
theorem convert_value (l : Linkage) (s : State) (signed : Bool) {w : UInt8} {o : Machine.Operand}
    (hw : IsWidth w) (ho : IntOperand w o) :
    convert signed w.toNat (o.value l s (sourceWidth o)) = o.value l s w.toNat := by
  cases o with
  | reg r =>
    have hr : r.width = w := ho
    subst hr
    exact convert_self signed _
  | mem m =>
    have hm : m.width = w := ho
    subst hm
    exact convert_self signed _
  | imm v =>
    simp only [sourceWidth]
    rw [convert_of_le signed _ hw.le_eight]
    exact BitVec.setWidth_setWidth_of_le _ (by have := hw.le_eight; omega)
  | xmm x => exact absurd ho (by simp [IntOperand])
  | target t => exact absurd ho (by simp [IntOperand])

/-! ## Single instructions -/

theorem exec_mov_reg (l : Linkage) (s : State) (d : Machine.Reg) (src : Machine.Operand)
    (h : src.readableAt d.width.toNat = true) :
    (two .mov (.reg d) src).exec l s = some (s.setReg d.id (src.value l s d.width.toNat)) := by
  cases src <;>
    simp_all [two, Inst.binary, Inst.exec, Machine.Op.binary?, Machine.twoAddress, Machine.update]

theorem exec_mov_mem_reg (l : Linkage) (s : State) (d : Machine.Memory) (r : Machine.Reg)
    (h : r.width = d.width) :
    (two .mov (.mem d) (.reg r)).exec l s =
      some (s.store (d.addr.eval l s) (s.get (.reg r.id) d.width.toNat)) := by
  simp [two, Inst.binary, Inst.exec, Machine.Op.binary?, Machine.twoAddress, Machine.update,
    Machine.Operand.readableAt, Machine.Operand.value, h]

theorem exec_mov_mem_imm (l : Linkage) (s : State) (d : Machine.Memory) (v : Int64) :
    (two .mov (.mem d) (.imm v)).exec l s =
      some (s.store (d.addr.eval l s) (v.toBitVec.setWidth (8 * d.width.toNat))) := by
  simp [two, Inst.binary, Inst.exec, Machine.Op.binary?, Machine.twoAddress, Machine.update,
    Machine.Operand.readableAt, Machine.Operand.value]

theorem exec_extend_reg (l : Linkage) (s : State) (d r : Machine.Reg) (signed : Bool)
    (h : r.width < d.width) :
    (extend d (.reg r) signed).exec l s =
      some (s.setReg d.id (convert signed d.width.toNat (s.get (.reg r.id) r.width.toNat))) := by
  cases signed <;>
    simp [extend, two, Inst.binary, Inst.exec, Machine.extendInto, Machine.update, h,
      Machine.Operand.value]

theorem exec_extend_mem (l : Linkage) (s : State) (d : Machine.Reg) (m : Machine.Memory)
    (signed : Bool) (h : m.width < d.width) :
    (extend d (.mem m) signed).exec l s =
      some (s.setReg d.id
        (convert signed d.width.toNat (s.get (.mem (m.addr.eval l s)) m.width.toNat))) := by
  cases signed <;>
    simp [extend, two, Inst.binary, Inst.exec, Machine.extendInto, Machine.update, h,
      Machine.Operand.value]

/-! ## Moves into a register -/

theorem run_moveRegReg (l : Linkage) (s : State) (d r : Machine.Reg) (signed : Bool)
    (hd : IsWidth d.width) :
    ∃ s', run l (moveRegReg d r signed) s = some s' ∧
      Assigns (.reg d.id) (convert signed d.width.toNat (s.get (.reg r.id) r.width.toNat)) [] s
      s' := by
  have h8 := hd.le_eight
  unfold moveRegReg
  split
  · rename_i hdr
    have hdr : d = r := by simpa using hdr
    subst hdr
    exact ⟨s, rfl, .refl (convert_self signed _).symm⟩
  · split
    · rename_i hw
      have hw : r.width = d.width := by simpa using hw
      have hread : (Machine.Operand.reg r).readableAt d.width.toNat = true := by
        simp [Machine.Operand.readableAt, hw]
      refine ⟨_, by rw [run_singleton, exec_mov_reg _ _ _ _ hread], ?_⟩
      rw [hw, convert_self]
      exact Machine.assigns_setReg s d.id _ h8 []
    · split
      · rename_i hlt
        refine ⟨_, by rw [run_singleton, exec_extend_reg _ _ _ _ _ hlt], ?_⟩
        exact Machine.assigns_setReg s d.id _ h8 []
      · rename_i hlt
        have hle : d.width.toNat ≤ r.width.toNat := by
          simpa [UInt8.le_iff_toNat_le] using hlt
        rw [convert_get signed s _ hle]
        split
        · have hread : (Machine.Operand.reg ⟨r.id, d.width⟩).readableAt d.width.toNat = true :=
            beq_self_eq_true _
          refine ⟨_, by rw [run_singleton, exec_mov_reg _ _ _ _ hread], ?_⟩
          exact Machine.assigns_setReg s d.id _ h8 []
        · rename_i hid
          have hid : r.id = d.id := by simpa using hid
          rw [hid]
          exact ⟨s, rfl, .refl rfl⟩

theorem run_moveRegMem (l : Linkage) (s : State) (d : Machine.Reg) (m : Machine.Memory)
    (signed : Bool) (hd : IsWidth d.width) :
    ∃ s', run l (moveRegMem d m signed) s = some s' ∧
      Assigns (.reg d.id)
        (convert signed d.width.toNat (s.get (.mem (m.addr.eval l s)) m.width.toNat)) [] s s' := by
  have h8 := hd.le_eight
  unfold moveRegMem
  split
  · rename_i hw
    have hw : m.width = d.width := by simpa using hw
    have hread : (Machine.Operand.mem m).readableAt d.width.toNat = true := by
      simp [Machine.Operand.readableAt, hw]
    refine ⟨_, by rw [run_singleton, exec_mov_reg _ _ _ _ hread], ?_⟩
    rw [hw, convert_self]
    exact Machine.assigns_setReg s d.id _ h8 []
  · split
    · rename_i hlt
      refine ⟨_, by rw [run_singleton, exec_extend_mem _ _ _ _ _ hlt], ?_⟩
      exact Machine.assigns_setReg s d.id _ h8 []
    · rename_i hlt
      have hle : d.width.toNat ≤ m.width.toNat := by
        simpa [UInt8.le_iff_toNat_le] using hlt
      rw [convert_get signed s _ hle]
      refine ⟨_, by rw [run_singleton, exec_mov_reg _ _ _ _
        (by simp [Machine.Operand.readableAt, Machine.Memory.sized])], ?_⟩
      exact Machine.assigns_setReg s d.id _ h8 []

/-- A move into a register brings the source to its width and touches nothing else. -/
theorem run_move_reg (l : Linkage) (s : State) {d : Machine.Reg} {w : UInt8}
    {src : Machine.Operand} {signed : Bool} {code : List Inst} (hd : IsWidth d.width)
    (hsrc : IntOperand w src) (h : move (some (.reg d)) (some src) signed = .ok code) :
    ∃ s', run l code s = some s' ∧
      Assigns (.reg d.id) (convert signed d.width.toNat (src.value l s (sourceWidth src))) [] s
      s' := by
  have h8 := hd.le_eight
  unfold move at h
  cases src with
  | reg r =>
    by_cases hdr : d = r
    · subst hdr
      simp only [sameOperand, beq_self_eq_true, if_true, Except.ok.injEq] at h
      subst h
      exact ⟨s, rfl, .refl (convert_self signed _).symm⟩
    · simp only [sameOperand, beq_iff_eq, hdr, if_false, moveToReg, Except.ok.injEq] at h
      subst h
      exact run_moveRegReg l s d r signed hd
  | mem m =>
    simp only [sameOperand, Bool.false_eq_true, if_false, moveToReg, Except.ok.injEq] at h
    subst h
    exact run_moveRegMem l s d m signed hd
  | imm v =>
    simp only [sameOperand, Bool.false_eq_true, if_false, moveToReg, Except.ok.injEq] at h
    subst h
    refine ⟨_, by rw [run_singleton, exec_mov_reg _ _ _ _ rfl], ?_⟩
    have hv : convert signed d.width.toNat (Machine.Operand.value l s (.imm v) 8) =
        (truncate v d.width).toBitVec.setWidth (8 * d.width.toNat) := by
      rw [convert_of_le signed _ h8, setWidth_truncate v hd]
      exact BitVec.setWidth_setWidth_of_le _ (by omega)
    simp only [sourceWidth, hv]
    exact Machine.assigns_setReg s d.id _ h8 []
  | xmm x => exact absurd hsrc (by simp [IntOperand])
  | target t => exact absurd hsrc (by simp [IntOperand])

/-! ## Moves into memory -/

/-- What was brought into the scratch register is stored. -/
theorem run_store_scratch {l : Linkage} {s s1 : State} {load : List Inst} {d : Machine.Memory}
    {v : BitVec (8 * d.width.toNat)} (hd : IsWidth d.width)
    (hu : addressUses Machine.r11 d.addr = false) (hload : run l load s = some s1)
    (h : Assigns (.reg Machine.r11) v [] s s1) :
    ∃ s', run l (load ++ [two .mov (.mem d) (.reg (r11 d.width))]) s = some s' ∧
      Assigns (.mem (d.addr.eval l s)) v [Machine.r11] s s' := by
  have hmov := exec_mov_mem_reg l s1 d (r11 d.width) rfl
  have hval : s1.get (.reg (r11 d.width).id) d.width.toNat = v := h.value
  have haddr : d.addr.eval l s1 = d.addr.eval l s :=
    eval_of_not_uses d.addr hu fun r hr => h.regs r (by simpa using fun e => hr e.symm) (by simp)
  rw [hval, haddr] at hmov
  refine ⟨_, by rw [run_append_of_some hload, run_singleton, hmov], ?_⟩
  exact h.after_scratch (Machine.assigns_store s1 _ v hd.le_eight _) (by simp)

theorem run_moveMemReg (l : Linkage) (s : State) (d : Machine.Memory) (r : Machine.Reg)
    (signed : Bool) (hd : IsWidth d.width) (hu : addressUses Machine.r11 d.addr = false) :
    ∃ s', run l (moveMemReg d r signed) s = some s' ∧
      Assigns (.mem (d.addr.eval l s))
        (convert signed d.width.toNat (s.get (.reg r.id) r.width.toNat)) [Machine.r11] s s' := by
  unfold moveMemReg
  split
  · rename_i hge
    have hle : d.width.toNat ≤ r.width.toNat := by
      simpa [UInt8.le_iff_toNat_le] using hge
    rw [convert_get signed s _ hle]
    refine ⟨_, by rw [run_singleton, exec_mov_mem_reg _ _ _ _ rfl], ?_⟩
    exact Machine.assigns_store s _ _ hd.le_eight _
  · rename_i hge
    have hlt : r.width < d.width := by simpa using hge
    have hload := run_singleton l (extend (r11 d.width) (.reg r) signed) s
    rw [exec_extend_reg l s (r11 d.width) r signed hlt] at hload
    exact run_store_scratch hd hu hload (Machine.assigns_setReg s _ _ hd.le_eight [])

theorem fitsInt32_iff (v : Int64) :
    Machine.fitsInt32 v = true ↔ -2147483648 ≤ v.toInt ∧ v.toInt ≤ 2147483647 := by
  have hlo : (-2147483648 : Int64).toInt = -2147483648 := by decide
  have hhi : (2147483647 : Int64).toInt = 2147483647 := by decide
  simp only [Machine.fitsInt32, Bool.and_eq_true, decide_eq_true_eq, Int64.le_iff_toInt_le,
    hlo, hhi]

/-- A word that does not fit 32 bits after its truncation is a whole one. -/
theorem width_of_not_fits {v : Int64} {w : UInt8} (hw : IsWidth w)
    (h : Machine.fitsInt32 (truncate v w) ≠ true) : w = 8 := by
  rw [Ne, fitsInt32_iff] at h
  rcases hw with rfl | rfl | rfl | rfl
  · have ht : (truncate v 1).toInt = v.toInt8.toInt := Int8.toInt_toInt64 _
    have h1 := Int8.le_toInt v.toInt8
    have h2 := Int8.toInt_lt v.toInt8
    omega
  · have ht : (truncate v 2).toInt = v.toInt16.toInt := Int16.toInt_toInt64 _
    have h1 := Int16.le_toInt v.toInt16
    have h2 := Int16.toInt_lt v.toInt16
    omega
  · have ht : (truncate v 4).toInt = v.toInt32.toInt := Int32.toInt_toInt64 _
    have h1 := Int32.le_toInt v.toInt32
    have h2 := Int32.toInt_lt v.toInt32
    omega
  · rfl

/-- A move into memory stores the source at the width of the memory. -/
theorem run_move_mem (l : Linkage) (s : State) {d : Machine.Memory} {w : UInt8}
    {src : Machine.Operand} {signed : Bool} {code : List Inst} (hd : IsWidth d.width)
    (hu : addressUses Machine.r11 d.addr = false) (hsrc : IntOperand w src)
    (h : move (some (.mem d)) (some src) signed = .ok code) :
    ∃ s', run l code s = some s' ∧
      Assigns (.mem (d.addr.eval l s))
        (convert signed d.width.toNat (src.value l s (sourceWidth src))) [Machine.r11] s s' := by
  unfold move at h
  cases src with
  | reg r =>
    simp only [sameOperand, Bool.false_eq_true, if_false, moveToMem, Except.ok.injEq] at h
    subst h
    exact run_moveMemReg l s d r signed hd hu
  | mem m =>
    by_cases hdm : d = m
    · subst hdm
      simp only [sameOperand, beq_self_eq_true, if_true, Except.ok.injEq] at h
      subst h
      exact ⟨s, rfl, .refl (convert_self signed _).symm⟩
    · simp only [sameOperand, beq_iff_eq, hdm, if_false, moveToMem, Except.ok.injEq] at h
      subst h
      obtain ⟨s1, hload, h1⟩ := run_moveRegMem l s (r11 d.width) m signed hd
      exact run_store_scratch hd hu hload h1
  | imm v =>
    have hv : convert signed d.width.toNat (Machine.Operand.value l s (.imm v) 8) =
        v.toBitVec.setWidth (8 * d.width.toNat) := by
      rw [convert_of_le signed _ hd.le_eight]
      exact BitVec.setWidth_setWidth_of_le _ (by have := hd.le_eight; omega)
    simp only [sameOperand, Bool.false_eq_true, if_false, moveToMem, Except.ok.injEq] at h
    simp only [sourceWidth, hv]
    by_cases hfit : Machine.fitsInt32 (truncate v d.width) = true
    · simp only [hfit, if_true] at h
      subst h
      refine ⟨_, by rw [run_singleton, exec_mov_mem_imm], ?_⟩
      rw [setWidth_truncate v hd]
      exact Machine.assigns_store s _ _ hd.le_eight _
    · -- Only a whole word can be too wide for a store, so the scratch register holds all of it.
      have h8 := width_of_not_fits hd hfit
      simp only [hfit, if_false, Bool.false_eq_true] at h
      subst h
      have hload := run_singleton l (two .mov (.reg (r11 d.width)) (.imm v)) s
      rw [exec_mov_reg l s (r11 d.width) (.imm v) rfl] at hload
      have hst := run_store_scratch hd hu hload (Machine.assigns_setReg s _ _ hd.le_eight [])
      rw [h8] at hst ⊢
      exact hst
  | xmm x => exact absurd hsrc (by simp [IntOperand])
  | target t => exact absurd hsrc (by simp [IntOperand])

/-! ## Moves -/

/-- A move leaves the source, cut or extended, in the destination. -/
theorem run_move (l : Linkage) (s : State) {wd ws : UInt8} {d src : Machine.Operand}
    {signed : Bool} {code : List Inst} (hw : IsWidth wd) (hd : IntOperand wd d)
    (hu : usesReg Machine.r11 d = false) (hsrc : IntOperand ws src)
    (h : move (some d) (some src) signed = .ok code) :
    ∃ p s', d.place? l s = some p ∧ run l code s = some s' ∧
      Assigns p (convert signed wd.toNat (src.value l s (sourceWidth src))) [Machine.r11] s s' := by
  cases d with
  | reg r =>
    have hr : r.width = wd := hd
    subst hr
    obtain ⟨s', hrun, ha⟩ := run_move_reg l s hw hsrc h
    exact ⟨_, s', rfl, hrun, ha.weaken⟩
  | mem m =>
    have hm : m.width = wd := hd
    subst hm
    obtain ⟨s', hrun, ha⟩ := run_move_mem l s hw (by simpa [usesReg, clobbers] using hu) hsrc h
    exact ⟨_, s', rfl, hrun, ha⟩
  | imm v => simp [move, sameOperand] at h
  | xmm x => exact absurd hd (by simp [IntOperand])
  | target t => exact absurd hd (by simp [IntOperand])

end Backend.Selection
