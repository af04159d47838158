-- Which instructions have machine code: for each family, operands that its encoding takes. The
-- range of an immediate depends on the width; addresses have limits of their own.
import Backend.Proofs.Machine.Decoding.Forms

namespace Backend.Machine

/-! ## Operands -/

/-- The address has addressing bytes. -/
def Address.Encodes (a : Address) : Prop := ∃ fields, memoryFields a = .ok fields

/-- The instruction has machine code. -/
def Inst.Encodes (i : Inst) : Prop := ∃ e, i.encode = .ok e

/-- An operand with an integer width, if it has one, and an address that can be encoded. -/
def Operand.Sound : Operand → Prop
  | .reg r => IsWidth r.width
  | .xmm x => IsWidth x.width
  | .mem m => IsWidth m.width ∧ m.addr.Encodes
  | .imm _ | .target _ => True

/-- The operand can be in an r/m field. -/
def FitsRm : Option Operand → Prop
  | some (.reg _) | some (.xmm _) => True
  | some (.mem m) => m.addr.Encodes
  | _ => False

/-- A general purpose register or memory, of the width. -/
def Operand.IsGprOrMem (w : UInt8) : Operand → Prop
  | .reg r => r.width = w
  | .mem m => m.width = w ∧ m.addr.Encodes
  | _ => False

/-- An SSE register or memory. -/
def Operand.IsXmmOrMem : Operand → Prop
  | .xmm _ => True
  | .mem m => m.addr.Encodes
  | _ => False

/-- The value is in the signed range of the width. Eight-byte operands have immediates of four. -/
def Fits (w : UInt8) (v : Int64) : Prop :=
  if w = 1 then fitsInt8 v = true
  else if w = 2 then -32768 ≤ v ∧ v ≤ 32767
  else fitsInt32 v = true

theorem Operand.IsGprOrMem.fitsRm {w : UInt8} {o : Operand} (h : o.IsGprOrMem w) :
    FitsRm (some o) := by
  cases o with
  | reg r => trivial
  | mem m => exact h.2
  | xmm x | imm v | target t => exact absurd h id

theorem Operand.IsXmmOrMem.fitsRm {o : Operand} (h : o.IsXmmOrMem) : FitsRm (some o) := by
  cases o with
  | xmm x => trivial
  | mem m => exact h
  | reg r | imm v | target t => exact absurd h id

theorem Operand.IsGprOrMem.gprWidth {w : UInt8} {o : Operand} (h : o.IsGprOrMem w) :
    gprWidth (some o) = .ok w := by
  cases o with
  | reg r =>
    obtain rfl := h
    rfl
  | mem m =>
    obtain ⟨rfl, -⟩ := h
    rfl
  | xmm x | imm v | target t => exact absurd h id

theorem Operand.IsXmmOrMem.xmmWidth {o : Operand} (h : o.IsXmmOrMem) :
    ∃ w, xmmWidth (some o) = .ok w := by
  cases o with
  | xmm x => exact ⟨_, rfl⟩
  | mem m => exact ⟨_, rfl⟩
  | reg r | imm v | target t => exact absurd h id

/-! ## Addresses -/

/-- The factors an index is scaled with. -/
def IsScale (scale : UInt8) : Prop := scale = 1 ∨ scale = 2 ∨ scale = 4 ∨ scale = 8

theorem exists_checkIndex {r : Reg} {scale : UInt8} (hw : r.width = 8) (hid : r.id ≠ rsp)
    (hs : IsScale scale) : ∃ bits, checkIndex r scale = .ok bits := by
  unfold checkIndex
  rw [if_neg (by simp [hw]), if_neg (by simpa using hid)]
  rcases hs with rfl | rfl | rfl | rfl <;> exact ⟨_, rfl⟩

/-- Whole registers make an address, unless the index is rsp. -/
theorem Address.encodes_regs {base : Option Reg} {index : Option (Reg × UInt8)} {disp : Int32}
    (hb : ∀ r, base = some r → r.width = 8)
    (hi : ∀ r scale, index = some (r, scale) → r.width = 8 ∧ r.id ≠ rsp ∧ IsScale scale)
    (h : base ≠ none ∨ index ≠ none) : (Address.regs base index disp).Encodes := by
  unfold Address.Encodes
  cases index with
  | none =>
    cases base with
    | none => exact absurd h (by simp)
    | some b =>
      simp only [memoryFields, bne_iff_ne, hb b rfl, ne_eq, not_true_eq_false, if_false, bind,
        Except.bind]
      split
      · exact ⟨_, rfl⟩
      · exact ⟨_, rfl⟩
  | some p =>
    obtain ⟨r, scale⟩ := p
    obtain ⟨hw, hid, hs⟩ := hi r scale rfl
    obtain ⟨bits, hbits⟩ := exists_checkIndex hw hid hs
    cases base with
    | none =>
      simp only [memoryFields, hbits]
      exact ⟨_, rfl⟩
    | some b =>
      simp only [memoryFields, bne_iff_ne, hb b rfl, ne_eq, not_true_eq_false, if_false, hbits]
      exact ⟨_, rfl⟩

theorem Address.encodes_rip {symbol : String} (h : symbol ≠ "") : (Address.rip symbol).Encodes :=
  ⟨_, if_neg (by simpa using h)⟩

theorem Address.encodes_tls {symbol : String} (h : symbol ≠ "") : (Address.tls symbol).Encodes :=
  ⟨_, if_neg (by simpa using h)⟩

/-! ## Immediates -/

theorem exists_immBytes {w : UInt8} {v : Int64} (h : Fits w v) :
    ∃ bytes, immBytes w v = .ok bytes := by
  unfold Fits at h
  unfold immBytes
  by_cases h1 : w = 1
  · subst h1
    rw [if_pos rfl] at h
    simp only [fitsInt8, Bool.and_eq_true, decide_eq_true_eq, Int64.le_iff_toInt_le] at h
    rw [if_pos (beq_self_eq_true _), if_neg]
    · exact ⟨_, rfl⟩
    · simp only [Bool.or_eq_true, decide_eq_true_eq, Int64.lt_iff_toInt_lt, not_or, not_lt]
      have h255 : (255 : Int64).toInt = 255 := rfl
      have h127 : (127 : Int64).toInt = 127 := rfl
      omega
  · rw [if_neg h1] at h
    rw [if_neg (by simpa using h1)]
    by_cases h2 : w = 2
    · subst h2
      rw [if_pos rfl] at h
      simp only [Int64.le_iff_toInt_le] at h
      rw [if_pos (beq_self_eq_true _), if_neg]
      · exact ⟨_, rfl⟩
      · simp only [Bool.or_eq_true, decide_eq_true_eq, Int64.lt_iff_toInt_lt, not_or, not_lt]
        have hmax : (65535 : Int64).toInt = 65535 := rfl
        have h32767 : (32767 : Int64).toInt = 32767 := rfl
        omega
    · rw [if_neg h2] at h
      rw [if_neg (by simpa using h2), if_pos h]
      exact ⟨_, rfl⟩

/-! ## Forms -/

theorem ModrmForm.exists_encode (f : ModrmForm) (h : FitsRm f.rm) : ∃ e, f.encode = .ok e := by
  unfold ModrmForm.encode
  cases hrm : f.rm with
  | none =>
    rw [hrm] at h
    exact h.elim
  | some o =>
    rw [hrm] at h
    cases o with
    | reg r => exact ⟨_, rfl⟩
    | xmm x => exact ⟨_, rfl⟩
    | mem m =>
      obtain ⟨fields, hfields⟩ := h
      simp only [hfields]
      exact ⟨_, rfl⟩
    | _ => exact h.elim

theorem VexForm.exists_encode {f : VexForm} {o : Operand} (hrm : f.rm = some o) (h : o.IsXmmOrMem) :
    ∃ e, f.encode = .ok e := by
  unfold VexForm.encode
  rw [hrm]
  cases o with
  | xmm x => exact ⟨_, rfl⟩
  | mem m =>
    obtain ⟨fields, hfields⟩ := h
    simp only [hfields]
    exact ⟨_, rfl⟩
  | reg r | imm v | target t => exact absurd h id

section Families

variable {cond : Cond} {src src2 : Option Operand} {o : Operand} {d s : Reg} {x y : Xmm}
  {m : Memory} {v : Int64}

/-! ## Integer instructions -/

theorem encodes_mov_reg_reg (h : s.width = d.width) :
    (Inst.op .mov cond (some (.reg d)) (some (.reg s)) src2).Encodes := by
  have hcheck : checkWidth s d.width = .ok () := by simp [checkWidth, h]
  simp only [Inst.Encodes, Inst.encode, encodeMov, hcheck, bind, Except.bind]
  exact ModrmForm.exists_encode _ trivial

theorem encodes_mov_reg_mem (h : m.addr.Encodes) :
    (Inst.op .mov cond (some (.reg d)) (some (.mem m)) src2).Encodes := by
  simp only [Inst.Encodes, Inst.encode, encodeMov]
  exact ModrmForm.exists_encode _ h

theorem encodes_mov_mem_reg (h : m.addr.Encodes) :
    (Inst.op .mov cond (some (.mem m)) (some (.reg s)) src2).Encodes := by
  simp only [Inst.Encodes, Inst.encode, encodeMov]
  exact ModrmForm.exists_encode _ h

theorem encodes_mov_mem_imm (h : m.addr.Encodes) (hv : Fits m.width v) :
    (Inst.op .mov cond (some (.mem m)) (some (.imm v)) src2).Encodes := by
  obtain ⟨bytes, hbytes⟩ := exists_immBytes hv
  simp only [Inst.Encodes, Inst.encode, encodeMov, hbytes, bind, Except.bind]
  exact ModrmForm.exists_encode _ h

/-- A whole register takes any immediate. -/
theorem encodes_mov_reg_imm (hw : IsWidth d.width) (hv : d.width = 8 ∨ Fits d.width v) :
    (Inst.op .mov cond (some (.reg d)) (some (.imm v)) src2).Encodes := by
  simp only [Inst.Encodes, Inst.encode, encodeMov, encodeMovImmediate]
  split
  · exact ModrmForm.exists_encode _ trivial
  rcases hw with hw | hw | hw | hw
  · obtain ⟨bytes, hbytes⟩ := exists_immBytes (hv.resolve_left (by simp [hw]))
    rw [hw] at hbytes
    simp [hw, hbytes, bind, Except.bind]
  · obtain ⟨bytes, hbytes⟩ := exists_immBytes (hv.resolve_left (by simp [hw]))
    rw [hw] at hbytes
    simp [hw, hbytes, bind, Except.bind]
  · have hfits := hv.resolve_left (by simp [hw])
    simp only [Fits, hw, fitsInt32, Int64.le_iff_toInt_le, Bool.and_eq_true,
      decide_eq_true_eq] at hfits
    have hrange : ¬ (v < -2147483648 ∨ v > 4294967295) := by
      have hmin : (-2147483648 : Int64).toInt = -2147483648 := rfl
      have hmax : (2147483647 : Int64).toInt = 2147483647 := rfl
      have hword : (4294967295 : Int64).toInt = 4294967295 := rfl
      simp only [GT.gt, Int64.lt_iff_toInt_lt]
      simp at hfits
      omega
    simp [hw, hrange]
  · simp [hw]

/-- Extension into a wider register. -/
theorem encodes_extend {signed : Bool} {w : UInt8} (ho : o.IsGprOrMem w) (h : w < d.width) :
    (Inst.op (if signed then .movsx else .movzx) cond (some (.reg d)) (some o) src2).Encodes := by
  have hle : ¬ d.width ≤ w := by simpa using h
  have hextend : ∃ e, encodeExtend signed d (some o) = .ok e := by
    simp only [encodeExtend, ho.gprWidth, bind, Except.bind, hle, if_false]
    split
    · exact ModrmForm.exists_encode _ ho.fitsRm
    split
    · rename_i hfour
      obtain rfl : w = 4 := by simpa using hfour
      cases o with
      | reg r => exact @encodes_mov_reg_reg cond src2 ⟨d.id, 4⟩ r ho
      | mem m => exact @encodes_mov_reg_mem cond src2 ⟨d.id, 4⟩ m ho.2
      | xmm x | imm v | target t => exact absurd ho id
    split
    · exact ModrmForm.exists_encode _ ho.fitsRm
    · exact ModrmForm.exists_encode _ ho.fitsRm
  cases signed with
  | false => exact hextend
  | true => exact hextend

/-- The arithmetic instructions with two operands. -/
def Op.isAlu : Op → Bool
  | .add | .or | .and | .sub | .xor | .cmp => true
  | _ => false

/-- The source of a two-operand instruction of a width. -/
def Operand.IsAluSource (w : UInt8) : Operand → Prop
  | .imm v => Fits w v
  | o => o.IsGprOrMem w

/-- Arithmetic on a register or memory, where one operand at most is in memory. -/
theorem encodes_alu {op : Op} (hop : op.isAlu = true) {w : UInt8} {dst src : Operand}
    (hdst : dst.IsGprOrMem w) (hsrc : src.IsAluSource w)
    (hone : (∃ r, dst = .reg r) ∨ ∀ m, src ≠ .mem m) :
    (Inst.op op cond (some dst) (some src) src2).Encodes := by
  have halu : ∃ e, encodeAlu op (some dst) (some src) = .ok e := by
    simp only [encodeAlu, hdst.gprWidth, bind, Except.bind]
    cases src with
    | reg r =>
      have hcheck : checkWidth r w = .ok () := by
        obtain rfl := hsrc
        simp [checkWidth]
      simp only [hcheck]
      exact ModrmForm.exists_encode _ hdst.fitsRm
    | mem m =>
      obtain ⟨r, rfl⟩ := hone.resolve_right fun h => h m rfl
      refine ModrmForm.exists_encode _ ?_
      exact hsrc.2
    | imm v =>
      obtain ⟨bytes, hbytes⟩ := exists_immBytes hsrc
      dsimp only
      split
      · rename_i hone
        obtain rfl : w = 1 := by simpa using hone
        simp only [hbytes]
        exact ModrmForm.exists_encode _ hdst.fitsRm
      split
      · exact ModrmForm.exists_encode _ hdst.fitsRm
      · simp only [hbytes]
        exact ModrmForm.exists_encode _ hdst.fitsRm
    | xmm x | target t => exact absurd hsrc id
  cases op <;> first | exact halu | cases hop

theorem encodes_imul (hw : d.width ≠ 1) (h : FitsRm src) :
    (Inst.op .imul cond (some (.reg d)) src none).Encodes := by
  simp only [Inst.Encodes, Inst.encode, encodeImul, beq_iff_eq, hw, if_false]
  exact ModrmForm.exists_encode _ h

theorem encodes_imul_imm (hw : d.width ≠ 1) (h : FitsRm src) (hv : Fits d.width v) :
    (Inst.op .imul cond (some (.reg d)) src (some (.imm v))).Encodes := by
  obtain ⟨bytes, hbytes⟩ := exists_immBytes hv
  simp only [Inst.Encodes, Inst.encode, encodeImul, beq_iff_eq, hw, if_false]
  split
  · exact ModrmForm.exists_encode _ h
  · simp only [hbytes, bind, Except.bind]
    exact ModrmForm.exists_encode _ h

/-- The instructions with one integer operand. -/
theorem encodes_unary {op : Op} (hop : op = .neg ∨ op = .not ∨ op = .div ∨ op = .idiv) {w : UInt8}
    (ho : o.IsGprOrMem w) : (Inst.op op cond (some o) src src2).Encodes := by
  have hunary : ∃ e, encodeUnary op (some o) = .ok e := by
    simp only [encodeUnary, ho.gprWidth, bind, Except.bind]
    exact ModrmForm.exists_encode _ ho.fitsRm
  rcases hop with rfl | rfl | rfl | rfl <;> exact hunary

theorem encodes_cqo (h : d.width = 4 ∨ d.width = 8) :
    (Inst.op .cqo cond (some (.reg d)) src src2).Encodes := by
  rcases h with h | h <;> simp [Inst.Encodes, Inst.encode, h]

/-- The count of a shift: an immediate below 64 or cl. -/
def IsCount (count : Operand) : Prop :=
  (∃ n, count = .imm n ∧ 0 ≤ n ∧ n ≤ 63) ∨ count = .reg ⟨rcx, 1⟩

theorem encodes_shift {op : Op} (hop : op = .shl ∨ op = .shr ∨ op = .sar) {w : UInt8}
    (ho : o.IsGprOrMem w) {count : Operand} (hcount : IsCount count) :
    (Inst.op op cond (some o) (some count) src2).Encodes := by
  have hshift : ∃ e, encodeShift op (some o) (some count) = .ok e := by
    simp only [encodeShift, ho.gprWidth, bind, Except.bind]
    rcases hcount with ⟨n, rfl, hlow, hhigh⟩ | rfl
    · have hrange : ¬ (n < 0 ∨ n > 63) := by
        simp only [GT.gt, Int64.lt_iff_toInt_lt, Int64.le_iff_toInt_le] at hlow hhigh ⊢
        omega
      simp only [Bool.or_eq_true, decide_eq_true_eq, hrange, if_false]
      exact ModrmForm.exists_encode _ ho.fitsRm
    · exact ModrmForm.exists_encode _ ho.fitsRm
  rcases hop with rfl | rfl | rfl <;> exact hshift

theorem encodes_btc : (Inst.op .btc cond (some (.reg d)) (some (.imm v)) src2).Encodes := by
  simp only [Inst.Encodes, Inst.encode, gprWidth, Inst.gprWidth?, bind, Except.bind]
  exact ModrmForm.exists_encode _ trivial

theorem encodes_setcc (ho : o.IsGprOrMem 1) : (Inst.op .setcc cond (some o) src src2).Encodes := by
  simp only [Inst.Encodes, Inst.encode, ho.gprWidth, bind, Except.bind]
  exact ModrmForm.exists_encode _ ho.fitsRm

theorem encodes_lea (hw : 4 ≤ d.width) (h : m.addr.Encodes) :
    (Inst.op .lea cond (some (.reg d)) (some (.mem m)) src2).Encodes := by
  have hwide : ¬ d.width < 4 := by simpa using hw
  simp only [Inst.Encodes, Inst.encode, hwide, if_false]
  exact ModrmForm.exists_encode _ h

theorem encodes_push_reg (h : d.width = 8) :
    (Inst.op .push cond (some (.reg d)) src src2).Encodes := by
  simp [Inst.Encodes, Inst.encode, encodePushPop, checkWidth, h, bind, Except.bind]

theorem encodes_pop_reg (h : d.width = 8) :
    (Inst.op .pop cond (some (.reg d)) src src2).Encodes := by
  simp [Inst.Encodes, Inst.encode, encodePushPop, checkWidth, h, bind, Except.bind]

theorem encodes_push_mem (h : m.addr.Encodes) :
    (Inst.op .push cond (some (.mem m)) src src2).Encodes := by
  simp only [Inst.Encodes, Inst.encode, encodePushPop]
  exact ModrmForm.exists_encode _ h

theorem encodes_pop_mem (h : m.addr.Encodes) :
    (Inst.op .pop cond (some (.mem m)) src src2).Encodes := by
  simp only [Inst.Encodes, Inst.encode, encodePushPop]
  exact ModrmForm.exists_encode _ h

theorem encodes_push_imm (h : fitsInt32 v = true) :
    (Inst.op .push cond (some (.imm v)) src src2).Encodes := by
  obtain ⟨bytes, hbytes⟩ := exists_immBytes (show Fits 4 v from h)
  simp only [Inst.Encodes, Inst.encode, encodePushPop, hbytes, bind, Except.bind]
  split
  · exact ⟨_, rfl⟩
  · exact ⟨_, rfl⟩

theorem encodes_call_reg (h : d.width = 8) :
    (Inst.op .call cond (some (.reg d)) src src2).Encodes := by
  simp only [Inst.Encodes, Inst.encode, encodeIndirect, checkWidth, h, beq_self_eq_true, if_true,
    bind, Except.bind]
  exact ModrmForm.exists_encode _ trivial

/-! ## Float instructions -/

theorem encodes_movs_xmm (ho : o.IsXmmOrMem) :
    (Inst.op .movs cond (some (.xmm x)) (some o) src2).Encodes :=
  ModrmForm.exists_encode _ ho.fitsRm

theorem encodes_movs_mem (h : m.addr.Encodes) :
    (Inst.op .movs cond (some (.mem m)) (some (.xmm x)) src2).Encodes := by
  simp only [Inst.Encodes, Inst.encode, encodeScalar, encodeMovs, scalarForm]
  exact ModrmForm.exists_encode _ h

theorem encodes_movq_xmm_reg :
    (Inst.op .movq cond (some (.xmm x)) (some (.reg s)) src2).Encodes := by
  simp only [Inst.Encodes, Inst.encode, encodeScalar, encodeMovq, scalarForm, gprWidth,
    Inst.gprWidth?, bind, Except.bind]
  exact ModrmForm.exists_encode _ trivial

theorem encodes_movq_reg_xmm :
    (Inst.op .movq cond (some (.reg d)) (some (.xmm x)) src2).Encodes := by
  simp only [Inst.Encodes, Inst.encode, encodeScalar, encodeMovq, scalarForm, gprWidth,
    Inst.gprWidth?, bind, Except.bind]
  exact ModrmForm.exists_encode _ trivial

/-- The instructions from an SSE register or memory to an SSE register. -/
def Op.isScalar : Op → Bool
  | .adds | .subs | .muls | .divs | .ucomis | .xorps | .cvts2s => true
  | _ => false

theorem encodes_scalar {op : Op} (hop : op.isScalar = true) (ho : o.IsXmmOrMem) :
    (Inst.op op cond (some (.xmm x)) (some o) src2).Encodes := by
  obtain ⟨w, hw⟩ := ho.xmmWidth
  cases op with
  | adds | subs | muls | divs | ucomis | xorps => exact ModrmForm.exists_encode _ ho.fitsRm
  | cvts2s =>
    simp only [Inst.Encodes, Inst.encode, encodeScalar, hw, bind, Except.bind]
    exact ModrmForm.exists_encode _ ho.fitsRm
  | _ => cases hop

theorem encodes_cvtsi2s {w : UInt8} (ho : o.IsGprOrMem w) (hw : 4 ≤ w) :
    (Inst.op .cvtsi2s cond (some (.xmm x)) (some o) src2).Encodes := by
  have hwide : ¬ w < 4 := by simpa using hw
  simp only [Inst.Encodes, Inst.encode, encodeScalar, ho.gprWidth, bind, Except.bind, hwide,
    if_false]
  exact ModrmForm.exists_encode _ ho.fitsRm

theorem encodes_cvtts2si (ho : o.IsXmmOrMem) (hw : 4 ≤ d.width) :
    (Inst.op .cvtts2si cond (some (.reg d)) (some o) src2).Encodes := by
  obtain ⟨w, hxmm⟩ := ho.xmmWidth
  have hwide : ¬ d.width < 4 := by simpa using hw
  simp only [Inst.Encodes, Inst.encode, encodeScalar, hxmm, bind, Except.bind, hwide, if_false]
  exact ModrmForm.exists_encode _ ho.fitsRm

theorem encodes_fma {op : Op} (hop : op = .vfmadd231 ∨ op = .vfmsub231 ∨ op = .vfnmadd231)
    (ho : o.IsXmmOrMem) : (Inst.op op cond (some (.xmm x)) (some (.xmm y)) (some o)).Encodes := by
  have hfma : ∃ e, encodeFma op (some (.xmm x)) (some (.xmm y)) (some o) = .ok e :=
    VexForm.exists_encode rfl ho
  rcases hop with rfl | rfl | rfl <;> exact hfma

end Families

end Backend.Machine
