-- Decoding forms by the places of their operands, for every width: a register and a register or
-- memory operand in either order, with an immediate or without.
import Backend.Proofs.Machine.Decoding

namespace Backend.Machine

open Decoder

/-! ## Operands -/

/-- The widths of integer operands. -/
def IsWidth (w : UInt8) : Prop := w = 1 ∨ w = 2 ∨ w = 4 ∨ w = 8

namespace Operand

/-- A general purpose register of the width. -/
def IsReg (w : UInt8) : Operand → Prop
  | .reg r => r.id.toNat < 16 ∧ r.width = w
  | _ => False

/-- An SSE register of the width. -/
def IsXmm (w : UInt8) : Operand → Prop
  | .xmm x => x.id.toNat < 16 ∧ x.width = w
  | _ => False

/-- Memory that is accessed at the width. -/
def IsMem (w : UInt8) : Operand → Prop
  | .mem m => m.addr.Valid ∧ m.width = w
  | _ => False

/-- A general purpose register or memory of the width. -/
def IsRm (w : UInt8) (o : Operand) : Prop := o.IsReg w ∨ o.IsMem w

/-- An SSE register or memory of the width. -/
def IsXrm (w : UInt8) (o : Operand) : Prop := o.IsXmm w ∨ o.IsMem w

/-- What an operand is decoded to when a symbolic displacement holds `d`; an immediate counts
modulo the range of a width. -/
def view (d : Int) (w : UInt8) : Operand → Decoder.Operand
  | .reg r => .reg r
  | .xmm x => .xmm x
  | .mem m => .mem m.addr.isTls (m.addr.view d) m.width
  | .imm value => .imm (value.toInt % 256 ^ w.toNat)
  | .target _ => .rel d

theorem IsReg.eq {w : UInt8} {o : Operand} (h : o.IsReg w) :
    ∃ r : Reg, o = .reg r ∧ r.id.toNat < 16 ∧ r.width = w := by
  cases o with
  | reg r => exact ⟨r, rfl, h⟩
  | xmm x | mem m | imm value | target t => exact absurd h id

theorem IsXmm.eq {w : UInt8} {o : Operand} (h : o.IsXmm w) :
    ∃ x : Xmm, o = .xmm x ∧ x.id.toNat < 16 ∧ x.width = w := by
  cases o with
  | xmm x => exact ⟨x, rfl, h⟩
  | reg r | mem m | imm value | target t => exact absurd h id

theorem IsMem.eq {w : UInt8} {o : Operand} (h : o.IsMem w) :
    ∃ m : Memory, o = .mem m ∧ m.addr.Valid ∧ m.width = w := by
  cases o with
  | mem m => exact ⟨m, rfl, h⟩
  | reg r | xmm x | imm value | target t => exact absurd h id

theorem IsRm.valid {w : UInt8} {o : Operand} (h : o.IsRm w) : o.ValidRm := by
  rcases h with h | h
  · obtain ⟨r, rfl, hid, -⟩ := h.eq
    exact hid
  · obtain ⟨m, rfl, hm, -⟩ := h.eq
    exact hm

theorem IsXrm.valid {w : UInt8} {o : Operand} (h : o.IsXrm w) : o.ValidRm := by
  rcases h with h | h
  · obtain ⟨x, rfl, hid, -⟩ := h.eq
    exact hid
  · obtain ⟨m, rfl, hm, -⟩ := h.eq
    exact hm

end Operand

/-! ## Slots -/

theorem gpr?_eq {c : Context} {r : Reg} (h : r.needsBytePrefix = true → c.hasRex = true) :
    gpr? c r.id r.width = some (.reg r) := by
  unfold gpr?
  split
  · rename_i hbyte
    simp only [Bool.and_eq_true, Bool.not_eq_true'] at hbyte
    have hrex := h (by simp only [Reg.needsBytePrefix, Bool.and_eq_true]; exact hbyte.1)
    simp [hrex] at hbyte
  · rfl

section

variable {c : Context} {o : Operand} {w reg vvvv : UInt8} {v : UInt32}

/-- Reading the register of the reg field. -/
theorem read_reg {r : Reg} (h : r.needsBytePrefix = true → c.hasRex = true) (rm : Option Rm)
    (bytes : List UInt8) :
    (Slot.reg r.width).read c ⟨r.id, rm, vvvv⟩ bytes = some (.reg r, bytes) := by
  simp only [Slot.read, gpr?_eq h, Option.map_some]

theorem read_xreg (rm : Option Rm) (bytes : List UInt8) :
    (Slot.xreg w).read c ⟨reg, rm, vvvv⟩ bytes = some (.xmm ⟨reg, w⟩, bytes) := rfl

theorem read_vreg (rm : Option Rm) (bytes : List UInt8) :
    (Slot.vreg w).read c ⟨reg, rm, vvvv⟩ bytes = some (.xmm ⟨vvvv, w⟩, bytes) := rfl

/-- Reading the general purpose register or memory of the rm field. -/
theorem read_rm (ho : o.IsRm w) (hfs : c.fs = o.isTls)
    (hbyte : ∀ r, o = .reg r → r.needsBytePrefix = true → c.hasRex = true) (k : UInt8)
    (bytes : List UInt8) :
    (Slot.rm w).read c ⟨reg, some (o.rm v), vvvv⟩ bytes =
      some (o.view v.toInt32.toInt k, bytes) := by
  rcases ho with ho | ho
  · obtain ⟨r, rfl, -, rfl⟩ := ho.eq
    simp only [Slot.read, Operand.rm, gpr?_eq (hbyte r rfl), Option.map_some, Operand.view]
  · obtain ⟨m, rfl, -, rfl⟩ := ho.eq
    simp only [Slot.read, Operand.rm, hfs, Operand.isTls, Operand.view]

/-- Reading the SSE register or memory of the rm field. -/
theorem read_xrm (ho : o.IsXrm w) (hfs : c.fs = o.isTls) (k : UInt8) (bytes : List UInt8) :
    (Slot.xrm w).read c ⟨reg, some (o.rm v), vvvv⟩ bytes =
      some (o.view v.toInt32.toInt k, bytes) := by
  rcases ho with ho | ho
  · obtain ⟨x, rfl, -, rfl⟩ := ho.eq
    simp only [Slot.read, Operand.rm, Operand.view]
  · obtain ⟨m, rfl, -, rfl⟩ := ho.eq
    simp only [Slot.read, Operand.rm, hfs, Operand.isTls, Operand.view]

end

/-! ## Immediates -/

/-- The sign-extended field is the value modulo the range of the width. -/
def Holds (field : List UInt8) (w : UInt8) (value : Int64) : Prop :=
  ((leNat field : Int).bmod (256 ^ field.length)) % 256 ^ w.toNat = value.toInt % 256 ^ w.toNat

theorem read_imm {field : List UInt8} {n : Nat} (hn : field.length = n) {w : UInt8} {value : Int64}
    (h : Holds field w value) (c : Context) (f : Fields) (d : Int) (rest : List UInt8) :
    (Slot.imm n w).read c f (field ++ rest) = some ((Operand.imm value).view d w, rest) := by
  subst hn
  have hread : readInt field.length (field ++ rest) = _ := readInt_append field rfl rest
  unfold Holds at h
  simp only [Slot.read, hread, Option.map_some, h, Operand.view]

/-- A field as wide as the operand. -/
theorem holds_full {field : List UInt8} {w : UInt8} {value : Int64} (hn : field.length = w.toNat)
    (h : (leNat field : Int) = value.toInt % 256 ^ w.toNat) : Holds field w value := by
  unfold Holds
  rw [hn, h]
  have hmod := Int.bmod_emod (x := value.toInt % 256 ^ w.toNat) (m := 256 ^ w.toNat)
  push_cast at hmod
  rw [hmod, Int.emod_emod]

/-- A field that reaches the value by sign extension. -/
theorem holds_extended {field : List UInt8} {n : Nat} {value : Int64} (hn : field.length = n + 1)
    (h : (leNat field : Int) = value.toInt % 256 ^ (n + 1))
    (hlow : -(128 * 256 ^ n : Int) ≤ value.toInt) (hhigh : value.toInt < 128 * 256 ^ n)
    (w : UInt8) : Holds field w value := by
  have hb : (leNat field : Int).bmod (256 ^ field.length) = value.toInt := by
    rw [hn, h]
    have hbmod : (value.toInt % ((256 ^ (n + 1) : Nat) : Int)).bmod (256 ^ (n + 1)) =
        value.toInt.bmod (256 ^ (n + 1)) := Int.emod_bmod ..
    push_cast at hbmod
    rw [hbmod]
    apply Int.bmod_eq_of_le
    · rw [Nat.pow_succ]
      push_cast
      omega
    · rw [Nat.pow_succ]
      push_cast
      omega
  unfold Holds
  rw [hb]

theorem leNat_low8 (value : Int64) :
    (leNat [value.toUInt64.toUInt8] : Int) = value.toInt % 256 ^ 1 := by
  have h := toNat_toUInt64 value
  simp only [leNat_cons, leNat_nil, UInt64.toNat_toUInt8]
  omega

theorem leNat_low16 (value : Int64) :
    (leNat [value.toUInt64.toUInt8, (value.toUInt64 >>> 8).toUInt8] : Int) =
      value.toInt % 256 ^ 2 := by
  have h := toNat_toUInt64 value
  simp only [leNat_cons, leNat_nil, UInt64.toNat_toUInt8, UInt64.toNat_shiftRight,
    Nat.shiftRight_eq_div_pow]
  simp
  omega

theorem leNat_low32 (value : Int64) :
    (leNat (le32 value.toUInt64.toUInt32) : Int) = value.toInt % 256 ^ 4 := by
  have h := toNat_toUInt64 value
  rw [leNat_le32, UInt64.toNat_toUInt32]
  omega

theorem leNat_low64 (value : Int64) :
    (leNat (le64 value.toUInt64) : Int) = value.toInt % 256 ^ 8 := by
  have h := toNat_toUInt64 value
  rw [leNat_le64]
  omega

theorem fitsInt8_iff {value : Int64} :
    fitsInt8 value = true ↔ -128 ≤ value.toInt ∧ value.toInt ≤ 127 := by
  simp [fitsInt8, Int64.le_iff_toInt_le]

theorem fitsInt32_iff {value : Int64} :
    fitsInt32 value = true ↔ -2147483648 ≤ value.toInt ∧ value.toInt ≤ 2147483647 := by
  simp [fitsInt32, Int64.le_iff_toInt_le]

theorem holds_byte {value : Int64} (h : fitsInt8 value = true) (w : UInt8) :
    Holds [value.toUInt64.toUInt8] w value := by
  have hfits := fitsInt8_iff.mp h
  exact holds_extended (n := 0) rfl (leNat_low8 value) (by simp; omega) (by simp; omega) w

theorem holds_word {value : Int64} (h : fitsInt32 value = true) (w : UInt8) :
    Holds (le32 value.toUInt64.toUInt32) w value := by
  have hfits := fitsInt32_iff.mp h
  exact holds_extended (n := 3) (length_le32 _) (leNat_low32 value) (by simp; omega)
    (by simp; omega) w

/-- The immediate field of a width. -/
theorem holds_immBytes {w : UInt8} (hw : IsWidth w) {value : Int64} {field : List UInt8}
    (h : immBytes w value = .ok field) :
    field.length = immediateBytes w ∧ Holds field w value := by
  rcases hw with rfl | rfl | rfl | rfl
  · simp only [immBytes, beq_self_eq_true, if_true] at h
    split at h
    · simp at h
    · obtain rfl := Except.ok.inj h
      exact ⟨rfl, holds_full rfl (leNat_low8 value)⟩
  · simp only [immBytes, show ((2 : UInt8) == 1) = false from rfl, Bool.false_eq_true, if_false,
      beq_self_eq_true, if_true] at h
    split at h
    · simp at h
    · obtain rfl := Except.ok.inj h
      exact ⟨rfl, holds_full rfl (leNat_low16 value)⟩
  all_goals
    simp only [immBytes, show ((4 : UInt8) == 1) = false from rfl,
      show ((4 : UInt8) == 2) = false from rfl, show ((8 : UInt8) == 1) = false from rfl,
      show ((8 : UInt8) == 2) = false from rfl, Bool.false_eq_true, if_false] at h
    split at h
    · rename_i hfits
      obtain rfl := Except.ok.inj h
      exact ⟨rfl, holds_word hfits _⟩
    · simp at h

/-! ## Sized forms -/

theorem sizePrefix_mem (w : UInt8) : sizePrefix w ∈ legacies := by
  unfold sizePrefix
  split <;> decide

/-- What the prefixes of a sized form say about the width. -/
theorem ModrmForm.Reads.width {w : UInt8} (hw : IsWidth w) {opcode imm : List UInt8} {reg : UInt8}
    {regByte : Bool} {rm : Option Operand} {o : Operand} {c : Context}
    (h : (ModrmForm.sized w opcode reg regByte rm imm).Reads o c) :
    c.width = if w = 1 then 4 else w := by
  have hlong : c.w = (w == 8) := h.w
  have hshort : c.size = (sizePrefix w == [0x66]) := h.size
  unfold Context.width
  rw [hlong, hshort]
  rcases hw with rfl | rfl | rfl | rfl <;> rfl

/-- The pattern of an opcode that one-byte operands have for themselves. -/
theorem lookup_sized {w wide narrow : UInt8} {p : UInt8 → Pattern}
    (hnarrow : ∀ c, lookup? c [narrow] = some (p 1))
    (hwide : ∀ c : Context, lookup? c [wide] = some (p c.width)) (c : Context)
    (hc : c.width = if w = 1 then 4 else w) :
    lookup? c [sizedOpcode w wide narrow] = some (p w) := by
  by_cases h : w = 1
  · subst h
    exact hnarrow c
  · rw [if_neg h] at hc
    rw [sizedOpcode, if_neg (by simpa using h), hwide, hc]

theorem isFormOpcode_sized {w wide narrow : UInt8} (hnarrow : IsFormOpcode [narrow])
    (hwide : IsFormOpcode [wide]) : IsFormOpcode [sizedOpcode w wide narrow] := by
  unfold sizedOpcode
  split
  · exact hnarrow
  · exact hwide

/-- Decoding a form whose operands can be read. -/
theorem decode_shape {f : ModrmForm} {e : Encoding} (h : f.encode = .ok e) {o : Operand}
    (ho : f.rm = some o) (valid : o.ValidRm) (hl : f.legacy ∈ legacies)
    (hop : IsFormOpcode f.opcode) (hreg : f.reg.toNat < 16) {shape? : UInt8 → Option Shape}
    (hlook : ∀ c, f.Reads o c → lookup? c f.opcode = some (.modrm shape?)) {s : Shape}
    (hs : shape? (f.reg &&& 7) = some s) {os : List Decoder.Operand} {v : UInt32}
    {rest : List UInt8}
    (hos : ∀ c, f.Reads o c →
      readSlots c ⟨f.reg, some (o.rm v), 0⟩ s.slots (f.imm ++ rest) = some (os, rest)) :
    decode (e.filled v ++ rest) = some (⟨s.op, s.cond, os⟩, rest) := by
  obtain ⟨c, hc, hdecode⟩ := decode_form h ho valid hl hop hreg hlook v rest
  rw [hdecode, hs, Option.bind_some, Shape.read, hos c hc, Option.map_some]

section

variable {w : UInt8} {o : Operand} {opcode imm : List UInt8} {e : Encoding} {op : Op}

/-- A register or memory operand, then a register. -/
theorem decode_rm_reg {r : Reg} (hw : IsWidth r.width) (hid : r.id.toNat < 16)
    (ho : o.IsRm r.width)
    (h : (ModrmForm.sized r.width opcode r.id (r.width == 1) (some o) []).encode = .ok e)
    (hop : IsFormOpcode opcode)
    (hlook : ∀ c : Context, c.width = (if r.width = 1 then 4 else r.width) →
      lookup? c opcode = some (.always op [.rm r.width, .reg r.width]))
    (v : UInt32) (k : UInt8) (rest : List UInt8) :
    decode (e.filled v ++ rest) =
      some (⟨op, ⟨0⟩, [o.view v.toInt32.toInt k, .reg r]⟩, rest) := by
  apply decode_shape h rfl ho.valid (sizePrefix_mem _) hop hid (fun c hc => hlook c (hc.width hw))
    rfl
  intro c hc
  simp only [readSlots, ModrmForm.sized, read_rm ho hc.fs hc.byte k, read_reg hc.force,
    List.nil_append, Option.bind_eq_bind, Option.bind_some]

/-- A register, then a register or memory operand and maybe an immediate. -/
theorem decode_reg_rm {r : Reg} (hw : IsWidth r.width) (hid : r.id.toNat < 16) (ho : o.IsRm w)
    {regByte : Bool} (hbyte : r.width = 1 → regByte = true)
    (h : (ModrmForm.sized r.width opcode r.id regByte (some o) imm).encode = .ok e)
    (hop : IsFormOpcode opcode) {slots : List Slot}
    (hlook : ∀ c : Context, c.width = (if r.width = 1 then 4 else r.width) →
      lookup? c opcode = some (.always op (.reg r.width :: .rm w :: slots)))
    {os : List Decoder.Operand} {v : UInt32} {rest : List UInt8}
    (hos : ∀ c f, readSlots c f slots (imm ++ rest) = some (os, rest)) (k : UInt8) :
    decode (e.filled v ++ rest) =
      some (⟨op, ⟨0⟩, .reg r :: o.view v.toInt32.toInt k :: os⟩, rest) := by
  apply decode_shape h rfl ho.valid (sizePrefix_mem _) hop hid (fun c hc => hlook c (hc.width hw))
    rfl
  intro c hc
  have hrex : r.needsBytePrefix = true → c.hasRex = true := by
    intro hr
    apply hc.force
    simp only [Reg.needsBytePrefix, Bool.and_eq_true, beq_iff_eq] at hr
    simp [ModrmForm.forces, ModrmForm.sized, hbyte hr.1.1, hr.1.2, hr.2]
  simp only [readSlots, ModrmForm.sized, read_rm ho hc.fs hc.byte k, read_reg hrex, hos,
    Option.bind_eq_bind, Option.bind_some]

/-- A register or memory operand of a group, with what follows it. -/
theorem decode_digit (hw : IsWidth w) (ho : o.IsRm w) {digit : UInt8} (hdigit : digit.toNat < 8)
    (h : (ModrmForm.sized w opcode digit false (some o) imm).encode = .ok e)
    (hop : IsFormOpcode opcode) {shape? : UInt8 → Option Shape}
    (hlook : ∀ c : Context, c.width = (if w = 1 then 4 else w) →
      lookup? c opcode = some (.modrm shape?))
    {slots : List Slot} {cond : Cond} (hs : shape? digit = some ⟨op, .rm w :: slots, cond⟩)
    {os : List Decoder.Operand} {v : UInt32} {rest : List UInt8}
    (hos : ∀ c f, readSlots c f slots (imm ++ rest) = some (os, rest)) (k : UInt8) :
    decode (e.filled v ++ rest) =
      some (⟨op, cond, o.view v.toInt32.toInt k :: os⟩, rest) := by
  have hand : digit &&& 7 = digit :=
    forall_byte_lt (P := fun d => d &&& 7 = d) (by decide : ∀ n < 8, _) hdigit
  have hs' : shape? (digit &&& 7) = _ := hand.symm ▸ hs
  apply decode_shape h rfl ho.valid (sizePrefix_mem _) hop (Nat.lt_trans hdigit (by decide))
    (fun c hc => hlook c (hc.width hw)) hs'
  intro c hc
  simp only [readSlots, ModrmForm.sized, read_rm ho hc.fs hc.byte k, hos, Option.bind_eq_bind,
    Option.bind_some]

end

end Backend.Machine
