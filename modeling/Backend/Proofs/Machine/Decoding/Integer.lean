-- Decoding the integer instructions: each family of encodings gives back its operation, operands
-- and immediate, and the place of a symbolic displacement.
import Backend.Proofs.Machine.Decoding.Forms

namespace Backend.Machine

open Decoder

/-- The bytes of an encoding are those of an instruction, whatever its symbolic displacement
holds. -/
structure Encoding.DecodesTo (e : Encoding) (instr : Int → Instr)
    (symbol? : Option (String × Bool)) : Prop where
  decode : ∀ (v : UInt32) (rest : List UInt8),
    decode (e.filled v ++ rest) = some (instr v.toInt32.toInt, rest)
  placed : e.Placed symbol?

/-- An immediate operand. -/
def Operand.IsImm : Operand → Prop
  | .imm _ => True
  | _ => False

theorem Operand.IsImm.eq {o : Operand} (h : o.IsImm) : ∃ value, o = .imm value := by
  cases o with
  | imm value => exact ⟨value, rfl⟩
  | reg r | xmm x | mem m | target t => exact absurd h id

theorem Operand.IsRm.view_eq {w : UInt8} {o : Operand} (h : o.IsRm w) (k n : UInt8) {d : Int} :
    o.view d k = o.view d n := by
  rcases h with h | h
  · obtain ⟨r, rfl, -⟩ := h.eq
    rfl
  · obtain ⟨m, rfl, -⟩ := h.eq
    rfl

@[simp] theorem Operand.symbol?_reg (r : Reg) : (Operand.reg r).symbol? = none := rfl

@[simp] theorem Operand.symbol?_xmm (x : Xmm) : (Operand.xmm x).symbol? = none := rfl

@[simp] theorem Operand.symbol?_imm (value : Int64) : (Operand.imm value).symbol? = none := rfl

theorem Encoding.plain_filled (bytes : List UInt8) (v : UInt32) :
    (Encoding.plain bytes).filled v = bytes := rfl

theorem Encoding.plain_placed (bytes : List UInt8) : (Encoding.plain bytes).Placed none :=
  ⟨rfl, by simp [plain], by simp [plain]⟩

theorem gprWidth_isRm {w : UInt8} {o : Operand} (h : o.IsRm w) : gprWidth (some o) = .ok w := by
  rcases h with h | h
  · obtain ⟨r, rfl, -, rfl⟩ := h.eq
    rfl
  · obtain ⟨m, rfl, -, rfl⟩ := h.eq
    rfl

/-- What follows the width check runs with that width. -/
theorem bind_gprWidth {β : Type} {w : UInt8} {o : Operand} (ho : o.IsRm w)
    {f : UInt8 → Except EncodeError β} {r : β} (h : (gprWidth (some o) >>= f) = .ok r) :
    f w = .ok r := by
  rw [gprWidth_isRm ho] at h
  exact h

/-! ## Moves and arithmetic -/

/-- Reading an immediate as the last operand. -/
theorem readSlots_imm {field : List UInt8} {n : Nat} (hn : field.length = n) {w : UInt8}
    {value : Int64} (h : Holds field w value) (d : Int) (rest : List UInt8) (c : Context)
    (f : Fields) :
    readSlots c f [.imm n w] (field ++ rest) = some ([(Operand.imm value).view d w], rest) := by
  simp only [readSlots, read_imm hn h c f d rest, Option.bind_eq_bind, Option.bind_some]

/-- Decoding an instruction that has a register in the low bits of its opcode. -/
theorem decode_opcode_reg {r : Reg} (hid : r.id.toNat < 16) {w : Bool} {legacy : List UInt8}
    (hl : legacy ∈ legacies) {opcode : UInt8} (hop : IsFormOpcode [opcode]) {op : Op}
    (slots : List Slot)
    (hlook : ∀ c : Context, c.w = w → c.size = (legacy == [0x66]) →
      oneByte c opcode = some (.plain ⟨op, .opcode r.code r.width :: slots, ⟨0⟩⟩))
    {os : List Decoder.Operand} {field rest : List UInt8}
    (hos : ∀ c f, readSlots c f slots (field ++ rest) = some (os, rest)) :
    decode (legacy ++ Rex.bytes ⟨w, false, false, r.isHigh, r.needsBytePrefix⟩ ++ [opcode] ++
      field ++ rest) = some (⟨op, ⟨0⟩, .reg r :: os⟩, rest) := by
  have hdecode := decode_opcode false hl ⟨w, false, false, r.isHigh, r.needsBytePrefix⟩ hop
    (field ++ rest)
  have hreg : gpr? _ r.id r.width = some (.reg r) := gpr?_eq
    (c := Rex.context ⟨w, false, false, r.isHigh, r.needsBytePrefix⟩ (legacyContext false legacy))
    (by intro hb; simp [Rex.context, hb])
  have hext := r.extend_code hid
  have hb : (Rex.context ⟨w, false, false, r.isHigh, r.needsBytePrefix⟩
    (legacyContext false legacy)).b = r.isHigh := rfl
  simp only [segmentMark, Bool.false_eq_true, if_false, List.nil_append] at hdecode
  simp only [List.append_assoc, hdecode, lookup?]
  rw [hlook _ rfl rfl, Option.bind_some]
  simp only [Pattern.read, Shape.read, readSlots, Slot.read, hb, hext, hreg, Option.map_some, hos,
    Option.bind_eq_bind, Option.bind_some]

theorem low_bits_cases {code : UInt8} (h : code.toNat < 8) :
    code = 0 ∨ code = 1 ∨ code = 2 ∨ code = 3 ∨ code = 4 ∨ code = 5 ∨ code = 6 ∨ code = 7 :=
  forall_byte_lt (P := fun code => code = 0 ∨ code = 1 ∨ code = 2 ∨ code = 3 ∨ code = 4 ∨
    code = 5 ∨ code = 6 ∨ code = 7) (by decide) h

/-- The opcodes that end in a register number. -/
theorem oneByte_register {code : UInt8} (h : code.toNat < 8) (c : Context) :
    oneByte c (0xb0 + code) = some (.plain ⟨.mov, [.opcode code 1, .imm 1 1], ⟨0⟩⟩) ∧
      oneByte c (0xb8 + code) =
        some (.plain ⟨.mov, [.opcode code c.width, .imm c.width.toNat c.width], ⟨0⟩⟩) ∧
      oneByte c (0x50 + code) = some (.plain ⟨.push, [.opcode code 8], ⟨0⟩⟩) ∧
      oneByte c (0x58 + code) = some (.plain ⟨.pop, [.opcode code 8], ⟨0⟩⟩) := by
  rcases low_bits_cases h with rfl | rfl | rfl | rfl | rfl | rfl | rfl | rfl <;>
    exact ⟨rfl, rfl, rfl, rfl⟩

theorem isFormOpcode_register {code : UInt8} (h : code.toNat < 8) :
    IsFormOpcode [0xb0 + code] ∧ IsFormOpcode [0xb8 + code] ∧ IsFormOpcode [0x50 + code] ∧
      IsFormOpcode [0x58 + code] := by
  rcases low_bits_cases h with rfl | rfl | rfl | rfl | rfl | rfl | rfl | rfl <;> decide

/-- The full form of a move of an immediate. -/
theorem decodesTo_mov_full {r : Reg} (hid : r.id.toNat < 16) (hw : IsWidth r.width)
    (value : Int64) (field : List UInt8) (hlen : field.length = r.width.toNat)
    (h : Holds field r.width value) :
    (Encoding.plain (sizePrefix r.width ++
      Rex.bytes ⟨r.width == 8, false, false, r.isHigh, r.needsBytePrefix⟩ ++
      [sizedOpcode r.width (0xb8 + r.code) (0xb0 + r.code)] ++ field)).DecodesTo
      (fun d => ⟨.mov, ⟨0⟩, [.reg r, (Operand.imm value).view d r.width]⟩) none := by
  have hcode : r.code.toNat < 8 := and_seven_lt r.id
  obtain ⟨hnarrow, hwide, -⟩ := isFormOpcode_register hcode
  refine ⟨fun v rest => ?_, Encoding.plain_placed _⟩
  rw [Encoding.plain_filled]
  apply decode_opcode_reg hid (sizePrefix_mem _) (isFormOpcode_sized hnarrow hwide)
    [.imm r.width.toNat r.width]
  · intro c hlong hshort
    obtain ⟨h1, h2, -⟩ := oneByte_register hcode c
    have hwidth : c.width = if r.width = 1 then 4 else r.width := by
      unfold Context.width
      rw [hlong, hshort]
      rcases hw with hw | hw | hw | hw <;> rw [hw] <;> rfl
    by_cases hone : r.width = 1
    · simp only [sizedOpcode, hone]
      exact h1
    · rw [if_neg hone] at hwidth
      rw [sizedOpcode, if_neg (by simpa using hone)]
      rw [hwidth] at h2
      exact h2
  · exact readSlots_imm hlen h v.toInt32.toInt rest

section

variable {w : UInt8} {o : Operand} {opcode imm : List UInt8} {digit : UInt8} {e : Encoding}
  {shape? : UInt8 → Option Shape} {op : Op}

/-- An operand of a group, with what follows it. -/
theorem decodesTo_digit (hw : IsWidth w) (ho : o.IsRm w) (hdigit : digit.toNat < 8)
    (h : (ModrmForm.sized w opcode digit false (some o) imm).encode = .ok e)
    (hop : IsFormOpcode opcode)
    (hlook : ∀ c : Context, c.width = (if w = 1 then 4 else w) →
      lookup? c opcode = some (.modrm shape?))
    (slots : List Slot) {cond : Cond} (hs : shape? digit = some ⟨op, .rm w :: slots, cond⟩)
    {os : Int → List Decoder.Operand}
    (hos : ∀ d rest c f, readSlots c f slots (imm ++ rest) = some (os d, rest)) (k : UInt8) :
    e.DecodesTo (fun d => ⟨op, cond, o.view d k :: os d⟩) o.symbol? :=
  ⟨fun v rest => decode_digit hw ho hdigit h hop hlook hs (hos v.toInt32.toInt rest) k,
    ModrmForm.placed h⟩

/-- An operand of a group with an immediate. -/
theorem decodesTo_digit_imm (hw : IsWidth w) (ho : o.IsRm w) (hdigit : digit.toNat < 8)
    (h : (ModrmForm.sized w opcode digit false (some o) imm).encode = .ok e)
    (hop : IsFormOpcode opcode)
    (hlook : ∀ c : Context, c.width = (if w = 1 then 4 else w) →
      lookup? c opcode = some (.modrm shape?))
    {n : Nat} {k : UInt8} (hs : shape? digit = some ⟨op, [.rm w, .imm n k], ⟨0⟩⟩)
    {value : Int64} (hlen : imm.length = n) (himm : Holds imm k value) :
    e.DecodesTo (fun d => ⟨op, ⟨0⟩, [o.view d k, (Operand.imm value).view d k]⟩) o.symbol? :=
  decodesTo_digit hw ho hdigit h hop hlook [.imm n k] hs (readSlots_imm hlen himm) k

end

theorem decodesTo_movImmediate {r : Reg} (hid : r.id.toNat < 16) (hw : IsWidth r.width)
    {value : Int64} {e : Encoding} (h : encodeMovImmediate r value = .ok e) :
    e.DecodesTo (fun d => ⟨.mov, ⟨0⟩, [.reg r, (Operand.imm value).view d r.width]⟩) none := by
  obtain ⟨id, w⟩ := r
  have hfull := decodesTo_mov_full (r := ⟨id, w⟩) hid hw value
  unfold encodeMovImmediate at h
  split at h
  · rename_i hfits
    simp only [Bool.and_eq_true, beq_iff_eq] at hfits
    obtain ⟨rfl, hfits⟩ := hfits
    have hlook : ∀ c : Context, c.width = 8 →
        lookup? c [0xc7] = some (digitZero .mov [.rm 8, .imm 4 8]) := by
      intro c hc
      have hlook : lookup? c [0xc7] = some (digitZero .mov
        [.rm c.width, .imm (immediateBytes c.width) c.width]) := rfl
      rw [hlook, hc]
      rfl
    exact decodesTo_digit_imm (o := .reg ⟨id, 8⟩) hw (.inl ⟨hid, rfl⟩) (by decide) h (by decide)
      hlook rfl (length_le32 _) (holds_word hfits 8)
  · rcases hw with hw | hw | hw | hw
    · obtain rfl : w = 1 := hw
      obtain ⟨field, hfield, h⟩ := bind_eq_ok.mp h
      obtain rfl := Except.ok.inj h
      obtain ⟨hlen, hholds⟩ := holds_immBytes (.inl rfl) hfield
      exact hfull field hlen hholds
    · obtain rfl : w = 2 := hw
      obtain ⟨field, hfield, h⟩ := bind_eq_ok.mp h
      obtain rfl := Except.ok.inj h
      obtain ⟨hlen, hholds⟩ := holds_immBytes (.inr (.inl rfl)) hfield
      exact hfull field hlen hholds
    · obtain rfl : w = 4 := hw
      simp only [show (4 : UInt8).toNat = 4 from rfl] at h
      split at h
      · simp at h
      · obtain rfl := Except.ok.inj h
        exact hfull _ (length_le32 _) (holds_full (length_le32 _) (leNat_low32 value))
    · obtain rfl : w = 8 := hw
      obtain rfl := Except.ok.inj h
      exact hfull _ (length_le64 _) (holds_full (length_le64 _) (leNat_low64 value))

/-- Moves. -/
theorem decodesTo_mov {w : UInt8} (hw : IsWidth w) {d s : Operand} (hd : d.IsRm w)
    (hs : s.IsRm w ∨ s.IsImm) {e : Encoding} (h : encodeMov (some d) (some s) = .ok e) :
    e.DecodesTo (fun x => ⟨.mov, ⟨0⟩, [d.view x w, s.view x w]⟩) (d.symbol?.or s.symbol?) := by
  have hstore : ∀ c : Context, c.width = (if w = 1 then 4 else w) →
      lookup? c [sizedOpcode w 0x89 0x88] = some (.always .mov [.rm w, .reg w]) :=
    lookup_sized (p := fun w => .always .mov [.rm w, .reg w]) (fun _ => rfl) fun _ => rfl
  have hload : ∀ c : Context, c.width = (if w = 1 then 4 else w) →
      lookup? c [sizedOpcode w 0x8b 0x8a] = some (.always .mov [.reg w, .rm w]) :=
    lookup_sized (p := fun w => .always .mov [.reg w, .rm w]) (fun _ => rfl) fun _ => rfl
  rcases hs with (hs | hs) | hs
  · obtain ⟨r, rfl, hid, rfl⟩ := hs.eq
    have hform : (ModrmForm.sized r.width [sizedOpcode r.width 0x89 0x88] r.id (r.width == 1)
        (some d) []).encode = .ok e := by
      rcases hd with hd | hd
      · obtain ⟨r', rfl, hid', hw'⟩ := hd.eq
        obtain ⟨u, -, h⟩ := bind_eq_ok.mp h
        rwa [hw'] at h
      · obtain ⟨m, rfl, -⟩ := hd.eq
        exact h
    have hplaced : e.Placed d.symbol? := ModrmForm.placed hform
    exact ⟨fun v rest => decode_rm_reg hw hid hd hform
      (isFormOpcode_sized (by decide) (by decide)) hstore v r.width rest, by simpa using hplaced⟩
  · obtain ⟨m, rfl, -⟩ := hs.eq
    rcases hd with hd | hd
    · obtain ⟨r, rfl, hid, rfl⟩ := hd.eq
      have hform : (ModrmForm.sized r.width [sizedOpcode r.width 0x8b 0x8a] r.id (r.width == 1)
        (some (.mem m)) []).encode = .ok e := h
      exact ⟨fun v rest => decode_reg_rm hw hid (.inr hs) beq_iff_eq.mpr hform
        (isFormOpcode_sized (by decide) (by decide)) hload (fun _ _ => rfl) r.width,
        ModrmForm.placed hform⟩
    · obtain ⟨m', rfl, -⟩ := hd.eq
      simp [encodeMov] at h
  · obtain ⟨value, rfl⟩ := hs.eq
    rcases hd with hd | hd
    · obtain ⟨r, rfl, hid, rfl⟩ := hd.eq
      exact decodesTo_movImmediate hid hw h
    · obtain ⟨m, rfl, -, rfl⟩ := hd.eq
      obtain ⟨field, hfield, h⟩ := bind_eq_ok.mp h
      obtain ⟨hlen, hholds⟩ := holds_immBytes hw hfield
      have hdecodes := decodesTo_digit_imm hw (.inr hd) (by decide) h
        (isFormOpcode_sized (by decide) (by decide))
        (lookup_sized (p := fun w => digitZero .mov [.rm w, .imm (immediateBytes w) w])
          (fun _ => rfl) fun _ => rfl) rfl hlen hholds
      simpa using hdecodes

/-- The arithmetic instructions of two operands. -/
def Op.IsAlu (op : Op) : Prop :=
  op = .add ∨ op = .or ∨ op = .and ∨ op = .sub ∨ op = .xor ∨ op = .cmp

/-- The opcodes of arithmetic, for both directions. -/
theorem Op.IsAlu.lookup {op : Op} (h : op.IsAlu) (c : Context) :
    lookup? c [aluDigit op <<< 3] = some (.always op [.rm 1, .reg 1]) ∧
      lookup? c [aluDigit op <<< 3 ||| 1] = some (.always op [.rm c.width, .reg c.width]) ∧
      lookup? c [aluDigit op <<< 3 ||| 2] = some (.always op [.reg 1, .rm 1]) ∧
      lookup? c [aluDigit op <<< 3 ||| 3] = some (.always op [.reg c.width, .rm c.width]) := by
  rcases h with rfl | rfl | rfl | rfl | rfl | rfl <;> exact ⟨rfl, rfl, rfl, rfl⟩

theorem Op.IsAlu.opcode {op : Op} (h : op.IsAlu) :
    IsFormOpcode [aluDigit op <<< 3] ∧ IsFormOpcode [aluDigit op <<< 3 ||| 1] ∧
      IsFormOpcode [aluDigit op <<< 3 ||| 2] ∧ IsFormOpcode [aluDigit op <<< 3 ||| 3] := by
  rcases h with rfl | rfl | rfl | rfl | rfl | rfl <;> decide

theorem Op.IsAlu.digit {op : Op} (h : op.IsAlu) :
    arithmetic? (aluDigit op) = some op ∧ (aluDigit op).toNat < 8 := by
  rcases h with rfl | rfl | rfl | rfl | rfl | rfl <;> decide

/-- Arithmetic with an immediate: a byte where it reaches by sign extension. -/
theorem decodesTo_alu_imm {op : Op} (hop : op.IsAlu) {w : UInt8} (hw : IsWidth w) {d : Operand}
    (hd : d.IsRm w) {value : Int64} {e : Encoding}
    (h : encodeAlu op (some d) (some (.imm value)) = .ok e) :
    e.DecodesTo (fun x => ⟨op, ⟨0⟩, [d.view x w, (Operand.imm value).view x w]⟩) d.symbol? := by
  obtain ⟨hdigit, hlt⟩ := hop.digit
  have hshape : ∀ slots, ((arithmetic? (aluDigit op)).map fun op => Shape.mk op slots ⟨0⟩) =
      some ⟨op, slots, ⟨0⟩⟩ := by
    intro slots
    rw [hdigit, Option.map_some]
  replace h := bind_gprWidth hd h
  simp only at h
  split at h
  · rename_i hone
    obtain rfl : w = 1 := by simpa using hone
    obtain ⟨field, hfield, h⟩ := bind_eq_ok.mp h
    obtain ⟨hlen, hholds⟩ := holds_immBytes hw hfield
    have hlook : ∀ c, lookup? c [0x80] = some (grouped arithmetic? [.rm 1, .imm 1 1]) :=
      fun _ => rfl
    exact decodesTo_digit_imm hw hd hlt h (by decide) (fun c _ => hlook c) (hshape _) hlen hholds
  · rename_i hone
    have hone : w ≠ 1 := by simpa using hone
    split at h
    · rename_i hfits
      have hlook : ∀ c : Context, c.width = (if w = 1 then 4 else w) →
          lookup? c [0x83] = some (grouped arithmetic? [.rm w, .imm 1 w]) := by
        intro c hc
        rw [if_neg hone] at hc
        rw [← hc]
        rfl
      exact decodesTo_digit_imm hw hd hlt h (by decide) hlook (hshape _) rfl (holds_byte hfits w)
    · obtain ⟨field, hfield, h⟩ := bind_eq_ok.mp h
      obtain ⟨hlen, hholds⟩ := holds_immBytes hw hfield
      have hlook : ∀ c : Context, c.width = (if w = 1 then 4 else w) →
          lookup? c [0x81] = some (grouped arithmetic? [.rm w, .imm (immediateBytes w) w]) := by
        intro c hc
        rw [if_neg hone] at hc
        rw [← hc]
        rfl
      exact decodesTo_digit_imm hw hd hlt h (by decide) hlook (hshape _) hlen hholds

/-- Arithmetic. -/
theorem decodesTo_alu {op : Op} (hop : op.IsAlu) {w : UInt8} (hw : IsWidth w) {d s : Operand}
    (hd : d.IsRm w) (hs : s.IsRm w ∨ s.IsImm) {e : Encoding}
    (h : encodeAlu op (some d) (some s) = .ok e) :
    e.DecodesTo (fun x => ⟨op, ⟨0⟩, [d.view x w, s.view x w]⟩) (d.symbol?.or s.symbol?) := by
  obtain ⟨ho0, ho1, ho2, ho3⟩ := hop.opcode
  have hstore : ∀ c : Context, c.width = (if w = 1 then 4 else w) →
      lookup? c [sizedOpcode w (aluDigit op <<< 3 ||| 1) (aluDigit op <<< 3)] =
        some (.always op [.rm w, .reg w]) :=
    lookup_sized (p := fun w => .always op [.rm w, .reg w]) (fun c => (hop.lookup c).1)
      fun c => (hop.lookup c).2.1
  have hload : ∀ c : Context, c.width = (if w = 1 then 4 else w) →
      lookup? c [sizedOpcode w (aluDigit op <<< 3 ||| 3) (aluDigit op <<< 3 ||| 2)] =
        some (.always op [.reg w, .rm w]) :=
    lookup_sized (p := fun w => .always op [.reg w, .rm w]) (fun c => (hop.lookup c).2.2.1)
      fun c => (hop.lookup c).2.2.2
  rcases hs with hs | hs
  · replace h := bind_gprWidth hd h
    rcases hs with hs | hs
    · obtain ⟨r, rfl, hid, rfl⟩ := hs.eq
      obtain ⟨u, -, h⟩ := bind_eq_ok.mp h
      have hplaced : e.Placed d.symbol? := ModrmForm.placed h
      exact ⟨fun v rest => decode_rm_reg hw hid hd h (isFormOpcode_sized ho0 ho1) hstore v r.width
        rest, by simpa using hplaced⟩
    · obtain ⟨m, rfl, -⟩ := hs.eq
      rcases hd with hd | hd
      · obtain ⟨r, rfl, hid, rfl⟩ := hd.eq
        exact ⟨fun v rest => decode_reg_rm hw hid (.inr hs) beq_iff_eq.mpr h
          (isFormOpcode_sized ho2 ho3) hload (fun _ _ => rfl) r.width, ModrmForm.placed h⟩
      · obtain ⟨m', rfl, -⟩ := hd.eq
        simp [throw, throwThe, MonadExceptOf.throw] at h
  · obtain ⟨value, rfl⟩ := hs.eq
    simpa using decodesTo_alu_imm hop hw hd h

/-- Tests. -/
theorem decodesTo_test {w : UInt8} (hw : IsWidth w) {d s : Operand} (hd : d.IsRm w)
    (hs : s.IsReg w ∨ s.IsImm) {e : Encoding} (h : encodeTest (some d) (some s) = .ok e) :
    e.DecodesTo (fun x => ⟨.test, ⟨0⟩, [d.view x w, s.view x w]⟩)
      (d.symbol?.or s.symbol?) := by
  replace h := bind_gprWidth hd h
  rcases hs with hs | hs
  · obtain ⟨r, rfl, hid, rfl⟩ := hs.eq
    have hplaced : e.Placed d.symbol? := ModrmForm.placed h
    exact ⟨fun v rest => decode_rm_reg hw hid hd h (isFormOpcode_sized (by decide) (by decide))
      (lookup_sized (p := fun w => .always .test [.rm w, .reg w]) (fun _ => rfl) fun _ => rfl) v
      r.width rest, by simpa using hplaced⟩
  · obtain ⟨value, rfl⟩ := hs.eq
    obtain ⟨field, hfield, h⟩ := bind_eq_ok.mp h
    obtain ⟨hlen, hholds⟩ := holds_immBytes hw hfield
    have hdecodes : e.DecodesTo _ d.symbol? := decodesTo_digit_imm hw hd (by decide) h
      (isFormOpcode_sized (by decide) (by decide))
      (lookup_sized (p := fun w => unaryGroup w (immediateBytes w)) (fun _ => rfl) fun _ => rfl)
      rfl hlen hholds
    simpa using hdecodes

/-- A register of more than a byte, then a register or memory operand. -/
theorem decodesTo_wide {r : Reg} (hw : IsWidth r.width) (hne : r.width ≠ 1)
    (hid : r.id.toNat < 16) {s : Operand} {k : UInt8} (hs : s.IsRm k) (op : Op)
    {opcode imm : List UInt8} (hop : IsFormOpcode opcode) (slots : List Slot)
    (hlook : ∀ c : Context, c.width = r.width →
      lookup? c opcode = some (.always op (.reg r.width :: .rm k :: slots)))
    {e : Encoding} (h : (ModrmForm.sized r.width opcode r.id false (some s) imm).encode = .ok e)
    {os : Int → List Decoder.Operand}
    (hos : ∀ d rest c f, readSlots c f slots (imm ++ rest) = some (os d, rest)) :
    e.DecodesTo (fun x => ⟨op, ⟨0⟩, .reg r :: s.view x r.width :: os x⟩) s.symbol? := by
  exact ⟨fun v rest => decode_reg_rm hw hid hs (fun hone => absurd hone hne) h hop
    (fun c hc => hlook c (by rwa [if_neg hne] at hc)) (hos v.toInt32.toInt rest) r.width,
    ModrmForm.placed h⟩

/-- Multiplication, with two or three operands. -/
theorem decodesTo_imul {r : Reg} (hw : IsWidth r.width) (hid : r.id.toNat < 16) {s : Operand}
    (hs : s.IsRm r.width) {factor : Option Operand} (hf : ∀ o ∈ factor, o.IsImm) {e : Encoding}
    (h : encodeImul r (some s) factor = .ok e) :
    e.DecodesTo (fun x => ⟨.imul, ⟨0⟩,
      .reg r :: s.view x r.width :: (factor.map (Operand.view x r.width)).toList⟩) s.symbol? := by
  unfold encodeImul at h
  split at h
  · simp at h
  · rename_i hone
    have hne : r.width ≠ 1 := by simpa using hone
    cases factor with
    | none =>
      exact decodesTo_wide hw hne hid hs .imul (by decide) [] (fun c hc => by rw [← hc]; rfl) h
        fun _ _ _ _ => rfl
    | some o =>
      obtain ⟨k, rfl⟩ := (hf o rfl).eq
      simp only at h
      split at h
      · rename_i hfits
        exact decodesTo_wide hw hne hid hs .imul (by decide) [.imm 1 r.width]
          (fun c hc => by rw [← hc]; rfl) h (readSlots_imm rfl (holds_byte hfits r.width))
      · obtain ⟨field, hfield, h⟩ := bind_eq_ok.mp h
        obtain ⟨hlen, hholds⟩ := holds_immBytes hw hfield
        exact decodesTo_wide hw hne hid hs .imul (by decide)
          [.imm (immediateBytes r.width) r.width] (fun c hc => by rw [← hc]; rfl) h
          (readSlots_imm hlen hholds)

/-- Sign and zero extension; from four bytes, zero extension is a move. -/
theorem decodesTo_extend {r : Reg} (hw : IsWidth r.width) (hid : r.id.toNat < 16) {s : Operand}
    {k : UInt8} (hk : IsWidth k) (hs : s.IsRm k) {signed : Bool} {e : Encoding}
    (h : encodeExtend signed r (some s) = .ok e) :
    e.DecodesTo (fun x =>
      if k = 4 ∧ signed = false then ⟨.mov, ⟨0⟩, [.reg ⟨r.id, 4⟩, s.view x r.width]⟩
      else ⟨if signed then .movsx else .movzx, ⟨0⟩, [.reg r, s.view x r.width]⟩) s.symbol? := by
  by_cases hle : r.width ≤ k
  · simp [encodeExtend, gprWidth_isRm hs, hle, throw, throwThe, MonadExceptOf.throw, bind,
      Except.bind] at h
  · simp only [encodeExtend, gprWidth_isRm hs, hle, bind, Except.bind, if_false] at h
    have hne : r.width ≠ 1 := by
      intro hone
      rw [hone] at hle
      rcases hk with rfl | rfl | rfl | rfl <;> exact hle (by decide)
    have hwide := fun (op : Op) (opcode : List UInt8) (hop : IsFormOpcode opcode) hlook
        (h : (ModrmForm.sized r.width opcode r.id false (some s) []).encode = .ok e) =>
      decodesTo_wide hw hne hid hs op hop [] hlook h fun _ _ _ _ => rfl
    -- No register is wider than eight bytes, so that nothing extends from there.
    have height : k ≠ 8 := by
      rintro rfl
      rcases hw with hw | hw | hw | hw <;> rw [hw] at hle <;> exact hle (by decide)
    rcases hk with rfl | rfl | rfl | rfl
    · cases signed with
      | true => exact hwide .movsx [0x0f, 0xbe] (by decide) (fun c hc => by rw [← hc]; rfl) h
      | false => exact hwide .movzx [0x0f, 0xb6] (by decide) (fun c hc => by rw [← hc]; rfl) h
    · cases signed with
      | true => exact hwide .movsx [0x0f, 0xbf] (by decide) (fun c hc => by rw [← hc]; rfl) h
      | false => exact hwide .movzx [0x0f, 0xb7] (by decide) (fun c hc => by rw [← hc]; rfl) h
    · cases signed with
      | true => exact hwide .movsx [0x63] (by decide) (fun c hc => by rw [← hc]; rfl) h
      | false =>
        have hmov := decodesTo_mov (d := .reg ⟨r.id, 4⟩) (.inr (.inr (.inl rfl)))
          (.inl ⟨hid, rfl⟩) (.inl hs) h
        simp only [hs.view_eq 4 r.width] at hmov
        exact hmov
    · exact absurd rfl height

/-- The address of memory in a register. -/
theorem decodesTo_lea {r : Reg} (hw : IsWidth r.width) (hid : r.id.toNat < 16) {m : Memory}
    (hm : m.addr.Valid) {e : Encoding}
    (h : ModrmForm.encode ⟨[], r.width == 8, [0x8d], r.id, false, some (.mem m), []⟩ = .ok e)
    (hlarge : ¬r.width < 4) (k : UInt8) :
    e.DecodesTo (fun x => ⟨.lea, ⟨0⟩, [.reg r, (Operand.mem (m.sized 0)).view x k]⟩)
      (Operand.mem m).symbol? := by
  have hne : r.width ≠ 1 := by
    intro hone
    exact hlarge (by rw [hone]; decide)
  have hprefix : sizePrefix r.width = [] := by
    rcases hw with hw | hw | hw | hw <;> rw [hw] at hlarge ⊢ <;>
      first | rfl | exact absurd (by decide) hlarge
  have hform : (ModrmForm.sized r.width [0x8d] r.id false (some (.mem m)) []).encode = .ok e := by
    rw [ModrmForm.sized, hprefix]
    exact h
  have hlook : ∀ c,
      (ModrmForm.sized r.width [0x8d] r.id false (some (.mem m)) []).Reads (.mem m) c →
      lookup? c [0x8d] = some (.always .lea [.reg r.width, .address]) := by
    intro c hc
    have hwidth := hc.width hw
    rw [if_neg hne] at hwidth
    rw [← hwidth]
    rfl
  refine ⟨fun v rest => ?_, ModrmForm.placed hform⟩
  have hop : IsFormOpcode [0x8d] := by decide
  apply decode_shape hform rfl (o := .mem m) hm (sizePrefix_mem _) hop hid hlook rfl
  intro c hc
  have hrex : r.needsBytePrefix = true → c.hasRex = true := by simp [Reg.needsBytePrefix, hne]
  simp only [readSlots, ModrmForm.sized, Slot.read, gpr?_eq hrex, Option.map_some, Operand.rm,
    hc.fs, List.nil_append, Option.bind_eq_bind, Option.bind_some]
  rfl

/-! ## One operand, shifts and bits -/

/-- Arithmetic on one operand. -/
theorem decodesTo_unary {op : Op} (hop : op = .not ∨ op = .neg ∨ op = .div ∨ op = .idiv)
    {w : UInt8} (hw : IsWidth w) {d : Operand} (hd : d.IsRm w) {e : Encoding}
    (h : encodeUnary op (some d) = .ok e) :
    e.DecodesTo (fun x => ⟨op, ⟨0⟩, [d.view x w]⟩) d.symbol? := by
  replace h := bind_gprWidth hd h
  have hlook : ∀ c : Context, c.width = (if w = 1 then 4 else w) →
      lookup? c [sizedOpcode w 0xf7 0xf6] = some (unaryGroup w (immediateBytes w)) :=
    lookup_sized (p := fun w => unaryGroup w (immediateBytes w)) (fun _ => rfl) fun _ => rfl
  have hform : IsFormOpcode [sizedOpcode w 0xf7 0xf6] := isFormOpcode_sized (by decide) (by decide)
  rcases hop with rfl | rfl | rfl | rfl <;>
    exact decodesTo_digit hw hd (by decide) h hform hlook [] rfl (fun _ _ _ _ => rfl) w

/-- A small count is the same at every width. -/
theorem view_small {value : Int64} (h : 0 ≤ value.toInt ∧ value.toInt < 64) {w : UInt8}
    (hw : IsWidth w) (d : Int) : (Operand.imm value).view d 1 = (Operand.imm value).view d w := by
  have hpow : (256 : Int) ≤ 256 ^ w.toNat := by
    rcases hw with rfl | rfl | rfl | rfl <;> decide
  have hone : (256 : Int) ^ (1 : UInt8).toNat = 256 := rfl
  simp only [Operand.view, hone]
  rw [Int.emod_eq_of_lt h.1 (by omega), Int.emod_eq_of_lt h.1 (by omega)]

/-- Shifts by an immediate or by cl. -/
theorem decodesTo_shift {op : Op} (hop : op = .shl ∨ op = .shr ∨ op = .sar) {w : UInt8}
    (hw : IsWidth w) {d s : Operand} (hd : d.IsRm w) (hs : s.IsReg 1 ∨ s.IsImm) {e : Encoding}
    (h : encodeShift op (some d) (some s) = .ok e) :
    e.DecodesTo (fun x => ⟨op, ⟨0⟩, [d.view x w, s.view x w]⟩) (d.symbol?.or s.symbol?) := by
  have hdigit : (shiftDigit op).toNat < 8 := by rcases hop with rfl | rfl | rfl <;> decide
  have hshape : ∀ slots, ((shift? (shiftDigit op)).map fun op => Shape.mk op slots ⟨0⟩) =
      some ⟨op, slots, ⟨0⟩⟩ := by
    rcases hop with rfl | rfl | rfl <;> exact fun _ => rfl
  have hform := bind_gprWidth hd h
  rcases hs with hs | hs
  · obtain ⟨r, rfl, -, hone⟩ := hs.eq
    simp only at hform
    split at hform
    · simp [throw, throwThe, MonadExceptOf.throw, bind, Except.bind] at hform
    · rename_i hcl
      obtain rfl : r = ⟨rcx, 1⟩ := by
        simp only [Bool.or_eq_true, bne_iff_ne, ne_eq, not_or, not_not] at hcl
        obtain ⟨id, width⟩ := r
        simpa using hcl
      have hlook : ∀ c : Context, c.width = (if w = 1 then 4 else w) →
          lookup? c [sizedOpcode w 0xd3 0xd2] = some (grouped shift? [.rm w, .implied ⟨rcx, 1⟩]) :=
        lookup_sized (p := fun w => grouped shift? [.rm w, .implied ⟨rcx, 1⟩]) (fun _ => rfl)
          fun _ => rfl
      rw [Operand.symbol?_reg, Option.or_none]
      exact decodesTo_digit hw hd hdigit hform (isFormOpcode_sized (by decide) (by decide)) hlook
        [.implied ⟨rcx, 1⟩] (hshape _) (fun _ _ _ _ => rfl) w
  · obtain ⟨value, rfl⟩ := hs.eq
    simp only at hform
    split at hform
    · simp [throw, throwThe, MonadExceptOf.throw, bind, Except.bind] at hform
    · rename_i hrange
      have hsmall : 0 ≤ value.toInt ∧ value.toInt < 64 := by
        simp only [Bool.or_eq_true, decide_eq_true_eq, not_or, Int64.not_lt] at hrange
        have hlow := Int64.le_iff_toInt_le.mp hrange.1
        have hhigh := Int64.le_iff_toInt_le.mp hrange.2
        simp at hlow hhigh
        omega
      have hlook : ∀ c : Context, c.width = (if w = 1 then 4 else w) →
          lookup? c [sizedOpcode w 0xc1 0xc0] = some (grouped shift? [.rm w, .imm 1 1]) :=
        lookup_sized (p := fun w => grouped shift? [.rm w, .imm 1 1]) (fun _ => rfl) fun _ => rfl
      have himm := readSlots_imm (n := 1) (w := 1) rfl (holds_full rfl (leNat_low8 value))
      simp only [view_small hsmall hw] at himm
      rw [Operand.symbol?_imm, Option.or_none]
      exact decodesTo_digit hw hd hdigit hform (isFormOpcode_sized (by decide) (by decide)) hlook
        [.imm 1 1] (hshape _) himm w

/-- The complement of a bit. -/
theorem decodesTo_btc {w : UInt8} (hw : IsWidth w) (hne : w ≠ 1) {d : Operand} (hd : d.IsRm w)
    {value : Int64} (hvalue : 0 ≤ value.toInt ∧ value.toInt < 64) {e : Encoding}
    (h : (ModrmForm.sized w [0x0f, 0xba] 7 false (some d) [value.toUInt64.toUInt8]).encode =
      .ok e) :
    e.DecodesTo (fun x => ⟨.btc, ⟨0⟩, [d.view x w, (Operand.imm value).view x w]⟩) d.symbol? := by
  have hlook : ∀ c : Context, c.width = (if w = 1 then 4 else w) →
      lookup? c [0x0f, 0xba] = some (.modrm fun digit =>
        if digit == 7 then some ⟨.btc, [.rm w, .imm 1 1], ⟨0⟩⟩ else none) := by
    intro c hc
    rw [if_neg hne] at hc
    rw [← hc]
    rfl
  have himm := readSlots_imm (n := 1) (w := 1) rfl (holds_full rfl (leNat_low8 value))
  simp only [view_small hvalue hw] at himm
  exact decodesTo_digit hw hd (by decide) h (by decide) hlook [.imm 1 1] rfl himm w

theorem condition_cases {code : UInt8} (h : code.toNat < 16) :
    code = 0 ∨ code = 1 ∨ code = 2 ∨ code = 3 ∨ code = 4 ∨ code = 5 ∨ code = 6 ∨ code = 7 ∨
      code = 8 ∨ code = 9 ∨ code = 10 ∨ code = 11 ∨ code = 12 ∨ code = 13 ∨ code = 14 ∨
      code = 15 :=
  forall_byte_lt (P := fun code => code = 0 ∨ code = 1 ∨ code = 2 ∨ code = 3 ∨ code = 4 ∨
    code = 5 ∨ code = 6 ∨ code = 7 ∨ code = 8 ∨ code = 9 ∨ code = 10 ∨ code = 11 ∨ code = 12 ∨
    code = 13 ∨ code = 14 ∨ code = 15) (by decide) h

/-- The two-byte opcodes that end in a condition. -/
theorem lookup_condition {cond : Cond} (h : cond.code.toNat < 16) (c : Context) :
    lookup? c [0x0f, 0x90 + cond.code] =
      some (.modrm fun _ => some ⟨.setcc, [.rm 1], cond⟩) := by
  obtain ⟨code⟩ := cond
  rcases condition_cases h with rfl | rfl | rfl | rfl | rfl | rfl | rfl | rfl | rfl | rfl | rfl |
    rfl | rfl | rfl | rfl | rfl <;> rfl

/-- A byte set from a condition. -/
theorem decodesTo_setcc {cond : Cond} (hcond : cond.code.toNat < 16) {d : Operand}
    (hd : d.IsRm 1) {e : Encoding}
    (h : (ModrmForm.simple [0x0f, 0x90 + cond.code] 0 (some d)).encode = .ok e) :
    e.DecodesTo (fun x => ⟨.setcc, cond, [d.view x 1]⟩) d.symbol? :=
  decodesTo_digit (w := 1) (.inl rfl) hd (by decide) h rfl
    (fun c _ => lookup_condition hcond c) [] rfl (fun _ _ _ _ => rfl) 1

/-! ## The stack and branches -/

/-- Instructions on eight bytes that need no prefix for it. -/
theorem decodesTo_simple {d : Operand} (hd : d.IsRm 8) {opcode : List UInt8} {digit : UInt8}
    (hdigit : digit.toNat < 8) {e : Encoding}
    (h : (ModrmForm.simple opcode digit (some d)).encode = .ok e) (hop : IsFormOpcode opcode)
    {shape? : UInt8 → Option Shape} (hlook : ∀ c, lookup? c opcode = some (.modrm shape?)) {op : Op}
    (hs : shape? (digit &&& 7) = some ⟨op, [.rm 8], ⟨0⟩⟩) :
    e.DecodesTo (fun x => ⟨op, ⟨0⟩, [d.view x 8]⟩) d.symbol? := by
  refine ⟨fun v rest => ?_, ModrmForm.placed h⟩
  apply decode_shape h rfl hd.valid List.mem_cons_self hop (Nat.lt_trans hdigit (by decide))
    (fun c _ => hlook c) hs
  intro c hc
  simp only [readSlots, ModrmForm.simple, read_rm hd hc.fs hc.byte 8, List.nil_append,
    Option.bind_eq_bind, Option.bind_some]

/-- Indirect jumps and calls. -/
theorem decodesTo_indirect {op : Op} (hop : op = .jmp ∨ op = .call) {d : Operand}
    (hd : d.IsRm 8) {e : Encoding} (h : encodeIndirect op (some d) = .ok e) :
    e.DecodesTo (fun x => ⟨op, ⟨0⟩, [d.view x 8]⟩) d.symbol? := by
  have hform : (ModrmForm.simple [0xff] (if op == .jmp then 4 else 2) (some d)).encode = .ok e := by
    rcases hd with hd | hd
    · obtain ⟨r, rfl, -⟩ := hd.eq
      obtain ⟨u, -, h⟩ := bind_eq_ok.mp h
      exact h
    · obtain ⟨m, rfl, -⟩ := hd.eq
      exact h
  rcases hop with rfl | rfl <;>
    exact decodesTo_simple hd (by decide) hform (by decide) (fun _ => rfl) rfl

/-- Decoding an opcode without prefixes. -/
theorem decode_bare {opcode : UInt8} (hop : IsFormOpcode [opcode]) (rest : List UInt8) :
    decode (opcode :: rest) = (oneByte .empty opcode).bind fun q => q.read .empty rest :=
  decode_opcode false List.mem_cons_self ⟨false, false, false, false, false⟩ hop rest

/-- Pushing and popping a register. -/
theorem decodesTo_pushPop_reg {push : Bool} {r : Reg} (hid : r.id.toNat < 16) (hw : r.width = 8) :
    (Encoding.plain ((if r.isHigh then [0x41] else []) ++
      [(if push then 0x50 else 0x58) + r.code])).DecodesTo
      (fun _ => ⟨if push then .push else .pop, ⟨0⟩, [.reg r]⟩) none := by
  have hcode : r.code.toNat < 8 := and_seven_lt r.id
  obtain ⟨-, -, hpush, hpop⟩ := isFormOpcode_register hcode
  have hrex : (if r.isHigh then [0x41] else []) =
      Rex.bytes ⟨false, false, false, r.isHigh, r.needsBytePrefix⟩ := by
    have hbyte : r.needsBytePrefix = false := by simp [Reg.needsBytePrefix, hw]
    rw [hbyte]
    cases r.isHigh <;> rfl
  refine ⟨fun v rest => ?_, Encoding.plain_placed _⟩
  have hread : ∀ c f, readSlots c f [] ([] ++ rest) = some ([], rest) := fun _ _ => rfl
  rw [hrex, Encoding.plain_filled]
  cases push with
  | true =>
    have hdecode := decode_opcode_reg (w := false) hid List.mem_cons_self hpush []
      (fun c _ _ => hw ▸ (oneByte_register hcode c).2.2.1) hread
    simpa using hdecode
  | false =>
    have hdecode := decode_opcode_reg (w := false) hid List.mem_cons_self hpop []
      (fun c _ _ => hw ▸ (oneByte_register hcode c).2.2.2) hread
    simpa using hdecode

/-- Pushes and pops. -/
theorem decodesTo_pushPop {push : Bool} {d : Operand} (hd : d.IsRm 8 ∨ push = true ∧ d.IsImm)
    {e : Encoding} (h : encodePushPop push (some d) = .ok e) :
    e.DecodesTo (fun x => ⟨if push then .push else .pop, ⟨0⟩, [d.view x 8]⟩) d.symbol? := by
  rcases hd with (hd | hd) | ⟨rfl, hd⟩
  · obtain ⟨r, rfl, hid, hw⟩ := hd.eq
    obtain ⟨u, -, h⟩ := bind_eq_ok.mp h
    obtain rfl := Except.ok.inj h
    exact decodesTo_pushPop_reg hid hw
  · obtain ⟨m, rfl, -⟩ := hd.eq
    cases push with
    | true => exact decodesTo_simple (.inr hd) (by decide) h (by decide) (fun _ => rfl) rfl
    | false => exact decodesTo_simple (.inr hd) (by decide) h (by decide) (fun _ => rfl) rfl
  · obtain ⟨value, rfl⟩ := hd.eq
    have hbare : ∀ (opcode : UInt8) (field : List UInt8), IsFormOpcode [opcode] →
        oneByte .empty opcode = some (.plain ⟨.push, [.imm field.length 8], ⟨0⟩⟩) →
        Holds field 8 value → (Encoding.plain (opcode :: field)).DecodesTo
          (fun x => ⟨.push, ⟨0⟩, [(Operand.imm value).view x 8]⟩) none := by
      intro opcode field hop hlook hholds
      refine ⟨fun v rest => ?_, Encoding.plain_placed _⟩
      rw [Encoding.plain_filled, List.cons_append, decode_bare hop, hlook, Option.bind_some,
        Pattern.read, Shape.read]
      rw [readSlots_imm rfl hholds v.toInt32.toInt, Option.map_some]
    simp only [encodePushPop] at h
    split at h
    · rename_i hfits
      obtain rfl := Except.ok.inj h
      exact hbare 0x6a _ (by decide) rfl (holds_byte hfits 8)
    · obtain ⟨field, hfield, h⟩ := bind_eq_ok.mp h
      obtain rfl := Except.ok.inj h
      simp only [immBytes, show ((4 : UInt8) == 1) = false from rfl,
        show ((4 : UInt8) == 2) = false from rfl, Bool.false_eq_true, if_false] at hfield
      split at hfield
      · rename_i hfits
        obtain rfl := Except.ok.inj hfield
        exact hbare 0x68 _ (by decide) rfl (holds_word hfits 8)
      · simp at hfield

/-- The sign of rax in rdx. -/
theorem decodesTo_cqo {d : Option Operand} (hd : ∀ o ∈ d, ∃ w, IsWidth w ∧ o = .reg ⟨rax, w⟩)
    (cond : Cond) {e : Encoding} (h : (Inst.op .cqo cond d none none).encode = .ok e) :
    e.DecodesTo (fun x => ⟨.cqo, ⟨0⟩, [(d.getD (.reg ⟨rax, 8⟩)).view x 8]⟩) none := by
  cases d with
  | none =>
    obtain rfl := Except.ok.inj h
    exact ⟨fun _ _ => rfl, Encoding.plain_placed _⟩
  | some o =>
    obtain ⟨w, hw, rfl⟩ := hd o rfl
    rcases hw with rfl | rfl | rfl | rfl
    · simp [Inst.encode] at h
    all_goals
      obtain rfl := Except.ok.inj h
      exact ⟨fun _ _ => rfl, Encoding.plain_placed _⟩

end Backend.Machine
