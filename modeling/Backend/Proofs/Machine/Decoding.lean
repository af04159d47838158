-- Decoding what the instruction forms lay out: prefixes, the addressing bytes of every kind of
-- operand, and the bytes of a whole form up to the immediate.
import Backend.Machine.Encoding
import Backend.Proofs.Machine.Decoder
import Backend.Proofs.Machine.State

namespace Backend.Machine

open Decoder

/-! ## Bytes by their values -/

/-- A property of bytes below a bound is one of finitely many numbers. -/
theorem forall_byte_lt {P : UInt8 → Prop} {k : Nat} (h : ∀ n < k, P (UInt8.ofNat n)) {b : UInt8}
    (hb : b.toNat < k) : P b := by
  have hP := h b.toNat hb
  rwa [UInt8.ofNat_toNat] at hP

/-- The fields of a ModRM byte. -/
theorem modrm_fields {m r k : UInt8} (hm : m.toNat < 4) (hr : r.toNat < 8) (hk : k.toNat < 8) :
    (m <<< 6 ||| k ||| r <<< 3) >>> 6 = m ∧ (m <<< 6 ||| k ||| r <<< 3) >>> 3 &&& 7 = r ∧
      (m <<< 6 ||| k ||| r <<< 3) &&& 7 = k := by
  revert m r k
  have h : ∀ m < 4, ∀ r < 8, ∀ k < 8,
      let byte := UInt8.ofNat m <<< 6 ||| UInt8.ofNat k ||| UInt8.ofNat r <<< 3
      byte >>> 6 = UInt8.ofNat m ∧ byte >>> 3 &&& 7 = UInt8.ofNat r ∧
        byte &&& 7 = UInt8.ofNat k := by
    decide +kernel
  intro m r k hm hr hk
  have hall := h m.toNat hm r.toNat hr k.toNat hk
  simpa only [UInt8.ofNat_toNat] using hall

theorem and_seven_lt (b : UInt8) : (b &&& 7).toNat < 8 := by
  rw [UInt8.toNat_and]
  exact Nat.lt_of_le_of_lt Nat.and_le_right (by decide)

/-- A register number is its low bits and its high one. -/
theorem extend_eq {id : UInt8} (h : id.toNat < 16) :
    extend (decide (8 ≤ id)) (id &&& 7) = id ∧ extend (id &&& 8 != 0) (id &&& 7) = id := by
  revert id
  have h : ∀ n < 16, extend (decide (8 ≤ UInt8.ofNat n)) (UInt8.ofNat n &&& 7) = UInt8.ofNat n ∧
      extend (UInt8.ofNat n &&& 8 != 0) (UInt8.ofNat n &&& 7) = UInt8.ofNat n := by
    decide +kernel
  intro id hid
  have hall := h id.toNat hid
  simpa only [UInt8.ofNat_toNat] using hall

/-! ## Prefixes -/

/-- The byte is none of the legacy prefixes, no REX prefix and no VEX escape. -/
def IsOpcode (b : UInt8) : Prop :=
  b ≠ 0x64 ∧ b ≠ 0x66 ∧ b ≠ 0xf2 ∧ b ≠ 0xf3 ∧ b ≠ 0xc4 ∧ b >>> 4 ≠ 4

instance (b : UInt8) : Decidable (IsOpcode b) :=
  inferInstanceAs (Decidable (_ ∧ _ ∧ _ ∧ _ ∧ _ ∧ _))

/-- What the legacy prefixes of a form say. -/
def legacyContext (fs : Bool) (legacy : List UInt8) : Context :=
  { Context.empty with
    fs := fs, size := legacy == [0x66], repne := legacy == [0xf2], rep := legacy == [0xf3] }

/-- The legacy prefixes that forms have. -/
def legacies : List (List UInt8) := [[], [0x66], [0xf2], [0xf3]]

theorem legacyPrefixes_of_ne {b : UInt8} (h : b ≠ 0x64 ∧ b ≠ 0x66 ∧ b ≠ 0xf2 ∧ b ≠ 0xf3)
    (rest : List UInt8) : legacyPrefixes (b :: rest) = (.empty, b :: rest) := by
  simp [legacyPrefixes, h]

/-- Reading one legacy prefix. -/
theorem legacyPrefixes_cons (rest : List UInt8) :
    legacyPrefixes (0x64 :: rest) =
        ({ (legacyPrefixes rest).1 with fs := true }, (legacyPrefixes rest).2) ∧
      legacyPrefixes (0x66 :: rest) =
        ({ (legacyPrefixes rest).1 with size := true }, (legacyPrefixes rest).2) ∧
      legacyPrefixes (0xf2 :: rest) =
        ({ (legacyPrefixes rest).1 with repne := true }, (legacyPrefixes rest).2) ∧
      legacyPrefixes (0xf3 :: rest) =
        ({ (legacyPrefixes rest).1 with rep := true }, (legacyPrefixes rest).2) :=
  ⟨rfl, rfl, rfl, rfl⟩

theorem legacyPrefixes_form (fs : Bool) {legacy : List UInt8} (hl : legacy ∈ legacies) {b : UInt8}
    (hb : b ≠ 0x64 ∧ b ≠ 0x66 ∧ b ≠ 0xf2 ∧ b ≠ 0xf3) (rest : List UInt8) :
    legacyPrefixes (segmentMark fs ++ (legacy ++ b :: rest)) =
      (legacyContext fs legacy, b :: rest) := by
  have hbase := legacyPrefixes_of_ne hb rest
  simp only [legacies, List.mem_cons, List.not_mem_nil, or_false] at hl
  rcases hl with rfl | rfl | rfl | rfl <;> cases fs <;>
    simp only [segmentMark, Bool.false_eq_true, if_false, if_true, List.nil_append,
      List.cons_append, legacyPrefixes_cons, hbase] <;> rfl

/-- What a REX prefix adds. -/
def Rex.context (p : Rex) (c : Context) : Context :=
  { c with
    hasRex := p.w || p.r || p.x || p.b || p.force, w := p.w, r := p.r, x := p.x, b := p.b }

theorem rexPrefix_bytes (p : Rex) {c : Context}
    (hc : c.hasRex = false ∧ c.w = false ∧ c.r = false ∧ c.x = false ∧ c.b = false) {b : UInt8}
    (hb : b >>> 4 ≠ 4) (rest : List UInt8) :
    rexPrefix c (p.bytes ++ b :: rest) = (p.context c, b :: rest) := by
  obtain ⟨fs, size, repne, rep, hasRex, w, r, x, lowB⟩ := c
  obtain ⟨rfl, rfl, rfl, rfl, rfl⟩ := hc
  have hnone : rexPrefix ⟨fs, size, repne, rep, false, false, false, false, false⟩ (b :: rest) =
      (⟨fs, size, repne, rep, false, false, false, false, false⟩, b :: rest) := by
    simp [rexPrefix, hb]
  obtain ⟨pw, pr, px, pb, force⟩ := p
  cases pw <;> cases pr <;> cases px <;> cases pb <;> cases force <;> first | exact hnone | rfl

/-- A byte of a REX prefix is no other prefix. -/
theorem rex_not_legacy (p : Rex) :
    ∀ b ∈ p.bytes, b ≠ 0x64 ∧ b ≠ 0x66 ∧ b ≠ 0xf2 ∧ b ≠ 0xf3 ∧ b ≠ 0xc4 := by
  obtain ⟨pw, pr, px, pb, force⟩ := p
  cases pw <;> cases pr <;> cases px <;> cases pb <;> cases force <;> decide +kernel

/-! ## Displacements -/

theorem toNat_toUInt32 (v : Int32) : (v.toUInt32.toNat : Int) = v.toInt % 2 ^ 32 := by
  have h : v.toInt = if 2 * v.toUInt32.toNat < 2 ^ 32 then (v.toUInt32.toNat : Int)
      else (v.toUInt32.toNat : Int) - (2 ^ 32 : Nat) := BitVec.toInt_eq_toNat_cond v.toBitVec
  have hlt := v.toUInt32.toNat_lt
  split at h <;> omega

theorem toNat_toUInt64 (v : Int64) : (v.toUInt64.toNat : Int) = v.toInt % 2 ^ 64 := by
  have h : v.toInt = if 2 * v.toUInt64.toNat < 2 ^ 64 then (v.toUInt64.toNat : Int)
      else (v.toUInt64.toNat : Int) - (2 ^ 64 : Nat) := BitVec.toInt_eq_toNat_cond v.toBitVec
  have hlt := v.toUInt64.toNat_lt
  split at h <;> omega

theorem readInt_le32 (v : UInt32) (rest : List UInt8) :
    readInt 4 (le32 v ++ rest) = some (v.toInt32.toInt, rest) := by
  rw [readInt_append _ (length_le32 v), leNat_le32]
  have hv : v.toInt32.toInt = (v.toNat : Int).bmod (2 ^ 32) := BitVec.toInt_eq_toNat_bmod _
  rw [hv]
  norm_num

theorem readInt_byte {v : Int} {b : UInt8} (hv : -128 ≤ v ∧ v ≤ 127)
    (hb : (b.toNat : Int) = v % 256) (rest : List UInt8) :
    readInt 1 (b :: rest) = some (v, rest) := by
  rw [← List.singleton_append, readInt_append (n := 1) [b] rfl]
  have hbmod : ((leNat [b] : Nat) : Int).bmod (256 ^ 1) = v := by
    simp only [leNat_cons, leNat_nil, Nat.mul_zero, Nat.add_zero, hb, Nat.pow_one]
    rw [Int.bmod_def]
    split <;> omega
  rw [hbmod]

/-! ## Memory operands -/

/-- The register numbers of the address exist. -/
def Address.Valid : Address → Prop
  | .regs base index _ => (∀ r ∈ base, r.id.toNat < 16) ∧ ∀ p ∈ index, p.1.id.toNat < 16
  | _ => True

/-- The address as it is decoded when a symbolic displacement holds `d`. -/
def Address.view (d : Int) : Address → Decoder.Address
  | .regs base index disp => .regs (base.map Reg.id) (index.map fun p => (p.1.id, p.2)) disp.toInt
  | .rip _ => .rip d
  | .tls _ => .regs none none d

/-- The address is in the thread segment. -/
def Address.isTls : Address → Bool
  | .tls _ => true
  | _ => false

/-- The name of the symbol that an address refers to. -/
def Address.symbol? : Address → Option String
  | .rip symbol => some symbol
  | .tls symbol => some symbol
  | .regs _ _ _ => none

/-- The displacement bytes once the symbolic displacement is known. -/
def MemoryFields.filled (m : MemoryFields) (v : UInt32) : List UInt8 :=
  if m.symbol.isSome then le32 v else m.disp

theorem sib_fields {m r k : UInt8} (hm : m.toNat < 4) (hr : r.toNat < 8) (hk : k.toNat < 8) :
    (m <<< 6 ||| r <<< 3 ||| k) >>> 6 = m ∧ (m <<< 6 ||| r <<< 3 ||| k) >>> 3 &&& 7 = r ∧
      (m <<< 6 ||| r <<< 3 ||| k) &&& 7 = k := by
  have h := modrm_fields hm hr hk
  rwa [UInt8.or_assoc, UInt8.or_comm k, ← UInt8.or_assoc] at h

theorem scaleBits_ok {scale ss : UInt8} (h : scaleBits scale = .ok ss) :
    ss.toNat < 4 ∧ (1 : UInt8) <<< ss = scale := by
  unfold scaleBits at h
  split at h
  all_goals
    rename_i hs
    simp only [Except.ok.injEq, reduceCtorEq] at h
  all_goals
    subst h
    exact ⟨by decide, UInt8.toNat_inj.mp (by rw [hs]; rfl)⟩

theorem checkIndex_ok {r : Reg} {scale ss : UInt8} (h : checkIndex r scale = .ok ss) :
    r.id ≠ 4 ∧ ss.toNat < 4 ∧ (1 : UInt8) <<< ss = scale := by
  unfold checkIndex at h
  split at h
  · simp at h
  · split at h
    · simp at h
    · rename_i hid
      exact ⟨by simpa [rsp] using hid, scaleBits_ok h⟩

/-- The mod field and the displacement bytes that go with a base register. -/
theorem disp_fields (disp : Int32) (code : UInt8) :
    ∃ (m : UInt8) (field : List UInt8),
      (if disp == 0 && code != 5 then ((0x00 : UInt8), ([] : List UInt8))
        else if -128 ≤ disp && disp ≤ 127 then (0x40, [disp.toUInt32.toUInt8])
        else (0x80, le32 disp.toUInt32)) = (m <<< 6, field) ∧
      m.toNat < 3 ∧ (m = 0 → code ≠ 5) ∧
      ∀ rest, readDisp m (field ++ rest) = some (disp.toInt, rest) := by
  split
  · rename_i h
    simp only [Bool.and_eq_true, beq_iff_eq, bne_iff_ne] at h
    exact ⟨0, [], rfl, by decide, fun _ => h.2, fun rest => by simp [readDisp, h.1]⟩
  · split
    · rename_i h
      simp only [Bool.and_eq_true, decide_eq_true_eq] at h
      refine ⟨1, _, rfl, by decide, fun h => absurd h (by decide), fun rest => ?_⟩
      have hlow : (-128 : Int) ≤ disp.toInt := by simpa using Int32.le_iff_toInt_le.mp h.1
      have hhigh : disp.toInt ≤ 127 := by simpa using Int32.le_iff_toInt_le.mp h.2
      have hread : readDisp 1 ([disp.toUInt32.toUInt8] ++ rest) =
          readInt 1 (disp.toUInt32.toUInt8 :: rest) := rfl
      rw [hread]
      refine readInt_byte ⟨hlow, hhigh⟩ ?_ rest
      have hto := toNat_toUInt32 disp
      simp only [UInt32.toNat_toUInt8]
      omega
    · refine ⟨2, _, rfl, by decide, fun h => absurd h (by decide), fun rest => ?_⟩
      have hread : readDisp 2 (le32 disp.toUInt32 ++ rest) =
          readInt 4 (le32 disp.toUInt32 ++ rest) := rfl
      rw [hread, readInt_le32]
      rfl

theorem mod_ne_three {m : UInt8} (h : m.toNat < 3) : (m == 3) = false := by
  rw [beq_eq_false_iff_ne]
  rintro rfl
  exact absurd h (by decide)

/-- Decoding a base register without second byte. -/
theorem readRm_base {c : Context} {mod code : UInt8} {disp : Int} {bytes rest : List UInt8}
    (hm : mod.toNat < 3) (hcode : code ≠ 4) (hfive : mod = 0 → code ≠ 5)
    (hdisp : readDisp mod bytes = some (disp, rest)) :
    readRm c mod code bytes = some (.mem (.regs (some (extend c.b code)) none disp), rest) := by
  have hrip : (mod == 0 && code == 5) = false := by
    rw [Bool.and_eq_false_iff, beq_eq_false_iff_ne, beq_eq_false_iff_ne]
    by_cases h : mod = 0
    · exact .inr (hfive h)
    · exact .inl h
  simp only [readRm, mod_ne_three hm, hrip, hdisp, Bool.false_eq_true, if_false, Option.map_some,
    beq_eq_false_iff_ne.mpr hcode]

/-- Decoding a base register and the second byte. -/
theorem readRm_sib {c : Context} {mod k r code : UInt8} {disp : Int} {bytes rest : List UInt8}
    (hm : mod.toNat < 3) (hs : k.toNat < 4) (hr : r.toNat < 8) (hcode : code.toNat < 8)
    (hfive : mod = 0 → code ≠ 5) (hdisp : readDisp mod bytes = some (disp, rest)) :
    readRm c mod 4 ((k <<< 6 ||| r <<< 3 ||| code) :: bytes) =
      some (.mem (.regs (some (extend c.b code))
        (if extend c.x r == 4 then none else some (extend c.x r, (1 : UInt8) <<< k)) disp),
        rest) := by
  obtain ⟨h1, h2, h3⟩ := sib_fields hs hr hcode
  have hbase : (mod == 0 && code == 5) = false := by
    rw [Bool.and_eq_false_iff, beq_eq_false_iff_ne, beq_eq_false_iff_ne]
    by_cases h : mod = 0
    · exact .inr (hfive h)
    · exact .inl h
  simp only [readRm, mod_ne_three hm, Bool.false_eq_true, if_false, beq_self_eq_true, if_true,
    readSib, h1, h2, h3, hbase, hdisp, Option.map_some]

/-- Decoding an index register without base. -/
theorem readRm_index {c : Context} {k r : UInt8} {bytes : List UInt8} (hs : k.toNat < 4)
    (hr : r.toNat < 8) {disp : Int} {rest : List UInt8}
    (hdisp : readInt 4 bytes = some (disp, rest)) :
    readRm c 0 4 ((k <<< 6 ||| r <<< 3 ||| 5) :: bytes) =
      some (.mem (.regs none
        (if extend c.x r == 4 then none else some (extend c.x r, (1 : UInt8) <<< k)) disp),
        rest) := by
  obtain ⟨h1, h2, h3⟩ := sib_fields hs hr (k := 5) (by decide)
  simp only [readRm, mod_ne_three (m := 0) (by decide), Bool.false_eq_true, if_false,
    beq_self_eq_true, if_true, readSib, h1, h2, h3, Bool.and_self, hdisp, Option.map_some]

theorem Reg.extend_code {r : Reg} (h : r.id.toNat < 16) : extend r.isHigh r.code = r.id :=
  (extend_eq h).1

/-- The addressing bytes of a memory operand are read as an address. -/
def MemoryFields.ReadAs (m : MemoryFields) (addr : Address) : Prop :=
  ∃ mod k : UInt8, m.modrm = mod <<< 6 ||| k ∧ mod.toNat < 3 ∧ k.toNat < 8 ∧
    ∀ (v : UInt32) (c : Context) (rest : List UInt8), c.x = m.x → c.b = m.b →
      readRm c mod k (m.sib ++ (m.filled v ++ rest)) =
        some (.mem (addr.view v.toInt32.toInt), rest)

theorem readAs_index {r : Reg} {scale : UInt8} {disp : Int32} {m : MemoryFields}
    (h : memoryFields (.regs none (some (r, scale)) disp) = .ok m) (hr : r.id.toNat < 16) :
    m.ReadAs (.regs none (some (r, scale)) disp) := by
  have hext := r.extend_code hr
  obtain ⟨ss, hss, h⟩ := bind_eq_ok.mp h
  obtain rfl := Except.ok.inj h
  obtain ⟨hid, hs, rfl⟩ := checkIndex_ok hss
  refine ⟨0, 4, rfl, by decide, by decide, fun v c rest hx _ => ?_⟩
  have hsib := readRm_index (c := c) hs (and_seven_lt r.id) (readInt_le32 disp.toUInt32 rest)
  simp only [Reg.code] at hext
  simp only [show c.x = r.isHigh from hx, hext, beq_eq_false_iff_ne.mpr hid,
    Bool.false_eq_true, if_false] at hsib
  exact hsib

/-- A base register needs the second byte if there is an index, and also if its code is the one
that announces that byte. -/
theorem readAs_base {base : Reg} {index : Option (Reg × UInt8)} {disp : Int32} {m : MemoryFields}
    (h : memoryFields (.regs (some base) index disp) = .ok m) (hb : base.id.toNat < 16)
    (hi : ∀ p, index = some p → p.1.id.toNat < 16) :
    m.ReadAs (.regs (some base) index disp) := by
  have hext := base.extend_code hb
  obtain ⟨mod, field, hsplit, hm, hfive, hdisp⟩ := disp_fields disp base.code
  simp only [memoryFields, hsplit] at h
  split at h
  · simp [throw, throwThe, MonadExceptOf.throw, bind, Except.bind] at h
  · cases index with
    | some p =>
      obtain ⟨r, scale⟩ := p
      have hrext := r.extend_code (hi (r, scale) rfl)
      obtain ⟨ss, hss, h⟩ := bind_eq_ok.mp h
      obtain rfl := Except.ok.inj h
      obtain ⟨hid, hs, rfl⟩ := checkIndex_ok hss
      refine ⟨mod, 4, rfl, hm, by decide, fun v c rest hx hb => ?_⟩
      have hsib := readRm_sib (c := c) hm hs (and_seven_lt r.id) (and_seven_lt base.id) hfive
        (hdisp rest)
      simp only [Reg.code] at hrext hext
      simp only [show c.x = r.isHigh from hx, show c.b = base.isHigh from hb, hrext, hext,
        beq_eq_false_iff_ne.mpr hid, Bool.false_eq_true, if_false] at hsib
      exact hsib
    | none =>
      simp only at h
      split at h
      · rename_i hcode
        obtain rfl := Except.ok.inj h
        refine ⟨mod, 4, rfl, hm, by decide, fun v c rest hx hb => ?_⟩
        have hsib := readRm_sib (c := c) (k := 0) (r := 4) hm (by decide) (by decide)
          (and_seven_lt base.id) hfive (hdisp rest)
        simp only [Reg.code] at hext
        simp only [show c.x = false from hx, show c.b = base.isHigh from hb, hext] at hsib
        exact hsib
      · rename_i hcode
        obtain rfl := Except.ok.inj h
        refine ⟨mod, base.code, rfl, hm, and_seven_lt base.id, fun v c rest _ hb => ?_⟩
        have hrm := readRm_base (c := c) hm (by simpa using hcode) hfive (hdisp rest)
        rw [show c.b = base.isHigh from hb, hext] at hrm
        exact hrm

/-- Decoding the addressing bytes of a memory operand. -/
theorem readRm_memory {addr : Address} {m : MemoryFields} (h : memoryFields addr = .ok m)
    (valid : addr.Valid) : m.ReadAs addr := by
  cases addr with
  | rip symbol =>
    simp only [memoryFields] at h
    split at h
    · simp at h
    · obtain rfl := Except.ok.inj h
      refine ⟨0, 5, rfl, by decide, by decide, fun v c rest _ _ => ?_⟩
      simp [readRm, MemoryFields.filled, readInt_le32, Address.view]
  | tls symbol =>
    simp only [memoryFields] at h
    split at h
    · simp at h
    · obtain rfl := Except.ok.inj h
      refine ⟨0, 4, rfl, by decide, by decide, fun v c rest hx _ => ?_⟩
      have hsib : readRm c 0 4 (0x25 :: (le32 v ++ rest)) = _ :=
        readRm_index (k := 0) (r := 4) (by decide) (by decide) (readInt_le32 v rest)
      have hx : c.x = false := hx
      simpa [MemoryFields.filled, Address.view, hx, extend] using hsib
  | regs base index disp =>
    obtain ⟨hvb, hvi⟩ := valid
    cases base with
    | some base => exact readAs_base h (hvb base rfl) hvi
    | none =>
      cases index with
      | none => simp [memoryFields] at h
      | some p => exact readAs_index h (hvi p rfl)

/-! ## Forms -/

/-- The pattern of an opcode of one or two bytes. -/
def lookup? (c : Context) : List UInt8 → Option Pattern
  | [b] => oneByte c b
  | [_, b] => twoByte c b
  | _ => none

/-- The opcodes that forms have: one byte, or two of which the first is 0F. -/
def IsFormOpcode : List UInt8 → Prop
  | [b] => IsOpcode b ∧ b ≠ 0x0f
  | [a, _] => a = 0x0f
  | _ => False

instance (opcode : List UInt8) : Decidable (IsFormOpcode opcode) :=
  match opcode with
  | [] => inferInstanceAs (Decidable False)
  | [b] => inferInstanceAs (Decidable (IsOpcode b ∧ b ≠ 0x0f))
  | [a, _] => inferInstanceAs (Decidable (a = 0x0f))
  | _ :: _ :: _ :: _ => inferInstanceAs (Decidable False)

theorem isFormOpcode_iff {opcode : List UInt8} :
    IsFormOpcode opcode ↔
      (∃ b, opcode = [b] ∧ IsOpcode b ∧ b ≠ 0x0f) ∨ ∃ b, opcode = [0x0f, b] := by
  match opcode with
  | [] => simp [IsFormOpcode]
  | [b] => simp [IsFormOpcode]
  | [a, b] => simp [IsFormOpcode]
  | _ :: _ :: _ :: _ => simp [IsFormOpcode]

theorem rex_append (p : Rex) {b : UInt8} (hb : IsOpcode b) (rest : List UInt8) :
    ∃ d tail, p.bytes ++ b :: rest = d :: tail ∧
      (d ≠ 0x64 ∧ d ≠ 0x66 ∧ d ≠ 0xf2 ∧ d ≠ 0xf3) ∧ d ≠ 0xc4 := by
  cases hp : p.bytes with
  | nil => exact ⟨b, rest, rfl, ⟨hb.1, hb.2.1, hb.2.2.1, hb.2.2.2.1⟩, hb.2.2.2.2.1⟩
  | cons d tail =>
    obtain ⟨h1, h2, h3, h4, h5⟩ := rex_not_legacy p d (by simp [hp])
    exact ⟨d, _, rfl, ⟨h1, h2, h3, h4⟩, h5⟩

/-- Decoding up to the opcode. -/
theorem decode_opcode (fs : Bool) {legacy : List UInt8} (hl : legacy ∈ legacies) (p : Rex)
    {opcode : List UInt8} (hop : IsFormOpcode opcode) (rest : List UInt8) :
    decode (segmentMark fs ++ (legacy ++ (p.bytes ++ (opcode ++ rest)))) =
      (lookup? (p.context (legacyContext fs legacy)) opcode).bind fun q =>
        q.read (p.context (legacyContext fs legacy)) rest := by
  obtain ⟨b, after, happ, hb⟩ : ∃ b after, opcode ++ rest = b :: after ∧ IsOpcode b := by
    rcases isFormOpcode_iff.mp hop with ⟨b, rfl, hb, -⟩ | ⟨b, rfl⟩
    · exact ⟨b, rest, rfl, hb⟩
    · exact ⟨0x0f, b :: rest, rfl, by decide⟩
  obtain ⟨d, tail, hd, hlegacy, hvex⟩ := rex_append p hb after
  have hrex := rexPrefix_bytes p (c := legacyContext fs legacy) ⟨rfl, rfl, rfl, rfl, rfl⟩
    hb.2.2.2.2.2 after
  unfold decode
  rw [happ, hd, legacyPrefixes_form fs hl hlegacy]
  have hhead : ((d :: tail).head? == some 0xc4) = false := by simpa using hvex
  rw [hd] at hrex
  simp only [hhead, Bool.false_eq_true, if_false, hrex]
  rcases isFormOpcode_iff.mp hop with ⟨b', rfl, -, hne⟩ | ⟨b', rfl⟩
  · simp only [List.cons_append, List.nil_append, List.cons.injEq] at happ
    obtain ⟨rfl, rfl⟩ := happ
    simp [hne, lookup?]
  · simp only [List.cons_append, List.nil_append, List.cons.injEq] at happ
    obtain ⟨rfl, rfl⟩ := happ
    simp [lookup?]

/-- Reading a ModRM byte and what it refers to. -/
theorem readModrm_fields {c : Context} {shape? : UInt8 → Option Shape} {mod k reg vvvv : UInt8}
    {rm : Rm} {bytes rest : List UInt8} (hm : mod.toNat < 4) (hk : k.toNat < 8)
    (hreg : reg.toNat < 16) (hr : c.r = (reg &&& 8 != 0))
    (hrm : readRm c mod k bytes = some (rm, rest)) :
    readModrm c shape? vvvv ((mod <<< 6 ||| k ||| (reg &&& 7) <<< 3) :: bytes) =
      (shape? (reg &&& 7)).bind fun s => s.read c ⟨reg, some rm, vvvv⟩ rest := by
  obtain ⟨h1, h2, h3⟩ := modrm_fields hm (and_seven_lt reg) hk
  simp only [readModrm, h1, h2, h3, hrm, Option.bind_eq_bind, Option.bind_some, hr,
    (extend_eq hreg).2]

/-- The bytes of an encoding once its symbolic displacement is known. -/
def Encoding.filled (e : Encoding) (v : UInt32) : List UInt8 :=
  match e.fixup with
  | none => e.bytes
  | some f => overwrite e.bytes f.offset (le32 v)

/-- What an operand in the rm field is decoded to when a symbolic displacement holds `v`. -/
def Operand.rm (v : UInt32) : Operand → Rm
  | .xmm x => .reg x.id
  | .mem m => .mem (m.addr.view v.toInt32.toInt)
  | .reg r => .reg r.id
  | _ => .reg 0

/-- The operand can stand in the rm field. -/
def Operand.ValidRm : Operand → Prop
  | .reg r => r.id.toNat < 16
  | .xmm x => x.id.toNat < 16
  | .mem m => m.addr.Valid
  | _ => False

/-- The symbol that an operand refers to, and whether it is thread-local. -/
def Operand.symbol? : Operand → Option (String × Bool)
  | .mem m => m.addr.symbol?.map fun name => (name, m.addr.isTls)
  | _ => none

/-- The operand is in the thread segment. -/
def Operand.isTls : Operand → Bool
  | .mem m => m.addr.isTls
  | _ => false

/-- The place of a symbolic displacement is a zero field, and nothing but the bytes counted as
trailing follows it. -/
structure Encoding.Placed (e : Encoding) (symbol? : Option (String × Bool)) : Prop where
  symbol : (e.fixup.map fun f => (f.symbol, f.isTls)) = symbol?
  ends : ∀ f ∈ e.fixup, f.offset + 4 + f.trailing = e.bytes.length
  zero : ∀ f ∈ e.fixup, (e.bytes.drop f.offset).take 4 = [0, 0, 0, 0]

/-- What memory fields say of the symbol of their address. -/
theorem memoryFields_symbol {addr : Address} {m : MemoryFields} (h : memoryFields addr = .ok m) :
    m.symbol = addr.symbol? ∧ m.isTls = addr.isTls ∧
      (m.symbol ≠ none → m.disp = [0, 0, 0, 0]) := by
  have hplain : m.symbol = none → m.isTls = false → (∀ base index disp,
      addr = .regs base index disp → m.symbol = addr.symbol? ∧ m.isTls = addr.isTls ∧
        (m.symbol ≠ none → m.disp = [0, 0, 0, 0])) := by
    rintro hs ht base index disp rfl
    exact ⟨hs, ht, fun hne => absurd hs hne⟩
  cases addr with
  | rip symbol | tls symbol =>
    simp only [memoryFields] at h
    split at h
    · simp at h
    · obtain rfl := Except.ok.inj h
      exact ⟨rfl, rfl, fun _ => rfl⟩
  | regs base index disp =>
    cases base with
    | none =>
      cases index with
      | none => simp [memoryFields] at h
      | some p =>
        obtain ⟨ss, -, h⟩ := bind_eq_ok.mp h
        obtain rfl := Except.ok.inj h
        exact hplain rfl rfl _ _ _ rfl
    | some base =>
      obtain ⟨mod, field, hsplit, -⟩ := disp_fields disp base.code
      simp only [memoryFields, hsplit] at h
      split at h
      · simp [throw, throwThe, MonadExceptOf.throw, bind, Except.bind] at h
      · cases index with
        | some p =>
          obtain ⟨ss, -, h⟩ := bind_eq_ok.mp h
          obtain rfl := Except.ok.inj h
          exact hplain rfl rfl _ _ _ rfl
        | none =>
          simp only at h
          split at h
          · obtain rfl := Except.ok.inj h
            exact hplain rfl rfl _ _ _ rfl
          · obtain rfl := Except.ok.inj h
            exact hplain rfl rfl _ _ _ rfl

/-- A byte register in the reg field asks for a prefix. -/
def ModrmForm.forces (f : ModrmForm) : Bool :=
  f.regByte && decide (4 ≤ f.reg) && decide (f.reg ≤ 7)

/-- The REX prefix of a form. -/
def ModrmForm.rex (f : ModrmForm) (x b force : Bool) : Rex := ⟨f.w, f.reg &&& 8 != 0, x, b, force⟩

/-- The parts of an encoded form. -/
structure ModrmForm.Parts (f : ModrmForm) (o : Operand) (e : Encoding) (x b force : Bool)
    (mod k : UInt8) (tail : UInt32 → List UInt8) : Prop where
  bytes : ∀ v, e.filled v = segmentMark o.isTls ++ (f.legacy ++ ((f.rex x b force).bytes ++
    (f.opcode ++ (mod <<< 6 ||| k ||| (f.reg &&& 7) <<< 3) :: (tail v ++ f.imm))))
  forced : f.forces = true → force = true
  byte : ∀ r, o = .reg r → r.needsBytePrefix = true → force = true
  modBound : mod.toNat < 4
  rmBound : k.toNat < 8
  read : ∀ (v : UInt32) (c : Context) (rest : List UInt8), c.x = x → c.b = b →
    readRm c mod k (tail v ++ rest) = some (o.rm v, rest)

theorem filled_assemble (f : ModrmForm) (p : Rex) (modrm : UInt8) {m : MemoryFields}
    (hm : m.symbol ≠ none → m.disp = [0, 0, 0, 0]) (v : UInt32) :
    (f.assemble p modrm (some m)).filled v = segmentMark m.isTls ++ (f.legacy ++ (p.bytes ++
      (f.opcode ++ (modrm ||| (f.reg &&& 7) <<< 3) :: (m.sib ++ m.filled v ++ f.imm)))) := by
  cases hs : m.symbol with
  | none => simp [ModrmForm.assemble, Encoding.filled, hs, MemoryFields.filled]
  | some symbol =>
    simp only [ModrmForm.assemble, Encoding.filled, hs, Option.map_some, Option.bind_some,
      Option.getD_some, MemoryFields.filled, Option.isSome_some, if_true,
      hm (by simp [hs])]
    rw [overwrite_append _ [0, 0, 0, 0] f.imm (le32 v) rfl]
    simp

/-- The place of the symbolic displacement of a form. -/
theorem placed_assemble (f : ModrmForm) (p : Rex) (modrm : UInt8) {m : MemoryFields}
    (hm : m.symbol ≠ none → m.disp = [0, 0, 0, 0]) :
    (f.assemble p modrm (some m)).Placed (m.symbol.map fun name => (name, m.isTls)) := by
  cases hs : m.symbol with
  | none => exact ⟨by simp [ModrmForm.assemble, hs], by simp [ModrmForm.assemble, hs],
      by simp [ModrmForm.assemble, hs]⟩
  | some symbol =>
    have hdisp := hm (by simp [hs])
    refine ⟨by simp [ModrmForm.assemble, hs], ?_, ?_⟩
    · simp only [ModrmForm.assemble, hs, Option.bind_some, Option.map_some, Option.mem_def,
        Option.some.injEq, forall_eq', Option.getD_some, hdisp, List.length_append]
      simp
    · simp only [ModrmForm.assemble, hs, Option.bind_some, Option.map_some, Option.mem_def,
        Option.some.injEq, forall_eq', Option.getD_some, hdisp]
      exact range_append _ [0, 0, 0, 0] f.imm

/-- The place of the symbolic displacement of an encoded form. -/
theorem ModrmForm.placed {f : ModrmForm} {e : Encoding} (h : f.encode = .ok e) :
    e.Placed (f.rm.bind Operand.symbol?) := by
  cases ho : f.rm with
  | none => simp [ModrmForm.encode, ho] at h
  | some o =>
    cases o with
    | reg r | xmm x =>
      simp only [ModrmForm.encode, ho] at h
      obtain rfl := Except.ok.inj h
      exact ⟨rfl, by simp [assemble], by simp [assemble]⟩
    | mem m =>
      simp only [ModrmForm.encode, ho] at h
      obtain ⟨fields, hfields, h⟩ := bind_eq_ok.mp h
      obtain rfl := Except.ok.inj h
      obtain ⟨hsym, htls, hdisp⟩ := memoryFields_symbol hfields
      have hplaced := placed_assemble f ⟨f.w, f.reg &&& 8 != 0, fields.x, fields.b, f.forces⟩
        fields.modrm hdisp
      rw [hsym, htls] at hplaced
      exact hplaced
    | imm value | target t => simp [ModrmForm.encode, ho] at h

/-- A form that can be encoded has its parts in place. -/
theorem ModrmForm.exists_parts {f : ModrmForm} {e : Encoding} (h : f.encode = .ok e) {o : Operand}
    (ho : f.rm = some o) (valid : o.ValidRm) :
    ∃ x b force mod k tail, f.Parts o e x b force mod k tail := by
  cases o with
  | reg r =>
    simp only [ModrmForm.encode, ho] at h
    obtain rfl := Except.ok.inj h
    refine ⟨false, r.isHigh, f.forces || r.needsBytePrefix, 3, r.code, fun _ => [], fun v => ?_,
      ?_, ?_, by decide, and_seven_lt r.id, fun v c rest _ hb => ?_⟩
    · simp only [assemble, Encoding.filled, Operand.isTls, Option.map_none, Option.bind_none,
        Option.getD_none, List.append_assoc, List.nil_append, List.cons_append]
      rfl
    · intro hf
      simp [hf]
    · rintro r' hr' hbyte
      obtain rfl := Operand.reg.inj hr'
      simp [hbyte]
    · have hext := r.extend_code valid
      simp only [readRm, beq_self_eq_true, if_true, hb, hext, List.nil_append, Operand.rm]
  | xmm x =>
    simp only [ModrmForm.encode, ho] at h
    obtain rfl := Except.ok.inj h
    refine ⟨false, x.isHigh, f.forces, 3, x.code, fun _ => [], fun v => ?_, id, by simp,
      by decide, and_seven_lt x.id, fun v c rest _ hb => ?_⟩
    · simp only [assemble, Encoding.filled, Operand.isTls, Option.map_none, Option.bind_none,
        Option.getD_none, List.append_assoc, List.nil_append, List.cons_append]
      rfl
    · have hext : extend x.isHigh x.code = x.id := (extend_eq valid).1
      simp only [readRm, beq_self_eq_true, if_true, hb, hext, List.nil_append, Operand.rm]
  | mem m =>
    simp only [ModrmForm.encode, ho] at h
    obtain ⟨fields, hfields, h⟩ := bind_eq_ok.mp h
    obtain rfl := Except.ok.inj h
    obtain ⟨-, htls, hdisp⟩ := memoryFields_symbol hfields
    obtain ⟨mod, k, hmodrm, hm, hk, hread⟩ := readRm_memory hfields valid
    refine ⟨fields.x, fields.b, f.forces, mod, k, fun v => fields.sib ++ fields.filled v,
      fun v => ?_, id, by simp, by omega, hk, fun v c rest hx hb => ?_⟩
    · rw [← hmodrm, Operand.isTls, ← htls]
      exact filled_assemble f _ fields.modrm hdisp v
    · rw [List.append_assoc]
      exact hread v c rest hx hb
  | imm value => exact absurd valid id
  | target t => exact absurd valid id

/-- What the prefixes of a form say about its operands. -/
structure ModrmForm.Reads (f : ModrmForm) (o : Operand) (c : Context) : Prop where
  fs : c.fs = o.isTls
  w : c.w = f.w
  size : c.size = (f.legacy == [0x66])
  repne : c.repne = (f.legacy == [0xf2])
  rep : c.rep = (f.legacy == [0xf3])
  force : f.forces = true → c.hasRex = true
  byte : ∀ r, o = .reg r → r.needsBytePrefix = true → c.hasRex = true

/-- Decoding a form up to its immediate. -/
theorem decode_form {f : ModrmForm} {e : Encoding} (h : f.encode = .ok e) {o : Operand}
    (ho : f.rm = some o) (valid : o.ValidRm) (hl : f.legacy ∈ legacies)
    (hop : IsFormOpcode f.opcode) (hreg : f.reg.toNat < 16) {shape? : UInt8 → Option Shape}
    (hshape : ∀ c, f.Reads o c → lookup? c f.opcode = some (.modrm shape?)) (v : UInt32)
    (rest : List UInt8) :
    ∃ c, f.Reads o c ∧ decode (e.filled v ++ rest) = (shape? (f.reg &&& 7)).bind fun s =>
      s.read c ⟨f.reg, some (o.rm v), 0⟩ (f.imm ++ rest) := by
  obtain ⟨x, b, force, mod, k, tail, parts⟩ := ModrmForm.exists_parts h ho valid
  have hreads : f.Reads o ((f.rex x b force).context (legacyContext o.isTls f.legacy)) :=
    ⟨rfl, rfl, rfl, rfl, rfl, fun hf => by simp [Rex.context, ModrmForm.rex, parts.forced hf],
      fun r hr hb => by simp [Rex.context, ModrmForm.rex, parts.byte r hr hb]⟩
  refine ⟨_, hreads, ?_⟩
  have hrm : readModrm _ shape? 0 _ = _ := readModrm_fields parts.modBound parts.rmBound hreg
    (c := (f.rex x b force).context (legacyContext o.isTls f.legacy)) rfl
    (parts.read v _ (f.imm ++ rest) rfl rfl)
  rw [parts.bytes]
  simp only [List.append_assoc, List.cons_append]
  rw [decode_opcode o.isTls hl _ hop, hshape _ hreads, Option.bind_some, Pattern.read, hrm]

/-! ## VEX forms -/

/-- The first VEX byte holds the register extensions inverted. -/
theorem vex_extensions (r x b : Bool) :
    let byte : UInt8 := 0x02 ||| (if r then 0x80 else 0) ||| (if x then 0 else 0x40) |||
      (if b then 0 else 0x20)
    byte &&& 0x1f = 2 ∧ bit byte 7 = r ∧ bit byte 6 = !x ∧ bit byte 5 = !b := by
  revert r x b
  decide

/-- The second VEX byte holds a register inverted. -/
theorem vex_register (w : Bool) {n : UInt8} (hn : n.toNat < 16) :
    let byte : UInt8 := (~~~n &&& 0x0f) <<< 3 ||| 0x01 ||| (if w then 0x80 else 0)
    byte &&& 7 = 1 ∧ bit byte 7 = w ∧ ~~~(byte >>> 3) &&& 15 = n := by
  have h : ∀ w : Bool, ∀ n < 16,
      let byte : UInt8 := (~~~(UInt8.ofNat n) &&& 0x0f) <<< 3 ||| 0x01 ||| (if w then 0x80 else 0)
      byte &&& 7 = 1 ∧ bit byte 7 = w ∧ ~~~(byte >>> 3) &&& 15 = UInt8.ofNat n := by
    decide +kernel
  have hall := h w n.toNat hn
  simpa only [UInt8.ofNat_toNat] using hall

/-- The parts of an encoded VEX form. -/
structure VexForm.Parts (f : VexForm) (o : Operand) (e : Encoding) (x b : Bool) (mod k : UInt8)
    (tail : UInt32 → List UInt8) : Prop where
  bytes : ∀ v, e.filled v = segmentMark o.isTls ++ ([(0xc4 : UInt8),
    0x02 ||| (if f.reg &&& 8 == 0 then 0x80 else 0) ||| (if x then 0 else 0x40) |||
      (if b then 0 else 0x20),
    (~~~f.vvvv &&& 0x0f) <<< 3 ||| 0x01 ||| (if f.w then 0x80 else 0), f.opcode,
    mod <<< 6 ||| k ||| (f.reg &&& 7) <<< 3] ++ tail v)
  modBound : mod.toNat < 4
  rmBound : k.toNat < 8
  read : ∀ (v : UInt32) (c : Context) (rest : List UInt8), c.x = x → c.b = b →
    readRm c mod k (tail v ++ rest) = some (o.rm v, rest)

/-- The place of the symbolic displacement of a VEX form, and its bytes. -/
theorem vex_assemble (f : VexForm) (x b : Bool) (modrm : UInt8) {m : MemoryFields}
    (hm : m.symbol ≠ none → m.disp = [0, 0, 0, 0]) :
    (f.assemble x b modrm (some m)).Placed (m.symbol.map fun name => (name, m.isTls)) ∧
      ∀ v, (f.assemble x b modrm (some m)).filled v = segmentMark m.isTls ++ ([(0xc4 : UInt8),
        0x02 ||| (if f.reg &&& 8 == 0 then 0x80 else 0) ||| (if x then 0 else 0x40) |||
          (if b then 0 else 0x20),
        (~~~f.vvvv &&& 0x0f) <<< 3 ||| 0x01 ||| (if f.w then 0x80 else 0), f.opcode,
        modrm ||| (f.reg &&& 7) <<< 3] ++ (m.sib ++ m.filled v)) := by
  cases hs : m.symbol with
  | none =>
    refine ⟨⟨by simp [VexForm.assemble, hs], by simp [VexForm.assemble, hs],
      by simp [VexForm.assemble, hs]⟩, fun v => ?_⟩
    simp [VexForm.assemble, Encoding.filled, hs, MemoryFields.filled]
  | some symbol =>
    have hdisp := hm (by simp [hs])
    refine ⟨⟨by simp [VexForm.assemble, hs], ?_, ?_⟩, fun v => ?_⟩
    · simp only [VexForm.assemble, hs, Option.bind_some, Option.map_some, Option.mem_def,
        Option.some.injEq, forall_eq', Option.getD_some, hdisp, List.length_append]
      simp
    · simp only [VexForm.assemble, hs, Option.bind_some, Option.map_some, Option.mem_def,
        Option.some.injEq, forall_eq', Option.getD_some, hdisp]
      simp
    · simp only [VexForm.assemble, Encoding.filled, hs, Option.map_some, Option.bind_some,
        Option.getD_some, MemoryFields.filled, Option.isSome_some, if_true, hdisp]
      have hover := fun head : List UInt8 => overwrite_append head [0, 0, 0, 0] [] (le32 v) rfl
      simp only [List.append_nil] at hover
      rw [hover]
      simp

/-- The place of the symbolic displacement of an encoded VEX form. -/
theorem VexForm.placed {f : VexForm} {e : Encoding} (h : f.encode = .ok e) :
    e.Placed (f.rm.bind Operand.symbol?) := by
  cases ho : f.rm with
  | none => simp [VexForm.encode, ho] at h
  | some o =>
    cases o with
    | xmm x =>
      simp only [VexForm.encode, ho] at h
      obtain rfl := Except.ok.inj h
      exact ⟨rfl, by simp [assemble], by simp [assemble]⟩
    | mem m =>
      simp only [VexForm.encode, ho] at h
      obtain ⟨fields, hfields, h⟩ := bind_eq_ok.mp h
      obtain rfl := Except.ok.inj h
      obtain ⟨hsym, htls, hdisp⟩ := memoryFields_symbol hfields
      have hplaced := (vex_assemble f fields.x fields.b fields.modrm hdisp).1
      rw [hsym, htls] at hplaced
      exact hplaced
    | reg r | imm value | target t => simp [VexForm.encode, ho] at h

/-- A VEX form that can be encoded has its parts in place. -/
theorem VexForm.exists_parts {f : VexForm} {e : Encoding} (h : f.encode = .ok e) {o : Operand}
    (ho : f.rm = some o) (valid : o.ValidRm) :
    ∃ x b mod k tail, f.Parts o e x b mod k tail := by
  cases o with
  | xmm x =>
    simp only [VexForm.encode, ho] at h
    obtain rfl := Except.ok.inj h
    refine ⟨false, x.isHigh, 3, x.code, fun _ => [], fun v => ?_, by decide, and_seven_lt x.id,
      fun v c rest _ hb => ?_⟩
    · simp only [assemble, Encoding.filled, Operand.isTls, Option.map_none, Option.bind_none,
        Option.getD_none, List.append_nil]
      rfl
    · have hext : extend x.isHigh x.code = x.id := (extend_eq valid).1
      simp only [readRm, beq_self_eq_true, if_true, hb, hext, List.nil_append, Operand.rm]
  | mem m =>
    simp only [VexForm.encode, ho] at h
    obtain ⟨fields, hfields, h⟩ := bind_eq_ok.mp h
    obtain rfl := Except.ok.inj h
    obtain ⟨-, htls, hdisp⟩ := memoryFields_symbol hfields
    obtain ⟨mod, k, hmodrm, hm, hk, hread⟩ := readRm_memory hfields valid
    obtain ⟨-, hbytes⟩ := vex_assemble f fields.x fields.b fields.modrm hdisp
    refine ⟨fields.x, fields.b, mod, k, fun v => fields.sib ++ fields.filled v, fun v => ?_,
      by omega, hk, fun v c rest hx hb => ?_⟩
    · rw [← hmodrm, Operand.isTls, ← htls]
      exact hbytes v
    · rw [List.append_assoc]
      exact hread v c rest hx hb
  | reg r | imm value | target t => simp [VexForm.encode, ho] at h

/-- Decoding a VEX form. -/
theorem decode_vex {f : VexForm} {e : Encoding} (h : f.encode = .ok e) {o : Operand}
    (ho : f.rm = some o) (valid : o.ValidRm) (hreg : f.reg.toNat < 16)
    (hv : f.vvvv.toNat < 16) (v : UInt32) (rest : List UInt8) :
    ∃ c : Context, c.fs = o.isTls ∧ decode (e.filled v ++ rest) =
      (vexOpcode (if f.w then 8 else 4) f.opcode).bind fun s =>
        s.read c ⟨f.reg, some (o.rm v), f.vvvv⟩ rest := by
  obtain ⟨x, b, mod, k, tail, parts⟩ := VexForm.exists_parts h ho valid
  obtain ⟨h1, h2, h3, h4⟩ := vex_extensions (f.reg &&& 8 == 0) x b
  obtain ⟨h5, h6, h7⟩ := vex_register f.w hv
  let c : Context := { legacyContext o.isTls [] with
    w := f.w, r := f.reg &&& 8 != 0, x := x, b := b }
  have hrm : readModrm c (fun _ => vexOpcode (if f.w then 8 else 4) f.opcode) f.vvvv _ = _ :=
    readModrm_fields parts.modBound parts.rmBound hreg rfl (parts.read v c rest rfl rfl)
  refine ⟨c, rfl, ?_⟩
  rw [parts.bytes]
  simp only [List.append_assoc, List.cons_append, List.nil_append]
  have hlegacy := legacyPrefixes_form o.isTls (b := 0xc4) List.mem_cons_self (by decide)
  simp only [List.nil_append] at hlegacy
  unfold decode
  simp only [hlegacy, List.head?_cons, beq_self_eq_true, if_true, List.tail_cons, readVex, h1, h2,
    h3, h4, h5, h6, h7, Bool.and_self, Bool.not_not]
  exact hrm

end Backend.Machine
