-- The bytes of texts, and their quoted form. The form of a text is that of its characters one after
-- the other, and a text is known by its bytes. Quoting loses nothing: what is read from the quoted
-- form of a byte string is that byte string, whatever follows the closing quote.
import Backend.Text.Quoted
import Backend.Text.Utf8
import Mathlib.Algebra.Group.Nat.Defs

namespace Backend.Text

/-! ## Bytes of texts -/

/-- Bytes are listed in the order of their positions. -/
theorem toList_loop (bytes : ByteArray) (i : Nat) (read : List UInt8) :
    ByteArray.toList.loop bytes i read = read.reverse ++ bytes.data.toList.drop i := by
  fun_induction ByteArray.toList.loop bytes i read with
  | case1 i read hi ih =>
    have hi' : i < bytes.data.toList.length := by
      rwa [Array.length_toList, ByteArray.size_data]
    have hget : bytes.get! i = bytes.data.toList[i] := by
      simp only [ByteArray.get!, Array.getElem_toList]
      exact getElem!_pos bytes.data i hi
    rw [ih, List.reverse_cons, List.append_assoc, List.singleton_append, hget,
      List.getElem_cons_drop hi']
  | case2 i read hi =>
    have hi' : bytes.data.toList.length ≤ i := by
      rwa [Array.length_toList, ByteArray.size_data, ← Nat.not_lt]
    rw [List.drop_eq_nil_of_le hi', List.append_nil]

theorem utf8_eq (s : String) : utf8 s = s.toByteArray.data.toList := by
  unfold utf8 ByteArray.toList
  rw [toList_loop]
  simp

theorem utf8_append (s t : String) : utf8 (s ++ t) = utf8 s ++ utf8 t := by
  simp [utf8_eq, String.toByteArray_append]

theorem utf8_inj {s t : String} : utf8 s = utf8 t ↔ s = t := by
  rw [utf8_eq, utf8_eq, Array.toList_inj, ByteArray.ext_iff.symm, String.toByteArray_inj]

theorem utf8Char_eq (c : Char) : utf8Char c = String.utf8EncodeChar c := by
  unfold utf8Char
  rw [utf8_eq, String.toByteArray_singleton, List.utf8Encode_singleton,
    List.toList_data_toByteArray]

/-! ## Characters among bytes -/

/-- The bytes of a character or of a byte that belongs to none. -/
def Utf8Item.bytes : Utf8Item → List UInt8
  | .char c => utf8Char c
  | .stray b => [b]

theorem continuation?_eq_some {b : UInt8} {n : Nat} (h : continuation? b = some n) :
    b.toNat = n + 0x80 ∧ n < 64 := by
  unfold continuation? at h
  split at h
  · rename_i hb
    simp only [Bool.and_eq_true, decide_eq_true_eq, UInt8.le_iff_toNat_le] at hb
    simp only [Option.some.injEq] at h
    have h1 : (0x80 : UInt8).toNat = 128 := rfl
    have h2 : (0xbf : UInt8).toNat = 191 := rfl
    omega
  · cases h

theorem toNat_ofNat {n : Nat} (h : n.isValidChar) : (Char.ofNat n).toNat = n := by
  unfold Char.ofNat
  rw [dif_pos h]
  rfl

theorem utf8EncodeChar_ofNat {n : Nat} (h : n.isValidChar) :
    String.utf8EncodeChar (Char.ofNat n) =
      if n ≤ 0x7f then [UInt8.ofNat n]
      else if n ≤ 0x7ff then [UInt8.ofNat (n / 64 % 0x20 + 0xc0), UInt8.ofNat (n % 64 + 0x80)]
      else if n ≤ 0xffff then
        [UInt8.ofNat (n / 4096 % 0x10 + 0xe0), UInt8.ofNat (n / 64 % 64 + 0x80),
          UInt8.ofNat (n % 64 + 0x80)]
      else
        [UInt8.ofNat (n / 262144 % 0x08 + 0xf0), UInt8.ofNat (n / 4096 % 64 + 0x80),
          UInt8.ofNat (n / 64 % 64 + 0x80), UInt8.ofNat (n % 64 + 0x80)] := by
  have hval : (Char.ofNat n).val.toNat = n := toNat_ofNat h
  unfold String.utf8EncodeChar
  rw [hval]

theorem ofNat_eq_of_toNat (b : UInt8) {n : Nat} (h : n = b.toNat) : UInt8.ofNat n = b := by
  rw [h, UInt8.ofNat_toNat]

/-- The character at the front of some bytes has those bytes as its form. -/
theorem utf8Head?_eq_some {b : UInt8} {rest : List UInt8} {c : Char} {more : Nat}
    (h : utf8Head? (b :: rest) = some (c, more)) : utf8Char c = b :: rest.take more := by
  rw [utf8Char_eq]
  unfold utf8Head? at h
  simp only [Bool.and_eq_true, decide_eq_true_eq, UInt8.lt_iff_toNat_lt, UInt8.le_iff_toNat_le,
    UInt8.reduceToNat] at h
  split at h
  · simp only [Option.some.injEq, Prod.mk.injEq] at h
    obtain ⟨rfl, rfl⟩ := h
    rw [utf8EncodeChar_ofNat (.inl (by omega)), if_pos (by omega), UInt8.ofNat_toNat]
    rfl
  split at h
  · split at h
    · rename_i b1 _
      simp only [Option.bind_eq_bind, Option.bind_eq_some_iff, Option.some.injEq,
        Prod.mk.injEq] at h
      obtain ⟨c1, h1, rfl, rfl⟩ := h
      obtain ⟨hb1, hc1⟩ := continuation?_eq_some h1
      rw [utf8EncodeChar_ofNat (.inl (by omega)), if_neg (by omega), if_pos (by omega),
        ofNat_eq_of_toNat b (by omega), ofNat_eq_of_toNat b1 (by omega)]
      rfl
    · cases h
  split at h
  · split at h
    · rename_i b1 b2 _
      simp only [Option.bind_eq_bind, Option.bind_eq_some_iff] at h
      obtain ⟨c1, h1, c2, h2, h⟩ := h
      obtain ⟨hb1, hc1⟩ := continuation?_eq_some h1
      obtain ⟨hb2, hc2⟩ := continuation?_eq_some h2
      split at h
      · cases h
      · rename_i hn
        simp only [Bool.or_eq_true, Bool.and_eq_true, decide_eq_true_eq] at hn
        simp only [Option.some.injEq, Prod.mk.injEq] at h
        obtain ⟨rfl, rfl⟩ := h
        have hvalid : (((b.toNat - 0xe0) * 64 + c1) * 64 + c2).isValidChar := by
          unfold Nat.isValidChar
          omega
        rw [utf8EncodeChar_ofNat hvalid, if_neg (by omega), if_neg (by omega), if_pos (by omega),
          ofNat_eq_of_toNat b (by omega), ofNat_eq_of_toNat b1 (by omega),
          ofNat_eq_of_toNat b2 (by omega)]
        rfl
    · cases h
  split at h
  · split at h
    · rename_i b1 b2 b3 _
      simp only [Option.bind_eq_bind, Option.bind_eq_some_iff] at h
      obtain ⟨c1, h1, c2, h2, c3, h3, h⟩ := h
      obtain ⟨hb1, hc1⟩ := continuation?_eq_some h1
      obtain ⟨hb2, hc2⟩ := continuation?_eq_some h2
      obtain ⟨hb3, hc3⟩ := continuation?_eq_some h3
      split at h
      · cases h
      · rename_i hn
        simp only [Bool.or_eq_true, decide_eq_true_eq] at hn
        simp only [Option.some.injEq, Prod.mk.injEq] at h
        obtain ⟨rfl, rfl⟩ := h
        have hvalid : ((((b.toNat - 0xf0) * 64 + c1) * 64 + c2) * 64 + c3).isValidChar := by
          unfold Nat.isValidChar
          omega
        rw [utf8EncodeChar_ofNat hvalid, if_neg (by omega), if_neg (by omega), if_neg (by omega),
          ofNat_eq_of_toNat b (by omega), ofNat_eq_of_toNat b1 (by omega),
          ofNat_eq_of_toNat b2 (by omega), ofNat_eq_of_toNat b3 (by omega)]
        rfl
    · cases h
  · cases h

theorem flatMap_utf8ItemsFrom (skip : Nat) (bytes : List UInt8) :
    (utf8ItemsFrom skip bytes).flatMap Utf8Item.bytes = bytes.drop skip := by
  fun_induction utf8ItemsFrom skip bytes with
  | case1 skip => simp
  | case2 skip b rest ih => simpa using ih
  | case3 b rest c more hhead ih =>
    rw [List.flatMap_cons, ih, Utf8Item.bytes, utf8Head?_eq_some hhead, List.cons_append,
      List.take_append_drop, List.drop_zero]
  | case4 b rest hhead ih =>
    rw [List.flatMap_cons, ih]
    rfl

/-- Splitting bytes into characters and stray bytes loses none of them. -/
theorem flatMap_utf8Items (bytes : List UInt8) :
    (utf8Items bytes).flatMap Utf8Item.bytes = bytes := by
  rw [utf8Items, flatMap_utf8ItemsFrom, List.drop_zero]

/-! ## Hexadecimal digits -/

theorem hexValue?_hexDigit (n : Nat) : hexValue? (hexDigit n) = some (n % 16) := by
  have hall : ∀ d < 16, hexValue? (if d < 10 then Char.ofNat (48 + d) else Char.ofNat (87 + d)) =
      some d := by
    decide
  exact hall (n % 16) (Nat.mod_lt n (by decide))

/-- The digits of a number are read before what follows them. -/
theorem takeHex_hexFixed (width n more acc : Nat) (s : List Char) :
    takeHex (width + more) acc (hexFixed width n ++ s) =
      takeHex more (acc * 16 ^ width + n % 16 ^ width) s := by
  induction width generalizing n more s with
  | zero => simp [hexFixed, Nat.mod_one]
  | succ width ih =>
    have hvalue : (acc * 16 ^ width + n / 16 % 16 ^ width) * 16 + n % 16 =
        acc * 16 ^ (width + 1) + n % 16 ^ (width + 1) := by
      rw [Nat.pow_succ, Nat.mul_comm (16 ^ width) 16, Nat.mod_mul, Nat.mul_left_comm]
      omega
    rw [hexFixed, List.append_assoc, List.singleton_append, Nat.add_assoc, Nat.add_comm 1 more, ih,
      takeHex, hexValue?_hexDigit]
    simp only [Option.bind_eq_bind, Option.bind_some, hvalue]

theorem hexFixed_inj {width m n : Nat} (h : hexFixed width m = hexFixed width n) :
    m % 16 ^ width = n % 16 ^ width := by
  have hm := takeHex_hexFixed width m 0 0 []
  have hn := takeHex_hexFixed width n 0 0 []
  rw [h, hn] at hm
  simpa [takeHex] using hm.symm

/-! ## Escapes -/

/-- The characters of an escape are passed over once it is read. -/
theorem unquoteFrom_skip (taken s : List Char) :
    unquoteFrom taken.length (taken ++ s) = unquoteFrom 0 s := by
  induction taken with
  | nil => rfl
  | cons c taken ih => rw [List.length_cons, List.cons_append, unquoteFrom, ih]

/-- Reading what is quoted gives the bytes, then what is read from the rest. -/
def Reads (quoted : List Char) (bytes : List UInt8) : Prop :=
  ∀ s, unquoteFrom 0 (quoted ++ s) =
    (unquoteFrom 0 s).map fun (content, rest) => (bytes ++ content, rest)

theorem reads_escape {escape : List Char} {bytes : List UInt8}
    (h : ∀ s, escapeBytes? (escape ++ s) = some (bytes, escape.length)) :
    Reads ('\\' :: escape) bytes := by
  intro s
  rw [List.cons_append, unquoteFrom, h]
  simp only [Option.bind_eq_bind, Option.bind_some, unquoteFrom_skip]
  cases unquoteFrom 0 s <;> rfl

theorem reads_plain {c : Char} (hquote : c ≠ '"') (hslash : c ≠ '\\') (hline : c ≠ '\n') :
    Reads [c] (utf8Char c) := by
  intro s
  rw [List.singleton_append, unquoteFrom]
  · cases unquoteFrom 0 s <;> rfl
  · exact hquote
  · exact hline
  · exact hslash

theorem utf8Char_of_lt {c : Char} (h : c.toNat < 128) : utf8Char c = [UInt8.ofNat c.toNat] := by
  have hval : c.val.toNat ≤ 0x7f := Nat.le_of_lt_succ h
  rw [utf8Char_eq]
  unfold String.utf8EncodeChar
  exact if_pos hval

theorem reads_byte {n : Nat} (h : n < 256) :
    Reads ('\\' :: 'x' :: hexFixed 2 n) [UInt8.ofNat n] := by
  refine reads_escape fun s => ?_
  have hhex := takeHex_hexFixed 2 n 0 0 s
  rw [Nat.mod_eq_of_lt (show n < 16 ^ 2 from h)] at hhex
  rw [List.cons_append, escapeBytes?, hhex]
  simp [takeHex, hexFixed]

/-- A code point of a character is no surrogate. -/
theorem scalarBytes?_toNat (c : Char) : scalarBytes? c.toNat = some (utf8Char c) := by
  have hvalid : c.toNat.isValidChar := c.valid
  unfold scalarBytes?
  rw [if_pos, Char.ofNat_toNat]
  unfold Nat.isValidChar at hvalid
  simp only [Bool.or_eq_true, Bool.and_eq_true, decide_eq_true_eq]
  omega

theorem reads_scalar {c : Char} (h : c.toNat < 0x10000) :
    Reads ('\\' :: 'u' :: hexFixed 4 c.toNat) (utf8Char c) := by
  refine reads_escape fun s => ?_
  have hhex := takeHex_hexFixed 4 c.toNat 0 0 s
  rw [Nat.mod_eq_of_lt (show c.toNat < 16 ^ 4 from h)] at hhex
  rw [List.cons_append, escapeBytes?, hhex]
  simp [takeHex, hexFixed, scalarBytes?_toNat]

theorem reads_wideScalar (c : Char) :
    Reads ('\\' :: 'U' :: hexFixed 8 c.toNat) (utf8Char c) := by
  have hvalid : c.toNat.isValidChar := c.valid
  have hlt : c.toNat < 16 ^ 8 := by
    unfold Nat.isValidChar at hvalid
    omega
  refine reads_escape fun s => ?_
  have hhex := takeHex_hexFixed 8 c.toNat 0 0 s
  rw [Nat.mod_eq_of_lt hlt] at hhex
  rw [List.cons_append, escapeBytes?, hhex]
  simp [takeHex, hexFixed, scalarBytes?_toNat]

theorem reads_short {c letter : Char} (h : shortEscape? c.toNat = some letter) :
    Reads ['\\', letter] (utf8Char c) := by
  obtain ⟨⟨letter', n⟩, hfind, rfl⟩ := Option.map_eq_some_iff.mp h
  have hn : n = c.toNat := by simpa using List.find?_some hfind
  have hmem := List.mem_of_find?_eq_some hfind
  have hall : ∀ p ∈ shortEscapes, p.2 < 128 ∧
      escapeBytes? [p.1] = some ([UInt8.ofNat p.2], 1) := by
    decide
  obtain ⟨hlt, -⟩ := hall _ hmem
  subst hn
  rw [utf8Char_of_lt hlt]
  refine reads_escape fun s => ?_
  simp only [shortEscapes, List.mem_cons, Prod.mk.injEq, List.not_mem_nil, or_false] at hmem
  rcases hmem with h | h | h | h | h | h | h <;> rw [h.1, h.2] <;> rfl

theorem reads_quoteChar (c : Char) : Reads (quoteChar c) (utf8Char c) := by
  unfold quoteChar
  split
  · rename_i hescaped
    simp only [Bool.or_eq_true, beq_iff_eq] at hescaped
    rcases hescaped with rfl | rfl
    · exact reads_escape fun s => by rw [utf8Char_of_lt (by decide)]; rfl
    · exact reads_escape fun s => by rw [utf8Char_of_lt (by decide)]; rfl
  split
  · rename_i hescaped hprintable
    simp only [Bool.or_eq_true, beq_iff_eq, not_or] at hescaped
    refine reads_plain hescaped.1 hescaped.2 ?_
    rintro rfl
    revert hprintable
    decide
  split
  · rename_i letter hshort
    exact reads_short hshort
  split
  · rename_i hcontrol
    have hlt : c.toNat < 128 := by
      simp only [Bool.or_eq_true, decide_eq_true_eq, beq_iff_eq] at hcontrol
      omega
    rw [utf8Char_of_lt hlt]
    exact reads_byte (by omega)
  split
  · rename_i hlt
    exact reads_scalar hlt
  · exact reads_wideScalar c

/-! ## Byte strings -/

theorem reads_quoteItem (item : Utf8Item) : Reads (quoteItem item) item.bytes := by
  cases item with
  | char c => exact reads_quoteChar c
  | stray b =>
    have h := reads_byte b.toNat_lt
    rwa [UInt8.ofNat_toNat] at h

/-- The content of a quoted text is read up to the closing quote. -/
theorem unquoteFrom_items (items : List Utf8Item) (s : List Char) :
    unquoteFrom 0 (items.flatMap quoteItem ++ '"' :: s) =
      some (items.flatMap Utf8Item.bytes, s) := by
  induction items with
  | nil => rfl
  | cons item items ih =>
    rw [List.flatMap_cons, List.append_assoc, reads_quoteItem item, ih]
    rfl

theorem quoteBytes_eq (bytes : List UInt8) :
    ∃ body, (quoteBytes bytes).toList = '"' :: (body ++ ['"']) ∧
      ∀ s, unquote? (body ++ '"' :: s) = some (bytes, s) := by
  refine ⟨(utf8Items bytes).flatMap quoteItem, ?_, fun s => ?_⟩
  · simp [quoteBytes]
  · rw [unquote?, unquoteFrom_items, flatMap_utf8Items]

end Backend.Text
