-- Reading byte strings back: the number that little-endian bytes stand for.
import Backend.Bytes
import Backend.Machine.Encoding.Form
import Mathlib.Tactic.Ring

namespace Backend

/-- The number whose bytes these are, the least significant first. -/
def leNat : List UInt8 → Nat
  | [] => 0
  | b :: rest => b.toNat + 256 * leNat rest

@[simp] theorem leNat_nil : leNat [] = 0 := rfl

@[simp] theorem leNat_cons (b : UInt8) (rest : List UInt8) :
    leNat (b :: rest) = b.toNat + 256 * leNat rest := rfl

theorem leNat_append (a b : List UInt8) :
    leNat (a ++ b) = leNat a + 256 ^ a.length * leNat b := by
  induction a with
  | nil => simp
  | cons c a ih =>
    simp only [List.cons_append, leNat_cons, ih, List.length_cons, pow_succ]
    ring

/-- The lowest bytes of a number stand for the number modulo their range. -/
theorem leNat_littleEndian (n v : Nat) : leNat (littleEndian n v) = v % 256 ^ n := by
  induction n generalizing v with
  | zero => simp [littleEndian, Nat.mod_one]
  | succ n ih =>
    have hmod : v % 256 ^ (n + 1) = v % 256 + 256 * (v / 256 % 256 ^ n) := by
      rw [pow_succ, Nat.mul_comm, Nat.mod_mul]
    simp only [littleEndian, leNat_cons, ih, hmod]
    simp

theorem leNat_littleEndian_of_lt {n v : Nat} (h : v < 256 ^ n) :
    leNat (littleEndian n v) = v := by
  rw [leNat_littleEndian, Nat.mod_eq_of_lt h]

namespace Machine

@[simp] theorem length_le32 (v : UInt32) : (le32 v).length = 4 := rfl

@[simp] theorem length_le64 (v : UInt64) : (le64 v).length = 8 := rfl

theorem leNat_le32 (v : UInt32) : leNat (le32 v) = v.toNat := by
  have hv := v.toNat_lt
  simp [le32, Nat.shiftRight_eq_div_pow]
  omega

theorem leNat_le64 (v : UInt64) : leNat (le64 v) = v.toNat := by
  have hv := v.toNat_lt
  rw [le64, leNat_append, leNat_le32, leNat_le32]
  simp [Nat.shiftRight_eq_div_pow]
  omega

end Machine

/-! ## Fields -/

/-- A signed field of `n` bytes at the front. -/
def readInt (n : Nat) (bytes : List UInt8) : Option (Int × List UInt8) :=
  if n ≤ bytes.length then
    some ((leNat (bytes.take n) : Int).bmod (256 ^ n), bytes.drop n)
  else none

theorem readInt_append {n : Nat} (field : List UInt8) (h : field.length = n)
    (rest : List UInt8) :
    readInt n (field ++ rest) = some ((leNat field : Int).bmod (256 ^ n), rest) := by
  unfold readInt
  rw [if_pos (by simp [h]), List.take_left' h, List.drop_left' h]

/-- Reading a range that lies between two others. -/
theorem range_append (a b c : List UInt8) : ((a ++ b ++ c).drop a.length).take b.length = b := by
  rw [List.append_assoc, List.drop_left' rfl, List.take_left' rfl]

/-- Overwriting a range that lies between two others. -/
theorem overwrite_append (a b c p : List UInt8) (h : p.length = b.length) :
    overwrite (a ++ b ++ c) a.length p = a ++ p ++ c := by
  have hdrop : List.drop (a.length + p.length) (a ++ b ++ c) = c := by
    rw [h, ← List.length_append, List.drop_left' rfl]
  have htake : List.take a.length (a ++ b ++ c) = a := by
    rw [List.append_assoc, List.take_left' rfl]
  have hroom : p.length ≤ (a ++ b ++ c).length - a.length := by simp [h]
  rw [overwrite, hdrop, htake, List.take_of_length_le hroom]

theorem length_overwrite (bytes : List UInt8) (start : Nat) (p : List UInt8) :
    (overwrite bytes start p).length = bytes.length := by
  simp only [overwrite, List.length_append, List.length_take, List.length_drop]
  omega

/-- Overwriting a range of the first of two strings. -/
theorem overwrite_left {a : List UInt8} {start : Nat} {p : List UInt8}
    (h : start + p.length ≤ a.length) (b : List UInt8) :
    overwrite (a ++ b) start p = overwrite a start p ++ b := by
  have hp : p.take ((a ++ b).length - start) = p.take (a.length - start) := by
    rw [List.take_of_length_le (by rw [List.length_append]; omega),
      List.take_of_length_le (by omega)]
  unfold overwrite
  rw [hp, List.take_append_of_le_length (by omega), List.drop_append_of_le_length h]
  simp only [List.append_assoc]

/-- Overwriting a range of the second of two strings. -/
theorem overwrite_right (a : List UInt8) {start : Nat} (h : a.length ≤ start) (b p : List UInt8) :
    overwrite (a ++ b) start p = a ++ overwrite b (start - a.length) p := by
  obtain ⟨k, rfl⟩ := Nat.exists_eq_add_of_le h
  have hdrop : a.length + k + p.length = a.length + (k + p.length) := by omega
  have hlen : (a ++ b).length - (a.length + k) = b.length - k := by
    rw [List.length_append]
    omega
  unfold overwrite
  rw [List.take_length_add_append, hlen, hdrop, List.drop_length_add_append,
    Nat.add_sub_cancel_left]
  simp only [List.append_assoc]

/-! ## Edits -/

/-- The bytes after a list of edits, whose places count from `pos`. -/
def editFrom (pos : Nat) (edits : List (Nat × List UInt8)) (bytes : List UInt8) : List UInt8 :=
  edits.foldl (fun t e => overwrite t (e.1 - pos) e.2) bytes

theorem editFrom_append (pos : Nat) (a b : List (Nat × List UInt8)) (bytes : List UInt8) :
    editFrom pos (a ++ b) bytes = editFrom pos b (editFrom pos a bytes) :=
  List.foldl_append

theorem length_editFrom (pos : Nat) (edits : List (Nat × List UInt8)) (bytes : List UInt8) :
    (editFrom pos edits bytes).length = bytes.length := by
  induction edits generalizing bytes with
  | nil => rfl
  | cons e edits ih =>
    have hstep : editFrom pos (e :: edits) bytes =
      editFrom pos edits (overwrite bytes (e.1 - pos) e.2) := rfl
    rw [hstep, ih, length_overwrite]

/-- The edit is of the `n` bytes from `pos` on. -/
def EditsIn (pos n : Nat) (edits : List (Nat × List UInt8)) : Prop :=
  ∀ e ∈ edits, pos ≤ e.1 ∧ e.1 + e.2.length ≤ pos + n

theorem editFrom_left {pos : Nat} {a : List UInt8} {edits : List (Nat × List UInt8)}
    (h : EditsIn pos a.length edits) (b : List UInt8) :
    editFrom pos edits (a ++ b) = editFrom pos edits a ++ b := by
  induction edits generalizing a with
  | nil => rfl
  | cons e edits ih =>
    have he := h e List.mem_cons_self
    have hlen := length_overwrite a (e.1 - pos) e.2
    have hrest : EditsIn pos (overwrite a (e.1 - pos) e.2).length edits := by
      intro x hx
      rw [hlen]
      exact h x (List.mem_cons_of_mem _ hx)
    simp only [editFrom, List.foldl_cons] at ih ⊢
    rw [overwrite_left (by omega), ih hrest]

theorem editFrom_right {pos : Nat} (a : List UInt8) {n : Nat} {edits : List (Nat × List UInt8)}
    (h : EditsIn (pos + a.length) n edits) (b : List UInt8) :
    editFrom pos edits (a ++ b) = a ++ editFrom (pos + a.length) edits b := by
  induction edits generalizing b with
  | nil => rfl
  | cons e edits ih =>
    have he := h e List.mem_cons_self
    have hrest : EditsIn (pos + a.length) n edits := fun x hx => h x (List.mem_cons_of_mem _ hx)
    have hsub : e.1 - pos - a.length = e.1 - (pos + a.length) := by omega
    simp only [editFrom, List.foldl_cons] at ih ⊢
    rw [overwrite_right a (by omega), ih hrest, hsub]

/-- Blocks of edits of the first string, each followed by one of the second. -/
theorem editFrom_blocks {pos n : Nat} {a : List UInt8}
    (blocks : List (List (Nat × List UInt8) × List (Nat × List UInt8)))
    (h : ∀ x ∈ blocks, EditsIn pos a.length x.1 ∧ EditsIn (pos + a.length) n x.2)
    (b : List UInt8) :
    editFrom pos (blocks.flatMap fun x => x.1 ++ x.2) (a ++ b) =
      editFrom pos (blocks.flatMap Prod.fst) a ++
        editFrom (pos + a.length) (blocks.flatMap Prod.snd) b := by
  induction blocks generalizing a b with
  | nil => rfl
  | cons x blocks ih =>
    obtain ⟨hleft, hright⟩ := h x List.mem_cons_self
    have hlen := length_editFrom pos x.1 a
    have hrest : ∀ y ∈ blocks, EditsIn pos (editFrom pos x.1 a).length y.1 ∧
        EditsIn (pos + (editFrom pos x.1 a).length) n y.2 := by
      intro y hy
      rw [hlen]
      exact h y (List.mem_cons_of_mem _ hy)
    have hsecond := editFrom_right (editFrom pos x.1 a) (by rw [hlen]; exact hright) b
    simp only [List.flatMap_cons, editFrom_append]
    rw [editFrom_left hleft, hsecond, ih hrest, hlen]

end Backend
