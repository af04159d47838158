-- The state of the machine as instructions see it: registers, the scalar part of the SSE registers
-- and memory, the places a value can be in, and what it means to assign one place and no other.
import Backend.Machine.Operand
import Backend.Proofs.Except
import Mathlib.Data.BitVec
import Mathlib.Logic.Function.Basic

namespace Backend.Machine

/-- Where the symbols of a program are: their addresses, and for thread-local ones the address in
the running thread. -/
structure Linkage where
  symbol : String → BitVec 64
  thread : String → BitVec 64

/-- Registers and memory. Of an SSE register only the part that scalars use is there. -/
structure State where
  regs : RegId → BitVec 64
  xmms : RegId → BitVec 64
  mem : BitVec 64 → BitVec 8

/-! ## Memory as bytes -/

/-- The value of `n` bytes of memory from an address on, the least significant first. -/
def readBytes (mem : BitVec 64 → BitVec 8) (a : BitVec 64) : (n : Nat) → BitVec (8 * n)
  | 0 => 0#0
  | n + 1 => readBytes mem (a + 1) n ++ mem a

/-- Memory after a value is stored at an address. -/
def writeBytes (mem : BitVec 64 → BitVec 8) (a : BitVec 64) {n : Nat} (v : BitVec (8 * n)) :
    BitVec 64 → BitVec 8 :=
  fun x => if (x - a).toNat < n then (v >>> (8 * (x - a).toNat)).setWidth 8 else mem x

/-- The distance of a byte from the start of its range. -/
theorem toNat_offset (a : BitVec 64) (k : Nat) (hk : k < 2 ^ 64) :
    (a + BitVec.ofNat 64 k - a).toNat = k := by
  rw [BitVec.add_comm, BitVec.add_sub_cancel, BitVec.toNat_ofNat, Nat.mod_eq_of_lt hk]

theorem getLsbD_readBytes (mem : BitVec 64 → BitVec 8) (a : BitVec 64) (n i : Nat)
    (hi : i < 8 * n) :
    (readBytes mem a n).getLsbD i = (mem (a + BitVec.ofNat 64 (i / 8))).getLsbD (i % 8) := by
  induction n generalizing a i with
  | zero => omega
  | succ n ih =>
    simp only [readBytes]
    rw [BitVec.getLsbD_append]
    by_cases h : i < 8
    · have hq : i / 8 = 0 := by omega
      have hr : i % 8 = i := by omega
      simp [h, hq, hr]
    · have hq : i / 8 = (i - 8) / 8 + 1 := by omega
      have hr : i % 8 = (i - 8) % 8 := by omega
      rw [if_neg h, ih (a + 1) (i - 8) (by omega), hq, hr, BitVec.ofNat_add, BitVec.add_assoc,
        BitVec.add_comm 1]
      rfl

/-- Reading looks at no byte outside the range. -/
theorem readBytes_congr (mem mem' : BitVec 64 → BitVec 8) (a : BitVec 64) (n : Nat)
    (hn : n ≤ 2 ^ 64) (h : ∀ x, (x - a).toNat < n → mem x = mem' x) :
    readBytes mem a n = readBytes mem' a n := by
  apply BitVec.eq_of_getLsbD_eq
  intro i hi
  rw [getLsbD_readBytes _ _ _ _ hi, getLsbD_readBytes _ _ _ _ hi]
  rw [h]
  rw [toNat_offset a (i / 8) (by omega)]
  omega

theorem readBytes_writeBytes (mem : BitVec 64 → BitVec 8) (a : BitVec 64) {n : Nat}
    (v : BitVec (8 * n)) (hn : n ≤ 8) : readBytes (writeBytes mem a v) a n = v := by
  apply BitVec.eq_of_getLsbD_eq
  intro i hi
  rw [getLsbD_readBytes _ _ _ _ hi]
  simp only [writeBytes, toNat_offset a (i / 8) (by omega)]
  rw [if_pos (by omega)]
  simp only [BitVec.getLsbD_setWidth, BitVec.getLsbD_ushiftRight]
  have hb : i % 8 < 8 := by omega
  have he : 8 * (i / 8) + i % 8 = i := by omega
  simp [hb, he]

/-- The low bytes of what is in memory are in memory at the same address. -/
theorem setWidth_readBytes (mem : BitVec 64 → BitVec 8) (a : BitVec 64) (n k : Nat) (hk : k ≤ n) :
    (readBytes mem a n).setWidth (8 * k) = readBytes mem a k := by
  apply BitVec.eq_of_getLsbD_eq
  intro i hi
  rw [BitVec.getLsbD_setWidth, getLsbD_readBytes _ _ _ _ hi, getLsbD_readBytes _ _ _ _ (by omega)]
  simp [hi]

/-! ## Registers -/

/-- A register after a value of `n` bytes is written to it: four bytes clear the upper half, one or
two bytes leave the rest as it was. -/
def insertLow (old : BitVec 64) {n : Nat} (v : BitVec (8 * n)) : BitVec 64 :=
  if 4 ≤ n then v.setWidth 64 else (old >>> (8 * n)) <<< (8 * n) ||| v.setWidth 64

theorem setWidth_insertLow (old : BitVec 64) {n : Nat} (v : BitVec (8 * n)) (k : Nat) (hk : k ≤ n)
    (hn : n ≤ 8) : (insertLow old v).setWidth (8 * k) = v.setWidth (8 * k) := by
  apply BitVec.eq_of_getLsbD_eq
  intro i hi
  have h64 : i < 64 := by omega
  unfold insertLow
  split
  · simp [hi, h64]
  · have hlow : i < 8 * n := by omega
    simp [hi, h64, hlow]

/-- The state after a value is written to a register. -/
def State.setReg (s : State) (id : RegId) {n : Nat} (v : BitVec (8 * n)) : State :=
  { s with regs := Function.update s.regs id (insertLow (s.regs id) v) }

/-- The state after a value is stored in memory. -/
def State.store (s : State) (a : BitVec 64) {n : Nat} (v : BitVec (8 * n)) : State :=
  { s with mem := writeBytes s.mem a v }

@[simp] theorem setReg_mem (s : State) (id : RegId) {n : Nat} (v : BitVec (8 * n)) :
    (s.setReg id v).mem = s.mem := rfl

@[simp] theorem setReg_xmms (s : State) (id : RegId) {n : Nat} (v : BitVec (8 * n)) :
    (s.setReg id v).xmms = s.xmms := rfl

@[simp] theorem store_regs (s : State) (a : BitVec 64) {n : Nat} (v : BitVec (8 * n)) :
    (s.store a v).regs = s.regs := rfl

@[simp] theorem store_xmms (s : State) (a : BitVec 64) {n : Nat} (v : BitVec (8 * n)) :
    (s.store a v).xmms = s.xmms := rfl

theorem setReg_regs_ne (s : State) (id r : RegId) {n : Nat} (v : BitVec (8 * n)) (h : r ≠ id) :
    (s.setReg id v).regs r = s.regs r := by
  simp [State.setReg, h]

theorem setReg_regs_self (s : State) (id : RegId) {n : Nat} (v : BitVec (8 * n)) (k : Nat)
    (hk : k ≤ n) (hn : n ≤ 8) :
    ((s.setReg id v).regs id).setWidth (8 * k) = v.setWidth (8 * k) := by
  simp [State.setReg, setWidth_insertLow _ v k hk hn]

/-! ## Places -/

/-- Where a value can be. -/
inductive Place where
  | reg (id : RegId)
  | xmm (id : RegId)
  | mem (addr : BitVec 64)

/-- The low `n` bytes at a place. -/
def State.get (s : State) (p : Place) (n : Nat) : BitVec (8 * n) :=
  match p with
  | .reg id => (s.regs id).setWidth (8 * n)
  | .xmm id => (s.xmms id).setWidth (8 * n)
  | .mem a => readBytes s.mem a n

/-- The low bytes at a place are at the place. -/
theorem setWidth_get (s : State) (p : Place) (n k : Nat) (h : k ≤ n) :
    (s.get p n).setWidth (8 * k) = s.get p k := by
  cases p with
  | reg id => exact BitVec.setWidth_setWidth_of_le _ (by omega)
  | xmm id => exact BitVec.setWidth_setWidth_of_le _ (by omega)
  | mem a => exact setWidth_readBytes _ _ _ _ h

/-- The byte of memory is one of the `n` bytes at the place. -/
def Place.covers (p : Place) (n : Nat) (x : BitVec 64) : Prop :=
  match p with
  | .mem a => (x - a).toNat < n
  | _ => False

/-- The `n` bytes at the first place and the `k` bytes at the second have nothing in common. -/
def Place.Separate (p : Place) (n : Nat) (q : Place) (k : Nat) : Prop :=
  match p, q with
  | .reg i, .reg j => i ≠ j
  | .xmm i, .xmm j => i ≠ j
  | .mem a, .mem b => ∀ x, (Place.mem a).covers n x → ¬ (Place.mem b).covers k x
  | _, _ => True

theorem Place.Separate.symm {p q : Place} {n k : Nat} (h : p.Separate n q k) :
    q.Separate k p n := by
  cases p with
  | reg i =>
    cases q with
    | reg j => exact Ne.symm h
    | _ => trivial
  | xmm i =>
    cases q with
    | xmm j => exact Ne.symm h
    | _ => trivial
  | mem a =>
    cases q with
    | mem b => exact fun x hb ha => h x ha hb
    | _ => trivial

theorem Place.Separate.mono {p q : Place} {n k m : Nat} (h : p.Separate n q k) (hm : m ≤ k) :
    p.Separate n q m := by
  cases p with
  | reg i =>
    cases q with
    | reg j => exact h
    | _ => trivial
  | xmm i =>
    cases q with
    | xmm j => exact h
    | _ => trivial
  | mem a =>
    cases q with
    | mem b => exact fun x ha hb => h x ha (Nat.lt_of_lt_of_le hb hm)
    | _ => trivial

/-- From one state to the other the place was given a value of `n` bytes. Nothing else changed but
the scratch registers. -/
structure Assigns (p : Place) {n : Nat} (v : BitVec (8 * n)) (scratch : List RegId)
    (s s' : State) : Prop where
  value : s'.get p n = v
  regs : ∀ r, p ≠ .reg r → r ∉ scratch → s'.regs r = s.regs r
  xmms : ∀ r, p ≠ .xmm r → s'.xmms r = s.xmms r
  mem : ∀ x, ¬ p.covers n x → s'.mem x = s.mem x

theorem assigns_setReg (s : State) (id : RegId) {n : Nat} (v : BitVec (8 * n)) (hn : n ≤ 8)
    (scratch : List RegId) : Assigns (.reg id) v scratch s (s.setReg id v) where
  value := by
    have h := setReg_regs_self s id v n (Nat.le_refl n) hn
    simpa [State.get] using h
  regs r hr _ := setReg_regs_ne s id r v (fun h => hr (h ▸ rfl))
  xmms _ _ := rfl
  mem _ _ := rfl

theorem assigns_store (s : State) (a : BitVec 64) {n : Nat} (v : BitVec (8 * n)) (hn : n ≤ 8)
    (scratch : List RegId) : Assigns (.mem a) v scratch s (s.store a v) where
  value := readBytes_writeBytes s.mem a v hn
  regs _ _ _ := rfl
  xmms _ _ := rfl
  mem x hx := by
    simp only [Place.covers] at hx
    simp only [State.store, writeBytes, if_neg hx]

/-- Any place can be given any value. -/
theorem exists_assigns (s : State) (p : Place) {n : Nat} (v : BitVec (8 * n)) (hn : n ≤ 8) :
    ∃ s', Assigns p v [] s s' := by
  cases p with
  | reg id => exact ⟨_, assigns_setReg s id v hn []⟩
  | mem a => exact ⟨_, assigns_store s a v hn []⟩
  | xmm id =>
    refine ⟨{ s with xmms := Function.update s.xmms id (v.setWidth 64) }, ?_, ?_, ?_, ?_⟩
    · simp only [State.get, Function.update_self]
      rw [BitVec.setWidth_setWidth_of_le _ (by omega), BitVec.setWidth_eq]
    · intro r _ _
      rfl
    · intro r hr
      refine Function.update_of_ne ?_ _ _
      rintro rfl
      exact hr rfl
    · intro x _
      rfl

namespace Assigns

variable {p : Place} {n : Nat} {u v : BitVec (8 * n)} {scratch : List RegId} {s s1 s2 : State}

/-- A place that holds the value already needs no step. -/
theorem refl (h : s.get p n = v) : Assigns p v scratch s s :=
  ⟨h, fun _ _ _ => rfl, fun _ _ => rfl, fun _ _ => rfl⟩

/-- More registers may count as scratch. -/
theorem weaken (h : Assigns p v [] s s1) : Assigns p v scratch s s1 :=
  ⟨h.value, fun r hp _ => h.regs r hp (by simp), h.xmms, h.mem⟩

/-- The second of two assignments to one place wins. -/
theorem trans (h : Assigns p u scratch s s1) (h' : Assigns p v scratch s1 s2) :
    Assigns p v scratch s s2 where
  value := h'.value
  regs r hp hr := by rw [h'.regs r hp hr, h.regs r hp hr]
  xmms r hp := by rw [h'.xmms r hp, h.xmms r hp]
  mem x hx := by rw [h'.mem x hx, h.mem x hx]

/-- An assignment after a scratch register was given a value. -/
theorem after_scratch {r : RegId} {k : Nat} {w : BitVec (8 * k)}
    (h : Assigns (.reg r) w [] s s1) (h' : Assigns p v scratch s1 s2) (hr : r ∈ scratch) :
    Assigns p v scratch s s2 where
  value := h'.value
  regs x hp hx := by
    rw [h'.regs x hp hx]
    refine h.regs x ?_ (by simp)
    rintro ⟨⟩
    exact hx hr
  xmms x hp := by rw [h'.xmms x hp, h.xmms x (by simp)]
  mem x hx := by rw [h'.mem x hx, h.mem x (by simp [Place.covers])]

/-- What is separate from the place and no scratch register keeps its value. -/
theorem get_of_separate_scratch {q : Place} {k : Nat} (h : Assigns p v scratch s s1)
    (hq : ∀ r ∈ scratch, q ≠ .reg r) (hs : p.Separate n q k) (hk : k ≤ 2 ^ 64) :
    s1.get q k = s.get q k := by
  cases q with
  | reg j =>
    simp only [State.get]
    rw [h.regs j _ fun hj => hq j hj rfl]
    rintro rfl
    exact hs rfl
  | xmm j =>
    simp only [State.get]
    rw [h.xmms j]
    rintro rfl
    exact hs rfl
  | mem b =>
    refine readBytes_congr _ _ b k hk fun x hx => h.mem x fun hp => ?_
    cases p with
    | mem a => exact hs x hp hx
    | _ => exact hp

/-- What is separate from the place keeps its value. -/
theorem get_of_separate {q : Place} {k : Nat} (h : Assigns p v [] s s1) (hs : p.Separate n q k)
    (hk : k ≤ 2 ^ 64) : s1.get q k = s.get q k :=
  h.get_of_separate_scratch (fun _ hr => (nomatch hr)) hs hk

/-- A register that was given a value holds its low bytes. -/
theorem narrow {id : RegId} (h : Assigns (.reg id) v scratch s s1) (k : Nat) (hk : k ≤ n) :
    Assigns (.reg id) (v.setWidth (8 * k)) scratch s s1 where
  value := by
    rw [← h.value]
    simp only [State.get]
    rw [BitVec.setWidth_setWidth_of_le _ (by omega)]
  regs := h.regs
  xmms := h.xmms
  mem x _ := h.mem x (by simp [Place.covers])

end Assigns

end Backend.Machine
