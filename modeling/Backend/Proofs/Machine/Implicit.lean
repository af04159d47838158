-- Division and the stack: the instructions that read and write rax, rdx or the stack without naming
-- them. A division traps, and so has no next state, if the divisor is zero or the quotient needs
-- more bits than there are.
import Backend.Proofs.Machine.Step
import Mathlib

namespace Backend.Machine

/-! ## Numbers -/

/-- The number that bits stand for. -/
def number (signed : Bool) {n : Nat} (v : BitVec n) : Int := if signed then v.toInt else v.toNat

/-- The number is that of its own low bits. -/
def Representable (signed : Bool) (n : Nat) (k : Int) : Prop := number signed (BitVec.ofInt n k) = k

instance (signed : Bool) (n : Nat) (k : Int) : Decidable (Representable signed n k) :=
  inferInstanceAs (Decidable (_ = _))

/-- The numbers of some bits. -/
def InRange (signed : Bool) (n : Nat) (k : Int) : Prop :=
  if signed then -(2 ^ n : Int) ≤ 2 * k ∧ 2 * k < 2 ^ n else 0 ≤ k ∧ k < 2 ^ n

theorem representable_iff {signed : Bool} {n : Nat} {k : Int} :
    Representable signed n k ↔ InRange signed n k := by
  have hpow : ((2 ^ n : Nat) : Int) = 2 ^ n := by push_cast; rfl
  cases signed with
  | true =>
    simp only [Representable, number, InRange, if_true]
    constructor
    · intro h
      rw [← h]
      exact ⟨BitVec.le_two_mul_toInt, BitVec.two_mul_toInt_lt⟩
    · rintro ⟨hlow, hhigh⟩
      rw [BitVec.toInt_ofInt]
      exact Int.bmod_eq_of_le_mul_two (by rw [hpow]; omega) (by rw [hpow]; omega)
  | false =>
    simp only [Representable, number, InRange, Bool.false_eq_true, if_false,
      BitVec.toNat_ofInt, hpow]
    have hpos : (0 : Int) < 2 ^ n := by positivity
    have hlow := Int.emod_nonneg k hpos.ne'
    have hhigh := Int.emod_lt_of_pos k hpos
    rw [Int.toNat_of_nonneg hlow]
    constructor
    · intro h
      exact ⟨h ▸ hlow, h ▸ hhigh⟩
    · rintro ⟨hk, hlt⟩
      exact Int.emod_eq_of_lt hk hlt

theorem ofInt_number (signed : Bool) {n : Nat} (v : BitVec n) :
    BitVec.ofInt n (number signed v) = v := by
  cases signed with
  | true => exact BitVec.ofInt_toInt
  | false =>
    exact (BitVec.ofInt_natCast n v.toNat).trans
      (BitVec.ofNat_toNat n v |>.trans (BitVec.setWidth_eq v))

theorem representable_number (signed : Bool) {n : Nat} (v : BitVec n) :
    Representable signed n (number signed v) := by
  rw [Representable, ofInt_number]

theorem Representable.mono {signed : Bool} {n m : Nat} {k : Int} (h : Representable signed n k)
    (hm : n ≤ m) : Representable signed m k := by
  rw [representable_iff] at h ⊢
  have hpow : (2 ^ n : Int) ≤ 2 ^ m := pow_le_pow_right₀ (by decide) hm
  cases signed <;> simp only [InRange, if_true, Bool.false_eq_true, if_false] at h ⊢ <;> omega

/-- A remainder lies between zero and the dividend. -/
theorem Representable.tmod {signed : Bool} {n : Nat} {k : Int} (h : Representable signed n k)
    (j : Int) : Representable signed n (k.tmod j) := by
  rw [representable_iff] at h ⊢
  have habs : (k.tmod j).natAbs ≤ k.natAbs := by
    rw [Int.natAbs_tmod]
    exact Nat.mod_le _ _
  have hnonneg : 0 ≤ k → 0 ≤ k.tmod j := Int.tmod_nonneg j
  have hnonpos : k ≤ 0 → k.tmod j ≤ 0 := by
    intro hk
    have := Int.tmod_nonneg j (Int.neg_nonneg_of_nonpos hk)
    rw [Int.neg_tmod] at this
    omega
  have hpos : (0 : Int) < 2 ^ n := by positivity
  cases signed <;> simp only [InRange, if_true, Bool.false_eq_true, if_false] at h ⊢ <;> omega

/-- Extended bits stand for the same number. -/
theorem number_convert {signed : Bool} {n m : Nat} (v : BitVec (8 * n)) (h : n ≤ m) :
    number signed (convert signed m v) = number signed v := by
  cases signed with
  | true => exact BitVec.toInt_signExtend_of_le (by omega)
  | false =>
    have hlt : v.toNat < 2 ^ (8 * m) :=
      Nat.lt_of_lt_of_le v.isLt (Nat.pow_le_pow_right (by decide) (by omega))
    simp only [number, convert, Bool.false_eq_true, if_false, BitVec.toNat_setWidth,
      Nat.mod_eq_of_lt hlt]

theorem setWidth_ofInt {n m : Nat} (k : Int) (h : n ≤ m) :
    (BitVec.ofInt m k).setWidth n = BitVec.ofInt n k := by
  have hdvd : ((2 ^ n : Nat) : Int) ∣ ((2 ^ m : Nat) : Int) :=
    Int.natCast_dvd_natCast.mpr (Nat.pow_dvd_pow 2 h)
  have hpos : ∀ j : Nat, ((2 ^ j : Nat) : Int) ≠ 0 := fun j => by positivity
  apply BitVec.eq_of_toNat_eq
  rw [BitVec.toNat_setWidth, BitVec.toNat_ofInt, BitVec.toNat_ofInt, ← Int.natCast_inj,
    Int.natCast_mod, Int.toNat_of_nonneg (Int.emod_nonneg k (hpos m)),
    Int.toNat_of_nonneg (Int.emod_nonneg k (hpos n)),
    Int.emod_emod_of_dvd k hdvd]

/-! ## Division -/

/-- The double word that is divided: rdx holds its upper half. -/
def State.dividend (s : State) (n : Nat) : BitVec (8 * n + 8 * n) :=
  s.get (.reg rdx) n ++ s.get (.reg rax) n

/-- rdx filled with the sign of rax. -/
def State.fillSign (s : State) (n : Nat) : State :=
  s.setReg rdx (if (s.get (.reg rax) n).msb then BitVec.allOnes (8 * n) else 0#(8 * n))

/-- The quotient goes to rax and the remainder to rdx. -/
def State.divide (s : State) (signed : Bool) {n : Nat} (divisor : BitVec (8 * n)) : Option State :=
  let x := number signed (s.dividend n)
  let y := number signed divisor
  if y = 0 ∨ ¬ Representable signed (8 * n) (x.tdiv y) then none
  else
    let s := s.setReg rax (BitVec.ofInt (8 * n) (x.tdiv y))
    some (s.setReg rdx (BitVec.ofInt (8 * n) (x.tmod y)))

/-- The width of the operand that a division divides by. A byte divides another double word. -/
def divisorWidth? : Operand → Option Nat
  | .reg r => if r.width = 1 then none else some r.width.toNat
  | .mem m => if m.width = 1 then none else some m.width.toNat
  | _ => none

/-! ## The stack -/

def State.push (s : State) (v : BitVec (8 * 8)) : State :=
  (s.store (s.regs rsp - 8) v).setReg rsp (n := 8) (s.regs rsp - 8)

def State.pop (s : State) (id : RegId) : State :=
  (s.setReg rsp (n := 8) (s.regs rsp + 8)).setReg id (s.get (.mem (s.regs rsp)) 8)

/-! ## Instructions -/

/-- The state after an instruction, where those with implicit operands have a meaning too. -/
def Inst.step (l : Linkage) (s : State) : Inst → Option State
  | .op .cqo _ (some (.reg r)) none none =>
    if r.width = 1 then none else some (s.fillSign r.width.toNat)
  | .op .idiv _ (some src) none none => do s.divide true (src.value l s (← divisorWidth? src))
  | .op .div _ (some src) none none => do s.divide false (src.value l s (← divisorWidth? src))
  | .op .push _ (some (.reg r)) none none =>
    if r.width = 8 then some (s.push (s.get (.reg r.id) 8)) else none
  | .op .pop _ (some (.reg r)) none none => if r.width = 8 then some (s.pop r.id) else none
  | i => i.exec l s

/-- The state after a list of instructions. -/
def steps (l : Linkage) : List Inst → State → Option State
  | [], s => some s
  | i :: rest, s => do steps l rest (← i.step l s)

/-- The meaning of the other instructions is the same. -/
theorem step_of_exec {l : Linkage} {s s' : State} {i : Inst} (h : i.exec l s = some s') :
    i.step l s = some s' := by
  unfold Inst.step
  split
  case h_6 => exact h
  all_goals simp [Inst.exec, Op.unary?] at h

theorem steps_append_of_some {l : Linkage} {xs ys : List Inst} {s s1 : State}
    (h : steps l xs s = some s1) : steps l (xs ++ ys) s = steps l ys s1 := by
  induction xs generalizing s with
  | nil =>
    cases h
    rfl
  | cons i rest ih =>
    simp only [List.cons_append, steps] at h ⊢
    cases hi : i.step l s with
    | none =>
      rw [hi] at h
      cases h
    | some s2 =>
      rw [hi] at h
      exact ih h

theorem steps_of_run {l : Linkage} {code : List Inst} {s s' : State} (h : run l code s = some s') :
    steps l code s = some s' := by
  induction code generalizing s with
  | nil => exact h
  | cons i rest ih =>
    simp only [run] at h
    cases hi : i.exec l s with
    | none =>
      rw [hi] at h
      cases h
    | some s2 =>
      rw [hi] at h
      simp only [steps, step_of_exec hi]
      exact ih h

/-! ## What a division does -/

/-- The quotient is in rax and the remainder in rdx, and all else is as it was. -/
structure Divided (n : Nat) (quotient remainder : Int) (s s' : State) : Prop where
  rax : s'.get (.reg rax) n = BitVec.ofInt (8 * n) quotient
  rdx : s'.get (.reg rdx) n = BitVec.ofInt (8 * n) remainder
  regs : ∀ r, r ≠ Machine.rax → r ≠ Machine.rdx → s'.regs r = s.regs r
  xmms : s'.xmms = s.xmms
  mem : s'.mem = s.mem

theorem get_setReg_self (s : State) (id : RegId) {n : Nat} (v : BitVec (8 * n)) (hn : n ≤ 8) :
    (s.setReg id v).get (.reg id) n = v := by
  have := setReg_regs_self s id v n (Nat.le_refl n) hn
  simpa [State.get] using this

theorem get_setReg_ne (s : State) {id r : RegId} {n : Nat} (v : BitVec (8 * n)) (h : r ≠ id)
    (k : Nat) : (s.setReg id v).get (.reg r) k = s.get (.reg r) k := by
  simp only [State.get, setReg_regs_ne s id r v h]

/-- A division is one from a state that differs in rdx alone. -/
theorem Divided.of_setReg_rdx {n k : Nat} {quotient remainder : Int} {s s' : State}
    {v : BitVec (8 * k)} (h : Divided n quotient remainder (s.setReg Machine.rdx v) s') :
    Divided n quotient remainder s s' where
  rax := h.rax
  rdx := h.rdx
  regs r hax hdx := (h.regs r hax hdx).trans (setReg_regs_ne _ _ _ _ hdx)
  xmms := h.xmms
  mem := h.mem

/-- A division by a number that is not zero with a quotient that fits does not trap. -/
theorem divided_of_divide {s : State} {signed : Bool} {n : Nat} {divisor : BitVec (8 * n)}
    {x y : Int} (hn : n ≤ 8) (hx : number signed (s.dividend n) = x)
    (hy : number signed divisor = y) (hzero : y ≠ 0)
    (hfits : Representable signed (8 * n) (x.tdiv y)) :
    ∃ s', s.divide signed divisor = some s' ∧ Divided n (x.tdiv y) (x.tmod y) s s' := by
  subst hx hy
  unfold State.divide
  simp only [hzero, hfits, not_true_eq_false, or_self, if_false]
  refine ⟨_, rfl, ?_, get_setReg_self _ _ _ hn, fun r hax hdx => ?_, rfl, rfl⟩
  · rw [get_setReg_ne _ _ (by decide), get_setReg_self _ _ _ hn]
  · rw [setReg_regs_ne _ _ _ _ hdx, setReg_regs_ne _ _ _ _ hax]

/-- The double word with the sign of rax stands for the number in rax. -/
theorem number_dividend_fillSign (s : State) {n : Nat} (hn : n ≤ 8) :
    number true ((s.fillSign n).dividend n) = number true (s.get (.reg rax) n) := by
  have hlow : (s.fillSign n).get (.reg rax) n = s.get (.reg rax) n :=
    get_setReg_ne s _ (by decide) n
  have hhigh : (s.fillSign n).get (.reg rdx) n =
      if (s.get (.reg rax) n).msb then BitVec.allOnes (8 * n) else 0#(8 * n) :=
    get_setReg_self s _ _ hn
  rw [State.dividend, hlow, hhigh]
  generalize s.get (.reg rax) n = v
  simp only [number, if_true, BitVec.toInt_append]
  by_cases hzero : n = 0
  · simp [hzero]
  · have hwidth : (8 * n == 0) = false := by simpa using hzero
    have hpow : ((2 ^ (8 * n) : Nat) : Int) = 2 ^ (8 * n) := by push_cast; rfl
    rw [hwidth, BitVec.toInt_eq_msb_cond v, hpow]
    cases v.msb with
    | true =>
      have hones : (BitVec.allOnes (8 * n)).toInt = -1 := by
        rw [BitVec.toInt_allOnes, if_pos (by omega)]
      simp only [Bool.false_eq_true, if_false, if_true, hones]
      ring
    | false => simp

/-- The double word with nothing in rdx stands for the number in rax. -/
theorem number_dividend_zero {s : State} {n : Nat} (h : s.get (.reg rdx) n = 0#(8 * n)) :
    number false (s.dividend n) = number false (s.get (.reg rax) n) := by
  simp only [State.dividend, h, number, Bool.false_eq_true, if_false, BitVec.toNat_append]
  simp

end Backend.Machine
