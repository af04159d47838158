-- What selected code is made of: for each function of selection, the moves and instructions that
-- its code consists of when it succeeds. The laws of selected code go by these and leave the
-- functions closed.
import Backend.Proofs.Selection.Integer

namespace Backend.Selection

open Backend.Machine (Inst)
open Backend.Lowering (opType)

variable {c : Closure} {i : Instr} {d a b : Option Machine.Operand} {code : List Inst}

/-! ## Integers -/

theorem unary_code {op : Machine.Op} {signed : Bool} (h : unary op d a signed = .ok code) :
    ∃ load result, move (workReg d) a signed = .ok load ∧ move d (workReg d) signed = .ok result ∧
      code = load ++ [inst op (workReg d) none] ++ result := by
  obtain ⟨load, hload, h⟩ := bind_eq_ok.mp h
  obtain ⟨result, hresult, h⟩ := bind_eq_ok.mp h
  cases h
  exact ⟨load, result, hload, hresult, rfl⟩

/-- A division fills rdx from rax, and divides. -/
inductive DivideCode (a b : Option Machine.Operand) : List Inst → Prop
  | signed {r : Machine.Reg} (dividend : a = some (.reg r)) (rax : r.id = Machine.rax) :
      DivideCode a b [inst .cqo a none, inst .idiv (b.map fun o => resize o r.width) none]
  | unsigned {r : Machine.Reg} (dividend : a = some (.reg r)) (rax : r.id = Machine.rax) :
      DivideCode a b [two .xor (.reg ⟨Machine.rdx, 4⟩) (.reg ⟨Machine.rdx, 4⟩),
        inst .div (b.map fun o => resize o r.width) none]

theorem divide_code {op : Opcode} (h : divide op a b = .ok code) : DivideCode a b code := by
  unfold divide at h
  split at h
  · split at h
    · cases h
    rename_i r hrax
    have hrax : r.id = Machine.rax := by simpa using hrax
    split at h
    · cases h
      exact .signed rfl hrax
    · cases h
      exact .unsigned rfl hrax
  · cases h

/-- The count of a shift is a literal below the width, or in cl. -/
inductive ShiftCount (w : UInt8) : Option Machine.Operand → Machine.Operand → Prop
  | literal (n : Int64) :
      ShiftCount w (some (.imm n)) (.imm (n &&& (Int64.ofNat (w.toNat * 8) - 1)))
  | cl {r : Machine.Reg} (rcx : r.id = Machine.rcx) :
      ShiftCount w (some (.reg r)) (.reg ⟨Machine.rcx, 1⟩)

theorem shiftCount_form {w : UInt8} {n : Machine.Operand} (h : shiftCount w b = .ok n) :
    ShiftCount w b n := by
  unfold shiftCount at h
  split at h
  · cases h
    exact .literal _
  · split at h
    · cases h
    · rename_i hrcx
      cases h
      exact .cl (by simpa using hrcx)
  · cases h

/-- Integer arithmetic by operation. -/
inductive IntArithmeticCode (i : Instr) (d a b : Option Machine.Operand) (signed : Bool)
    (code : List Inst) : Prop
  | product (op : i.op = .mul) (made : mul d a b signed = .ok code)
  | division (op : i.op = .sdiv ∨ i.op = .udiv ∨ i.op = .srem ∨ i.op = .urem)
      (made : divide i.op a b = .ok code)
  | unary {f : Machine.Op} (op : i.op = .neg ∧ f = .neg ∨ i.op = .not ∧ f = .not)
      (made : unary f d a signed = .ok code)
  | shift {f : Machine.Op} {n : Machine.Operand} (op : i.op = .shl ∨ i.op = .shr ∨ i.op = .sar)
      (found : intOp? i.op = some f) (count : shiftCount (opWidth d) b = .ok n)
      (made : binary f d a (some n) false signed = .ok code)
  | twoAddress {f : Machine.Op}
      (op : i.op = .add ∨ i.op = .sub ∨ i.op = .and ∨ i.op = .or ∨ i.op = .xor)
      (found : intOp? i.op = some f)
      (made : binary f d a (b.map fun o => resize o (opWidth d)) i.op.isCommutative signed =
        .ok code)

theorem intArithmetic_code {signed : Bool} (h : intArithmetic i d a b signed = .ok code) :
    IntArithmeticCode i d a b signed code := by
  unfold intArithmetic at h
  cases hi : i.op <;> simp only [hi, intOp?] at h
  case mul => exact .product hi h
  case sdiv | udiv | srem | urem => exact .division (by simp [hi]) (hi ▸ h)
  case neg => exact .unary (.inl ⟨hi, rfl⟩) h
  case not => exact .unary (.inr ⟨hi, rfl⟩) h
  case shl | shr | sar =>
    obtain ⟨n, hn, h⟩ := bind_eq_ok.mp h
    exact .shift (by simp [hi]) (by rw [hi]; rfl) hn h
  case add | sub | and | or | xor => exact .twoAddress (by simp [hi]) (by rw [hi]; rfl) (hi ▸ h)
  -- No other operation is integer arithmetic.
  all_goals cases h

/-! ## Floats -/

/-- The register that float work is done in: the destination, or the scratch register. -/
def WorksIn (d work : Option Machine.Operand) : Prop :=
  isXmm d = true ∧ work = d ∨ work = some (.xmm (xmm15 (opWidth d)))

theorem worksIn_ite {p : Prop} [Decidable p] (h : p → isXmm d = true) :
    WorksIn d (if p then d else some (.xmm (xmm15 (opWidth d)))) := by
  split
  · exact .inl ⟨h ‹_›, rfl⟩
  · exact .inr rfl

theorem worksIn_workXmm : WorksIn d (workXmm d) := worksIn_ite id

/-- An operand in a float register: there already, or loaded into the scratch register `x`. -/
def LoadedIn (x : Machine.Xmm) (a left : Option Machine.Operand) (load : List Inst) : Prop :=
  isXmm a = true ∧ left = a ∧ load = [] ∨
    left = some (.xmm x) ∧ move (some (.xmm x)) a false = .ok load

/-- A float operation takes its sources in one of their two orders, the second one at the width of
the destination and in a float register or memory. -/
inductive FloatBinaryCode (op : Machine.Op) (d a b : Option Machine.Operand) : List Inst → Prop
  | mk {left right work : Option Machine.Operand} {load result : List Inst}
      (sources : left = a ∧ right = (b.map fun o => resize o (opWidth d)) ∨
        left = (b.map fun o => resize o (opWidth d)) ∧ right = a.map fun o => resize o (opWidth d))
      (works : WorksIn d work) (fits : ¬ (!isXmm right && !isMem right) = true)
      (loads : move work left false = .ok load) (moves : move d work false = .ok result) :
      FloatBinaryCode op d a b (load ++ [inst op work right] ++ result)

theorem floatBinary_code {op : Machine.Op} {commutative : Bool}
    (h : floatBinary op d a b commutative = .ok code) : FloatBinaryCode op d a b code := by
  unfold floatBinary at h
  dsimp only at h
  generalize (isXmm d && clobbers d (b.map fun o => resize o (opWidth d)) && commutative &&
    !clobbers d a) = swap at h
  generalize hp : (if swap = true then (b.map fun o => resize o (opWidth d),
    a.map fun o => resize o (opWidth d)) else (a, b.map fun o => resize o (opWidth d))) = p at h
  split at h
  · cases h
  rename_i hright
  obtain ⟨load, hload, h⟩ := bind_eq_ok.mp h
  obtain ⟨result, hresult, h⟩ := bind_eq_ok.mp h
  cases h
  refine .mk ?_ (worksIn_ite fun hx => (Bool.and_eq_true_iff.mp hx).1) hright hload hresult
  rw [← hp]
  split
  · exact .inr ⟨rfl, rfl⟩
  · exact .inl ⟨rfl, rfl⟩

theorem floatNeg_code (h : floatNeg d a = .ok code) : ∃ load result,
    move (some (.reg (r11 (opWidth d)))) a false = .ok load ∧
    move d (some (.reg (r11 (opWidth d)))) false = .ok result ∧
    code = load ++ [two .btc (.reg (r11 (opWidth d)))
      (.imm (Int64.ofNat ((opWidth d).toNat * 8) - 1))] ++ result := by
  obtain ⟨load, hload, h⟩ := bind_eq_ok.mp h
  obtain ⟨result, hresult, h⟩ := bind_eq_ok.mp h
  cases h
  exact ⟨load, result, hload, hresult, rfl⟩

/-- A fused multiplication loads its addend and, if need be, its first factor. -/
inductive FusedCode (c : Closure) (i : Instr) (d a b : Option Machine.Operand) : List Inst → Prop
  | mk {op : Machine.Op} {addend : Machine.Operand} {work left : Option Machine.Operand}
      {load factor result : List Inst} (found : fusedOp? i.op = some op)
      (float : (opType i).isFloat = true) (adds : required c i.addend = .ok addend)
      (works : WorksIn d work) (loads : move work (some addend) false = .ok load)
      (multiplies : LoadedIn (xmm14 (opWidth d)) a left factor)
      (moves : move d work false = .ok result) :
      FusedCode c i d a b (load ++ factor ++
        [.op op ⟨0⟩ work left (b.map fun o => resize o (opWidth d))] ++ result)

theorem fused_code (h : fused c i d a b = .ok code) : FusedCode c i d a b code := by
  unfold fused at h
  split at h
  · rename_i op hop hfloat
    obtain ⟨addend, hadd, h⟩ := bind_eq_ok.mp h
    dsimp only at h
    obtain ⟨load, hload, h⟩ := bind_eq_ok.mp h
    have hwork : WorksIn d (if (!isXmm d || clobbers d a || clobbers d b) = true then
        some (.xmm (xmm15 (opWidth d))) else d) := by
      split
      · exact .inr rfl
      · rename_i hx
        simp only [Bool.or_eq_true, Bool.not_eq_true', not_or, Bool.not_eq_false] at hx
        exact .inl ⟨hx.1.1, rfl⟩
    simp only [pure_bind] at h
    split at h
    · rename_i hxmm
      obtain ⟨result, hresult, h⟩ := bind_eq_ok.mp h
      cases h
      exact .mk hop hfloat hadd hwork hload (.inl ⟨hxmm, rfl, rfl⟩) hresult
    · obtain ⟨factor, hfactor, h⟩ := bind_eq_ok.mp h
      obtain ⟨result, hresult, h⟩ := bind_eq_ok.mp h
      cases h
      exact .mk hop hfloat hadd hwork hload (.inr ⟨rfl, hfactor⟩) hresult
  · cases h

/-! ## Conversions -/

/-- An integer is converted where it is, if it is as wide as the machine converts it, and otherwise
widened in the scratch register. -/
inductive IntToFloatCode (d a : Option Machine.Operand) (signed : Bool) : List Inst → Prop
  | inPlace {result : List Inst} (width : conversionWidth a signed = 0)
      (moves : move d (workXmm d) false = .ok result) :
      IntToFloatCode d a signed ([inst .cvtsi2s (workXmm d) a] ++ result)
  | widened {load result : List Inst} (width : conversionWidth a signed ≠ 0)
      (loads : move (some (.reg (r11 (conversionWidth a signed)))) a signed = .ok load)
      (moves : move d (workXmm d) false = .ok result) :
      IntToFloatCode d a signed
        (load ++ [inst .cvtsi2s (workXmm d)
          (some (.reg (r11 (conversionWidth a signed))))] ++ result)

theorem intToFloat_code {signed : Bool} (h : intToFloat d a signed = .ok code) :
    IntToFloatCode d a signed code := by
  unfold intToFloat at h
  by_cases hwidth : conversionWidth a signed = 0
  · simp only [hwidth, beq_self_eq_true, if_true, pure_bind] at h
    obtain ⟨result, hresult, h⟩ := bind_eq_ok.mp h
    cases h
    exact .inPlace hwidth hresult
  · simp only [beq_eq_false_iff_ne.mpr hwidth, Bool.false_eq_true, if_false] at h
    obtain ⟨load, hload, h⟩ := bind_eq_ok.mp h
    obtain ⟨result, hresult, h⟩ := bind_eq_ok.mp h
    cases h
    exact .widened hwidth hload hresult

/-- A float is converted to four or eight bytes, in the destination if that is such a register. -/
inductive FloatToIntCode (d a : Option Machine.Operand) (signed : Bool) : List Inst → Prop
  | inPlace {r : Machine.Reg} (dst : d = some (.reg r)) (width : r.width = 4 ∨ r.width = 8) :
      FloatToIntCode d a signed [inst .cvtts2si d a]
  | moved {w : UInt8} {result : List Inst} (width : w = 4 ∨ w = 8)
      (moves : move d (some (.reg (r11 w))) signed = .ok result) :
      FloatToIntCode d a signed ([inst .cvtts2si (some (.reg (r11 w))) a] ++ result)

theorem floatToInt_code {signed : Bool} (h : floatToInt d a signed = .ok code) :
    FloatToIntCode d a signed code := by
  unfold floatToInt at h
  dsimp only at h
  generalize hconv : (if (opWidth d == 8 || !signed) = true then (8 : UInt8) else 4) = w at h
  have hw : w = 4 ∨ w = 8 := by
    rw [← hconv]
    split
    · exact .inr rfl
    · exact .inl rfl
  split at h
  · rename_i hdst
    cases h
    obtain ⟨hgpr, hwidth⟩ := Bool.and_eq_true_iff.mp hdst
    unfold isGpr at hgpr
    split at hgpr
    · rename_i r
      obtain rfl : r.width = w := beq_iff_eq.mp hwidth
      exact .inPlace rfl hw
    · cases hgpr
  · obtain ⟨result, hresult, h⟩ := bind_eq_ok.mp h
    cases h
    exact .moved hw hresult

theorem floatToFloat_code (h : floatToFloat d a = .ok code) : ∃ result,
    move d (workXmm d) false = .ok result ∧ code = [inst .cvts2s (workXmm d) a] ++ result := by
  obtain ⟨result, hresult, h⟩ := bind_eq_ok.mp h
  cases h
  exact ⟨result, hresult, rfl⟩

/-! ## Comparisons -/

/-- A comparison of floats, or of integers, whose left operand may have to be loaded. -/
inductive CompareCode (a b : Option Machine.Operand) (float : Bool) : List Inst → Prop
  | float {left : Option Machine.Operand} {load : List Inst} (isFloat : float = true)
      (loads : LoadedIn (xmm15 (compareWidth a b)) a left load)
      (fits : ¬ (!isXmm b && !isMem b) = true) :
      CompareCode a b float (load ++
        [inst .ucomis left (b.map fun o => resize o (compareWidth a b))])
  | loaded {load : List Inst} (isInt : float = false)
      (loads : move (some (.reg (r11 (compareWidth a b)))) a false = .ok load) :
      CompareCode a b float (load ++ [inst .cmp (some (.reg (r11 (compareWidth a b))))
        (b.map fun o => resize o (compareWidth a b))])
  | inPlace (isInt : float = false) (left : isImm a = false) (pair : isGpr a = false →
      isMem b = false) :
      CompareCode a b float [inst .cmp a (b.map fun o => resize o (compareWidth a b))]

theorem compare_code {float : Bool} (h : compare a b float = .ok code) :
    CompareCode a b float code := by
  unfold compare at h
  simp only [pure_bind] at h
  split at h
  · rename_i hfloat
    split at h
    · rename_i hxmm
      split at h
      · cases h
      · rename_i hright
        cases h
        exact .float hfloat (.inl ⟨hxmm, rfl, rfl⟩) hright
    · obtain ⟨load, hload, h⟩ := bind_eq_ok.mp h
      split at h
      · cases h
      · rename_i hright
        cases h
        exact .float hfloat (.inr ⟨rfl, hload⟩) hright
  rename_i hfloat
  have hint : float = false := by simpa using hfloat
  split at h
  · obtain ⟨load, hload, h⟩ := bind_eq_ok.mp h
    cases h
    exact .loaded hint hload
  · rename_i hplain
    cases h
    simp only [Bool.or_eq_true, Bool.and_eq_true, Bool.not_eq_true', not_or, not_and,
      Bool.not_eq_true] at hplain
    exact .inPlace hint hplain.1 hplain.2

/-- The outcome is set in a byte, or set in the scratch register, widened and moved. -/
inductive SetCondCode (cond : Machine.Cond) (d : Option Machine.Operand) : List Inst → Prop
  | byte (width : opWidth d = 1) (isInt : isXmm d = false) :
      SetCondCode cond d [.op .setcc cond d none none]
  | widened {result : List Inst}
      (moves : move d (some (.reg (r11 (max (opWidth d) 4)))) false = .ok result) :
      SetCondCode cond d ([.op .setcc cond (some (.reg (r11 1))) none none,
        two .movzx (.reg (r11 4)) (.reg (r11 1))] ++ result)

theorem setCond_code {cond : Machine.Cond} (h : setCond cond d = .ok code) :
    SetCondCode cond d code := by
  unfold setCond at h
  split at h
  · rename_i hbyte
    cases h
    simp only [Bool.and_eq_true, beq_iff_eq, Bool.not_eq_true'] at hbyte
    exact .byte hbyte.1 hbyte.2
  · obtain ⟨result, hresult, h⟩ := bind_eq_ok.mp h
    cases h
    exact .widened hresult

/-! ## Addresses and calls -/

/-- Whether an address is computed in its destination, not by way of the scratch register. -/
def holdsAddress : Option Machine.Operand → Bool
  | some (.reg r) => decide (4 ≤ r.width)
  | _ => false

/-- The code of an address computation, after the address is known. -/
def leaCode (d : Option Machine.Operand) (wide : Bool) (m : Machine.Memory) :
    Result (List Inst) := do
  if wide then pure [inst .lea d (some (.mem m))]
  else
    let result ← move d (some (.reg (r11 8))) false
    pure ([two .lea (.reg (r11 8)) (.mem m)] ++ result)

/-- The memory whose address is computed. -/
def leaMemory (c : Closure) : Option Operand → Result Machine.Memory
  | some (.symbol s) => if s.isTls then throw (.threadLocalAddress s.name)
    else pure (Machine.Memory.ofRip s.name 8)
  | some (.indirect base index scale disp t) => memory c base index scale disp t
  | o => throw (.leaSource o)

theorem lea_eq (c : Closure) (i : Instr) (d : Option Machine.Operand) :
    lea c i d = leaMemory c i.first >>= leaCode d (holdsAddress d) := by
  unfold lea
  cases i.first with
  | none => rfl
  | some o =>
    cases o with
    | symbol s =>
      cases htls : s.isTls <;> simp only [leaMemory, htls] <;> rfl
    | _ => rfl

/-- An operand with an address, and the memory there. -/
inductive Addressed (c : Closure) : Option Operand → Machine.Memory → Prop
  | symbol {s : Symbol} (shared : s.isTls = false) :
      Addressed c (some (.symbol s)) (.ofRip s.name 8)
  | indirect {base index : Option Operand} {scale : UInt8} {disp : Int64} {t : Ty}
      {m : Machine.Memory} (found : memory c base index scale disp t = .ok m) :
      Addressed c (some (.indirect base index scale disp t)) m

theorem leaMemory_eq_ok {o : Option Operand} {m : Machine.Memory} :
    leaMemory c o = .ok m ↔ Addressed c o m := by
  constructor
  · intro h
    unfold leaMemory at h
    split at h
    · split at h
      · cases h
      · rename_i htls
        cases h
        exact .symbol (by simpa using htls)
    · exact .indirect h
    · cases h
  · rintro (hshared | hfound)
    · simp only [leaMemory, hshared]
      rfl
    · exact hfound

/-- An address is computed in a register of four or eight bytes, or in the scratch register and
moved. -/
inductive LeaCode (d : Option Machine.Operand) (m : Machine.Memory) : List Inst → Prop
  | inPlace {r : Machine.Reg} (dst : d = some (.reg r)) (width : 4 ≤ r.width) :
      LeaCode d m [inst .lea d (some (.mem m))]
  | moved {result : List Inst} (narrow : holdsAddress d = false)
      (moves : move d (some (.reg (r11 8))) false = .ok result) :
      LeaCode d m ([two .lea (.reg (r11 8)) (.mem m)] ++ result)

theorem leaCode_eq_ok {m : Machine.Memory} :
    leaCode d (holdsAddress d) m = .ok code ↔ LeaCode d m code := by
  constructor
  · intro h
    unfold leaCode at h
    split at h
    · rename_i hwide
      cases h
      unfold holdsAddress at hwide
      split at hwide
      · exact .inPlace rfl (by simpa using hwide)
      · cases hwide
    · rename_i hnarrow
      obtain ⟨result, hresult, h⟩ := bind_eq_ok.mp h
      cases h
      exact .moved (by simpa using hnarrow) hresult
  · rintro (⟨rfl, hwidth⟩ | ⟨hnarrow, hresult⟩)
    · simp only [leaCode, holdsAddress, hwidth, decide_true, if_true]
      rfl
    · simp only [leaCode, hnarrow, Bool.false_eq_true, if_false, hresult]
      rfl

theorem lea_code : lea c i d = .ok code ↔ ∃ m, Addressed c i.first m ∧ LeaCode d m code := by
  rw [lea_eq, bind_eq_ok]
  simp only [leaMemory_eq_ok, leaCode_eq_ok]

/-- A call goes to a symbol or through a register. -/
inductive CallCode (i : Instr) : List Inst → Prop
  | direct {s : Symbol} (callee : i.first = some (.symbol s)) :
      CallCode i [.unary .call (.target ⟨s.name, s.isLocal⟩)]
  | indirect {r : Reg} (callee : i.first = some (.reg r)) :
      CallCode i [.unary .call (.reg ⟨r.index, 8⟩)]

theorem call_code (h : call i = .ok code) : CallCode i code := by
  unfold call at h
  split at h
  · rename_i s hs
    cases h
    exact .direct hs
  · rename_i r hr
    cases h
    exact .indirect hr
  · cases h

/-! ## Instructions -/

/-- The code of an instruction by its operation, after the machine forms of its operands are
known. -/
inductive ComputeCode (c : Closure) (i : Instr) (d a b : Option Machine.Operand) : List Inst → Prop
  | move {code : List Inst} (op : i.op = .move) (made : move d a (isSigned i.first) = .ok code) :
      ComputeCode c i d a b code
  | lea {code : List Inst} (op : i.op = .lea) (made : lea c i d = .ok code) :
      ComputeCode c i d a b code
  | clear {code : List Inst} (op : i.op = .clr) (made : clear d = .ok code) :
      ComputeCode c i d a b code
  | push {code : List Inst} (op : i.op = .push) (made : push a = .ok code) :
      ComputeCode c i d a b code
  | pop {code : List Inst} (op : i.op = .pop) (made : pop d = .ok code) : ComputeCode c i d a b code
  | intToFloat {code : List Inst} (op : i.op = .itof)
      (made : intToFloat d a (isSigned i.first) = .ok code) : ComputeCode c i d a b code
  | floatToInt {code : List Inst} (op : i.op = .ftoi)
      (made : floatToInt d a (isSigned i.output) = .ok code) : ComputeCode c i d a b code
  | floatToFloat {code : List Inst} (op : i.op = .fext ∨ i.op = .ftrunc)
      (made : floatToFloat d a = .ok code) : ComputeCode c i d a b code
  | branch {flags : List Inst} (op : i.op.isCondBranch = true)
      (sets : compare a b (opType i).isFloat = .ok flags) :
      ComputeCode c i d a b (flags ++ [.op .jcc (condOf i.op (opType i).isFloat) d none none])
  | compare {flags result : List Inst} (op : i.op.isCompare = true)
      (sets : compare a b (opType i).isFloat = .ok flags)
      (stores : setCond (condOf i.op (opType i).isFloat) d = .ok result) :
      ComputeCode c i d a b (flags ++ result)
  | fused {code : List Inst} (op : i.op.isFused = true) (made : fused c i d a b = .ok code) :
      ComputeCode c i d a b code
  | floatNeg {code : List Inst} (op : i.op = .neg) (float : (opType i).isFloat = true)
      (made : floatNeg d a = .ok code) : ComputeCode c i d a b code
  | float {f : Machine.Op} {code : List Inst} (found : floatOp? i.op = some f)
      (float : (opType i).isFloat = true)
      (made : floatBinary f d a b i.op.isCommutative = .ok code) : ComputeCode c i d a b code
  | int {code : List Inst} (op : i.op.isArithmetic = true) (int : (opType i).isFloat = false)
      (made : intArithmetic i d a b (isSigned i.first) = .ok code) : ComputeCode c i d a b code

theorem isArithmetic_of_code {signed : Bool} (h : IntArithmeticCode i d a b signed code) :
    i.op.isArithmetic = true := by
  cases h with
  | product op => rw [op]; rfl
  | division op => rcases op with op | op | op | op <;> rw [op] <;> rfl
  | unary op => rcases op with ⟨op, -⟩ | ⟨op, -⟩ <;> rw [op] <;> rfl
  | shift op => rcases op with op | op | op <;> rw [op] <;> rfl
  | twoAddress op => rcases op with op | op | op | op | op <;> rw [op] <;> rfl

theorem isArithmetic_of_floatOp {op : Opcode} {f : Machine.Op} (h : floatOp? op = some f) :
    op.isArithmetic = true := by
  cases op <;> first | rfl | cases h

theorem compute_code (h : compute c i d a b = .ok code) : ComputeCode c i d a b code := by
  unfold compute at h
  dsimp only at h
  split at h
  · exact .move ‹_› h
  · exact .lea ‹_› h
  · exact .clear ‹_› h
  · exact .push ‹_› h
  · exact .pop ‹_› h
  · exact .intToFloat ‹_› h
  · exact .floatToInt ‹_› h
  · exact .floatToFloat (.inl ‹_›) h
  · exact .floatToFloat (.inr ‹_›) h
  split at h
  · obtain ⟨flags, hflags, h⟩ := bind_eq_ok.mp h
    cases h
    exact .branch ‹_› hflags
  split at h
  · obtain ⟨flags, hflags, h⟩ := bind_eq_ok.mp h
    obtain ⟨result, hresult, h⟩ := bind_eq_ok.mp h
    cases h
    exact .compare ‹_› hflags hresult
  split at h
  · exact .fused ‹_› h
  split at h
  · rename_i hfloat
    split at h
    · rename_i hneg
      exact .floatNeg (beq_iff_eq.mp hneg) hfloat h
    · split at h
      · exact .float ‹_› hfloat h
      · cases h
  · rename_i hint
    exact .int (isArithmetic_of_code (intArithmetic_code h)) (by simpa using hint) h

/-- The code of an instruction: of one that is no computation on operands by what it is. -/
inductive InstrCode (c : Closure) (i : Instr) : List Inst → Prop
  | nothing (op : i.op = .nop ∨ i.op = .phi ∨ i.op = .fnBegin ∨ i.op = .safepoint) :
      InstrCode c i []
  | label {l : Label} (op : i.op = .label) (output : i.output = some (.label l)) :
      InstrCode c i [.label (labelName c l) .label (if l.isLocal then .loc else .glob)]
  | leave (op : i.op = .ret ∨ i.op = .fnEnd) : InstrCode c i (epilogue c)
  | jump {m : Machine.Operand} (op : i.op = .bal) (target : required c i.output = .ok m) :
      InstrCode c i [.unary .jmp m]
  | call {code : List Inst} (op : i.op = .call ∨ i.op = .rtCall) (made : call i = .ok code) :
      InstrCode c i code
  | compute {d a b : Option Machine.Operand} {code : List Inst}
      (op : isSelectedByOperands i.op = true) (output : outputOperand c i.output = .ok d)
      (first : optional c i.first = .ok a)
      (second : optional c i.second = .ok b) (made : compute c i d a b = .ok code) :
      InstrCode c i code

theorem instr_code (h : instr c i = .ok code) : InstrCode c i code := by
  cases hsel : isSelectedByOperands i.op with
  | true =>
    obtain ⟨d, a, b, hd, ha, hb, h⟩ := instr_eq_compute hsel h
    exact .compute hsel hd ha hb h
  | false =>
    unfold instr at h
    cases hi : i.op <;> simp only [hi, isSelectedByOperands, Bool.true_eq_false] at hsel h
    case nop | phi | fnBegin | safepoint =>
      cases h
      exact .nothing (by simp [hi])
    case label =>
      split at h
      · rename_i l hl
        cases h
        exact .label hi hl
      · cases h
    case ret | fnEnd =>
      cases h
      exact .leave (by simp [hi])
    case bal =>
      obtain ⟨m, hm, h⟩ := bind_eq_ok.mp h
      cases h
      exact .jump hi hm
    case call | rtCall => exact .call (by simp [hi]) h
    case retValue => cases h

end Backend.Selection
