-- Selecting machine instructions for lowered code. r11, xmm14 and xmm15 are scratch registers that
-- carry no value from one instruction to the next.
import Backend.Selection.Integer
import Backend.Selection.Scalar

namespace Backend.Selection

open Backend.Machine (Inst)
open Backend.Lowering (opType)

/-! ## Other instructions -/

/-- An address computation. -/
def lea (c : Closure) (i : Instr) (d : Option Machine.Operand) : Result (List Inst) := do
  let m ← match i.first with
    | some (.symbol s) =>
      if s.isTls then throw (.threadLocalAddress s.name) else pure (Machine.Memory.ofRip s.name 8)
    | some (.indirect base index scale disp t) => memory c base index scale disp t
    | o => throw (.leaSource o)
  let wideDest := match d with
    | some (.reg r) => decide (4 ≤ r.width)
    | _ => false
  if wideDest then pure [inst .lea d (some (.mem m))]
  else
    let result ← move d (some (.reg (r11 8))) false
    pure ([two .lea (.reg (r11 8)) (.mem m)] ++ result)

def clear (d : Option Machine.Operand) : Result (List Inst) :=
  match d with
  | some (.xmm x) => .ok [two .xorps (.xmm x) (.xmm x)]
  | some (.reg r) => .ok [two .xor (.reg ⟨r.id, 4⟩) (.reg ⟨r.id, 4⟩)]
  | some (.mem m) => .ok [two .mov (.mem m) (.imm 0)]
  | _ => .error (.clear d)

def push (a : Option Machine.Operand) : Result (List Inst) :=
  match a with
  | some (.reg r) => .ok [.unary .push (.reg ⟨r.id, 8⟩)]
  | some (.mem m) => .ok [.unary .push (.mem (m.sized 8))]
  | some (.imm v) => .ok [.unary .push (.imm v)]
  | _ => .error (.push a)

def pop (d : Option Machine.Operand) : Result (List Inst) :=
  match d with
  | some (.reg r) => .ok [.unary .pop (.reg ⟨r.id, 8⟩)]
  | some (.mem m) => .ok [.unary .pop (.mem (m.sized 8))]
  | _ => .error (.pop d)

def call (i : Instr) : Result (List Inst) :=
  match i.first with
  | some (.symbol s) => .ok [.unary .call (.target ⟨s.name, s.isLocal⟩)]
  | some (.reg r) => .ok [.unary .call (.reg ⟨r.index, 8⟩)]
  | o => .error (.callThrough o)

/-- Restores the preserved registers and leaves the function. -/
def epilogue (c : Closure) : List Inst :=
  let rbp : Machine.Reg := ⟨Machine.rbp, 8⟩
  let restore := c.saved.map fun s =>
    two .mov (.reg ⟨s.reg.index, 8⟩) (.mem (.ofBase rbp (toDisp s.offset) 8))
  restore ++ [two .mov (.reg ⟨Machine.rsp, 8⟩) (.reg rbp), .unary .pop (.reg rbp), .plain .ret]

/-! ## Instructions -/

/-- The machine form of an output; a list of implicit registers has none. -/
def outputOperand (c : Closure) (o : Option Operand) : Result (Option Machine.Operand) :=
  match o with
  | some (.list _) => .ok none
  | o => optional c o

def isSigned (o : Option Operand) : Bool := (o.map fun o => o.ty.isSigned).getD false

/-- Integer arithmetic by operation. -/
def intArithmetic (i : Instr) (d a b : Option Machine.Operand) (signed : Bool) :
    Result (List Inst) := do
  match i.op with
  | .mul => mul d a b signed
  | .sdiv | .udiv | .srem | .urem => divide i.op a b
  | .neg => unary .neg d a signed
  | .not => unary .not d a signed
  | .shl | .shr | .sar =>
    let count ← shiftCount (opWidth d) b
    binary ((intOp? i.op).getD .shl) d a (some count) false signed
  | _ =>
    match intOp? i.op with
    | some op => binary op d a (b.map fun o => resize o (opWidth d)) i.op.isCommutative signed
    | none => throw (.noSelection i.op)

/-- Arithmetic and conversions, after the machine forms of output and sources are known. -/
def compute (c : Closure) (i : Instr) (d a b : Option Machine.Operand) : Result (List Inst) := do
  let float := (opType i).isFloat
  let signed := isSigned i.first
  match i.op with
  | .move => move d a signed
  | .lea => lea c i d
  | .clr => clear d
  | .push => push a
  | .pop => pop d
  | .itof => intToFloat d a signed
  | .ftoi => floatToInt d a (isSigned i.output)
  | .fext | .ftrunc => floatToFloat d a
  | _ =>
    if i.op.isCondBranch then
      let flags ← compare a b float
      pure (flags ++ [.op .jcc (condOf i.op float) d none none])
    else if i.op.isCompare then
      let flags ← compare a b float
      let result ← setCond (condOf i.op float) d
      pure (flags ++ result)
    else if i.op.isFused then fused c i d a b
    else if float then
      if i.op == .neg then floatNeg d a
      else
        match floatOp? i.op with
        | some op => floatBinary op d a b i.op.isCommutative
        | none => throw (.noFloatForm i.op)
    else intArithmetic i d a b signed

/-- The machine instructions of one lowered instruction. -/
def instr (c : Closure) (i : Instr) : Result (List Inst) :=
  match i.op with
  | .nop | .phi | .fnBegin | .safepoint => .ok []
  | .label =>
    match i.output with
    | some (.label l) => .ok [.label (labelName c l) .label (if l.isLocal then .loc else .glob)]
    | _ => .error .unnamedLabel
  | .ret | .fnEnd => .ok (epilogue c)
  | .bal => do .ok [.unary .jmp (← required c i.output)]
  | .call | .rtCall => call i
  | .retValue => .error .unloweredReturn
  | _ => do
    let d ← outputOperand c i.output
    let a ← optional c i.first
    let b ← optional c i.second
    compute c i d a b

/-- The machine instructions of a list of instructions. -/
def instrs (c : Closure) : List Instr → Except InternalError (List Inst)
  | [] => .ok []
  | i :: rest =>
    match instr c i with
    | .error d => .error ⟨.select, c.name, some i, d⟩
    | .ok code => do
      let more ← instrs c rest
      pure (code ++ more)

end Backend.Selection

namespace Backend

/-- The machine instructions of a lowered closure, without the label of the function. -/
def Closure.select (c : Closure) : Except InternalError (List Machine.Inst) :=
  Selection.instrs c (c.blocks.flatMap Block.ops)

end Backend
