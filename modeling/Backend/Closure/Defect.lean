-- Consistency errors: a pass was given something that it cannot handle. An error names the pass,
-- the closure and the instruction.
import Backend.Closure.Basic
import Backend.Machine.Inst

namespace Backend

/-- The passes that check their input. -/
inductive Pass where
  | lower
  | select
  | schedule
  | object
  deriving DecidableEq

def Pass.name : Pass → String
  | .lower => "lower"
  | .select => "select"
  | .schedule => "schedule"
  | .object => "object"

/-- What a pass found. -/
inductive Defect where
  | unplaced (v : Var)
  | floatRemainder
  | noScratch (o : Operand)
  | literalStore (s : Symbol)
  | unwritable (o : Operand)
  | displacement (disp : Int64)
  | absoluteAddress (o : Operand)
  | symbolBase (o : Operand)
  | addressBase (o : Operand)
  | parameter (o : Operand)
  | missingCallee
  | argumentConflict (a b : Operand)
  | unorderedMoves
  | frameOffset (offset : Int64)
  | literal (l : Literal)
  | noMachineForm (o : Option Operand)
  | addressComponent (o : Operand)
  | addressWithoutRegister (o : Operand)
  | bitMove (r : Machine.Reg)
  | noMove (src dst : Option Machine.Operand)
  | unnamedLabel
  | unloweredReturn
  | noFloatForm (op : Opcode)
  | shiftCountRegister (r : Machine.Reg)
  | shiftCount (o : Option Machine.Operand)
  | noSelection (op : Opcode)
  | byteMultiply
  | dividend (o : Option Machine.Operand)
  | floatCompare (o : Option Machine.Operand)
  | threadLocalAddress (name : String)
  | leaSource (o : Option Operand)
  | clear (o : Option Machine.Operand)
  | push (o : Option Machine.Operand)
  | pop (o : Option Machine.Operand)
  | callThrough (o : Option Operand)
  | floatOperand (o : Option Machine.Operand)
  | integerMultiplyAdd
  | cyclicBlock (label : String) (scheduled total : Nat)
  | danglingRelocation (offset : UInt64) (symbol : String)

namespace Defect

/-- A missing operand inside running text. -/
def operandText (o : Option Operand) (missing : String) : String :=
  (o.map Operand.text).getD missing

def machineText (o : Option Machine.Operand) : String := (o.map Machine.Operand.text).getD "<nil>"

/-- The wording of a defect. -/
def message : Defect → String
  | .unplaced v => s!"variable {v.text} has no register or stack assignment"
  | .floatRemainder => "no float remainder"
  | .noScratch o => s!"no scratch slot left for {o.text}"
  | .literalStore s => s!"store to literal {s.text}"
  | .unwritable o => s!"{o.text} cannot be written"
  | .displacement disp => s!"displacement {disp.toInt} out of range"
  | .absoluteAddress o => s!"absolute address {o.text}"
  | .symbolBase o => s!"symbol base with frame-resident index in {o.text}"
  | .addressBase o => s!"unsupported address base {o.text}"
  | .parameter o => s!"parameter {o.text} is not a variable"
  | .missingCallee => "call without callee"
  | .argumentConflict a b => s!"argument {a.text} conflicts with {b.text}"
  | .unorderedMoves => "argument moves cannot be ordered"
  | .frameOffset offset => s!"frame offset {offset.toInt} out of range"
  | .literal l => s!"literal {l.text} was not materialized"
  | .noMachineForm o => "operand " ++ operandText o "<nil>" ++ " has no machine form"
  | .addressComponent o => s!"address component {o.text} is not in a register"
  | .addressWithoutRegister o => s!"address {o.text} has no register"
  | .bitMove r => s!"bit move from {r.text}"
  | .noMove src dst => s!"no move from {machineText src} to {machineText dst}"
  | .unnamedLabel => "label without name"
  | .unloweredReturn => "RETURN reached selection unlowered"
  | .noFloatForm op => s!"{op.name} has no float form"
  | .shiftCountRegister r => s!"shift count {r.text} is not in cl"
  | .shiftCount o => s!"shift count {machineText o}"
  | .noSelection op => s!"no selection for {op.name}"
  | .byteMultiply => "byte multiply by memory"
  | .dividend o => s!"dividend {machineText o} is not rax"
  | .floatCompare o => s!"float compare with {machineText o}"
  | .threadLocalAddress name => s!"address of thread-local {name}"
  | .leaSource o => "lea of " ++ operandText o "%!s(<nil>)"
  | .clear o => s!"clear {machineText o}"
  | .push o => s!"push {machineText o}"
  | .pop o => s!"pop {machineText o}"
  | .callThrough o => "call through " ++ operandText o "%!s(<nil>)"
  | .floatOperand o => s!"float operand {machineText o}"
  | .integerMultiplyAdd => "no integer multiply-add"
  | .cyclicBlock label scheduled total =>
    s!"block {label}: scheduled {scheduled} of {total} instructions"
  | .danglingRelocation offset symbol =>
    s!"relocation at 0x{Text.hex offset.toNat} references {Text.quote symbol}, " ++
      "which is not in the symbol table"

end Defect

/-- A defect with the place where it was found. -/
structure InternalError where
  pass : Pass
  closure : String
  instr : Option Instr
  defect : Defect

/-- The wording of a consistency error; parts that are missing are left out. -/
def InternalError.message (e : InternalError) : String :=
  let closure := if e.closure != "" then ": " ++ e.closure else ""
  let instr := match e.instr with
    | some i => s!": {i.text} ({i.pos.text})"
    | none => ""
  e.pass.name ++ closure ++ instr ++ ": " ++ e.defect.message

end Backend
