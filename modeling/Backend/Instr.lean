-- Instructions: an operation, up to three sources and an output, with the operands an instruction
-- reads and writes and its written form.
import Backend.Opcode
import Backend.Operand

namespace Backend

/-- A place in a source text, from one. -/
structure Position where
  line : Nat
  column : Nat
  deriving DecidableEq

def Position.text (p : Position) : String := s!"{p.line}:{p.column}"

/-- An instruction. A two-source operation computes `output = first op second`; a branch has its
target as output; the addend is the third source of the fused multiplications. -/
structure Instr where
  op : Opcode
  first : Option Operand
  second : Option Operand
  addend : Option Operand
  output : Option Operand
  pos : Position

namespace Instr

/-- An instruction with two sources and an output at no particular place. -/
def make (op : Opcode) (first second output : Option Operand) : Instr :=
  ⟨op, first, second, none, output, ⟨0, 0⟩⟩

/-! ## Written form -/

/-- The sources up to the last one that is there. -/
def sources (i : Instr) : List (Option Operand) :=
  match i.first, i.second, i.addend with
  | a, b, some c => [a, b, some c]
  | a, some b, none => [a, some b]
  | some a, none, none => [some a]
  | none, none, none => []

/-- The written form: sources after the operation, an underscore for a missing one, and the
output after an arrow. -/
def text (i : Instr) : String :=
  let written := i.sources.map fun o => (o.map Operand.text).getD "_"
  let before := if written.isEmpty then "" else " " ++ ", ".intercalate written
  let after := match i.output with
    | none => ""
    | some o => (if written.isEmpty then " " else " -> ") ++ o.text
  i.op.name ++ before ++ after

/-! ## Reads and writes -/

/-- The base and index of a memory operand. -/
def addressParts : Operand → List Operand
  | .indirect base index _ _ _ => base.toList ++ index.toList
  | _ => []

mutual

/-- What reading an operand reads: the items of a list, a memory operand with its address parts,
and nothing for a label. -/
def reads : Operand → List Operand
  | .list items => readsItems items
  | .label _ => []
  | o => o :: addressParts o

/-- What reading the items of a list reads. -/
def readsItems : List Operand → List Operand
  | [] => []
  | o :: rest => reads o ++ readsItems rest

end

/-- What reading an operand that may be missing reads. -/
def readsOption : Option Operand → List Operand
  | none => []
  | some o => reads o

/-- Every operand an instruction reads: its sources and the address parts of a memory output. -/
def uses (i : Instr) : List Operand :=
  match i.op with
  | .label | .bal | .nop | .fnBegin => []
  | _ =>
    let sources := readsOption i.first ++ readsOption i.second ++ readsOption i.addend
    if i.op.isBranch then sources else sources ++ (i.output.map addressParts).getD []

/-- Every operand an instruction writes. -/
def defs (i : Instr) : List Operand :=
  if i.op.isBranch || i.op == .label then []
  else
    match i.output with
    | none => []
    | some (.list items) => items
    | some o => [o]

/-- The variables read, in operand order. -/
def usedVars (i : Instr) : List Var := i.uses.filterMap Operand.var?

/-- The variable written, if the output is one. -/
def definedVar? (i : Instr) : Option Var := i.output.bind Operand.var?

end Instr

end Backend
