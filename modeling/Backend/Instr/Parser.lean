-- Reading the written form of an instruction: the operation up to the first space, then the
-- sources with commas between them and the output after an arrow.
import Backend.Instr
import Backend.Operand.Parser
import Backend.Text.Letter

namespace Backend

/-- Why a text is not an instruction. -/
inductive InstrError where
  | unknownOpcode (source name : String)
  | badOutput (source : String) (cause : OperandError)
  | badOperand (source : String) (number : Nat) (cause : OperandError)
  | tooManyOperands (source : String)
  deriving DecidableEq

open Backend.Text

/-- The wording of an instruction error. -/
def InstrError.message : InstrError → String
  | .unknownOpcode source name => s!"parse {quote source}: unknown opcode {quote name}"
  | .badOutput source cause => s!"parse {quote source}: output: {cause.message}"
  | .badOperand source number cause =>
    s!"parse {quote source}: operand {number}: {cause.message}"
  | .tooManyOperands source => s!"parse {quote source}: too many operands"

namespace Instr

/-- Splits at the first separator outside brackets and string literals. `depth` counts the open
brackets and `inString` says whether a string literal is open. -/
def cutTopLevelFrom (sep : List Char) :
    Int → Bool → List Char → Option (List Char × List Char)
  | _, _, [] => none
  | _, true, '\\' :: [] => none
  | depth, true, '\\' :: c :: s => do
    let (before, after) ← cutTopLevelFrom sep depth true s
    some ('\\' :: c :: before, after)
  | depth, true, c :: s => do
    let (before, after) ← cutTopLevelFrom sep depth (c != '"') s
    some (c :: before, after)
  | depth, false, c :: s =>
    if c != '"' && !"[]()".contains c && depth == 0 && sep.isPrefixOf (c :: s) then
      some ([], (c :: s).drop sep.length)
    else do
      let deeper : Int := if c == '[' || c == '(' then 1 else if c == ']' || c == ')' then -1 else 0
      let (before, after) ← cutTopLevelFrom sep (depth + deeper) (c == '"') s
      some (c :: before, after)

/-- Splits at the first separator outside brackets and string literals. -/
def cutTopLevel (sep : List Char) (s : List Char) : Option (List Char × List Char) :=
  cutTopLevelFrom sep 0 false s

/-- The texts between top-level commas; what stands after the last comma counts only if it is not
blank. `n` bounds their number. -/
def fieldsUpTo : Nat → List Char → List (List Char)
  | 0, _ => []
  | n + 1, s =>
    if (trim s).isEmpty then []
    else
      match cutTopLevel [','] s with
      | none => [trim s]
      | some (before, after) => trim before :: fieldsUpTo n after

/-- The texts between top-level commas. -/
def fields (s : List Char) : List (List Char) := fieldsUpTo (s.length + 1) s

/-- Operations whose only operand is the output even without an arrow. -/
def isOutputOnly : Opcode → Bool
  | .label | .bal | .fnBegin | .clr | .pop | .safepoint => true
  | _ => false

/-- The texts of the sources and of the output. -/
def splitOutput (op : Opcode) (operands : List Char) : List Char × List Char :=
  match cutTopLevel ['-', '>'] operands with
  | some (before, after) => (before, after)
  | none => if isOutputOnly op then ([], operands) else (operands, [])

/-- One source; an underscore stands for a missing one. -/
def parseSource (regs : RegisterTable) (source : String) (number : Nat) (field : List Char) :
    Except InstrError (Option Operand) :=
  if field == ['_'] then .ok none
  else
    match Operand.parse regs field with
    | .ok o => .ok (some o)
    | .error e => .error (.badOperand source number e)

/-- The output; a blank text stands for a missing one. -/
def parseOutput (regs : RegisterTable) (source : String) (output : List Char) :
    Except InstrError (Option Operand) :=
  if (trim output).isEmpty then .ok none
  else
    match Operand.parse regs output with
    | .ok o => .ok (some o)
    | .error e => .error (.badOutput source e)

/-- An instruction with the sources of the given texts. -/
def ofFields (regs : RegisterTable) (source : String) (op : Opcode) (output : Option Operand) :
    List (List Char) → Except InstrError Instr
  | [] => pure ⟨op, none, none, none, output, ⟨0, 0⟩⟩
  | [a] => do
    let a ← parseSource regs source 1 a
    pure ⟨op, a, none, none, output, ⟨0, 0⟩⟩
  | [a, b] => do
    let a ← parseSource regs source 1 a
    let b ← parseSource regs source 2 b
    pure ⟨op, a, b, none, output, ⟨0, 0⟩⟩
  | [a, b, c] => do
    let a ← parseSource regs source 1 a
    let b ← parseSource regs source 2 b
    let c ← parseSource regs source 3 c
    pure ⟨op, a, b, c, output, ⟨0, 0⟩⟩
  | _ => throw (.tooManyOperands source)

/-- Reads a text that is one instruction. -/
def parse (regs : RegisterTable) (text : List Char) : Except InstrError Instr := do
  let src := trim text
  let source := String.ofList src
  let (head, rest) := cut ' ' src
  match Opcode.ofName? (String.ofList head) with
  | none => throw (.unknownOpcode source (String.ofList head))
  | some op =>
    let (sources, output) := splitOutput op (rest.getD [])
    let output ← parseOutput regs source output
    ofFields regs source op output (fields sources)

end Instr

end Backend
