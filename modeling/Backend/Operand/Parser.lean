-- Reading the written form of an operand. The reader walks over the characters of the source and
-- hands on what is left; nested memory operands and lists recurse under a bound that the length of
-- the source gives.
import Backend.Float.Numeral
import Backend.Operand
import Backend.Text.Numeral

namespace Backend

/-- Why a text is not an operand. -/
inductive OperandError where
  | missing
  | trailing (rest : String)
  | expected (c : Char) (position : Nat) (source : String)
  | unknownType (name : String)
  | emptyVariable (source : String)
  | untypedVariable (ident : String)
  | unknownVariableFlag (flag : String)
  | badString
  | badFloat (numeral : String)
  | badInteger (numeral : String)
  | emptySymbol (source : String)
  | unknownSymbolFlag (flag : String)
  | emptyLabel (source : String)
  | unknownLabelFlag (flag : String)
  | badDisplacement (numeral : String)
  | subtractedOperand (source : String)
  | badScale (numeral : String)
  | untypedMemory (source : String)
  | unterminatedMemory (source : String)
  | unterminatedList (source : String)
  | badStackOffset (numeral : String)
  | untypedStackSlot
  | registerType (name : String) (ty : Ty)
  | unknownOperand (name : String)
  deriving DecidableEq

open Backend.Text

/-- The wording of an operand error. -/
def OperandError.message : OperandError → String
  | .missing => "missing operand"
  | .trailing rest => s!"unexpected {quote rest} after operand"
  | .expected c position source => s!"expected '{c}' at {position} in {quote source}"
  | .unknownType name => s!"unknown type {quote name}"
  | .emptyVariable source => s!"empty variable name in {quote source}"
  | .untypedVariable ident => s!"variable %{ident} needs a type"
  | .unknownVariableFlag flag => s!"unknown variable flag {quote flag}"
  | .badString => "bad string literal: invalid syntax"
  | .badFloat numeral => s!"bad float literal {quote numeral}"
  | .badInteger numeral => s!"bad integer literal {quote numeral}"
  | .emptySymbol source => s!"empty symbol name in {quote source}"
  | .unknownSymbolFlag flag => s!"unknown symbol flag {quote flag}"
  | .emptyLabel source => s!"empty label name in {quote source}"
  | .unknownLabelFlag flag => s!"unknown label flag {quote flag}"
  | .badDisplacement numeral => s!"bad displacement {quote numeral}"
  | .subtractedOperand source => s!"cannot subtract a register in {quote source}"
  | .badScale numeral => s!"bad scale {quote numeral}"
  | .untypedMemory source => s!"memory operand needs a type in {quote source}"
  | .unterminatedMemory source => s!"unterminated memory operand {quote source}"
  | .unterminatedList source => s!"unterminated list {quote source}"
  | .badStackOffset numeral => s!"bad stack offset {quote numeral}"
  | .untypedStackSlot => "stack slot needs a type"
  | .registerType name ty => s!"register {name} cannot hold {ty.name}"
  | .unknownOperand name => s!"unknown operand {quote name}"

/-- The registers a target knows by name. -/
abbrev RegisterTable := String → Option Reg

namespace Operand

/-! ## Words, types and flags -/

/-- Spaces and tabs may stand between the parts of an operand. -/
def skipSpace (s : List Char) : List Char := s.dropWhile fun c => c == ' ' || c == '\t'

def isWordChar (c : Char) : Bool :=
  c == '_' || ('a' ≤ c && c ≤ 'z') || ('A' ≤ c && c ≤ 'Z') || ('0' ≤ c && c ≤ '9')

/-- The longest run of word characters and of `extra` ones, and what follows it. -/
def word (extra : List Char) (s : List Char) : String × List Char :=
  let inside (c : Char) : Bool := isWordChar c || extra.contains c
  (String.ofList (s.takeWhile inside), s.dropWhile inside)

/-- An optional type after a colon. -/
def typeSuffix : List Char → Except OperandError (Option Ty × List Char)
  | ':' :: s =>
    let (name, rest) := word [] s
    match Ty.ofName? name with
    | some t => .ok (some t, rest)
    | none => .error (.unknownType name)
  | s => .ok (none, s)

/-- The words after exclamation marks; `n` bounds their number. -/
def flagsUpTo : Nat → List Char → List String × List Char
  | n + 1, '!' :: s =>
    let (flag, rest) := word [] s
    let (flags, rest) := flagsUpTo n rest
    (flag :: flags, rest)
  | _, s => ([], s)

/-- The words after exclamation marks. -/
def flags (s : List Char) : List String × List Char := flagsUpTo s.length s

/-! ## Operands without parts -/

/-- A variable after its percent sign. -/
def readVar (source s : List Char) : Except OperandError (Operand × List Char) := do
  let (ident, s) := word ['.'] s
  if ident == "" then throw (.emptyVariable (String.ofList source))
  match ← typeSuffix s with
  | (none, _) => throw (.untypedVariable ident)
  | (some t, s) =>
    let (marks, s) := flags s
    match marks.find? fun f => f != "const" && f != "captured" with
    | some f => throw (.unknownVariableFlag f)
    | none => pure (.var ⟨ident, t, marks.contains "const", marks.contains "captured"⟩, s)

/-- The type of a number without one: a point makes it a float. -/
def defaultNumberType (numeral : String) : Ty := if numeral.contains '.' then .f64 else .i64

/-- A number of a type. -/
def readNumber (numeral : String) (t : Ty) : Except OperandError Literal :=
  if t.isFloat then
    match Float.read? numeral.toList with
    | some x => .ok (.ofFloat t x)
    | none => .error (.badFloat numeral)
  else
    match readWord numeral.toList with
    | .ok n => .ok (.ofInt t n)
    | .error _ => .error (.badInteger numeral)

/-- A literal after its dollar sign. -/
def readLiteral (s : List Char) : Except OperandError (Operand × List Char) :=
  match s with
  | '"' :: quoted =>
    match unquote? quoted with
    | some (bytes, rest) => .ok (.imm (.string bytes), rest)
    | none => .error .badString
  | _ => do
    let (numeral, s) := word ['-', '+', '.'] s
    if numeral == "true" then return (.imm (.bool 1), s)
    if numeral == "false" then return (.imm (.bool 0), s)
    let (t, s) ← typeSuffix s
    let literal ← readNumber numeral (t.getD (defaultNumberType numeral))
    pure (.imm literal, s)

/-- A symbol after its at sign. -/
def readSymbol (source s : List Char) : Except OperandError (Operand × List Char) := do
  let (name, s) := word ['.', '$', '/'] s
  if name == "" then throw (.emptySymbol (String.ofList source))
  let (t, s) ← typeSuffix s
  let (marks, s) := flags s
  match marks.find? fun f => f != "local" && f != "tls" with
  | some f => throw (.unknownSymbolFlag f)
  | none =>
    pure (.symbol ⟨name, marks.contains "local", marks.contains "tls", t.getD .void, none⟩, s)

/-- A label after its hash sign. -/
def readLabel (source s : List Char) : Except OperandError (Operand × List Char) := do
  let (name, s) := word ['.', '$', '/'] s
  if name == "" then throw (.emptyLabel (String.ofList source))
  let (marks, s) := flags s
  match marks.find? (· != "local") with
  | some f => throw (.unknownLabelFlag f)
  | none => pure (.label ⟨name, !marks.isEmpty⟩, s)

/-- A frame slot after its opening parenthesis. -/
def readStackSlot (source s : List Char) : Except OperandError (Operand × List Char) := do
  let (numeral, s) := word ['-'] s
  match readInt64 numeral.toList with
  | .error _ => throw (.badStackOffset numeral)
  | .ok offset =>
    match skipSpace s with
    | ')' :: s =>
      match ← typeSuffix s with
      | (none, _) => throw .untypedStackSlot
      | (some t, s) => pure (.stack offset t, s)
    | s => throw (.expected ')' (utf8Length source - utf8Length s) (String.ofList source))

/-- A register accessed as a value of a type; an integer register of another width loses its
name. -/
def retype (name : String) (r : Reg) (t : Ty) : Except OperandError Reg :=
  if t.isFloat != (r.cls == .float) then .error (.registerType name t)
  else
    let kept := if r.width.toNat != t.size && r.cls == .int then "" else r.name
    .ok { r with width := UInt8.ofNat t.size, name := kept }

/-- A register by class letter and number, as in `r3:i32` and `x1:f64`. -/
def numberedRegister? (name : String) (t : Ty) : Option Reg :=
  match name.toList with
  | c :: digits =>
    if (c == 'r' || c == 'x') && !digits.isEmpty then
      match readDecimal 256 digits with
      | .ok n => some ⟨UInt8.ofNat n, UInt8.ofNat t.size, if c == 'x' then .float else .int, ""⟩
      | .error _ => none
    else none
  | [] => none

/-- A frame slot or a register. -/
def readNamed (regs : RegisterTable) (source s : List Char) :
    Except OperandError (Operand × List Char) := do
  let (name, s) := word [] s
  match name == "stack", s with
  | true, '(' :: s => readStackSlot source s
  | _, s =>
    let (t, s) ← typeSuffix s
    match regs name, t with
    | some r, none => pure (.reg r, s)
    | some r, some t => pure (.reg (← retype name r t), s)
    | none, none => throw (.unknownOperand name)
    | none, some t =>
      match numberedRegister? name t with
      | some r => pure (.reg r, s)
      | none => throw (.unknownOperand name)

/-! ## Memory operands and lists -/

/-- The parts of a memory operand read so far. -/
structure Address where
  base : Option Operand
  index : Option Operand
  scale : UInt8
  disp : Int64

def Address.empty : Address := ⟨none, none, 0, 0⟩

/-- A part without a scale is the base if there is none yet, otherwise the index. -/
def Address.add (a : Address) (o : Operand) : Address :=
  match a.base with
  | none => { a with base := some o }
  | some _ => { a with index := some o, scale := 1 }

/-- Closes a memory operand of a type; an index has a scale of at least one. -/
def Address.close (a : Address) (t : Ty) : Operand :=
  let scale := if a.index.isSome && a.scale == 0 then 1 else a.scale
  .indirect a.base a.index scale a.disp t

/-- Takes a minus sign before a part of a memory operand. -/
def takeSign (minus : Bool) (s : List Char) : Bool × List Char :=
  match skipSpace s with
  | '-' :: s => (!minus, skipSpace s)
  | s => (minus, s)

mutual

/-- An operand at the front of `s`, with `n` as the bound on the recursion. -/
def readOperand (regs : RegisterTable) (source : List Char) :
    Nat → List Char → Except OperandError (Operand × List Char)
  | 0, _ => .error .missing
  | n + 1, s =>
    match skipSpace s with
    | [] => .error .missing
    | '\x00' :: _ => .error .missing
    | '%' :: s => readVar source s
    | '$' :: s => readLiteral s
    | '@' :: s => readSymbol source s
    | '#' :: s => readLabel source s
    | '[' :: s => readAddress regs source n .empty false s
    | '(' :: s =>
      match skipSpace s with
      | ')' :: s => .ok (.list [], s)
      | s => do
        let (items, s) ← readItems regs source n s
        pure (.list items, s)
    | s => readNamed regs source s

/-- The parts of a memory operand up to its closing bracket and type. A minus sign applies to
a number only. -/
def readAddress (regs : RegisterTable) (source : List Char) :
    Nat → Address → Bool → List Char → Except OperandError (Operand × List Char)
  | 0, _, _, _ => .error .missing
  | n + 1, a, minus, s => do
    let (minus, s) := takeSign minus s
    let (a, s) ← match s with
      | c :: _ =>
        if '0' ≤ c && c ≤ '9' then
          let (numeral, rest) := word [] s
          match readInt64 numeral.toList with
          | .ok d => pure ({ a with disp := if minus then a.disp - d else a.disp + d }, rest)
          | .error _ => throw (.badDisplacement numeral)
        else readPart regs source n a minus s
      | [] => readPart regs source n a minus s
    match skipSpace s with
    | ']' :: s =>
      match ← typeSuffix s with
      | (none, _) => throw (.untypedMemory (String.ofList source))
      | (some t, s) => pure (a.close t, s)
    | '+' :: s => readAddress regs source n a false s
    | '-' :: s => readAddress regs source n a true s
    | _ => throw (.unterminatedMemory (String.ofList source))

/-- A base or a scaled index. -/
def readPart (regs : RegisterTable) (source : List Char) :
    Nat → Address → Bool → List Char → Except OperandError (Address × List Char)
  | 0, _, _, _ => .error .missing
  | n + 1, a, minus, s => do
    if minus then throw (.subtractedOperand (String.ofList source))
    let (o, s) ← readOperand regs source n s
    match skipSpace s with
    | '*' :: s =>
      let (numeral, s) := word [] (skipSpace s)
      match readDecimal 256 numeral.toList with
      | .ok k => pure ({ a with index := some o, scale := UInt8.ofNat k }, s)
      | .error _ => throw (.badScale numeral)
    | s => pure (a.add o, s)

/-- The items of a list up to its closing parenthesis. -/
def readItems (regs : RegisterTable) (source : List Char) :
    Nat → List Char → Except OperandError (List Operand × List Char)
  | 0, _ => .error .missing
  | n + 1, s => do
    let (o, s) ← readOperand regs source n s
    match skipSpace s with
    | ',' :: s =>
      let (items, s) ← readItems regs source n s
      pure (o :: items, s)
    | ')' :: s => pure ([o], s)
    | _ => throw (.unterminatedList (String.ofList source))

end

/-- Every step of the recursion but two of three consumes a character. -/
def readBound (s : List Char) : Nat := 3 * s.length + 3

/-- Reads a text that is one operand. -/
def parse (regs : RegisterTable) (s : List Char) : Except OperandError Operand := do
  let (o, rest) ← readOperand regs s (readBound s) s
  match skipSpace rest with
  | [] => pure o
  | rest => throw (.trailing (String.ofList rest))

end Operand

end Backend
