-- A unit of machine code under construction: the text and data sections, the symbol table in
-- order of discovery, the relocations, and the lines of the listing.
import Backend.Bytes
import Backend.CodeUnit.Symbol
import Backend.Text.Hex
import Backend.Text.Quoted

namespace Backend

/-- One line of a listing. A line with a label and no text marks a definition. -/
structure CodeUnit.Line where
  offset : UInt64
  bytes : List UInt8
  text : String
  label : String
  deriving DecidableEq

/-- The sections and tables of one module. -/
structure CodeUnit where
  name : String
  text : List UInt8
  data : List UInt8
  symbols : List CodeUnit.Entry
  relocs : List CodeUnit.Relocation
  listing : Bool
  lines : List CodeUnit.Line

namespace CodeUnit

/-- Why an operation on a unit fails. Cutting a range out of the text that it does not have is a
fault, which ends the program. -/
inductive Error where
  | alreadyDefined (name : String)
  | patchBeyondEnd (offset : UInt64) (length : Nat) (size : Nat)
  | patchOutside (offset : UInt64) (size : Nat)
  deriving DecidableEq

/-- The wording of a unit error. A fault has none. -/
def Error.message? : Error → Option String
  | .alreadyDefined name => some s!"symbol {Text.quote name} already defined"
  | .patchBeyondEnd offset length size =>
    some s!"patch at 0x{Text.hex offset.toNat}+{length} beyond text end 0x{Text.hex size}"
  | .patchOutside _ _ => none

/-- A unit with nothing in it. -/
def empty (name : String) : CodeUnit := ⟨name, [], [], [], [], false, []⟩

/-! ## Text -/

/-- The current end of the text section. -/
def offset (u : CodeUnit) : UInt64 := UInt64.ofNat u.text.length

/-- Appends to the text section. -/
def emit (u : CodeUnit) (bytes : List UInt8) : CodeUnit := { u with text := u.text ++ bytes }

/-- Overwrites text that has been emitted before. The end of the range is computed in 64 bits. -/
def patch (u : CodeUnit) (offset : UInt64) (bytes : List UInt8) : Except Error CodeUnit :=
  if offset + UInt64.ofNat bytes.length > u.offset then
    .error (.patchBeyondEnd offset bytes.length u.text.length)
  else if u.text.length < offset.toNat then .error (.patchOutside offset u.text.length)
  else .ok { u with text := overwrite u.text offset.toNat bytes }

/-! ## Symbols -/

/-- The entry of a name. -/
def lookup? (u : CodeUnit) (name : String) : Option Entry := u.symbols.find? fun s => s.name == name

/-- Makes sure that a name has an entry, adding an undefined global one at the end. -/
def reference (u : CodeUnit) (name : String) : CodeUnit :=
  match u.lookup? name with
  | some _ => u
  | none => { u with symbols := u.symbols ++ [.placeholder name] }

/-- Changes the entry of a name. -/
def update (u : CodeUnit) (name : String) (f : Entry → Entry) : CodeUnit :=
  { u with symbols := u.symbols.map fun s => if s.name == name then f s else s }

/-- Defines a symbol, which keeps the place at which it was first seen. -/
def define (u : CodeUnit) (name : String) (kind : SymbolKind) (binding : Binding) (sec : Section)
    (value : UInt64) : Except Error CodeUnit :=
  let v := u.reference name
  match v.lookup? name with
  | some s =>
    if s.defined then .error (.alreadyDefined name)
    else .ok (v.update name fun s =>
      { s with kind := kind, binding := binding, sec := sec, value := value, defined := true })
  | none => .ok v

/-- Appends an object to the data section and defines its symbol. -/
def addData (u : CodeUnit) (name : String) (value : List UInt8) (binding : Binding) :
    Except Error CodeUnit := do
  let v ← u.define name .object binding .data (UInt64.ofNat u.data.length)
  let w := v.update name fun s => { s with size := UInt64.ofNat value.length }
  pure { w with data := w.data ++ value }

/-- Records a relocation and makes sure that its symbol has an entry. -/
def addRelocation (u : CodeUnit) (r : Relocation) : CodeUnit :=
  let v := u.reference r.symbol
  { v with relocs := v.relocs ++ [r] }

/-! ## Listing -/

/-- Appends a line to the listing; its index is the number of lines before it. -/
def addLine (u : CodeUnit) (l : Line) : CodeUnit := { u with lines := u.lines ++ [l] }

/-- Fills in the bytes of a line; an index without a line changes nothing. -/
def setLineBytes (u : CodeUnit) (index : Int) (bytes : List UInt8) : CodeUnit :=
  if index < 0 then u
  else { u with lines := u.lines.modify index.toNat fun l => { l with bytes := bytes } }

end CodeUnit

end Backend
