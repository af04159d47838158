-- The entries of a unit's symbol table and its relocations.

namespace Backend.CodeUnit

/-- The section a symbol is defined in. -/
inductive Section where
  | undefined
  | text
  | data
  deriving DecidableEq, Repr

/-- The visibility of a symbol. -/
inductive Binding where
  | loc
  | glob
  deriving DecidableEq, Repr

/-- What a symbol stands for. A label is a branch target inside a function. -/
inductive SymbolKind where
  | untyped
  | func
  | object
  | label
  deriving DecidableEq, Repr

/-- A symbol table entry. The value is an offset within the section and counts only once the
symbol is defined. -/
structure Entry where
  name : String
  binding : Binding
  kind : SymbolKind
  sec : Section
  value : UInt64
  size : UInt64
  defined : Bool
  deriving DecidableEq

/-- The placeholder of a symbol that has only been referred to. -/
def Entry.placeholder (name : String) : Entry := ⟨name, .glob, .untyped, .undefined, 0, 0, false⟩

/-- How the linker computes the field of a relocation. The codes after the last kind are
reserved. -/
inductive RelocKind where
  | abs64
  | pc32
  | plt32
  | tpoff32
  | reserved (code : UInt8)
  deriving DecidableEq

namespace RelocKind

def ofCode (code : UInt8) : RelocKind :=
  match code.toNat with
  | 0 => .abs64
  | 1 => .pc32
  | 2 => .plt32
  | 3 => .tpoff32
  | _ => .reserved code

def name : RelocKind → String
  | .abs64 => "abs64"
  | .pc32 => "pc32"
  | .plt32 => "plt32"
  | .tpoff32 => "tpoff32"
  | .reserved code => s!"reloc({code.toNat})"

end RelocKind

/-- A field of the text section to be filled in by the linker. -/
structure Relocation where
  offset : UInt64
  symbol : String
  kind : RelocKind
  addend : Int64
  deriving DecidableEq

end Backend.CodeUnit
