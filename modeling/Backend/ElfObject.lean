-- ELF64 relocatable objects: the sections, the symbol table with local symbols before global ones,
-- the relocations, and their layout in the file.
import Backend.Bytes
import Backend.Closure.Defect
import Backend.CodeUnit.Basic
import Backend.Text.Utf8

namespace Backend.ElfObject

/-! ## String tables -/

/-- A table of strings that each end with a zero byte, and where the strings added so far
start. -/
structure StringTable where
  bytes : List UInt8
  offsets : List (String × Nat)

def StringTable.empty : StringTable := ⟨[0], [("", 0)]⟩

/-- Adds a string. One that ends some earlier string shares its bytes. -/
def StringTable.add (t : StringTable) (name : String) : StringTable × Nat :=
  match t.offsets.lookup name with
  | some offset => (t, offset)
  | none =>
    let entry := Text.utf8 name ++ [0]
    match indexOf? entry t.bytes with
    | some (k + 1) => ({ t with offsets := t.offsets ++ [(name, k + 1)] }, k + 1)
    | _ =>
      let offset := t.bytes.length
      (⟨t.bytes ++ entry, t.offsets ++ [(name, offset)]⟩, offset)

/-! ## Records -/

/-- An entry of the symbol table. -/
structure SymbolRecord where
  name : Nat
  info : Nat
  sec : Nat
  value : Nat
  size : Nat

def SymbolRecord.bytes (s : SymbolRecord) : List UInt8 :=
  littleEndian 4 s.name ++ littleEndian 1 s.info ++ littleEndian 1 0 ++ littleEndian 2 s.sec ++
    littleEndian 8 s.value ++ littleEndian 8 s.size

/-- An entry of the relocation table. -/
structure RelocRecord where
  offset : Nat
  symbol : Nat
  kind : Nat
  addend : Int64

def RelocRecord.bytes (r : RelocRecord) : List UInt8 :=
  littleEndian 8 r.offset ++ littleEndian 4 r.kind ++ littleEndian 4 r.symbol ++
    littleEndian 8 r.addend.toUInt64.toNat

/-- A section header. -/
structure SectionRecord where
  name : Nat
  kind : Nat
  flags : Nat
  offset : Nat
  size : Nat
  link : Nat
  info : Nat
  align : Nat
  entrySize : Nat

def SectionRecord.bytes (s : SectionRecord) : List UInt8 :=
  littleEndian 4 s.name ++ littleEndian 4 s.kind ++ littleEndian 8 s.flags ++ littleEndian 8 0 ++
    littleEndian 8 s.offset ++ littleEndian 8 s.size ++ littleEndian 4 s.link ++
    littleEndian 4 s.info ++ littleEndian 8 s.align ++ littleEndian 8 s.entrySize

/-- The indices of the sections. -/
def textIndex : Nat := 1
def dataIndex : Nat := 3
def symtabIndex : Nat := 4
def strtabIndex : Nat := 5
def shstrtabIndex : Nat := 6
def sectionCount : Nat := 7

/-- The file header, whose only variable part is the place of the section headers. -/
def headerBytes (sectionOffset : Nat) : List UInt8 :=
  [0x7f, 0x45, 0x4c, 0x46, 2, 1, 1, 0, 0, 0, 0, 0, 0, 0, 0, 0] ++
    littleEndian 2 1 ++ littleEndian 2 62 ++ littleEndian 4 1 ++ littleEndian 8 0 ++
    littleEndian 8 0 ++ littleEndian 8 sectionOffset ++ littleEndian 4 0 ++ littleEndian 2 64 ++
    littleEndian 2 0 ++ littleEndian 2 0 ++ littleEndian 2 64 ++ littleEndian 2 sectionCount ++
    littleEndian 2 shstrtabIndex

/-! ## Symbols and relocations -/

def kindCode : CodeUnit.SymbolKind → Nat
  | .func => 2
  | .object => 1
  | _ => 0

def sectionCode : CodeUnit.Section → Nat
  | .text => textIndex
  | .data => dataIndex
  | .undefined => 0

def relocCode : CodeUnit.RelocKind → Nat
  | .pc32 => 2
  | .plt32 => 4
  | .tpoff32 => 23
  | _ => 1

/-- Binding in the upper half of a byte, kind in the lower. -/
def symbolInfo (binding : CodeUnit.Binding) (kind : Nat) : Nat :=
  (if binding == .loc then 0 else 16) + kind

/-- The four entries at the start: none, the file, and the text and data sections. -/
def fixedSymbols (file : Nat) : List SymbolRecord :=
  [⟨0, 0, 0, 0, 0⟩, ⟨file, 4, 0xfff1, 0, 0⟩, ⟨0, 3, textIndex, 0, 0⟩, ⟨0, 3, dataIndex, 0, 0⟩]

/-- The symbols that appear in the object, local ones first. Labels are left out. -/
def emittedSymbols (u : CodeUnit) : List CodeUnit.Entry × List CodeUnit.Entry :=
  (u.symbols.filter fun s => s.kind != .label).partition fun s => s.binding == .loc

/-- Adds the record of a symbol. -/
def addSymbol (st : StringTable × List SymbolRecord) (s : CodeUnit.Entry) :
    StringTable × List SymbolRecord :=
  let (strings, records) := st
  let (strings, name) := strings.add s.name
  (strings, records ++
    [⟨name, symbolInfo s.binding (kindCode s.kind), sectionCode s.sec, s.value.toNat,
      s.size.toNat⟩])

/-- The index of a symbol: its place among the emitted ones after the fixed entries. -/
def symbolIndex? (symbols : List CodeUnit.Entry) (name : String) : Option Nat :=
  (symbols.findIdx? fun s => s.name == name).map fun i => i + 4

/-- The record of a relocation, whose symbol has to be in the table. -/
def relocRecord (symbols : List CodeUnit.Entry) (r : CodeUnit.Relocation) :
    Except InternalError RelocRecord :=
  match symbolIndex? symbols r.symbol with
  | some index => .ok ⟨r.offset.toNat, index, relocCode r.kind, r.addend⟩
  | none => .error ⟨.object, "", none, .danglingRelocation r.offset r.symbol⟩

/-! ## Layout -/

/-- A part of the file with its alignment. -/
structure Part where
  bytes : List UInt8
  align : Nat

/-- Puts a part after the file so far, and says where it starts. -/
def place (file : List UInt8) (p : Part) : List UInt8 × Nat :=
  let start := alignUp file.length p.align
  (padTo start file ++ p.bytes, start)

/-- The names of the sections, of which some share bytes. -/
structure SectionNames where
  table : List UInt8
  text : Nat
  rela : Nat
  data : Nat
  symtab : Nat
  strtab : Nat
  shstrtab : Nat

def sectionNames : SectionNames :=
  let (t, rela) := StringTable.empty.add ".rela.text"
  let (t, text) := t.add ".text"
  let (t, data) := t.add ".data"
  let (t, shstrtab) := t.add ".shstrtab"
  let (t, symtab) := t.add ".symtab"
  let (t, strtab) := t.add ".strtab"
  ⟨t.bytes, text, rela, data, symtab, strtab, shstrtab⟩

/-- The bytes of the object of a unit: header, text, data, relocations, symbols, strings, section
names and section headers. -/
def encode (u : CodeUnit) : Except InternalError (List UInt8) := do
  let data := padTo (alignUp u.data.length 4) u.data
  let (strings, file) := StringTable.empty.add u.name
  let (locals, globals) := emittedSymbols u
  let symbols := locals ++ globals
  let (strings, records) := symbols.foldl addSymbol (strings, fixedSymbols file)
  let relocs ← u.relocs.mapM (relocRecord symbols)
  let names := sectionNames
  let relocBytes := relocs.flatMap RelocRecord.bytes
  let symbolBytes := records.flatMap SymbolRecord.bytes
  let (out, textAt) := place (List.replicate 64 0) ⟨u.text, 16⟩
  let (out, dataAt) := place out ⟨data, 8⟩
  let (out, relaAt) := place out ⟨relocBytes, 8⟩
  let (out, symAt) := place out ⟨symbolBytes, 8⟩
  let (out, strAt) := place out ⟨strings.bytes, 1⟩
  let (out, shstrAt) := place out ⟨names.table, 1⟩
  let headers : List SectionRecord :=
    [⟨0, 0, 0, 0, 0, 0, 0, 0, 0⟩,
     ⟨names.text, 1, 6, textAt, u.text.length, 0, 0, 16, 0⟩,
     ⟨names.rela, 4, 0x40, relaAt, relocBytes.length, symtabIndex, textIndex, 8, 24⟩,
     ⟨names.data, 1, 3, dataAt, data.length, 0, 0, 8, 0⟩,
     ⟨names.symtab, 2, 0, symAt, symbolBytes.length, strtabIndex, 4 + locals.length, 8, 24⟩,
     ⟨names.strtab, 3, 0, strAt, strings.bytes.length, 0, 0, 1, 0⟩,
     ⟨names.shstrtab, 3, 0, shstrAt, names.table.length, 0, 0, 1, 0⟩]
  let (out, headersAt) := place out ⟨headers.flatMap SectionRecord.bytes, 8⟩
  pure (headerBytes headersAt ++ out.drop 64)

end Backend.ElfObject
