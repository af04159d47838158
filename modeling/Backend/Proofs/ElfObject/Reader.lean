-- Reading an object by the rules of the 64-bit little-endian format, and what it takes for the
-- records that the writer lays down to be read back.
import Backend.ElfObject
import Backend.Proofs.Bytes
import Mathlib.Data.List.Forall2

namespace Backend.ElfObject

/-! ## Fields -/

/-- The numbers in consecutive fields of the given widths. -/
def fields : List Nat → List UInt8 → List Nat
  | [], _ => []
  | width :: rest, bytes => leNat (bytes.take width) :: fields rest (bytes.drop width)

/-- The bytes of consecutive fields, each with its width and its number. -/
def fieldBytes (values : List (Nat × Nat)) : List UInt8 :=
  values.flatMap fun v => littleEndian v.1 v.2

theorem fields_fieldBytes (values : List (Nat × Nat)) (h : ∀ v ∈ values, v.2 < 256 ^ v.1)
    (rest : List UInt8) :
    fields (values.map Prod.fst) (fieldBytes values ++ rest) = values.map Prod.snd := by
  induction values with
  | nil => rfl
  | cons v values ih =>
    have hv := leNat_littleEndian_of_lt (h v List.mem_cons_self)
    have hrest := ih fun w hw => h w (List.mem_cons_of_mem _ hw)
    have hlen := length_littleEndian v.1 v.2
    have hbytes : fieldBytes (v :: values) ++ rest =
        littleEndian v.1 v.2 ++ (fieldBytes values ++ rest) := by
      simp only [fieldBytes, List.flatMap_cons, List.append_assoc]
    simp only [List.map_cons, fields, hbytes]
    rw [List.take_left' hlen, List.drop_left' hlen, hv, hrest]

theorem length_fieldBytes (values : List (Nat × Nat)) :
    (fieldBytes values).length = (values.map Prod.fst).sum := by
  induction values with
  | nil => rfl
  | cons v values ih =>
    simp only [fieldBytes] at ih
    simp only [fieldBytes, List.flatMap_cons, List.length_append, length_littleEndian, ih,
      List.map_cons, List.sum_cons]

/-! ## Records -/

/-- The first `count` records of `size` bytes each. -/
def recordBytes (size : Nat) : Nat → List UInt8 → List (List UInt8)
  | 0, _ => []
  | count + 1, bytes => bytes.take size :: recordBytes size count (bytes.drop size)

theorem recordBytes_flatMap {α : Type} {size : Nat} {write : α → List UInt8}
    (h : ∀ x, (write x).length = size) (xs : List α) :
    recordBytes size xs.length (xs.flatMap write) = xs.map write := by
  induction xs with
  | nil => rfl
  | cons x xs ih =>
    simp only [List.length_cons, recordBytes, List.flatMap_cons, List.map_cons]
    rw [List.take_left' (h x), List.drop_left' (h x), ih]

theorem length_flatMap_records {α : Type} {size : Nat} {write : α → List UInt8}
    (h : ∀ x, (write x).length = size) (xs : List α) :
    (xs.flatMap write).length = size * xs.length := by
  induction xs with
  | nil => rfl
  | cons x xs ih =>
    rw [List.flatMap_cons, List.length_append, h, ih, List.length_cons, Nat.mul_succ, Nat.add_comm]

/-- A section header. -/
def readSection? (bytes : List UInt8) : Option SectionRecord :=
  match fields [4, 4, 8, 8, 8, 8, 4, 4, 8, 8] bytes with
  | [name, kind, flags, _, offset, size, link, info, align, entrySize] =>
    some ⟨name, kind, flags, offset, size, link, info, align, entrySize⟩
  | _ => none

/-- An entry of a symbol table. -/
def readSymbol? (bytes : List UInt8) : Option SymbolRecord :=
  match fields [4, 1, 1, 2, 8, 8] bytes with
  | [name, info, _, sec, value, size] => some ⟨name, info, sec, value, size⟩
  | _ => none

/-- An entry of a relocation table. The upper half of the second word is the symbol, the lower
half the type. -/
def readReloc? (bytes : List UInt8) : Option RelocRecord :=
  match fields [8, 8, 8] bytes with
  | [offset, info, addend] =>
    some ⟨offset, info / 2 ^ 32, info % 2 ^ 32, (UInt64.ofNat addend).toInt64⟩
  | _ => none

/-- The numbers fit their fields. -/
structure SectionRecord.Fits (s : SectionRecord) : Prop where
  name : s.name < 2 ^ 32
  kind : s.kind < 2 ^ 32
  flags : s.flags < 2 ^ 64
  offset : s.offset < 2 ^ 64
  size : s.size < 2 ^ 64
  link : s.link < 2 ^ 32
  info : s.info < 2 ^ 32
  align : s.align < 2 ^ 64
  entrySize : s.entrySize < 2 ^ 64

structure SymbolRecord.Fits (s : SymbolRecord) : Prop where
  name : s.name < 2 ^ 32
  info : s.info < 2 ^ 8
  sec : s.sec < 2 ^ 16
  value : s.value < 2 ^ 64
  size : s.size < 2 ^ 64

structure RelocRecord.Fits (r : RelocRecord) : Prop where
  offset : r.offset < 2 ^ 64
  symbol : r.symbol < 2 ^ 32
  kind : r.kind < 2 ^ 32

theorem SectionRecord.bytes_eq (s : SectionRecord) :
    s.bytes = fieldBytes [(4, s.name), (4, s.kind), (8, s.flags), (8, 0), (8, s.offset),
      (8, s.size), (4, s.link), (4, s.info), (8, s.align), (8, s.entrySize)] := by
  simp [SectionRecord.bytes, fieldBytes]

theorem SymbolRecord.bytes_eq (s : SymbolRecord) :
    s.bytes = fieldBytes [(4, s.name), (1, s.info), (1, 0), (2, s.sec), (8, s.value),
      (8, s.size)] := by
  simp [SymbolRecord.bytes, fieldBytes]

theorem SectionRecord.length_bytes (s : SectionRecord) : s.bytes.length = 64 := by
  rw [s.bytes_eq, length_fieldBytes]
  rfl

theorem SymbolRecord.length_bytes (s : SymbolRecord) : s.bytes.length = 24 := by
  rw [s.bytes_eq, length_fieldBytes]
  rfl

theorem RelocRecord.length_bytes (r : RelocRecord) : r.bytes.length = 24 := by
  simp [RelocRecord.bytes, length_littleEndian]

theorem readSection?_bytes {s : SectionRecord} (h : s.Fits) : readSection? s.bytes = some s := by
  have hread := fields_fieldBytes [(4, s.name), (4, s.kind), (8, s.flags), (8, 0), (8, s.offset),
    (8, s.size), (4, s.link), (4, s.info), (8, s.align), (8, s.entrySize)]
    (by simpa using ⟨h.name, h.kind, h.flags, h.offset, h.size, h.link, h.info, h.align,
      h.entrySize⟩) []
  rw [List.append_nil, ← s.bytes_eq] at hread
  simp only [List.map_cons, List.map_nil] at hread
  simp only [readSection?, hread]

theorem readSymbol?_bytes {s : SymbolRecord} (h : s.Fits) : readSymbol? s.bytes = some s := by
  have hread := fields_fieldBytes [(4, s.name), (1, s.info), (1, 0), (2, s.sec), (8, s.value),
    (8, s.size)] (by simpa using ⟨h.name, h.info, h.sec, h.value, h.size⟩) []
  rw [List.append_nil, ← s.bytes_eq] at hread
  simp only [List.map_cons, List.map_nil] at hread
  simp only [readSymbol?, hread]

/-- The type and the symbol of a relocation are the halves of one word. -/
theorem readReloc?_bytes {r : RelocRecord} (h : r.Fits) : readReloc? r.bytes = some r := by
  have hword : leNat (littleEndian 4 r.kind ++ littleEndian 4 r.symbol) =
      r.kind + 2 ^ 32 * r.symbol := by
    rw [leNat_append, leNat_littleEndian_of_lt h.kind, leNat_littleEndian_of_lt h.symbol,
      length_littleEndian]
    rfl
  have haddend : (UInt64.ofNat (leNat (littleEndian 8 r.addend.toUInt64.toNat))).toInt64 =
      r.addend := by
    rw [leNat_littleEndian_of_lt (UInt64.toNat_lt _)]
    simp
  have hfields : fields [8, 8, 8] r.bytes =
      [r.offset, r.kind + 2 ^ 32 * r.symbol, leNat (littleEndian 8 r.addend.toUInt64.toNat)] := by
    have hoffset := length_littleEndian 8 r.offset
    have hinfo : (littleEndian 4 r.kind ++ littleEndian 4 r.symbol).length = 8 := by
      rw [List.length_append, length_littleEndian, length_littleEndian]
    have hbytes : r.bytes = littleEndian 8 r.offset ++
        ((littleEndian 4 r.kind ++ littleEndian 4 r.symbol) ++
          littleEndian 8 r.addend.toUInt64.toNat) := by
      simp only [RelocRecord.bytes, List.append_assoc]
    have hlast := List.take_of_length_le (length_littleEndian 8 r.addend.toUInt64.toNat).le
    simp only [fields, hbytes]
    rw [List.take_left' hoffset, List.drop_left' hoffset, List.take_left' hinfo,
      List.drop_left' hinfo, hlast, leNat_littleEndian_of_lt h.offset, hword]
  have hdiv : (r.kind + 2 ^ 32 * r.symbol) / 2 ^ 32 = r.symbol := by
    rw [Nat.add_mul_div_left _ _ (by decide), Nat.div_eq_of_lt h.kind, Nat.zero_add]
  have hmod : (r.kind + 2 ^ 32 * r.symbol) % 2 ^ 32 = r.kind := by
    rw [Nat.add_mul_mod_self_left, Nat.mod_eq_of_lt h.kind]
  simp only [readReloc?, hfields, hdiv, hmod, haddend]

theorem mapM_eq_some {α β : Type} {f : α → Option β} {xs : List α} {ys : List β}
    (h : List.Forall₂ (fun x y => f x = some y) xs ys) : xs.mapM f = some ys := by
  induction h with
  | nil => rfl
  | cons hx _ ih =>
    rw [List.mapM_cons, hx, ih]
    rfl

/-- A table is read back if each of its records is. -/
theorem mapM_recordBytes {α : Type} {size : Nat} {write : α → List UInt8}
    {read? : List UInt8 → Option α} (hsize : ∀ x, (write x).length = size) {xs : List α}
    (h : ∀ x ∈ xs, read? (write x) = some x) :
    (recordBytes size xs.length (xs.flatMap write)).mapM read? = some xs := by
  rw [recordBytes_flatMap hsize]
  exact mapM_eq_some (List.forall₂_map_left_iff.mpr (List.forall₂_same.mpr h))

/-! ## Codes -/

/-- The upper half of the info byte of a symbol. -/
def binding? : Nat → Option CodeUnit.Binding
  | 0 => some .loc
  | 1 => some .glob
  | _ => none

/-- The lower half of the info byte of a symbol. -/
def symbolKind? : Nat → Option CodeUnit.SymbolKind
  | 0 => some .untyped
  | 1 => some .object
  | 2 => some .func
  | _ => none

/-- The types of relocations for x86-64. -/
def relocKind? : Nat → Option CodeUnit.RelocKind
  | 1 => some .abs64
  | 2 => some .pc32
  | 4 => some .plt32
  | 23 => some .tpoff32
  | _ => none

theorem binding?_symbolInfo (binding : CodeUnit.Binding) (kind : CodeUnit.SymbolKind) :
    binding? (symbolInfo binding (kindCode kind) / 16) = some binding := by
  cases binding <;> cases kind <;> rfl

/-- A label would be read as a symbol without a type. -/
theorem symbolKind?_symbolInfo (binding : CodeUnit.Binding) {kind : CodeUnit.SymbolKind}
    (h : kind ≠ .label) :
    symbolKind? (symbolInfo binding (kindCode kind) % 16) = some kind := by
  cases kind with
  | label => exact absurd rfl h
  | untyped => cases binding <;> rfl
  | func => cases binding <;> rfl
  | object => cases binding <;> rfl

theorem symbolInfo_lt (binding : CodeUnit.Binding) (kind : CodeUnit.SymbolKind) :
    symbolInfo binding (kindCode kind) < 2 ^ 8 := by
  cases binding <;> cases kind <;> decide

theorem sectionCode_lt (sec : CodeUnit.Section) : sectionCode sec < 2 ^ 16 := by
  cases sec <;> decide

theorem relocCode_lt (kind : CodeUnit.RelocKind) : relocCode kind < 2 ^ 32 := by
  cases kind with
  | reserved code => exact (by decide : 1 < 2 ^ 32)
  | abs64 => decide
  | pc32 => decide
  | plt32 => decide
  | tpoff32 => decide

/-- The kind that stands for a relocation in a file: a reserved one counts as absolute. -/
def fileKind : CodeUnit.RelocKind → CodeUnit.RelocKind
  | .reserved _ => .abs64
  | kind => kind

theorem relocKind?_relocCode (kind : CodeUnit.RelocKind) :
    relocKind? (relocCode kind) = some (fileKind kind) := by
  cases kind <;> rfl

/-! ## Files -/

/-- The `n` bytes from `start` on, if the file has them. -/
def range? (file : List UInt8) (start n : Nat) : Option (List UInt8) :=
  if start + n ≤ file.length then some ((file.drop start).take n) else none

/-- The string at an offset of a string table: the bytes before the next zero. -/
def string? (table : List UInt8) (offset : Nat) : Option (List UInt8) :=
  if 0 ∈ table.drop offset then some ((table.drop offset).takeWhile fun b => b != 0) else none

/-- A section: its name, its header and its bytes. -/
structure SectionView where
  name : List UInt8
  header : SectionRecord
  bytes : List UInt8

/-- A file: where its section headers start, and its sections. -/
structure FileView where
  tableAt : Nat
  sections : List SectionView

def sectionView? (file strings : List UInt8) (header : SectionRecord) : Option SectionView := do
  let name ← string? strings header.name
  let bytes ← range? file header.offset header.size
  some ⟨name, header, bytes⟩

/-- Reads a relocatable file for x86-64: the identification, the file header, the section headers
and the names of the sections. -/
def readFile? (file : List UInt8) : Option FileView :=
  if file.take 7 = [0x7f, 0x45, 0x4c, 0x46, 2, 1, 1] then
    match fields [2, 2, 4, 8, 8, 8, 4, 2, 2, 2, 2, 2, 2] (file.drop 16) with
    | [1, 62, _, _, _, tableAt, _, _, _, _, entrySize, count, names] => do
      let table ← range? file tableAt (entrySize * count)
      let headers ← (recordBytes entrySize count table).mapM readSection?
      let titles ← headers[names]?
      let strings ← range? file titles.offset titles.size
      let sections ← headers.mapM (sectionView? file strings)
      some ⟨tableAt, sections⟩
    | _ => none
  else none

namespace FileView

/-- The section of a name. -/
def sectionNamed? (f : FileView) (name : String) : Option SectionView :=
  f.sections.find? fun s => s.name == Text.utf8 name

/-- The section that a symbol is defined in. -/
def definedIn? (f : FileView) (index : Nat) : Option CodeUnit.Section :=
  if index = 0 then some .undefined
  else match f.sections[index]? with
    | none => none
    | some s =>
      if s.name = Text.utf8 ".text" then some .text
      else if s.name = Text.utf8 ".data" then some .data
      else none

/-- The records of a section that is a table. -/
def records (s : SectionView) : List (List UInt8) :=
  recordBytes s.header.entrySize (s.header.size / s.header.entrySize) s.bytes

/-- An entry of a symbol table with its name. -/
def readNamed? (strings bytes : List UInt8) : Option (List UInt8 × SymbolRecord) := do
  let s ← readSymbol? bytes
  let name ← string? strings s.name
  some (name, s)

/-- The symbols with their names, which are in the section that the table links to. -/
def symbols? (f : FileView) : Option (List (List UInt8 × SymbolRecord)) := do
  let table ← f.sectionNamed? ".symtab"
  let strings ← f.sections[table.header.link]?
  (records table).mapM (readNamed? strings.bytes)

/-- The relocations of the text, whose table links to the symbols it refers to. -/
def relocations? (f : FileView) : Option (List RelocRecord) := do
  let table ← f.sectionNamed? ".rela.text"
  let symbols ← f.sections[table.header.link]?
  let target ← f.sections[table.header.info]?
  if symbols.name = Text.utf8 ".symtab" ∧ target.name = Text.utf8 ".text" then
    (records table).mapM readReloc?
  else none

end FileView

end Backend.ElfObject
