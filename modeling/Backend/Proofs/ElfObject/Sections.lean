-- The sections of an object: what the file has where, and what a reader makes of it. The parts are
-- placed one after another, each at a multiple of its alignment, and placing a part leaves the file
-- before it as it is.
import Backend.Proofs.ElfObject.Reader
import Backend.Proofs.ElfObject.Symbols

namespace Backend

/-! ## Layout -/

theorem le_alignUp (n a : Nat) : n ≤ alignUp n a := by
  unfold alignUp
  split
  · exact Nat.le_refl n
  · rename_i ha
    have hlt := Nat.lt_div_mul_add (a := n + a - 1) (by omega : 0 < a)
    omega

theorem dvd_alignUp (n a : Nat) (ha : 0 < a) : a ∣ alignUp n a := by
  unfold alignUp
  split
  · rename_i h1
    obtain rfl : a = 1 := by omega
    exact Nat.one_dvd n
  · exact Nat.dvd_mul_left _ _

theorem alignUp_lt (n a : Nat) (ha : 0 < a) : alignUp n a < n + a := by
  unfold alignUp
  split
  · omega
  · have hle := Nat.div_mul_le_self (n + a - 1) a
    omega

theorem length_padTo {n : Nat} {bytes : List UInt8} (h : bytes.length ≤ n) :
    (padTo n bytes).length = n := by
  simp only [padTo, List.length_append, List.length_replicate]
  omega

namespace ElfObject

/-! ## Ranges -/

theorem range?_append {file bytes : List UInt8} {start n : Nat}
    (h : range? file start n = some bytes) (more : List UInt8) :
    range? (file ++ more) start n = some bytes := by
  unfold range? at h ⊢
  split at h
  · rename_i hn
    rw [List.length_append, if_pos (by omega), List.drop_append_of_le_length (by omega),
      List.take_append_of_le_length (by rw [List.length_drop]; omega)]
    exact h
  · simp at h

theorem range?_mid (before bytes after : List UInt8) :
    range? (before ++ (bytes ++ after)) before.length bytes.length = some bytes := by
  unfold range?
  rw [if_pos (by simp), List.drop_left' rfl, List.take_left' rfl]

/-- Another start of the file does not change what comes after it. -/
theorem range?_replace {before before' file bytes : List UInt8} {start n : Nat}
    (hlen : before'.length = before.length) (hstart : before.length ≤ start)
    (h : range? (before ++ file) start n = some bytes) :
    range? (before' ++ file) start n = some bytes := by
  obtain ⟨k, rfl⟩ := Nat.exists_eq_add_of_le hstart
  unfold range? at h ⊢
  rw [List.drop_length_add_append, List.length_append] at h
  rw [← hlen, List.drop_length_add_append, List.length_append, hlen]
  exact h

theorem range?_le {file bytes : List UInt8} {start n : Nat}
    (h : range? file start n = some bytes) : start + n ≤ file.length := by
  unfold range? at h
  split at h
  · assumption
  · simp at h

/-! ## Parts -/

/-- A part lies in a file from a start on. -/
structure LiesAt (file : List UInt8) (p : Part) (start : Nat) : Prop where
  aligned : p.align ∣ start
  range : range? file start p.bytes.length = some p.bytes

/-- What placing a part does: it starts behind the file, which stays as it is. -/
structure Placed (file : List UInt8) (p : Part) (result : List UInt8 × Nat) : Prop where
  lies : LiesAt result.1 p result.2
  behind : file.length ≤ result.2
  length : result.1.length = result.2 + p.bytes.length
  keeps : file <+: result.1

theorem place_spec (file : List UInt8) {p : Part} (h : 0 < p.align) :
    Placed file p (place file p) := by
  have hle := le_alignUp file.length p.align
  have hlen := length_padTo hle
  have hrange := range?_mid (padTo (alignUp file.length p.align) file) p.bytes []
  rw [hlen, List.append_nil] at hrange
  refine ⟨⟨dvd_alignUp _ _ h, hrange⟩, hle, ?_, ?_⟩
  · simp only [place, List.length_append, hlen]
  · simp only [place, padTo, List.append_assoc]
    exact List.prefix_append _ _

theorem LiesAt.mono {file file' : List UInt8} {p : Part} {start : Nat}
    (h : LiesAt file p start) (hkeeps : file <+: file') : LiesAt file' p start := by
  obtain ⟨more, rfl⟩ := hkeeps
  exact ⟨h.aligned, range?_append h.range more⟩

/-- Places parts one after another. -/
def placeAll (file : List UInt8) : List Part → List UInt8 × List Nat
  | [] => (file, [])
  | p :: parts =>
    let placed := place file p
    let rest := placeAll placed.1 parts
    (rest.1, placed.2 :: rest.2)

/-- Each part ends where the next one starts or before, and the first starts at `bound` or later. -/
def InOrder : Nat → List Part → List Nat → Prop
  | _, [], [] => True
  | bound, p :: parts, start :: starts =>
    bound ≤ start ∧ InOrder (start + p.bytes.length) parts starts
  | _, _, _ => False

theorem placeAll_spec (file : List UInt8) (parts : List Part) (h : ∀ p ∈ parts, 0 < p.align) :
    List.Forall₂ (LiesAt (placeAll file parts).1) parts (placeAll file parts).2 ∧
      InOrder file.length parts (placeAll file parts).2 ∧ file <+: (placeAll file parts).1 := by
  induction parts generalizing file with
  | nil => exact ⟨.nil, trivial, List.prefix_rfl⟩
  | cons p parts ih =>
    have hp := place_spec file (h p List.mem_cons_self)
    obtain ⟨hlies, horder, hkeeps⟩ :=
      ih (place file p).1 fun q hq => h q (List.mem_cons_of_mem _ hq)
    rw [hp.length] at horder
    exact ⟨.cons (hp.lies.mono hkeeps) hlies, ⟨hp.behind, horder⟩, hp.keeps.trans hkeeps⟩

end ElfObject

end Backend

namespace Backend.ElfObject

/-! ## The file -/

/-- The data with the zeros after it. -/
def dataBytes (u : CodeUnit) : List UInt8 := padTo (alignUp u.data.length 4) u.data

/-- The parts between the file header and the section headers. -/
def parts (u : CodeUnit) (relocs : List RelocRecord) : List Part :=
  [⟨u.text, 16⟩, ⟨dataBytes u, 8⟩, ⟨relocs.flatMap RelocRecord.bytes, 8⟩,
    ⟨(symbolTable u).2.flatMap SymbolRecord.bytes, 8⟩, ⟨(symbolTable u).1.bytes, 1⟩,
    ⟨sectionNames.table, 1⟩]

/-- Where the parts start. -/
structure Starts where
  text : Nat
  data : Nat
  rela : Nat
  symtab : Nat
  strtab : Nat
  shstrtab : Nat

def Starts.toList (s : Starts) : List Nat :=
  [s.text, s.data, s.rela, s.symtab, s.strtab, s.shstrtab]

section Headers

variable (u : CodeUnit) (relocs : List RelocRecord) (s : Starts)

def textHeader : SectionRecord := ⟨sectionNames.text, 1, 6, s.text, u.text.length, 0, 0, 16, 0⟩

def relaHeader : SectionRecord :=
  ⟨sectionNames.rela, 4, 0x40, s.rela, (relocs.flatMap RelocRecord.bytes).length, symtabIndex,
    textIndex, 8, 24⟩

def dataHeader : SectionRecord :=
  ⟨sectionNames.data, 1, 3, s.data, (dataBytes u).length, 0, 0, 8, 0⟩

def symtabHeader : SectionRecord :=
  ⟨sectionNames.symtab, 2, 0, s.symtab, ((symbolTable u).2.flatMap SymbolRecord.bytes).length,
    strtabIndex, 4 + (localSymbols u).length, 8, 24⟩

def strtabHeader : SectionRecord :=
  ⟨sectionNames.strtab, 3, 0, s.strtab, (symbolTable u).1.bytes.length, 0, 0, 1, 0⟩

def shstrtabHeader : SectionRecord :=
  ⟨sectionNames.shstrtab, 3, 0, s.shstrtab, sectionNames.table.length, 0, 0, 1, 0⟩

/-- The sections with their headers and contents, in the order of their indices. -/
def sectionViews : List SectionView :=
  [⟨Text.utf8 "", ⟨0, 0, 0, 0, 0, 0, 0, 0, 0⟩, []⟩,
    ⟨Text.utf8 ".text", textHeader u s, u.text⟩,
    ⟨Text.utf8 ".rela.text", relaHeader relocs s, relocs.flatMap RelocRecord.bytes⟩,
    ⟨Text.utf8 ".data", dataHeader u s, dataBytes u⟩,
    ⟨Text.utf8 ".symtab", symtabHeader u s, (symbolTable u).2.flatMap SymbolRecord.bytes⟩,
    ⟨Text.utf8 ".strtab", strtabHeader u s, (symbolTable u).1.bytes⟩,
    ⟨Text.utf8 ".shstrtab", shstrtabHeader s, sectionNames.table⟩]

def sectionHeaders : List SectionRecord := (sectionViews u relocs s).map SectionView.header

end Headers

/-- The file that the writer makes once every relocation has its record. -/
def Written (u : CodeUnit) (relocs : List RelocRecord) (file : List UInt8) : Prop :=
  ∃ (body : List UInt8) (s : Starts) (out : List UInt8) (headersAt : Nat),
    placeAll (List.replicate 64 0) (parts u relocs) = (body, s.toList) ∧
      place body ⟨(sectionHeaders u relocs s).flatMap SectionRecord.bytes, 8⟩ = (out, headersAt) ∧
      file = headerBytes headersAt ++ out.drop 64

/-- The writer fails if a relocation has no record, and only then. -/
theorem encode_cases (u : CodeUnit) :
    (∃ e, u.relocs.mapM (relocRecord (localSymbols u ++ globalSymbols u)) = .error e ∧
      encode u = .error e) ∨
    ∃ relocs file, u.relocs.mapM (relocRecord (localSymbols u ++ globalSymbols u)) = .ok relocs ∧
      encode u = .ok file ∧ Written u relocs file := by
  unfold encode
  rw [emittedSymbols_eq]
  cases hrelocs : u.relocs.mapM (relocRecord (localSymbols u ++ globalSymbols u)) with
  | error e =>
    refine .inl ⟨e, rfl, ?_⟩
    simp only [hrelocs]
    rfl
  | ok relocs =>
    refine .inr ⟨relocs, _, rfl, ?_, _, ⟨_, _, _, _, _, _⟩, _, _, rfl, rfl, rfl⟩
    simp only [hrelocs]
    rfl

/-! ## The ranges -/

theorem length_headerBytes (headersAt : Nat) : (headerBytes headersAt).length = 64 := by
  simp [headerBytes, length_littleEndian]

/-- What lies where in a file. -/
structure Laid (u : CodeUnit) (relocs : List RelocRecord) (file : List UInt8) (s : Starts)
    (headersAt : Nat) : Prop where
  header : ∃ rest, file = headerBytes headersAt ++ rest
  text : LiesAt file ⟨u.text, 16⟩ s.text
  data : LiesAt file ⟨dataBytes u, 8⟩ s.data
  rela : LiesAt file ⟨relocs.flatMap RelocRecord.bytes, 8⟩ s.rela
  symtab : LiesAt file ⟨(symbolTable u).2.flatMap SymbolRecord.bytes, 8⟩ s.symtab
  strtab : LiesAt file ⟨(symbolTable u).1.bytes, 1⟩ s.strtab
  shstrtab : LiesAt file ⟨sectionNames.table, 1⟩ s.shstrtab
  headers : LiesAt file ⟨(sectionHeaders u relocs s).flatMap SectionRecord.bytes, 8⟩ headersAt
  order : InOrder 64 (parts u relocs) s.toList
  last : s.shstrtab + sectionNames.table.length ≤ headersAt

/-- The file header takes the place of the bytes that were kept for it. -/
theorem LiesAt.withHeader {out : List UInt8} {p : Part} {start : Nat} (h : LiesAt out p start)
    (hout : 64 ≤ out.length) (hstart : 64 ≤ start) (headersAt : Nat) :
    LiesAt (headerBytes headersAt ++ out.drop 64) p start := by
  have hkept : (out.take 64).length = 64 := by
    rw [List.length_take]
    omega
  have hrange := h.range
  rw [← List.take_append_drop 64 out] at hrange
  refine ⟨h.aligned, range?_replace ?_ ?_ hrange⟩
  · rw [length_headerBytes, hkept]
  · rw [hkept]
    exact hstart

theorem laid_of_written {u : CodeUnit} {relocs : List RelocRecord} {file : List UInt8}
    (h : Written u relocs file) : ∃ s headersAt, Laid u relocs file s headersAt := by
  obtain ⟨body, s, out, headersAt, hbody, hout, rfl⟩ := h
  obtain ⟨hlies, horder, hkeeps⟩ := placeAll_spec (List.replicate 64 0) (parts u relocs)
    (by simp [parts])
  have hlast := place_spec body (p := ⟨(sectionHeaders u relocs s).flatMap SectionRecord.bytes, 8⟩)
    (Nat.succ_pos 7)
  rw [hbody] at hlies horder hkeeps
  rw [hout] at hlast
  rw [List.length_replicate] at horder
  have hroom : 64 ≤ body.length := by simpa using hkeeps.length_le
  have hbehind : 64 ≤ headersAt := hroom.trans hlast.behind
  have hlong : 64 ≤ out.length := hroom.trans hlast.keeps.length_le
  have hmove : ∀ {p start}, LiesAt body p start → 64 ≤ start →
      LiesAt (headerBytes headersAt ++ out.drop 64) p start :=
    fun hp hstart => (hp.mono hlast.keeps).withHeader hlong hstart headersAt
  have hordered := horder
  simp only [parts, Starts.toList, InOrder] at horder
  simp only [parts, Starts.toList, List.forall₂_cons] at hlies
  obtain ⟨htext, hdata, hrela, hsymtab, hstrtab, hshstrtab, -⟩ := hlies
  exact ⟨s, headersAt, ⟨_, rfl⟩, hmove htext (by omega), hmove hdata (by omega),
    hmove hrela (by omega), hmove hsymtab (by omega), hmove hstrtab (by omega),
    hmove hshstrtab (by omega), hlast.lies.withHeader hlong hbehind headersAt, hordered,
    (range?_le hshstrtab.range).trans hlast.behind⟩

/-! ## Reading -/

/-- The tables are small enough for the 32-bit fields that refer to them, and the file for the
64-bit ones. -/
structure Fits (u : CodeUnit) (file : List UInt8) : Prop where
  strings : (symbolTable u).1.bytes.length < 2 ^ 32
  symbols : (symbolTable u).2.length < 2 ^ 32
  file : file.length < 2 ^ 64

theorem length_symbolTable (u : CodeUnit) :
    (symbolTable u).2.length = 4 + (localSymbols u ++ globalSymbols u).length := by
  obtain ⟨-, file, added, hrecords, -, hadded⟩ := symbolTable_spec u
  rw [hrecords, List.length_append, hadded.length_eq]
  rfl

theorem sectionNames_lt : sectionNames.text < 2 ^ 32 ∧ sectionNames.rela < 2 ^ 32 ∧
    sectionNames.data < 2 ^ 32 ∧ sectionNames.symtab < 2 ^ 32 ∧ sectionNames.strtab < 2 ^ 32 ∧
    sectionNames.shstrtab < 2 ^ 32 := by
  decide +kernel

/-- The names of the sections are where the headers say. -/
theorem sectionNames_read : string? sectionNames.table 0 = some (Text.utf8 "") ∧
    string? sectionNames.table sectionNames.text = some (Text.utf8 ".text") ∧
    string? sectionNames.table sectionNames.rela = some (Text.utf8 ".rela.text") ∧
    string? sectionNames.table sectionNames.data = some (Text.utf8 ".data") ∧
    string? sectionNames.table sectionNames.symtab = some (Text.utf8 ".symtab") ∧
    string? sectionNames.table sectionNames.strtab = some (Text.utf8 ".strtab") ∧
    string? sectionNames.table sectionNames.shstrtab = some (Text.utf8 ".shstrtab") := by
  decide +kernel

theorem LiesAt.bounds {file : List UInt8} {p : Part} {start : Nat} (h : LiesAt file p start)
    (hfile : file.length < 2 ^ 64) : start < 2 ^ 64 ∧ p.bytes.length < 2 ^ 64 := by
  have hle := range?_le h.range
  omega

theorem sectionRecord_fits {name kind flags offset size link info align entrySize : Nat}
    (hname : name < 2 ^ 32) (hplace : offset < 2 ^ 64 ∧ size < 2 ^ 64) (hinfo : info < 2 ^ 32)
    (hfixed : kind < 2 ^ 32 ∧ flags < 2 ^ 64 ∧ link < 2 ^ 32 ∧ align < 2 ^ 64 ∧
      entrySize < 2 ^ 64) :
    SectionRecord.Fits ⟨name, kind, flags, offset, size, link, info, align, entrySize⟩ := by
  obtain ⟨hkind, hflags, hlink, halign, hentrySize⟩ := hfixed
  exact ⟨hname, hkind, hflags, hplace.1, hplace.2, hlink, hinfo, halign, hentrySize⟩

theorem Laid.headers_fit {u : CodeUnit} {relocs : List RelocRecord} {file : List UInt8}
    {s : Starts} {headersAt : Nat} (h : Laid u relocs file s headersAt) (hfits : Fits u file) :
    ∀ header ∈ sectionHeaders u relocs s, header.Fits := by
  obtain ⟨ntext, nrela, ndata, nsymtab, nstrtab, nshstrtab⟩ := sectionNames_lt
  have hinfo : 4 + (localSymbols u).length < 2 ^ 32 := by
    have hlen := length_symbolTable u
    have hsymbols := hfits.symbols
    rw [List.length_append] at hlen
    omega
  have htext := h.text.bounds hfits.file
  have hdata := h.data.bounds hfits.file
  have hrela := h.rela.bounds hfits.file
  have hsymtab := h.symtab.bounds hfits.file
  have hstrtab := h.strtab.bounds hfits.file
  have hshstrtab := h.shstrtab.bounds hfits.file
  simp only [sectionHeaders, sectionViews, List.map_cons, List.map_nil, List.forall_mem_cons]
  exact ⟨sectionRecord_fits (by decide) (by decide) (by decide) (by decide),
    sectionRecord_fits ntext htext (by decide) (by decide),
    sectionRecord_fits nrela hrela (by decide) (by decide),
    sectionRecord_fits ndata hdata (by decide) (by decide),
    sectionRecord_fits nsymtab hsymtab hinfo (by decide),
    sectionRecord_fits nstrtab hstrtab (by decide) (by decide),
    sectionRecord_fits nshstrtab hshstrtab (by decide) (by decide), nofun⟩

/-- The fields of the file header. -/
theorem fields_header {headersAt : Nat} (h : headersAt < 2 ^ 64) (rest : List UInt8) :
    fields [2, 2, 4, 8, 8, 8, 4, 2, 2, 2, 2, 2, 2] ((headerBytes headersAt ++ rest).drop 16) =
      [1, 62, 1, 0, 0, headersAt, 0, 64, 0, 0, 64, 7, 6] := by
  have hread := fields_fieldBytes [(2, 1), (2, 62), (4, 1), (8, 0), (8, 0), (8, headersAt), (4, 0),
    (2, 64), (2, 0), (2, 0), (2, 64), (2, 7), (2, 6)] (by simpa using h) rest
  have hbytes : (headerBytes headersAt ++ rest).drop 16 = fieldBytes [(2, 1), (2, 62), (4, 1),
      (8, 0), (8, 0), (8, headersAt), (4, 0), (2, 64), (2, 0), (2, 0), (2, 64), (2, 7),
      (2, 6)] ++ rest := by
    simp [headerBytes, fieldBytes, sectionCount, shstrtabIndex]
  rw [hbytes]
  exact hread

theorem sectionView?_eq {file strings name bytes : List UInt8} {header : SectionRecord}
    (hname : string? strings header.name = some name)
    (hbytes : range? file header.offset header.size = some bytes) :
    sectionView? file strings header = some ⟨name, header, bytes⟩ := by
  simp only [sectionView?, hname, hbytes]
  rfl

theorem Laid.sections_read {u : CodeUnit} {relocs : List RelocRecord} {file : List UInt8}
    {s : Starts} {headersAt : Nat} (h : Laid u relocs file s headersAt) :
    (sectionHeaders u relocs s).mapM (sectionView? file sectionNames.table) =
      some (sectionViews u relocs s) := by
  obtain ⟨hnull, htext, hrela, hdata, hsymtab, hstrtab, hshstrtab⟩ := sectionNames_read
  have hnothing : range? file 0 0 = some [] := by simp [range?]
  apply mapM_eq_some
  simp only [sectionHeaders, sectionViews, List.map_cons, List.map_nil, List.forall₂_cons,
    List.forall₂_nil_left_iff, and_true]
  exact ⟨sectionView?_eq hnull hnothing, sectionView?_eq htext h.text.range,
    sectionView?_eq hrela h.rela.range, sectionView?_eq hdata h.data.range,
    sectionView?_eq hsymtab h.symtab.range, sectionView?_eq hstrtab h.strtab.range,
    sectionView?_eq hshstrtab h.shstrtab.range⟩

/-- A reader finds the seven sections. -/
theorem Laid.read {u : CodeUnit} {relocs : List RelocRecord} {file : List UInt8} {s : Starts}
    {headersAt : Nat} (h : Laid u relocs file s headersAt) (hfits : Fits u file) :
    readFile? file = some ⟨headersAt, sectionViews u relocs s⟩ := by
  have hcount : (sectionHeaders u relocs s).length = 7 := rfl
  have htitles : (sectionHeaders u relocs s)[6]? = some (shstrtabHeader s) := rfl
  have hheaders := mapM_recordBytes SectionRecord.length_bytes fun header hheader =>
    readSection?_bytes (h.headers_fit hfits header hheader)
  have htable := h.headers.range
  rw [length_flatMap_records SectionRecord.length_bytes, hcount] at htable
  rw [hcount] at hheaders
  obtain ⟨rest, hfile⟩ := h.header
  have hmagic : file.take 7 = [0x7f, 0x45, 0x4c, 0x46, 2, 1, 1] := by
    rw [hfile]
    rfl
  have hfields := fields_header (h.headers.bounds hfits.file).1 rest
  rw [← hfile] at hfields
  have hnames : range? file (shstrtabHeader s).offset (shstrtabHeader s).size =
    some sectionNames.table := h.shstrtab.range
  unfold readFile?
  rw [if_pos hmagic, hfields]
  simp only [htable, hheaders, htitles, hnames, h.sections_read, Option.bind_eq_bind,
    Option.bind_some]

end Backend.ElfObject
