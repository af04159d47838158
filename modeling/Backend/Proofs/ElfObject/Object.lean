-- An object says everything about its unit: a reader gets back the text, the data, the symbols
-- and the relocations.
import Backend.Proofs.ElfObject.Sections

namespace Backend.ElfObject

/-! ## What a reader can find -/

/-- Neither of two sections starts inside the other. -/
def SectionView.Apart (a b : SectionView) : Prop :=
  a.header.offset + a.header.size ≤ b.header.offset ∨
    b.header.offset + b.header.size ≤ a.header.offset

/-- An entry of the symbol table of a file, with its name, shows a symbol. -/
structure Shows (f : FileView) (entry : List UInt8 × SymbolRecord) (s : CodeUnit.Entry) :
    Prop where
  name : entry.1 = Text.utf8 s.name
  binding : binding? (entry.2.info / 16) = some s.binding
  kind : symbolKind? (entry.2.info % 16) = some s.kind
  sec : f.definedIn? entry.2.sec = some s.sec
  value : entry.2.value = s.value.toNat
  size : entry.2.size = s.size.toNat

/-- A record of a file stands for a relocation of a unit. -/
structure Relocates (f : FileView) (u : CodeUnit) (entries : List (List UInt8 × SymbolRecord))
    (record : RelocRecord) (r : CodeUnit.Relocation) : Prop where
  offset : record.offset = r.offset.toNat
  kind : relocKind? record.kind = some (fileKind r.kind)
  addend : record.addend = r.addend
  symbol : ∃ s entry, u.lookup? r.symbol = some s ∧ entries[record.symbol]? = some entry ∧
    Shows f entry s

/-- The entries that every file has: none, the file, and its text and data. -/
def fixedEntries (u : CodeUnit) (file : Nat) : List (List UInt8 × SymbolRecord) :=
  [([], ⟨0, 0, 0, 0, 0⟩), (Text.utf8 u.name, ⟨file, 4, 0xfff1, 0, 0⟩), ([], ⟨0, 3, 1, 0, 0⟩),
    ([], ⟨0, 3, 3, 0, 0⟩)]

/-- The names of the sections, in the order of their indices. -/
def sectionTitles : List (List UInt8) :=
  ["", ".text", ".rela.text", ".data", ".symtab", ".strtab", ".shstrtab"].map Text.utf8

/-- A file has all there is to a unit. -/
structure Faithful (u : CodeUnit) (file : List UInt8) (f : FileView) : Prop where
  names : f.sections.map SectionView.name = sectionTitles
  aligned : ∀ s ∈ f.sections, s.header.align ∣ s.header.offset
  inside : ∀ s ∈ f.sections, s.header.offset + s.header.size ≤ file.length
  apart : f.sections.Pairwise SectionView.Apart
  clear : ∀ s ∈ f.sections, s.header.size = 0 ∨
    64 ≤ s.header.offset ∧ s.header.offset + s.header.size ≤ f.tableAt
  text : ∃ s, f.sectionNamed? ".text" = some s ∧ s.bytes = u.text
  data : ∃ s n, f.sectionNamed? ".data" = some s ∧ s.bytes = u.data ++ List.replicate n 0 ∧ n < 4 ∧
    4 ∣ s.bytes.length
  symbols : ∃ table name entries, f.sectionNamed? ".symtab" = some table ∧
    f.symbols? = some (fixedEntries u name ++ entries) ∧
    List.Forall₂ (Shows f) entries (localSymbols u ++ globalSymbols u) ∧
    table.header.info = (fixedEntries u name).length + (localSymbols u).length
  relocations : ∃ entries records, f.symbols? = some entries ∧ f.relocations? = some records ∧
    List.Forall₂ (Relocates f u entries) records u.relocs

/-- No name has a zero byte, which would end it. -/
structure ZeroFree (u : CodeUnit) : Prop where
  unit : 0 ∉ Text.utf8 u.name
  symbols : ∀ s ∈ u.symbols, 0 ∉ Text.utf8 s.name

/-! ## Sections by name -/

theorem find?_of_findIdx? {α : Type} {p : α → Bool} {xs : List α} {i : Nat}
    (h : xs.findIdx? p = some i) : xs.find? p = xs[i]? := by
  obtain ⟨hi, hp, hfirst⟩ := List.findIdx?_eq_some_iff_getElem.mp h
  rw [List.getElem?_eq_getElem hi, List.find?_eq_some_iff_getElem]
  exact ⟨hp, i, hi, rfl, fun j hj => by simpa using hfirst j hj⟩

section Views

variable {u : CodeUnit} {relocs : List RelocRecord} {s : Starts} {headersAt : Nat}

theorem sectionNamed?_views {name : String} {i : Nat}
    (h : (sectionTitles.findIdx? fun t => t == Text.utf8 name) = some i) :
    FileView.sectionNamed? ⟨headersAt, sectionViews u relocs s⟩ name =
      (sectionViews u relocs s)[i]? := by
  apply find?_of_findIdx?
  have hnames : (sectionViews u relocs s).map SectionView.name = sectionTitles := rfl
  rw [← hnames, List.findIdx?_map] at h
  exact h

theorem text_view : FileView.sectionNamed? ⟨headersAt, sectionViews u relocs s⟩ ".text" =
    some ⟨Text.utf8 ".text", textHeader u s, u.text⟩ :=
  sectionNamed?_views (i := 1) (by decide +kernel)

theorem rela_view : FileView.sectionNamed? ⟨headersAt, sectionViews u relocs s⟩ ".rela.text" =
    some ⟨Text.utf8 ".rela.text", relaHeader relocs s, relocs.flatMap RelocRecord.bytes⟩ :=
  sectionNamed?_views (i := 2) (by decide +kernel)

theorem data_view : FileView.sectionNamed? ⟨headersAt, sectionViews u relocs s⟩ ".data" =
    some ⟨Text.utf8 ".data", dataHeader u s, dataBytes u⟩ :=
  sectionNamed?_views (i := 3) (by decide +kernel)

theorem symtab_view : FileView.sectionNamed? ⟨headersAt, sectionViews u relocs s⟩ ".symtab" =
    some ⟨Text.utf8 ".symtab", symtabHeader u s,
      (symbolTable u).2.flatMap SymbolRecord.bytes⟩ :=
  sectionNamed?_views (i := 4) (by decide +kernel)

theorem definedIn?_views (sec : CodeUnit.Section) :
    FileView.definedIn? ⟨headersAt, sectionViews u relocs s⟩ (sectionCode sec) = some sec := by
  have htext : Text.utf8 ".data" ≠ Text.utf8 ".text" := by decide +kernel
  cases sec with
  | undefined => rfl
  | text => simp [FileView.definedIn?, sectionCode, textIndex, sectionViews]
  | data => simp [FileView.definedIn?, sectionCode, dataIndex, sectionViews, htext]

/-! ## Ranges -/

theorem Laid.aligned {file : List UInt8} (h : Laid u relocs file s headersAt) :
    ∀ v ∈ sectionViews u relocs s, v.header.align ∣ v.header.offset := by
  simp only [sectionViews, List.forall_mem_cons]
  exact ⟨Nat.dvd_refl 0, h.text.aligned, h.rela.aligned, h.data.aligned, h.symtab.aligned,
    h.strtab.aligned, h.shstrtab.aligned, List.forall_mem_nil _⟩

theorem Laid.inside {file : List UInt8} (h : Laid u relocs file s headersAt) :
    ∀ v ∈ sectionViews u relocs s, v.header.offset + v.header.size ≤ file.length := by
  simp only [sectionViews, List.forall_mem_cons]
  exact ⟨Nat.zero_le _, range?_le h.text.range, range?_le h.rela.range, range?_le h.data.range,
    range?_le h.symtab.range, range?_le h.strtab.range, range?_le h.shstrtab.range,
    List.forall_mem_nil _⟩

theorem Laid.apart {file : List UInt8} (h : Laid u relocs file s headersAt) :
    (sectionViews u relocs s).Pairwise SectionView.Apart := by
  have horder := h.order
  simp only [parts, Starts.toList, InOrder] at horder
  simp only [sectionViews, List.pairwise_cons, List.forall_mem_cons, SectionView.Apart,
    textHeader, relaHeader, dataHeader, symtabHeader, strtabHeader, shstrtabHeader,
    List.not_mem_nil, false_implies, implies_true, List.Pairwise.nil, and_true]
  and_intros <;> omega

/-- The sections lie between the file header and the section headers. -/
theorem Laid.clear {file : List UInt8} (h : Laid u relocs file s headersAt) :
    ∀ v ∈ sectionViews u relocs s, v.header.size = 0 ∨
      64 ≤ v.header.offset ∧ v.header.offset + v.header.size ≤ headersAt := by
  have horder := h.order
  have hlast := h.last
  simp only [parts, Starts.toList, InOrder] at horder
  simp only [sectionViews, List.forall_mem_cons, textHeader, relaHeader, dataHeader, symtabHeader,
    strtabHeader, shstrtabHeader]
  refine ⟨.inl trivial, .inr ?_, .inr ?_, .inr ?_, .inr ?_, .inr ?_, .inr ?_,
    List.forall_mem_nil _⟩
  all_goals omega

end Views

/-! ## Symbols -/

/-- A record of a symbol shows it. -/
theorem Records.shows {f : FileView} (hf : ∀ sec, f.definedIn? (sectionCode sec) = some sec)
    {strings : List UInt8} {record : SymbolRecord} {e : CodeUnit.Entry}
    (h : Records strings record e) (hkind : e.kind ≠ .label) :
    Shows f (Text.utf8 e.name, record) e where
  name := rfl
  binding := by
    rw [h.info]
    exact binding?_symbolInfo e.binding e.kind
  kind := by
    rw [h.info]
    exact symbolKind?_symbolInfo e.binding hkind
  sec := by
    rw [h.sec]
    exact hf e.sec
  value := h.value
  size := h.size

theorem readNamed?_eq {strings name : List UInt8} {record : SymbolRecord} (h : record.Fits)
    (hname : HasString strings record.name name) (hzero : 0 ∉ name) :
    FileView.readNamed? strings record.bytes = some (name, record) := by
  simp only [FileView.readNamed?, readSymbol?_bytes h, Option.bind_eq_bind, Option.bind_some,
    string?_of_hasString hname hzero]

/-- The entries of symbols, read one by one. -/
theorem entries_of_records {f : FileView} (hf : ∀ sec, f.definedIn? (sectionCode sec) = some sec)
    {strings : List UInt8} (hstrings : strings.length < 2 ^ 32) {records : List SymbolRecord}
    {symbols : List CodeUnit.Entry} (h : List.Forall₂ (Records strings) records symbols)
    (hsymbols : ∀ e ∈ symbols, e.kind ≠ .label ∧ 0 ∉ Text.utf8 e.name) :
    ∃ entries, List.Forall₂
        (fun record entry => FileView.readNamed? strings record.bytes = some entry)
        records entries ∧
      List.Forall₂ (Shows f) entries symbols := by
  induction h with
  | nil => exact ⟨[], .nil, .nil⟩
  | @cons record e records symbols hrecord _ ih =>
    obtain ⟨hkind, hzero⟩ := hsymbols e List.mem_cons_self
    obtain ⟨entries, hread, hshows⟩ := ih fun d hd => hsymbols d (List.mem_cons_of_mem _ hd)
    have hentry := readNamed?_eq (hrecord.fits hstrings) hrecord.name hzero
    exact ⟨(Text.utf8 e.name, record) :: entries, .cons hentry hread,
      .cons (hrecord.shows hf hkind) hshows⟩

theorem fixedEntries_read {u : CodeUnit} {strings : List UInt8} {name : Nat}
    (hstrings : strings.length < 2 ^ 32) (hnothing : HasString strings 0 [])
    (hname : HasString strings name (Text.utf8 u.name)) (hzero : 0 ∉ Text.utf8 u.name) :
    List.Forall₂ (fun record entry => FileView.readNamed? strings record.bytes = some entry)
      (fixedSymbols name) (fixedEntries u name) := by
  have hnull : ∀ {info sec : Nat}, info < 2 ^ 8 → sec < 2 ^ 16 →
      FileView.readNamed? strings (SymbolRecord.bytes ⟨0, info, sec, 0, 0⟩) =
        some ([], ⟨0, info, sec, 0, 0⟩) := by
    intro info sec hinfo hsec
    have hzeros := Nat.two_pow_pos
    exact readNamed?_eq ⟨hzeros 32, hinfo, hsec, hzeros 64, hzeros 64⟩ hnothing List.not_mem_nil
  have hunit : FileView.readNamed? strings (SymbolRecord.bytes ⟨name, 4, 0xfff1, 0, 0⟩) =
      some (Text.utf8 u.name, ⟨name, 4, 0xfff1, 0, 0⟩) := by
    refine readNamed?_eq ⟨hname.lt_length.trans hstrings, ?_, ?_, ?_, ?_⟩ hname hzero
    all_goals simp
  exact .cons (hnull (by decide) (by decide)) (.cons hunit (.cons (hnull (by decide) (by decide))
    (.cons (hnull (by decide) (by decide)) .nil)))

/-- The bytes of a table fall apart into those of its records. -/
theorem records_eq {α : Type} {write : α → List UInt8} (h : ∀ x, (write x).length = 24)
    (xs : List α) {name : List UInt8} {header : SectionRecord} (hentry : header.entrySize = 24)
    (hsize : header.size = (xs.flatMap write).length) :
    FileView.records ⟨name, header, xs.flatMap write⟩ = xs.map write := by
  rw [length_flatMap_records h] at hsize
  simp only [FileView.records, hentry, hsize]
  rw [Nat.mul_div_cancel_left _ (by decide : 0 < 24)]
  exact recordBytes_flatMap h xs

section Tables

variable {u : CodeUnit} {relocs : List RelocRecord} {s : Starts} {headersAt : Nat}

/-- The table is read as the fixed entries and those of the symbols. -/
theorem symbols?_views {file : List UInt8} (hfits : Fits u file) (hzero : ZeroFree u) :
    ∃ name entries,
      FileView.symbols? ⟨headersAt, sectionViews u relocs s⟩ =
        some (fixedEntries u name ++ entries) ∧
      List.Forall₂ (Shows ⟨headersAt, sectionViews u relocs s⟩) entries
        (localSymbols u ++ globalSymbols u) := by
  obtain ⟨hnothing, name, added, hrecords, hname, hadded⟩ := symbolTable_spec u
  have hsymbols : ∀ e ∈ localSymbols u ++ globalSymbols u,
      e.kind ≠ .label ∧ 0 ∉ Text.utf8 e.name := by
    intro e he
    obtain ⟨hmem, hkind⟩ := mem_symbols.mp he
    exact ⟨hkind, hzero.symbols e hmem⟩
  obtain ⟨entries, hread, hshows⟩ :=
    entries_of_records definedIn?_views hfits.strings hadded hsymbols
  refine ⟨name, entries, ?_, hshows⟩
  have hfixed := fixedEntries_read hfits.strings hnothing hname hzero.unit
  have hstrings : (sectionViews u relocs s)[(symtabHeader u s).link]? =
    some ⟨Text.utf8 ".strtab", strtabHeader u s, (symbolTable u).1.bytes⟩ := rfl
  simp only [FileView.symbols?, symtab_view, Option.bind_eq_bind, Option.bind_some, hstrings]
  apply mapM_eq_some
  rw [records_eq SymbolRecord.length_bytes (symbolTable u).2 rfl rfl, List.forall₂_map_left_iff,
    hrecords]
  exact List.rel_append hfixed hread

/-! ## Relocations -/

theorem relocations?_views (h : ∀ record ∈ relocs, record.Fits) :
    FileView.relocations? ⟨headersAt, sectionViews u relocs s⟩ = some relocs := by
  have hsymbols : (sectionViews u relocs s)[(relaHeader relocs s).link]? =
    some ⟨Text.utf8 ".symtab", symtabHeader u s,
      (symbolTable u).2.flatMap SymbolRecord.bytes⟩ := rfl
  have htext : (sectionViews u relocs s)[(relaHeader relocs s).info]? =
    some ⟨Text.utf8 ".text", textHeader u s, u.text⟩ := rfl
  simp only [FileView.relocations?, rela_view, Option.bind_eq_bind, Option.bind_some, hsymbols,
    htext, and_self, if_true]
  apply mapM_eq_some
  rw [records_eq RelocRecord.length_bytes relocs rfl rfl, List.forall₂_map_left_iff,
    List.forall₂_same]
  exact fun record hrecord => readReloc?_bytes (h record hrecord)

end Tables

/-- The index of a relocation is that of the entry of its symbol. -/
theorem relocates_of_record {u : CodeUnit} (hu : u.Consistent) {f : FileView} {name : Nat}
    {entries : List (List UInt8 × SymbolRecord)}
    (hentries : List.Forall₂ (Shows f) entries (localSymbols u ++ globalSymbols u))
    {r : CodeUnit.Relocation} {record : RelocRecord}
    (h : relocRecord (localSymbols u ++ globalSymbols u) r = .ok record) :
    Relocates f u (fixedEntries u name ++ entries) record r := by
  obtain ⟨i, e, he, hname, rfl⟩ := relocRecord_ok h
  obtain ⟨hi, heq⟩ := List.getElem?_eq_some_iff.mp he
  have hlen := hentries.length_eq
  have hshows := hentries.get (by rw [hlen]; exact hi) hi
  have hmem := (mem_symbols.mp (List.mem_of_getElem? he)).1
  have hlookup := hu.lookup?_of_mem hmem
  rw [hname] at hlookup
  refine ⟨rfl, relocKind?_relocCode r.kind, rfl, e, entries.get ⟨i, by rw [hlen]; exact hi⟩,
    hlookup, ?_, ?_⟩
  · have hindex : i + 4 = (fixedEntries u name).length + i := Nat.add_comm i 4
    rw [hindex, List.getElem?_append_right (Nat.le_add_right _ _), Nat.add_sub_cancel_left]
    simp
  · simpa [heq] using hshows

theorem relocRecord_fits {u : CodeUnit} {file : List UInt8} (hfits : Fits u file)
    {r : CodeUnit.Relocation} {record : RelocRecord}
    (h : relocRecord (localSymbols u ++ globalSymbols u) r = .ok record) : record.Fits := by
  obtain ⟨i, e, he, -, rfl⟩ := relocRecord_ok h
  obtain ⟨hi, -⟩ := List.getElem?_eq_some_iff.mp he
  have hlen := length_symbolTable u
  have hsymbols := hfits.symbols
  exact ⟨r.offset.toNat_lt, by simp only; omega, relocCode_lt r.kind⟩

/-! ## The object -/

/-- The data ends in at most three zeros. -/
theorem dataBytes_eq (u : CodeUnit) :
    ∃ n, dataBytes u = u.data ++ List.replicate n 0 ∧ n < 4 ∧ 4 ∣ (dataBytes u).length := by
  have hle := le_alignUp u.data.length 4
  have hlt := alignUp_lt u.data.length 4 (by decide)
  refine ⟨alignUp u.data.length 4 - u.data.length, rfl, by omega, ?_⟩
  rw [dataBytes, length_padTo hle]
  exact dvd_alignUp _ _ (by decide)

theorem encode_error_iff {u : CodeUnit} (h : u.Consistent) :
    (∃ e, encode u = .error e) ↔
      ∃ r ∈ u.relocs, ∃ s, u.lookup? r.symbol = some s ∧ s.kind = .label := by
  have hlabel : (∃ r ∈ u.relocs, ∃ s, u.lookup? r.symbol = some s ∧ s.kind = .label) ↔
      ∃ e, u.relocs.mapM (relocRecord (localSymbols u ++ globalSymbols u)) = .error e := by
    rw [mapM_error]
    refine exists_congr fun r => and_congr_right fun hr => ?_
    exact (relocRecord_error_iff h hr).symm
  rw [hlabel]
  rcases encode_cases u with ⟨e, hrelocs, hfile⟩ | ⟨relocs, file, hrelocs, hfile, -⟩
  · exact ⟨fun _ => ⟨e, hrelocs⟩, fun _ => ⟨e, hfile⟩⟩
  · rw [hrelocs, hfile]
    simp

theorem written_faithful {u : CodeUnit} {relocs : List RelocRecord} {file : List UInt8}
    (h : u.Consistent) (hzero : ZeroFree u) (hfits : Fits u file)
    (hrelocs : u.relocs.mapM (relocRecord (localSymbols u ++ globalSymbols u)) = .ok relocs)
    (hwritten : Written u relocs file) : ∃ f, readFile? file = some f ∧ Faithful u file f := by
  obtain ⟨s, headersAt, hlaid⟩ := laid_of_written hwritten
  obtain ⟨name, entries, hsymbols, hshows⟩ := symbols?_views hfits hzero
  obtain ⟨n, hdata, hn, hmultiple⟩ := dataBytes_eq u
  have hrecords : List.Forall₂ (fun record r =>
      relocRecord (localSymbols u ++ globalSymbols u) r = .ok record) relocs u.relocs :=
    (mapM_eq_ok.mp hrelocs).flip
  have hfit : ∀ record ∈ relocs, record.Fits :=
    ((List.forall₂_and_left _ _).mp
      (hrecords.imp fun record r hr => ⟨relocRecord_fits hfits hr, hr⟩)).1
  refine ⟨⟨headersAt, sectionViews u relocs s⟩, hlaid.read hfits, ?_⟩
  exact {
    names := rfl
    aligned := hlaid.aligned
    inside := hlaid.inside
    apart := hlaid.apart
    clear := hlaid.clear
    text := ⟨_, text_view, rfl⟩
    data := ⟨_, n, data_view, hdata, hn, hmultiple⟩
    symbols := ⟨_, name, entries, symtab_view, hsymbols, hshows, rfl⟩
    relocations := ⟨_, relocs, hsymbols, relocations?_views hfit,
      hrecords.imp fun record r hr => relocates_of_record h hshows hr⟩ }

/-- A unit has an object unless a relocation is against a label, and the object has all there is to
the unit. -/
theorem encode_faithful {u : CodeUnit} (hu : u.Reachable) :
    ((∃ e, encode u = .error e) ↔
      ∃ r ∈ u.relocs, ∃ s, u.lookup? r.symbol = some s ∧ s.kind = .label) ∧
    ∀ file, encode u = .ok file → ZeroFree u → Fits u file →
      ∃ f, readFile? file = some f ∧ Faithful u file f := by
  refine ⟨encode_error_iff hu.consistent, fun file hfile hzero hfits => ?_⟩
  rcases encode_cases u with ⟨e, -, herror⟩ | ⟨relocs, written, hrelocs, hok, hwritten⟩
  · rw [herror] at hfile
    cases hfile
  · obtain rfl : written = file := Except.ok.inj (hok.symm.trans hfile)
    exact written_faithful hu.consistent hzero hfits hrelocs hwritten

/-- A unit that calls one function and loads one object, with a label after the call. -/
def callUnit : CodeUnit where
  name := "prog"
  text := [0xe8, 0, 0, 0, 0, 0x8b, 0x05, 0, 0, 0, 0]
  data := [42]
  symbols := [⟨"main", .glob, .func, .text, 0, 0, true⟩, .placeholder "puts",
    ⟨"answer", .loc, .object, .data, 0, 1, true⟩, ⟨".L0", .loc, .label, .text, 5, 0, true⟩]
  relocs := [⟨1, "puts", .plt32, -4⟩, ⟨7, "answer", .pc32, -4⟩]
  listing := false
  lines := []

theorem callUnit_reachable : callUnit.Reachable := by
  have hmain : (CodeUnit.empty "prog").define "main" .func .glob .text 0 = .ok
      { CodeUnit.empty "prog" with symbols := callUnit.symbols.take 1 } := rfl
  have hanswer : CodeUnit.addData { callUnit with
        text := callUnit.text.take 5, data := [], symbols := callUnit.symbols.take 2,
        relocs := callUnit.relocs.take 1 } "answer" [42] .loc = .ok
      { callUnit with
        text := callUnit.text.take 5, symbols := callUnit.symbols.take 3,
        relocs := callUnit.relocs.take 1 } := rfl
  have hlabel : CodeUnit.define { callUnit with
        text := callUnit.text.take 5, symbols := callUnit.symbols.take 3,
        relocs := callUnit.relocs.take 1 } ".L0" .label .loc .text 5 = .ok
      { callUnit with text := callUnit.text.take 5, relocs := callUnit.relocs.take 1 } := rfl
  have hcall := ((CodeUnit.Reachable.empty "prog").define hmain).emit [0xe8, 0, 0, 0, 0]
    |>.addRelocation ⟨1, "puts", .plt32, -4⟩
  have hdata := (CodeUnit.Reachable.addData hcall hanswer).define hlabel
  exact (hdata.emit [0x8b, 0x05, 0, 0, 0, 0]).addRelocation ⟨7, "answer", .pc32, -4⟩

theorem encode_faithful_callUnit : ∃ file f, encode callUnit = .ok file ∧
    readFile? file = some f ∧ Faithful callUnit file f := by
  have hbounds : (symbolTable callUnit).1.bytes.length < 2 ^ 32 ∧
      (symbolTable callUnit).2.length < 2 ^ 32 := by
    decide +kernel
  have hzero : ZeroFree callUnit := ⟨by decide +kernel, by decide +kernel⟩
  have hsize : ((encode callUnit).toOption.map List.length).any (· < 2 ^ 64) := by decide +kernel
  obtain ⟨-, hfaithful⟩ := encode_faithful callUnit_reachable
  cases hfile : encode callUnit with
  | error e => simp [hfile, Except.toOption] at hsize
  | ok file =>
    have hlength : file.length < 2 ^ 64 := by simpa [hfile, Except.toOption] using hsize
    obtain ⟨f, hread, hf⟩ := hfaithful file hfile hzero ⟨hbounds.1, hbounds.2, hlength⟩
    exact ⟨file, f, rfl, hread, hf⟩

end Backend.ElfObject
