-- String tables, the symbol table and the relocations. A string that has been added stays readable
-- at its offset, also when later strings share its bytes; of the symbols it is said which have
-- records, in which order, and what the records refer to.
import Backend.Proofs.CodeUnit.Symbols
import Backend.Proofs.ElfObject.Reader
import Backend.Proofs.Machine.State

namespace Backend

/-! ## String tables -/

/-- What the search finds is an occurrence. -/
theorem indexOfFrom?_some {part bytes : List UInt8} {start k : Nat}
    (h : indexOfFrom? part start bytes = some k) :
    ∃ before after, bytes = before ++ (part ++ after) ∧ start + before.length = k := by
  induction bytes generalizing start with
  | nil =>
    simp only [indexOfFrom?] at h
    split at h
    · rename_i hpart
      refine ⟨[], [], ?_, by simpa using h⟩
      simpa using hpart
    · simp at h
  | cons b rest ih =>
    simp only [indexOfFrom?] at h
    split at h
    · rename_i hstart
      obtain ⟨after, hafter⟩ := List.isPrefixOf_iff_prefix.mp hstart
      exact ⟨[], after, hafter.symm, by simpa using h⟩
    · obtain ⟨before, after, hrest, hk⟩ := ih h
      refine ⟨b :: before, after, by rw [hrest, List.cons_append], ?_⟩
      rw [List.length_cons]
      omega

theorem indexOf?_some {part bytes : List UInt8} {k : Nat} (h : indexOf? part bytes = some k) :
    ∃ before after, bytes = before ++ (part ++ after) ∧ before.length = k := by
  obtain ⟨before, after, hbytes, hk⟩ := indexOfFrom?_some h
  exact ⟨before, after, hbytes, by omega⟩

namespace ElfObject

/-- The table has a string and a zero after it at an offset. -/
def HasString (table : List UInt8) (offset : Nat) (s : List UInt8) : Prop :=
  ∃ before after, table = before ++ (s ++ 0 :: after) ∧ before.length = offset

/-- Appending to a table moves none of its strings. -/
theorem HasString.append {table s : List UInt8} {offset : Nat} (h : HasString table offset s)
    (more : List UInt8) : HasString (table ++ more) offset s := by
  obtain ⟨before, after, rfl, hoffset⟩ := h
  exact ⟨before, after ++ more, by simp, hoffset⟩

theorem HasString.mono {table table' s : List UInt8} {offset : Nat}
    (h : HasString table offset s) (hstart : table <+: table') : HasString table' offset s := by
  obtain ⟨more, rfl⟩ := hstart
  exact h.append more

theorem HasString.lt_length {table s : List UInt8} {offset : Nat}
    (h : HasString table offset s) : offset < table.length := by
  obtain ⟨before, after, rfl, rfl⟩ := h
  simp only [List.length_append, List.length_cons]
  omega

/-- A string without a zero of its own is read back. -/
theorem string?_of_hasString {table s : List UInt8} {offset : Nat}
    (h : HasString table offset s) (hs : 0 ∉ s) : string? table offset = some s := by
  obtain ⟨before, after, rfl, hoffset⟩ := h
  have hall : ∀ b ∈ s, (b != 0) = true := by
    intro b hb
    have hne : b ≠ 0 := fun h0 => hs (h0 ▸ hb)
    simpa using hne
  unfold string?
  rw [List.drop_left' hoffset, if_pos (by simp), List.takeWhile_append_of_pos hall]
  simp

namespace StringTable

/-- Every offset on record is that of its string. -/
def Valid (t : StringTable) : Prop :=
  ∀ name offset, (name, offset) ∈ t.offsets → HasString t.bytes offset (Text.utf8 name)

theorem valid_empty : empty.Valid := by
  intro name offset h
  obtain ⟨rfl, rfl⟩ : name = "" ∧ offset = 0 := by simpa [empty] using h
  exact ⟨[], [], by decide +kernel, rfl⟩

/-- What adding a string leaves behind: the strings before it and the string itself. -/
structure Added (t : StringTable) (name : String) (result : StringTable × Nat) : Prop where
  valid : result.1.Valid
  keeps : t.bytes <+: result.1.bytes
  hasString : HasString result.1.bytes result.2 (Text.utf8 name)

theorem added_share {t : StringTable} (ht : t.Valid) {name : String} {offset : Nat}
    (h : HasString t.bytes offset (Text.utf8 name)) :
    Added t name (⟨t.bytes, t.offsets ++ [(name, offset)]⟩, offset) := by
  refine ⟨?_, List.prefix_rfl, h⟩
  intro other place hplace
  rcases List.mem_append.mp hplace with hold | hnew
  · exact ht other place hold
  · obtain ⟨rfl, rfl⟩ : other = name ∧ place = offset := by simpa using hnew
    exact h

theorem added_append {t : StringTable} (ht : t.Valid) (name : String) :
    Added t name (⟨t.bytes ++ (Text.utf8 name ++ [0]),
      t.offsets ++ [(name, t.bytes.length)]⟩, t.bytes.length) := by
  have hkept : Valid ⟨t.bytes ++ (Text.utf8 name ++ [0]), t.offsets⟩ :=
    fun other place h => (ht other place h).append _
  have hadded := added_share hkept ⟨t.bytes, [], rfl, rfl⟩
  exact ⟨hadded.valid, List.prefix_append _ _, hadded.hasString⟩

theorem add_spec {t : StringTable} (ht : t.Valid) (name : String) :
    Added t name (t.add name) := by
  unfold add
  split
  · rename_i offset hlookup
    obtain ⟨before, after, hoffsets, -⟩ := List.lookup_eq_some_iff.mp hlookup
    have hmem : (name, offset) ∈ t.offsets := by simp [hoffsets]
    exact ⟨ht, List.prefix_rfl, ht name offset hmem⟩
  · simp only
    split
    · rename_i k hk
      obtain ⟨before, after, hbytes, hlen⟩ := indexOf?_some hk
      exact added_share ht ⟨before, after, by rw [hbytes]; simp, hlen⟩
    · exact added_append ht name

end StringTable

end ElfObject

end Backend

namespace Backend.ElfObject

/-! ## The symbols of an object -/

/-- The local symbols that have records. -/
def localSymbols (u : CodeUnit) : List CodeUnit.Entry :=
  u.symbols.filter fun s => s.binding == .loc && s.kind != .label

/-- The global symbols that have records. -/
def globalSymbols (u : CodeUnit) : List CodeUnit.Entry :=
  u.symbols.filter fun s => s.binding == .glob && s.kind != .label

theorem emittedSymbols_eq (u : CodeUnit) :
    emittedSymbols u = (localSymbols u, globalSymbols u) := by
  have hglob : ∀ s : CodeUnit.Entry, (s.binding == .glob) = !(s.binding == .loc) := by
    intro s
    cases s.binding <;> rfl
  simp only [emittedSymbols, localSymbols, globalSymbols, List.partition_eq_filter_filter,
    List.filter_filter, hglob, Function.comp_def]

theorem mem_symbols {u : CodeUnit} {s : CodeUnit.Entry} :
    s ∈ localSymbols u ++ globalSymbols u ↔ s ∈ u.symbols ∧ s.kind ≠ .label := by
  simp only [localSymbols, globalSymbols, List.mem_append, List.mem_filter, Bool.and_eq_true,
    bne_iff_ne, beq_iff_eq]
  cases s.binding <;> simp

/-! ## Symbol records -/

/-- A record of a symbol, with its name in a string table. -/
structure Records (strings : List UInt8) (record : SymbolRecord) (s : CodeUnit.Entry) : Prop where
  name : HasString strings record.name (Text.utf8 s.name)
  info : record.info = symbolInfo s.binding (kindCode s.kind)
  sec : record.sec = sectionCode s.sec
  value : record.value = s.value.toNat
  size : record.size = s.size.toNat

theorem Records.mono {strings strings' : List UInt8} {record : SymbolRecord}
    {s : CodeUnit.Entry} (h : Records strings record s) (hstart : strings <+: strings') :
    Records strings' record s :=
  ⟨h.name.mono hstart, h.info, h.sec, h.value, h.size⟩

theorem Records.fits {strings : List UInt8} {record : SymbolRecord} {s : CodeUnit.Entry}
    (h : Records strings record s) (hstrings : strings.length < 2 ^ 32) : record.Fits := by
  refine ⟨h.name.lt_length.trans hstrings, ?_, ?_, ?_, ?_⟩
  · rw [h.info]
    exact symbolInfo_lt _ _
  · rw [h.sec]
    exact sectionCode_lt _
  · rw [h.value]
    exact s.value.toNat_lt
  · rw [h.size]
    exact s.size.toNat_lt

/-- One symbol: its record comes last, and the strings before it stay. -/
theorem addSymbol_spec {strings : StringTable} (h : strings.Valid)
    (records : List SymbolRecord) (s : CodeUnit.Entry) :
    (addSymbol (strings, records) s).1.Valid ∧
      strings.bytes <+: (addSymbol (strings, records) s).1.bytes ∧
      ∃ record, (addSymbol (strings, records) s).2 = records ++ [record] ∧
        Records (addSymbol (strings, records) s).1.bytes record s := by
  have hadded := StringTable.add_spec h s.name
  exact ⟨hadded.valid, hadded.keeps, _, rfl, hadded.hasString, rfl, rfl, rfl, rfl⟩

/-- All symbols: their records follow those before them, in order. -/
theorem addSymbols_spec {strings : StringTable} (h : strings.Valid)
    (records : List SymbolRecord) (symbols : List CodeUnit.Entry) :
    (symbols.foldl addSymbol (strings, records)).1.Valid ∧
      strings.bytes <+: (symbols.foldl addSymbol (strings, records)).1.bytes ∧
      ∃ added, (symbols.foldl addSymbol (strings, records)).2 = records ++ added ∧
        List.Forall₂ (Records (symbols.foldl addSymbol (strings, records)).1.bytes) added
          symbols := by
  induction symbols generalizing strings records with
  | nil => exact ⟨h, List.prefix_rfl, [], (List.append_nil _).symm, .nil⟩
  | cons s symbols ih =>
    obtain ⟨hvalid, hkeeps, record, hrecord, hs⟩ := addSymbol_spec h records s
    obtain ⟨hvalid', hkeeps', added, hadded, hrest⟩ := ih hvalid (addSymbol (strings, records) s).2
    rw [List.foldl_cons]
    refine ⟨hvalid', hkeeps.trans hkeeps', record :: added, ?_, .cons (hs.mono hkeeps') hrest⟩
    rw [hadded, hrecord, List.append_assoc, List.singleton_append]

/-- The strings and the records of the symbol table of a unit. -/
def symbolTable (u : CodeUnit) : StringTable × List SymbolRecord :=
  (localSymbols u ++ globalSymbols u).foldl addSymbol
    ((StringTable.empty.add u.name).1, fixedSymbols (StringTable.empty.add u.name).2)

/-- The four fixed entries, of which one names the unit, and then the symbols. -/
theorem symbolTable_spec (u : CodeUnit) :
    HasString (symbolTable u).1.bytes 0 [] ∧
      ∃ file added, (symbolTable u).2 = fixedSymbols file ++ added ∧
        HasString (symbolTable u).1.bytes file (Text.utf8 u.name) ∧
        List.Forall₂ (Records (symbolTable u).1.bytes) added
          (localSymbols u ++ globalSymbols u) := by
  have hfile := StringTable.add_spec StringTable.valid_empty u.name
  obtain ⟨-, hkeeps, added, hadded, hrecords⟩ := addSymbols_spec hfile.valid
    (fixedSymbols (StringTable.empty.add u.name).2) (localSymbols u ++ globalSymbols u)
  have hempty : HasString StringTable.empty.bytes 0 [] := ⟨[], [], rfl, rfl⟩
  exact ⟨hempty.mono (hfile.keeps.trans hkeeps), _, added, hadded, hfile.hasString.mono hkeeps,
    hrecords⟩

/-! ## Relocation records -/

theorem mapM_error {ε α β : Type} {f : α → Except ε β} {xs : List α} :
    (∃ e, xs.mapM f = .error e) ↔ ∃ x ∈ xs, ∃ e, f x = .error e := by
  induction xs with
  | nil =>
    constructor
    · rintro ⟨e, he⟩
      cases he
    · rintro ⟨x, hx, -⟩
      cases hx
  | cons x xs ih =>
    rw [List.mapM_cons]
    cases hx : f x with
    | error e => exact ⟨fun _ => ⟨x, List.mem_cons_self, e, hx⟩, fun _ => ⟨e, rfl⟩⟩
    | ok y =>
      have htail : (∃ e, (do let y ← Except.ok y; let ys ← xs.mapM f; pure (y :: ys)) =
          (Except.error e : Except ε (List β))) ↔ ∃ e, xs.mapM f = .error e := by
        cases hxs : xs.mapM f with
        | error e => exact ⟨fun _ => ⟨e, rfl⟩, fun _ => ⟨e, rfl⟩⟩
        | ok ys => exact ⟨fun ⟨_, he⟩ => (nomatch he), fun ⟨_, he⟩ => (nomatch he)⟩
      rw [htail, ih]
      simp [hx]

theorem relocRecord_ok {symbols : List CodeUnit.Entry} {r : CodeUnit.Relocation}
    {record : RelocRecord} (h : relocRecord symbols r = .ok record) :
    ∃ (i : Nat) (s : CodeUnit.Entry), symbols[i]? = some s ∧ s.name = r.symbol ∧
      record = ⟨r.offset.toNat, i + 4, relocCode r.kind, r.addend⟩ := by
  unfold relocRecord symbolIndex? at h
  cases hfind : symbols.findIdx? fun s => s.name == r.symbol with
  | none =>
    rw [hfind] at h
    cases h
  | some i =>
    rw [hfind] at h
    cases h
    obtain ⟨hi, hname, -⟩ := List.findIdx?_eq_some_iff_getElem.mp hfind
    exact ⟨i, symbols[i], List.getElem?_eq_getElem hi, by simpa using hname, rfl⟩

theorem relocRecord_error {symbols : List CodeUnit.Entry} {r : CodeUnit.Relocation} :
    (∃ e, relocRecord symbols r = .error e) ↔ ∀ s ∈ symbols, s.name ≠ r.symbol := by
  unfold relocRecord symbolIndex?
  cases hfind : symbols.findIdx? fun s => s.name == r.symbol with
  | none =>
    have hnone := List.findIdx?_eq_none_iff.mp hfind
    simpa using hnone
  | some i =>
    obtain ⟨hi, hname, -⟩ := List.findIdx?_eq_some_iff_getElem.mp hfind
    simp only [Option.map_some, reduceCtorEq, exists_false, false_iff, not_forall, not_not]
    exact ⟨symbols[i], List.getElem_mem hi, by simpa using hname⟩

/-- A relocation has no record exactly if its symbol is a label. -/
theorem relocRecord_error_iff {u : CodeUnit} (h : u.Consistent) {r : CodeUnit.Relocation}
    (hr : r ∈ u.relocs) :
    (∃ e, relocRecord (localSymbols u ++ globalSymbols u) r = .error e) ↔
      ∃ s, u.lookup? r.symbol = some s ∧ s.kind = .label := by
  obtain ⟨s, hs, hname⟩ := List.mem_map.mp (h.known r hr)
  have hlookup := h.lookup?_of_mem hs
  rw [hname] at hlookup
  rw [relocRecord_error, hlookup]
  constructor
  · intro habsent
    refine ⟨s, rfl, ?_⟩
    by_contra hkind
    exact habsent s (mem_symbols.mpr ⟨hs, hkind⟩) hname
  · rintro ⟨t, ht, hkind⟩ v hv hvname
    obtain rfl := Option.some.inj ht
    obtain ⟨hvmem, hvkind⟩ := mem_symbols.mp hv
    have hvs := h.lookup?_of_mem hvmem
    rw [hvname, hlookup] at hvs
    obtain rfl := Option.some.inj hvs
    exact hvkind hkind

end Backend.ElfObject
