-- Reading undoes writing for whole instructions: the operation, the sources between commas and the
-- output after the arrow are found again.
import Backend.Proofs.Instr.Fields
import Mathlib

namespace Backend.Instr

open Backend.Text
open Backend.Operand (Readable Printable nameless namelessSlot)

/-! ## White space at the ends -/

/-- Neither end is blank. -/
structure Trimmed (t : List Char) : Prop where
  head : ∃ c, t.head? = some c ∧ isBlank c = false
  last : ∃ c, t.getLast? = some c ∧ isBlank c = false

theorem Trimmed.ne_nil {t : List Char} (h : Trimmed t) : t ≠ [] := by
  rintro rfl
  obtain ⟨c, hc, -⟩ := h.head
  cases hc

theorem dropWhile_blank {a t : List Char} (ha : ∀ c ∈ a, isBlank c = true)
    (ht : ∃ c, t.head? = some c ∧ isBlank c = false) (s : List Char) :
    (a ++ (t ++ s)).dropWhile isBlank = t ++ s := by
  obtain ⟨c, hc, hblank⟩ := ht
  cases t with
  | nil => cases hc
  | cons d t =>
    obtain rfl := Option.some.inj hc
    rw [List.dropWhile_append_of_pos ha, List.cons_append, List.dropWhile_cons, hblank]
    rfl

theorem trim_append {a t b : List Char} (ha : ∀ c ∈ a, isBlank c = true)
    (hb : ∀ c ∈ b, isBlank c = true) (ht : Trimmed t) : trim (a ++ (t ++ b)) = t := by
  have hlast : ∃ c, t.reverse.head? = some c ∧ isBlank c = false := by
    rw [List.head?_reverse]
    exact ht.last
  have hback := dropWhile_blank (a := b.reverse) (fun c hc => hb c (List.mem_reverse.mp hc))
    hlast []
  rw [List.append_nil] at hback
  rw [trim, dropWhile_blank ha ht.head, List.reverse_append, hback, List.reverse_reverse]

theorem trim_eq {t : List Char} (ht : Trimmed t) : trim t = t := by
  have := trim_append (a := []) (b := []) (fun _ h => nomatch h) (fun _ h => nomatch h) ht
  simpa using this

theorem isBlank_of_isWordChar {c : Char} (h : Operand.isWordChar c = true) : isBlank c = false := by
  have hbounds : 48 ≤ c.toNat ∧ c.toNat ≤ 122 := by
    simp only [Operand.isWordChar, Bool.or_eq_true, Bool.and_eq_true, decide_eq_true_eq,
      beq_iff_eq] at h
    rcases h with ((rfl | ⟨hlow, hhigh⟩) | ⟨hlow, hhigh⟩) | ⟨hlow, hhigh⟩
    · decide
    · have hl : 97 ≤ c.toNat := hlow
      have hh : c.toNat ≤ 122 := hhigh
      omega
    · have hl : 65 ≤ c.toNat := hlow
      have hh : c.toNat ≤ 90 := hhigh
      omega
    · have hl : 48 ≤ c.toNat := hlow
      have hh : c.toNat ≤ 57 := hhigh
      omega
  unfold isBlank
  simp only [Bool.or_eq_false_iff, Bool.and_eq_false_iff, decide_eq_false_iff_not,
    beq_eq_false_iff_ne]
  omega

theorem isBlank_of_endsWell {t : List Char} (h : EndsWell t) :
    ∃ c, t.getLast? = some c ∧ isBlank c = false := by
  obtain ⟨c, hc, hgood⟩ := h
  have hclosers : ∀ c ∈ closers, isBlank c = false := by decide
  exact ⟨c, hc, hgood.elim isBlank_of_isWordChar (hclosers c)⟩

/-! ## Fields -/

/-- The fields after the first. -/
def fieldsTail (ts : List (List Char)) : List Char := ts.flatMap fun u => ',' :: ' ' :: u

/-- Nothing or one space. -/
def IsGap (s : List Char) : Prop := s = [] ∨ s = [' ']

theorem IsGap.blank {s : List Char} (h : IsGap s) : ∀ c ∈ s, isBlank c = true := by
  rcases h with rfl | rfl <;> decide

theorem IsGap.passes {s sep : List Char} (h : IsGap s) (hsep : IsSeparator sep) :
    Passes sep 0 s := by
  rcases h with rfl | rfl
  · exact .nil sep 0
  · refine passes_plain hsep ?_ (by decide)
    rcases hsep with rfl | rfl <;> decide

/-- A field has no top-level comma in it and no blanks around it. -/
structure IsField (t : List Char) : Prop where
  trimmed : Trimmed t
  passes : ∀ sep, IsSeparator sep → Passes sep 0 t

theorem trimmed_fields {t : List Char} {ts : List (List Char)} (h : ∀ u ∈ t :: ts, IsField u) :
    Trimmed (t ++ fieldsTail ts) := by
  induction ts generalizing t with
  | nil =>
    rw [fieldsTail, List.flatMap_nil, List.append_nil]
    exact (h t List.mem_cons_self).trimmed
  | cons u ts ih =>
    have hrest := ih fun v hv => h v (List.mem_cons_of_mem t hv)
    have htail : fieldsTail (u :: ts) = [',', ' '] ++ (u ++ fieldsTail ts) := by simp [fieldsTail]
    obtain ⟨c, hc, hblank⟩ := (h t List.mem_cons_self).trimmed.head
    obtain ⟨d, hd, hblank'⟩ := hrest.last
    rw [htail]
    refine ⟨⟨c, by rw [List.head?_append, hc]; rfl, hblank⟩, d, ?_, hblank'⟩
    rw [List.getLast?_append, List.getLast?_append, hd]
    rfl

theorem cutTopLevelFrom_comma (s : List Char) :
    cutTopLevelFrom [','] 0 false (',' :: s) = some ([], s) := by
  rw [cutTopLevelFrom, String.contains_char_eq]
  rfl

/-- Fields with commas between them are found again, whatever blank surrounds them. -/
theorem fieldsUpTo_joined {t : List Char} {ts : List (List Char)} (h : ∀ u ∈ t :: ts, IsField u)
    {lead trail : List Char} (hlead : IsGap lead) (htrail : IsGap trail) {n : Nat}
    (hn : ts.length < n) : fieldsUpTo n (lead ++ (t ++ fieldsTail ts ++ trail)) = t :: ts := by
  induction ts generalizing t lead n with
  | nil =>
    obtain ⟨n, rfl⟩ : ∃ m, n = m + 1 := ⟨n - 1, by omega⟩
    have ht := h t List.mem_cons_self
    have htrim := trim_append hlead.blank htrail.blank ht.trimmed
    have hcut : cutTopLevel [','] (lead ++ (t ++ trail)) = none := by
      have hall := ((hlead.passes (.inl rfl)).append (ht.passes _ (.inl rfl))).append
        (htrail.passes (.inl rfl)) []
      rw [List.append_nil, List.append_assoc] at hall
      rw [cutTopLevel, hall]
      rfl
    rw [fieldsTail, List.flatMap_nil, List.append_nil, fieldsUpTo, htrim, hcut]
    simp [ht.trimmed.ne_nil]
  | cons u ts ih =>
    obtain ⟨n, rfl⟩ : ∃ m, n = m + 1 := ⟨n - 1, by omega⟩
    have ht := h t List.mem_cons_self
    have htrim := trim_append hlead.blank htrail.blank (trimmed_fields h)
    have hbefore : trim (lead ++ t) = t := by
      have := trim_append (b := []) hlead.blank (fun _ h => nomatch h) ht.trimmed
      simpa using this
    have hcut : cutTopLevel [','] (lead ++ (t ++ fieldsTail (u :: ts) ++ trail)) =
        some (lead ++ t, [' '] ++ (u ++ fieldsTail ts ++ trail)) := by
      have hall := ((hlead.passes (.inl rfl)).append (ht.passes _ (.inl rfl)))
        (',' :: ' ' :: (u ++ fieldsTail ts ++ trail))
      rw [cutTopLevelFrom_comma] at hall
      rw [cutTopLevel]
      simpa [fieldsTail] using hall
    have hrest := ih (fun v hv => h v (List.mem_cons_of_mem t hv)) (.inr rfl) (n := n)
      (by simpa using hn)
    rw [fieldsUpTo, htrim, hcut]
    simp only [hbefore, hrest]
    simp [(trimmed_fields h).ne_nil]

theorem fields_joined {t : List Char} {ts : List (List Char)} (h : ∀ u ∈ t :: ts, IsField u)
    {trail : List Char} (htrail : IsGap trail) :
    fields (t ++ fieldsTail ts ++ trail) = t :: ts := by
  refine fieldsUpTo_joined h (.inl rfl) htrail ?_
  have hlen : ts.length ≤ (fieldsTail ts).length := by
    clear h
    induction ts with
    | nil => exact Nat.zero_le _
    | cons u ts ih =>
      simp only [fieldsTail, List.flatMap_cons, List.length_append, List.length_cons] at ih ⊢
      omega
  simp only [List.length_append]
  omega

theorem passes_fields {sep : List Char} (hsep : sep = ['-', '>']) {t : List Char}
    {ts : List (List Char)} (h : ∀ u ∈ t :: ts, IsField u) : Passes sep 0 (t ++ fieldsTail ts) := by
  refine ((h t List.mem_cons_self).passes sep (.inr hsep)).append ?_
  have hcomma : Passes sep 0 [',', ' '] :=
    passes_plain (.inr hsep) (by rw [hsep]; decide) (by decide)
  have hrest : ∀ u ∈ ts, IsField u := fun u hu => h u (List.mem_cons_of_mem t hu)
  clear h
  induction ts with
  | nil => exact .nil sep 0
  | cons u ts ih =>
    exact (hcomma.append ((hrest u List.mem_cons_self).passes sep (.inr hsep))).append
      (ih fun v hv => hrest v (List.mem_cons_of_mem u hv))

/-! ## The arrow -/

theorem cutTopLevel_arrow {t : List Char} (ht : Passes ['-', '>'] 0 t) (s : List Char) :
    cutTopLevel ['-', '>'] (t ++ ' ' :: '-' :: '>' :: s) = some (t ++ [' '], s) := by
  have hgap : Passes ['-', '>'] 0 [' '] := IsGap.passes (.inr rfl) (.inr rfl)
  have harrow : cutTopLevelFrom ['-', '>'] 0 false ('-' :: '>' :: s) = some ([], s) := by
    rw [cutTopLevelFrom, String.contains_char_eq]
    rfl
  have hall := (ht.append hgap) ('-' :: '>' :: s)
  rw [harrow] at hall
  rw [cutTopLevel]
  simpa using hall

theorem cutTopLevel_none {t : List Char} (ht : Passes ['-', '>'] 0 t) :
    cutTopLevel ['-', '>'] t = none := by
  have hall := ht []
  rw [List.append_nil] at hall
  rw [cutTopLevel, hall]
  rfl

/-! ## Slots -/

/-- What stands in a slot can be read and written. -/
def SlotReads (slot : Option Operand) : Prop := ∀ o, slot = some o → Readable o ∧ Printable o

/-- A source as it is written. -/
def slotText (slot : Option Operand) : String := (slot.map Operand.text).getD "_"

theorem isField_text {o : Operand} (h : Readable o) : IsField o.text.toList := by
  obtain ⟨c, s, hs, hc⟩ := Operand.text_starts h
  have hstart : ∀ c ∈ Operand.startChars, isBlank c = false := by decide
  exact ⟨⟨⟨c, by rw [hs]; rfl, hstart c hc⟩, isBlank_of_endsWell (text_endsWell h)⟩,
    fun sep hsep => passes_text hsep h (by omega)⟩

theorem isField_slot {slot : Option Operand} (h : SlotReads slot) :
    IsField (slotText slot).toList := by
  cases slot with
  | none =>
    refine ⟨⟨⟨'_', rfl, rfl⟩, '_', rfl, rfl⟩, fun sep hsep => ?_⟩
    exact passes_plainText hsep (.of_word (by decide)) ⟨'_', rfl, .inl rfl⟩
  | some o => exact isField_text (h o rfl).1

theorem parseSource_slot {slot : Option Operand} (h : SlotReads slot) (source : String)
    (number : Nat) : ∃ slot', parseSource registerOfName? source number (slotText slot).toList =
      .ok slot' ∧ namelessSlot slot' = namelessSlot slot := by
  cases slot with
  | none => exact ⟨none, rfl, rfl⟩
  | some o =>
    obtain ⟨hread, hprint⟩ := h o rfl
    obtain ⟨o', hparse, hsame⟩ := Operand.parse_text hread hprint
    refine ⟨some o', ?_, by rw [namelessSlot, hsame]; rfl⟩
    obtain ⟨c, s, hs, hc⟩ := Operand.text_starts hread
    have hline : (o.text.toList == ['_']) = false := by
      have hnot : '_' ∉ Operand.startChars := by decide
      rw [hs, beq_eq_false_iff_ne]
      intro h
      exact hnot ((List.cons.inj h).1 ▸ hc)
    show parseSource registerOfName? source number o.text.toList = _
    rw [parseSource, hline]
    simp only [Bool.false_eq_true, if_false, hparse]

theorem parseOutput_text {o : Operand} (hread : Readable o) (hprint : Printable o) (source : String)
    {gap : List Char} (hgap : IsGap gap) :
    ∃ o', parseOutput registerOfName? source (gap ++ o.text.toList) = .ok (some o') ∧
      o'.nameless = o.nameless := by
  obtain ⟨o', hparse, hsame⟩ := Operand.parse_text_gap hread hprint hgap
  refine ⟨o', ?_, hsame⟩
  have htrim : trim (gap ++ o.text.toList) = o.text.toList := by
    have := trim_append (b := []) hgap.blank (fun _ h => nomatch h) (isField_text hread).trimmed
    simpa using this
  have hne := (isField_text hread).trimmed.ne_nil
  rw [parseOutput, htrim, if_neg (by simpa using hne), hparse]

/-! ## Whole instructions -/

/-- What stands after the operation and a space. -/
def operandsText : List (List Char) → Option Operand → List Char
  | [], none => []
  | [], some o => o.text.toList
  | t :: ts, none => t ++ fieldsTail ts
  | t :: ts, some o => t ++ fieldsTail ts ++ ' ' :: '-' :: '>' :: ' ' :: o.text.toList

/-- The sources as they are written. -/
def sourceTexts (i : Instr) : List (List Char) := i.sources.map fun slot => (slotText slot).toList

theorem text_of_no_operands {i : Instr} (hs : i.sources = []) (ho : i.output = none) :
    i.text.toList = i.op.name.toList := by
  simp [text, hs, ho]

theorem text_of_operands {i : Instr} (h : i.sources ≠ [] ∨ i.output ≠ none) :
    i.text.toList = i.op.name.toList ++ ' ' :: operandsText i.sourceTexts i.output := by
  cases hs : i.sources with
  | nil =>
    cases ho : i.output with
    | none => exact (h.elim (fun h => h hs) fun h => h ho).elim
    | some o => simp [text, sourceTexts, operandsText, hs, ho]
  | cons slot slots =>
    have hjoined : (", ".intercalate ((slot :: slots).map slotText)).toList =
        (slotText slot).toList ++ fieldsTail (slots.map fun slot => (slotText slot).toList) := by
      rw [List.map_cons, Operand.intercalate_comma, fieldsTail, List.flatMap_map, List.flatMap_map]
    have hwritten : ((slot :: slots).map fun o => (o.map Operand.text).getD "_") =
        (slot :: slots).map slotText := rfl
    have hne : ((slot :: slots).map slotText).isEmpty = false := rfl
    cases ho : i.output with
    | none =>
      simp only [text, hs, ho, hwritten, hne, sourceTexts, operandsText, String.toList_append,
        hjoined, Bool.false_eq_true, if_false]
      simp
    | some o =>
      simp only [text, hs, ho, hwritten, hne, sourceTexts, operandsText, String.toList_append,
        hjoined, Bool.false_eq_true, if_false]
      simp

/-- An output without a source is written like a source, and read as an output only if the operation
has no sources; the other way round for sources without an output. -/
structure Separable (i : Instr) : Prop where
  lone_output : i.sources = [] → i.output ≠ none → isOutputOnly i.op = true
  lone_sources : i.sources ≠ [] → i.output = none → isOutputOnly i.op = false

section Reading

variable {i : Instr}

theorem isField_sources (h : ∀ slot ∈ i.sources, SlotReads slot) :
    ∀ t ∈ i.sourceTexts, IsField t := by
  intro t ht
  obtain ⟨slot, hslot, rfl⟩ := List.mem_map.mp ht
  exact isField_slot (h slot hslot)

theorem fields_sources {ts : List (List Char)} (h : ∀ t ∈ ts, IsField t) {trail : List Char}
    (htrail : IsGap trail) :
    fields (operandsText ts none ++ trail) = ts := by
  cases ts with
  | nil => rcases htrail with rfl | rfl <;> rfl
  | cons t ts => exact fields_joined h htrail

/-- The sources and the output are found, up to blanks around the arrow. -/
theorem splitOutput_text (hi : Separable i) (hsources : ∀ slot ∈ i.sources, SlotReads slot)
    (houtput : SlotReads i.output) : ∃ trail gap, IsGap trail ∧ IsGap gap ∧
      splitOutput i.op (operandsText i.sourceTexts i.output) =
        (operandsText i.sourceTexts none ++ trail, gap ++ operandsText [] i.output) := by
  have hfields := isField_sources hsources
  have hpasses : Passes ['-', '>'] 0 (operandsText i.sourceTexts none) := by
    cases hts : i.sourceTexts with
    | nil => exact .nil _ 0
    | cons t ts => exact passes_fields rfl (hts ▸ hfields)
  have hempty : i.sourceTexts = [] ↔ i.sources = [] := List.map_eq_nil_iff
  cases ho : i.output with
  | none =>
    refine ⟨[], [], .inl rfl, .inl rfl, ?_⟩
    rw [splitOutput, cutTopLevel_none hpasses]
    simp only [List.append_nil]
    by_cases hs : i.sources = []
    · rw [hempty.mpr hs]
      split <;> rfl
    · rw [hi.lone_sources hs ho]
      rfl
  | some o =>
    have ho' : i.output ≠ none := by rw [ho]; exact Option.some_ne_none o
    cases hts : i.sourceTexts with
    | nil =>
      refine ⟨[], [], .inl rfl, .inl rfl, ?_⟩
      have hcut : cutTopLevel ['-', '>'] (operandsText [] (some o)) = none :=
        cutTopLevel_none (passes_text (.inr rfl) (houtput o ho).1 (by omega))
      rw [splitOutput, hcut, hi.lone_output (hempty.mp hts) ho']
      rfl
    | cons t ts =>
      refine ⟨[' '], [' '], .inr rfl, .inr rfl, ?_⟩
      rw [hts] at hpasses
      have hcut := cutTopLevel_arrow hpasses (' ' :: o.text.toList)
      have hcut' : cutTopLevel ['-', '>'] (operandsText (t :: ts) (some o)) = _ := hcut
      rw [splitOutput, hcut']
      rfl

theorem parseOutput_slot {slot : Option Operand} (h : SlotReads slot) (source : String)
    {gap : List Char} (hgap : IsGap gap) : ∃ slot',
      parseOutput registerOfName? source (gap ++ operandsText [] slot) = .ok slot' ∧
        namelessSlot slot' = namelessSlot slot := by
  cases slot with
  | none => exact ⟨none, by rcases hgap with rfl | rfl <;> rfl, rfl⟩
  | some o =>
    obtain ⟨o', hparse, hsame⟩ := parseOutput_text (h o rfl).1 (h o rfl).2 source hgap
    exact ⟨some o', hparse, by rw [namelessSlot, hsame]; rfl⟩

/-- Slot by slot the same operands, up to the names of registers. -/
structure SameNameless (i j : Instr) : Prop where
  op : j.op = i.op
  first : namelessSlot j.first = namelessSlot i.first
  second : namelessSlot j.second = namelessSlot i.second
  addend : namelessSlot j.addend = namelessSlot i.addend
  output : namelessSlot j.output = namelessSlot i.output

theorem ofFields_sources (h : ∀ slot ∈ i.sources, SlotReads slot) (source : String)
    {output : Option Operand} (houtput : namelessSlot output = namelessSlot i.output) :
    ∃ j, ofFields registerOfName? source i.op output i.sourceTexts = .ok j ∧ SameNameless i j := by
  obtain ⟨op, a, b, c, out, pos⟩ := i
  simp only at houtput
  cases c with
  | some c =>
    have hmem : ∀ slot ∈ [a, b, some c], SlotReads slot := h
    obtain ⟨a', ha, hsameA⟩ := parseSource_slot (hmem a (by simp)) source 1
    obtain ⟨b', hb, hsameB⟩ := parseSource_slot (hmem b (by simp)) source 2
    obtain ⟨c', hc, hsameC⟩ := parseSource_slot (hmem (some c) (by simp)) source 3
    refine ⟨⟨op, a', b', c', output, ⟨0, 0⟩⟩, ?_, rfl, hsameA, hsameB, hsameC, houtput⟩
    show ofFields _ _ _ _ [(slotText a).toList, (slotText b).toList, (slotText (some c)).toList] = _
    rw [ofFields, ha, hb, hc]
    rfl
  | none =>
    cases b with
    | some b =>
      have hmem : ∀ slot ∈ [a, some b], SlotReads slot := h
      obtain ⟨a', ha, hsameA⟩ := parseSource_slot (hmem a (by simp)) source 1
      obtain ⟨b', hb, hsameB⟩ := parseSource_slot (hmem (some b) (by simp)) source 2
      refine ⟨⟨op, a', b', none, output, ⟨0, 0⟩⟩, ?_, rfl, hsameA, hsameB, rfl, houtput⟩
      show ofFields _ _ _ _ [(slotText a).toList, (slotText (some b)).toList] = _
      rw [ofFields, ha, hb]
      rfl
    | none =>
      cases a with
      | some a =>
        have hmem : ∀ slot ∈ [some a], SlotReads slot := h
        obtain ⟨a', ha, hsameA⟩ := parseSource_slot (hmem (some a) (by simp)) source 1
        refine ⟨⟨op, a', none, none, output, ⟨0, 0⟩⟩, ?_, rfl, hsameA, rfl, rfl, houtput⟩
        show ofFields _ _ _ _ [(slotText (some a)).toList] = _
        rw [ofFields, ha]
        rfl
      | none => exact ⟨⟨op, none, none, none, output, ⟨0, 0⟩⟩, rfl, rfl, rfl, rfl, rfl, houtput⟩

end Reading

theorem name_chars (op : Opcode) : ∀ c ∈ op.name.toList, Operand.isWordChar c = true := by
  cases op <;> decide

theorem name_ne_nil (op : Opcode) : op.name.toList ≠ [] := by
  cases op <;> decide

theorem trimmed_name_append (op : Opcode) {t : List Char}
    (ht : t = [] ∨ ∃ c, t.getLast? = some c ∧ isBlank c = false) :
    Trimmed (op.name.toList ++ t) := by
  have hchars := name_chars op
  obtain ⟨c, s, hname⟩ := List.exists_cons_of_ne_nil (name_ne_nil op)
  have hhead : isBlank c = false :=
    isBlank_of_isWordChar (hchars c (hname ▸ List.mem_cons_self))
  refine ⟨⟨c, by rw [hname]; rfl, hhead⟩, ?_⟩
  rcases ht with rfl | ⟨d, hd, hblank⟩
  · rw [List.append_nil]
    refine ⟨_, List.getLast?_eq_some_getLast (name_ne_nil op), ?_⟩
    exact isBlank_of_isWordChar (hchars _ (List.getLast_mem _))
  · exact ⟨d, by rw [List.getLast?_append, hd]; rfl, hblank⟩

theorem cut_name (op : Opcode) (rest : List Char) :
    cut ' ' op.name.toList = (op.name.toList, none) ∧
      cut ' ' (op.name.toList ++ ' ' :: rest) = (op.name.toList, some rest) := by
  have hword : ∀ c ∈ op.name.toList, (c != ' ') = true := by
    intro c hc
    have hne : c ≠ ' ' := by
      rintro rfl
      have := name_chars op ' ' hc
      revert this
      decide
    simpa using hne
  have hdrop : (op.name.toList ++ ' ' :: rest).dropWhile (· != ' ') = ' ' :: rest := by
    rw [List.dropWhile_append_of_pos hword]
    rfl
  have htake : (op.name.toList ++ ' ' :: rest).takeWhile (· != ' ') = op.name.toList := by
    rw [List.takeWhile_append_of_pos hword]
    simp
  constructor
  · rw [cut, List.dropWhile_eq_nil_iff.mpr hword]
  · rw [cut, hdrop, htake]

theorem last_operandsText {ts : List (List Char)} {output : Option Operand}
    (hts : ∀ t ∈ ts, IsField t) (houtput : ∀ o, output = some o → Readable o)
    (h : ts ≠ [] ∨ output ≠ none) :
    ∃ c, (operandsText ts output).getLast? = some c ∧ isBlank c = false := by
  cases output with
  | none =>
    cases ts with
    | nil => simp at h
    | cons t ts => exact (trimmed_fields hts).last
  | some o =>
    obtain ⟨c, hc, hblank⟩ := (isField_text (houtput o rfl)).trimmed.last
    refine ⟨c, ?_, hblank⟩
    cases ts with
    | nil => exact hc
    | cons t ts =>
      have hsplit : operandsText (t :: ts) (some o) =
          (t ++ fieldsTail ts ++ [' ', '-', '>', ' ']) ++ o.text.toList := by
        simp [operandsText]
      rw [hsplit, List.getLast?_append, hc]
      rfl

/-- The text is cut into the operation and what stands after it. -/
theorem cut_text {i : Instr} (hsources : ∀ slot ∈ i.sources, SlotReads slot)
    (houtput : SlotReads i.output) : trim i.text.toList = i.text.toList ∧
      ∃ rest, cut ' ' i.text.toList = (i.op.name.toList, rest) ∧
        rest.getD [] = operandsText i.sourceTexts i.output := by
  have hempty : i.sourceTexts = [] ↔ i.sources = [] := List.map_eq_nil_iff
  by_cases h : i.sources = [] ∧ i.output = none
  · obtain ⟨hs, ho⟩ := h
    rw [text_of_no_operands hs ho, hempty.mpr hs, ho]
    have htrim := trimmed_name_append i.op (.inl rfl)
    rw [List.append_nil] at htrim
    exact ⟨trim_eq htrim, none, (cut_name i.op []).1, rfl⟩
  · have hsome : i.sources ≠ [] ∨ i.output ≠ none := by tauto
    rw [text_of_operands hsome]
    refine ⟨trim_eq (trimmed_name_append i.op (.inr ?_)), _, (cut_name i.op _).2, rfl⟩
    obtain ⟨c, hc, hblank⟩ := last_operandsText (isField_sources hsources)
      (fun o ho => (houtput o ho).1) (hsome.imp_left (mt hempty.mp))
    exact ⟨c, by rw [List.getLast?_cons, hc]; rfl, hblank⟩

/-- Reading undoes writing for instructions of operands that are read back. -/
theorem parse_text {i : Instr} (hi : Separable i) (hsources : ∀ slot ∈ i.sources, SlotReads slot)
    (houtput : SlotReads i.output) :
    ∃ j, parse registerOfName? i.text.toList = .ok j ∧ SameNameless i j := by
  obtain ⟨htrim, rest, hcut, hrest⟩ := cut_text hsources houtput
  obtain ⟨trail, gap, htrail, hgap, hsplit⟩ := splitOutput_text hi hsources houtput
  obtain ⟨output, hout, hsameOut⟩ := parseOutput_slot houtput i.text hgap
  obtain ⟨j, hj, hsame⟩ := ofFields_sources hsources i.text hsameOut
  refine ⟨j, ?_, hsame⟩
  have hfields := fields_sources (isField_sources hsources) htrail
  simp only [parse, htrim, hcut, String.ofList_toList, Opcode.ofName?_name, hrest, hsplit, hout,
    hfields]
  exact hj

/-- Every operand comes from the reader and is one that can be written: the registers in it have
widths of their class and its displacements are above the least one. -/
def OperandsRead (i : Instr) : Prop :=
  ∀ slot ∈ [i.first, i.second, i.addend, i.output], ∀ o, slot = some o →
    (∃ s, Operand.parse registerOfName? s = .ok o) ∧ Printable o

theorem OperandsRead.slotReads {i : Instr} (h : OperandsRead i) :
    (∀ slot ∈ i.sources, SlotReads slot) ∧ SlotReads i.output := by
  have hslot : ∀ slot ∈ [i.first, i.second, i.addend, i.output], SlotReads slot := by
    intro slot hslot o ho
    obtain ⟨⟨s, hs⟩, hprint⟩ := h slot hslot o ho
    exact ⟨Operand.readable_of_parse hs, hprint⟩
  have hsub : ∀ slot ∈ i.sources, slot ∈ [i.first, i.second, i.addend, i.output] := by
    obtain ⟨op, a, b, c, out, pos⟩ := i
    cases c with
    | some c => simp [sources]
    | none =>
      cases b with
      | some b => simp [sources]
      | none => cases a <;> simp [sources]
  exact ⟨fun slot hs => hslot slot (hsub slot hs), hslot _ (by simp)⟩

/-- Reading undoes writing: what was written for an instruction is read as the same operation with
the same operands in the same places, up to the names of registers. -/
theorem parse_text_of_read {i : Instr} (hoperands : OperandsRead i) (hi : Separable i) :
    ∃ j, parse registerOfName? i.text.toList = .ok j ∧ SameNameless i j :=
  parse_text hi hoperands.slotReads.1 hoperands.slotReads.2

/-- Arguments with an address inside an address and a string literal of separators and brackets. -/
def nestedArguments : Operand :=
  .list [.indirect (some (.indirect (some (.reg ⟨5, 8, .int, "rbp"⟩)) none 0 0 .i64))
    (some (.reg ⟨1, 8, .int, "rcx"⟩)) 4 0 .i32, .imm (.string [45, 62, 44, 40, 0, 34])]

/-- A call with these arguments. -/
def nestedCall : Instr :=
  .make .call (some (.symbol ⟨"f", false, false, .void, none⟩)) (some nestedArguments)
    (some (.var ⟨"x", .i64, false, false⟩))

theorem operandsRead_nestedCall : OperandsRead nestedCall := by
  have haddress : Printable (.indirect (some (.reg ⟨5, 8, .int, "rbp"⟩)) none 0 0 .i64) := by
    refine .indirect ?_ (fun _ h => nomatch h) (by decide)
    rintro o ⟨⟩
    exact .reg (by decide)
  have harguments : Printable nestedArguments := by
    refine .list fun o ho => ?_
    rcases List.mem_cons.mp ho with rfl | ho
    · refine .indirect ?_ ?_ (by decide)
      · rintro o ⟨⟩
        exact haddress
      · rintro o ⟨⟩
        exact .reg (by decide)
    · obtain rfl := List.mem_singleton.mp ho
      exact .imm _
  intro slot hslot o ho
  subst ho
  simp only [nestedCall, make, List.mem_cons, Option.some.injEq, List.not_mem_nil, or_false,
    reduceCtorEq, false_or] at hslot
  rcases hslot with rfl | rfl | rfl
  · exact ⟨⟨"@f".toList, by cbv⟩, .symbol _⟩
  · exact ⟨⟨"([[rbp]:i64 + rcx*4]:i32, $\"->,(\\x00\\\"\")".toList, by cbv⟩, harguments⟩
  · exact ⟨⟨"%x:i64".toList, by cbv⟩, .var _⟩

theorem parse_text_of_nestedCall : OperandsRead nestedCall ∧ Separable nestedCall ∧
    ∃ j, parse registerOfName? nestedCall.text.toList = .ok j ∧ SameNameless nestedCall j := by
  have hseparable : Separable nestedCall := ⟨(fun h => nomatch h), (fun _ h => nomatch h)⟩
  exact ⟨operandsRead_nestedCall, hseparable,
    parse_text_of_read operandsRead_nestedCall hseparable⟩

end Backend.Instr
