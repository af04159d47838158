-- Splitting the text of an instruction: the splitter passes over written operands, whatever
-- brackets and string literals they hold, and finds the separators between them.
import Backend.Instr.Parser
import Backend.Proofs.Operand.Roundtrip

namespace Backend.Instr

open Backend.Text
open Backend.Operand (Readable)

/-! ## Passing over texts -/

/-- The two separators. -/
def IsSeparator (sep : List Char) : Prop := sep = [','] ∨ sep = ['-', '>']

/-- The splitter finds no separator in the text and is as it was after it. -/
def Passes (sep : List Char) (depth : Int) (t : List Char) : Prop :=
  ∀ s, cutTopLevelFrom sep depth false (t ++ s) =
    (cutTopLevelFrom sep depth false s).map fun p => (t ++ p.1, p.2)

/-- The same inside a string literal. -/
def PassesQuoted (sep : List Char) (depth : Int) (t : List Char) : Prop :=
  ∀ s, cutTopLevelFrom sep depth true (t ++ s) =
    (cutTopLevelFrom sep depth true s).map fun p => (t ++ p.1, p.2)

section Passing

variable {sep t u : List Char} {depth : Int}

theorem Passes.append (ht : Passes sep depth t) (hu : Passes sep depth u) :
    Passes sep depth (t ++ u) := by
  intro s
  rw [List.append_assoc, ht, hu, Option.map_map]
  simp [Function.comp_def]

theorem PassesQuoted.append (ht : PassesQuoted sep depth t) (hu : PassesQuoted sep depth u) :
    PassesQuoted sep depth (t ++ u) := by
  intro s
  rw [List.append_assoc, ht, hu, Option.map_map]
  simp [Function.comp_def]

theorem Passes.nil (sep : List Char) (depth : Int) : Passes sep depth [] := by
  intro s
  simp

/-- The characters that the splitter looks at whatever the separator is. -/
def brackets : List Char := ['"', '[', ']', '(', ')']

/-- How a character changes the number of open brackets. -/
def deeper (c : Char) : Int :=
  if c == '[' || c == '(' then 1 else if c == ']' || c == ')' then -1 else 0

theorem cutTopLevelFrom_step {c : Char} {s : List Char}
    (h : c ∈ brackets ∨ depth ≠ 0 ∨ sep.isPrefixOf (c :: s) = false) :
    cutTopLevelFrom sep depth false (c :: s) =
      (cutTopLevelFrom sep (depth + deeper c) (c == '"') s).map fun p => (c :: p.1, p.2) := by
  have hcond : (c != '"' && !"[]()".contains c && depth == 0 && sep.isPrefixOf (c :: s)) =
      false := by
    rcases h with h | h | h
    · have hall : ∀ c ∈ brackets, (c != '"' && !decide (c ∈ "[]()".toList)) = false := by decide
      rw [String.contains_char_eq, hall c h]
      rfl
    · simp [h]
    · simp [h]
  rw [cutTopLevelFrom, hcond]
  simp only [Bool.false_eq_true, if_false]
  show (cutTopLevelFrom sep (depth + deeper c) (c == '"') s >>= fun p => some (c :: p.1, p.2)) = _
  cases cutTopLevelFrom sep (depth + deeper c) (c == '"') s <;> rfl

/-- A character is passed over if no separator begins with it. -/
theorem cutTopLevelFrom_cons {c : Char} {s : List Char} (hc : c ∉ brackets)
    (h : depth ≠ 0 ∨ sep.isPrefixOf (c :: s) = false) :
    cutTopLevelFrom sep depth false (c :: s) =
      (cutTopLevelFrom sep depth false s).map fun p => (c :: p.1, p.2) := by
  simp only [brackets, List.mem_cons, List.not_mem_nil, or_false, not_or] at hc
  obtain ⟨hquote, hopen, hclose, hparen, hparen'⟩ := hc
  have hdeeper : deeper c = 0 := by simp [deeper, hopen, hclose, hparen, hparen']
  have hstring : (c == '"') = false := by simpa using hquote
  rw [cutTopLevelFrom_step (.inr h), hdeeper, Int.add_zero, hstring]

/-- Inside brackets the splitter looks for brackets and string literals only. -/
theorem passes_deep (hdepth : depth ≠ 0) (ht : ∀ c ∈ t, c ∉ brackets) : Passes sep depth t := by
  induction t with
  | nil => exact .nil sep depth
  | cons c t ih =>
    intro s
    rw [List.cons_append, cutTopLevelFrom_cons (ht c List.mem_cons_self) (.inl hdepth),
      ih (fun d hd => ht d (List.mem_cons_of_mem c hd)), Option.map_map]
    simp [Function.comp_def]

/-- The end of a separator does not occur in the text, and a dash does not end it. -/
theorem passes_plain (hsep : IsSeparator sep) (ht : ∀ c ∈ t, c ∉ brackets ∧ sep.getLast? ≠ some c)
    (hdash : t.getLast? ≠ some '-') : Passes sep depth t := by
  induction t with
  | nil => exact .nil sep depth
  | cons c t ih =>
    intro s
    have hc := ht c List.mem_cons_self
    have hprefix : sep.isPrefixOf (c :: (t ++ s)) = false := by
      rcases hsep with rfl | rfl
      · have hcomma : ',' ≠ c := by simpa using hc.2
        simp [List.isPrefixOf, hcomma]
      · by_cases hdash' : '-' = c
        · subst hdash'
          cases t with
          | nil => simp at hdash
          | cons d t =>
            have hd : '>' ≠ d := by simpa using (ht d (by simp)).2
            simp [List.isPrefixOf, hd]
        · simp [List.isPrefixOf, hdash']
    have hlast : t.getLast? ≠ some '-' := by
      cases t with
      | nil => simp
      | cons d t => rwa [List.getLast?_cons_cons] at hdash
    rw [List.cons_append, cutTopLevelFrom_cons hc.1 (.inr hprefix),
      ih (fun d hd => ht d (List.mem_cons_of_mem c hd)) hlast, Option.map_map]
    simp [Function.comp_def]

theorem passes_brackets {opening closing : Char}
    (h : (opening = '[' ∧ closing = ']') ∨ (opening = '(' ∧ closing = ')'))
    (ht : Passes sep (depth + 1) t) : Passes sep depth (opening :: (t ++ [closing])) := by
  have hopen : opening ∈ brackets ∧ deeper opening = 1 ∧ (opening == '"') = false := by
    rcases h with ⟨rfl, -⟩ | ⟨rfl, -⟩ <;> decide
  have hclose : closing ∈ brackets ∧ deeper closing = -1 ∧ (closing == '"') = false := by
    rcases h with ⟨-, rfl⟩ | ⟨-, rfl⟩ <;> decide
  intro s
  rw [List.cons_append, cutTopLevelFrom_step (.inl hopen.1), hopen.2.1, hopen.2.2,
    List.append_assoc, ht, List.singleton_append, cutTopLevelFrom_step (.inl hclose.1), hclose.2.1,
    hclose.2.2,
    Int.add_neg_cancel_right, Option.map_map, Option.map_map]
  simp [Function.comp_def]

theorem passes_quoted (ht : PassesQuoted sep depth t) : Passes sep depth ('"' :: (t ++ ['"'])) := by
  intro s
  have hclose : cutTopLevelFrom sep depth true ('"' :: s) =
      (cutTopLevelFrom sep depth false s).map fun p => ('"' :: p.1, p.2) := by
    rw [cutTopLevelFrom, show ('"' != '"') = false from rfl]
    · cases cutTopLevelFrom sep depth false s <;> rfl
    · exact fun h => absurd h (by decide)
    · exact fun _ _ h => absurd h (by decide)
  rw [List.cons_append, cutTopLevelFrom_step (.inl (by decide)), List.append_assoc,
    show deeper '"' = 0 from rfl, Int.add_zero, show ('"' == '"') = true from rfl, ht,
    List.singleton_append, hclose, Option.map_map, Option.map_map]
  simp [Function.comp_def]

/-! ### String literals -/

/-- A character of a string literal that neither ends it nor begins an escape. -/
theorem passesQuoted_char {c : Char} (hquote : c ≠ '"') (hslash : c ≠ '\\') :
    PassesQuoted sep depth [c] := by
  intro s
  have hstring : (c != '"') = true := by simpa using hquote
  rw [List.singleton_append, cutTopLevelFrom]
  · rw [hstring]
    cases cutTopLevelFrom sep depth true s <;> rfl
  · exact fun h => absurd h hslash
  · exact fun _ _ h => absurd h hslash

theorem passesQuoted_escape (c : Char) : PassesQuoted sep depth ['\\', c] := by
  intro s
  rw [List.cons_append, List.singleton_append, cutTopLevelFrom]
  cases cutTopLevelFrom sep depth true s <;> rfl

theorem PassesQuoted.nil (sep : List Char) (depth : Int) : PassesQuoted sep depth [] := by
  intro s
  simp

theorem passesQuoted_hex (width n : Nat) : PassesQuoted sep depth (hexFixed width n) := by
  have hall : ∀ d < 16, (if d < 10 then Char.ofNat (48 + d) else Char.ofNat (87 + d)) ≠ '"' ∧
      (if d < 10 then Char.ofNat (48 + d) else Char.ofNat (87 + d)) ≠ '\\' := by
    decide
  induction width generalizing n with
  | zero => exact .nil sep depth
  | succ width ih =>
    obtain ⟨hquote, hslash⟩ := hall (n % 16) (Nat.mod_lt n (by decide))
    exact (ih (n / 16)).append (passesQuoted_char hquote hslash)

theorem passesQuoted_quoteChar (c : Char) : PassesQuoted sep depth (quoteChar c) := by
  unfold quoteChar
  split
  · exact passesQuoted_escape c
  rename_i hspecial
  simp only [Bool.or_eq_true, beq_iff_eq, not_or] at hspecial
  split
  · exact passesQuoted_char hspecial.1 hspecial.2
  split
  · exact passesQuoted_escape _
  split
  · exact (passesQuoted_escape 'x').append (passesQuoted_hex 2 _)
  split
  · exact (passesQuoted_escape 'u').append (passesQuoted_hex 4 _)
  · exact (passesQuoted_escape 'U').append (passesQuoted_hex 8 _)

theorem passes_quoteBytes (bytes : List UInt8) : Passes sep depth (quoteBytes bytes).toList := by
  have hcontent : ∀ items : List Utf8Item,
      PassesQuoted sep depth (items.flatMap quoteItem) := by
    intro items
    induction items with
    | nil => exact .nil sep depth
    | cons item items ih =>
      refine PassesQuoted.append ?_ ih
      cases item with
      | char c => exact passesQuoted_quoteChar c
      | stray b => exact (passesQuoted_escape 'x').append (passesQuoted_hex 2 _)
  rw [quoteBytes, String.toList_ofList]
  exact passes_quoted (hcontent (utf8Items bytes))

end Passing

/-! ## The ends of written operands -/

/-- The characters besides those of words that written operands may end with. -/
def closers : List Char := [')', '"', '.', '$', '/']

/-- The last character is not blank and cannot belong to an arrow. -/
def EndsWell (t : List Char) : Prop :=
  ∃ c, t.getLast? = some c ∧ (Operand.isWordChar c = true ∨ c ∈ closers)

theorem EndsWell.append {t : List Char} (h : EndsWell t) (s : List Char) : EndsWell (s ++ t) := by
  obtain ⟨c, hc, hmem⟩ := h
  exact ⟨c, by rw [List.getLast?_append, hc]; rfl, hmem⟩

theorem EndsWell.cons {t : List Char} (h : EndsWell t) (c : Char) : EndsWell (c :: t) :=
  h.append [c]

theorem endsWell_word {extra : List Char} {name : String} (hne : name ≠ "")
    (hname : ∀ c ∈ name.toList, Operand.isWordChar c = true ∨ c ∈ extra)
    (hextra : extra ⊆ closers) :
    EndsWell name.toList := by
  cases hlast : name.toList.getLast? with
  | none =>
    exact absurd (String.toList_eq_nil_iff.mp (List.getLast?_eq_none_iff.mp hlast)) hne
  | some c =>
    exact ⟨c, hlast, (hname c (List.mem_of_getLast? hlast)).imp_right fun h => hextra h⟩

theorem endsWell_ty (t : Ty) : EndsWell t.name.toList :=
  endsWell_word (by cases t <;> decide) (Operand.name_chars t) (List.nil_subset _)

theorem endsWell_flags {t : List Char} {marks : List String} (ht : EndsWell t)
    (hmarks : ∀ mark ∈ marks, mark ∈ ["const", "captured", "local", "tls"]) :
    EndsWell (t ++ Operand.flagText marks) := by
  induction marks generalizing t with
  | nil => simpa [Operand.flagText] using ht
  | cons mark marks ih =>
    have hall : ∀ mark ∈ ["const", "captured", "local", "tls"], mark ≠ "" ∧
        ∀ c ∈ mark.toList, Operand.isWordChar c = true ∨ c ∈ ([] : List Char) := by
      decide
    obtain ⟨hne, hchars⟩ := hall mark (hmarks mark List.mem_cons_self)
    have hmark : EndsWell (t ++ '!' :: mark.toList) :=
      ((endsWell_word hne hchars (List.nil_subset _)).cons '!').append t
    simpa [Operand.flagText] using ih hmark fun m hm => hmarks m (List.mem_cons_of_mem _ hm)

theorem reg_endsWell {r : Reg} (h : Operand.Named r) : EndsWell r.text.toList := by
  by_cases hname : r.name = ""
  · rw [Operand.unnamed_text hname]
    exact (((endsWell_ty r.ty).cons ':').append _).cons _
  · rw [Operand.named_text hname]
    obtain ⟨r', htable, hsame⟩ := Operand.Named.table h hname
    split
    · exact (((endsWell_ty .f32).cons ':').append _)
    · have hword : ∀ c ∈ r.name.toList, Operand.isWordChar c = true ∨ c ∈ ([] : List Char) :=
        fun c hc => .inl (htable.word c (hsame ▸ hc))
      simpa [Operand.suffixText] using endsWell_word hname hword (List.nil_subset _)

theorem literal_endsWell {l : Literal} (h : l.Readable) : EndsWell l.text.toList := by
  cases l with
  | string bytes =>
    refine ⟨'"', ?_, .inr (by decide)⟩
    have htext : (Literal.text (.string bytes)).toList =
        '$' :: '"' :: (utf8Items bytes).flatMap quoteItem ++ ['"'] := by
      simp [Literal.text, quoteBytes]
    rw [htext, List.getLast?_concat]
  | int w value =>
    have := ((endsWell_ty w.ty).cons ':').append ('$' :: (toString value.toInt).toList)
    simpa [Literal.text] using this
  | float w x =>
    have := ((endsWell_ty w.ty).cons ':').append ('$' :: x.text.toList)
    simpa [Literal.text] using this
  | bool word =>
    rcases h with rfl | rfl
    · exact ⟨'e', rfl, .inl rfl⟩
    · exact ⟨'e', rfl, .inl rfl⟩

theorem text_endsWell {o : Operand} (h : Readable o) : EndsWell o.text.toList := by
  have hmarks : ∀ {a b : Bool} {m m' : String}, m ∈ ["const", "captured", "local", "tls"] →
      m' ∈ ["const", "captured", "local", "tls"] →
      ∀ mark ∈ Operand.markIf a m ++ Operand.markIf b m',
        mark ∈ ["const", "captured", "local", "tls"] := by
    intro a b m m' hm hm' mark hmark
    simp only [List.mem_append, Operand.mem_markIf] at hmark
    rcases hmark with ⟨-, rfl⟩ | ⟨-, rfl⟩
    · exact hm
    · exact hm'
  cases h with
  | reg named => exact reg_endsWell named
  | stack offset t =>
    rw [Operand.stack_text]
    exact ((((endsWell_ty t).cons ':').cons ')').append _ |>.cons '(').append _
  | @var v word =>
    rw [Operand.text, Operand.var_text, ← List.cons_append, ← List.cons_append, ← List.append_assoc]
    exact endsWell_flags ((((endsWell_ty v.ty).cons ':').append _)) (hmarks (by decide) (by decide))
  | imm literal => exact literal_endsWell literal
  | @indirect base index scale disp t readsBase readsIndex scaled =>
    rw [Operand.indirect_text]
    exact ((((endsWell_ty t).cons ':').cons ']').append _).cons '['
  | @symbol s word const =>
    have hname := endsWell_word word.ne_empty word.chars (by decide)
    rw [Operand.text, Operand.symbol_text, ← List.append_assoc, ← List.cons_append]
    refine endsWell_flags (.cons ?_ '@') (hmarks (by decide) (by decide))
    unfold Operand.suffixText
    split
    · rwa [List.append_nil]
    · exact ((endsWell_ty s.ty).cons ':').append _
  | @label l word =>
    have hname := endsWell_word word.ne_empty word.chars (by decide)
    rw [Operand.text, Operand.label_text, ← List.cons_append]
    refine endsWell_flags (hname.cons '#') fun mark hmark => ?_
    obtain ⟨-, rfl⟩ := Operand.mem_markIf.mp hmark
    decide
  | list reads =>
    rw [Operand.list_text]
    refine ⟨')', ?_, .inr (by decide)⟩
    rw [← List.cons_append, List.getLast?_append]
    rfl

/-! ## Written operands -/

/-- The characters besides those of words that stand outside brackets and string literals. -/
def plainChars : List Char := [':', '!', '.', '$', '/', '%', '@', '#', '-', '+']

def PlainText (t : List Char) : Prop := ∀ c ∈ t, Operand.isWordChar c = true ∨ c ∈ plainChars

theorem PlainText.nil : PlainText [] := fun _ h => nomatch h

theorem PlainText.of_word {t : List Char} (h : ∀ c ∈ t, Operand.isWordChar c = true) :
    PlainText t := fun c hc => .inl (h c hc)

theorem PlainText.append {t u : List Char} (ht : PlainText t) (hu : PlainText u) :
    PlainText (t ++ u) := fun c hc => (List.mem_append.mp hc).elim (ht c) (hu c)

theorem PlainText.cons {t : List Char} (ht : PlainText t) {c : Char} (hc : c ∈ plainChars) :
    PlainText (c :: t) := fun d hd => (List.mem_cons.mp hd).elim (fun h => .inr (h ▸ hc)) (ht d)

theorem plainText_word {extra : List Char} {name : String}
    (hname : ∀ c ∈ name.toList, Operand.isWordChar c = true ∨ c ∈ extra)
    (hextra : extra ⊆ plainChars) :
    PlainText name.toList := fun c hc => (hname c hc).imp_right fun h => hextra h

theorem plainText_ty (t : Ty) : PlainText t.name.toList :=
  plainText_word (Operand.name_chars t) (List.nil_subset _)

theorem plainText_digits (n : Nat) : PlainText (Nat.toDigits 10 n) := fun _ hc =>
  .inl (Operand.isWordChar_of_isDigit (isDigit_of_mem_decimal hc))

theorem plainText_flags {marks : List String}
    (hmarks : ∀ mark ∈ marks, ∀ c ∈ mark.toList, Operand.isWordChar c = true) :
    PlainText (Operand.flagText marks) := by
  intro c hc
  obtain ⟨mark, hmark, hc⟩ := List.mem_flatMap.mp hc
  rcases List.mem_cons.mp hc with rfl | hc
  · exact .inr (by decide)
  · exact .inl (hmarks mark hmark c hc)

theorem plainText_suffix (t : Ty) : PlainText (Operand.suffixText t) := by
  unfold Operand.suffixText
  split
  · exact .nil
  · exact (plainText_ty t).cons (by decide)

section Written

variable {sep : List Char} {depth : Int}

theorem passes_plainText (hsep : IsSeparator sep) {t : List Char} (ht : PlainText t)
    (hend : EndsWell t) : Passes sep depth t := by
  have hword : ∀ c ∈ ['"', '[', ']', '(', ')', ',', '>'], Operand.isWordChar c = false ∧
      c ∉ plainChars := by
    decide
  have hmem : ∀ c ∈ t, c ∉ ['"', '[', ']', '(', ')', ',', '>'] := by
    intro c hc hspecial
    obtain ⟨hfalse, hnot⟩ := hword c hspecial
    rcases ht c hc with h | h
    · rw [hfalse] at h
      cases h
    · exact hnot h
  refine passes_plain hsep (fun c hc => ?_) ?_
  · have hspecial := hmem c hc
    simp only [List.mem_cons, List.not_mem_nil, or_false, not_or] at hspecial
    refine ⟨by simp [brackets, hspecial], ?_⟩
    rcases hsep with rfl | rfl
    · simpa using fun h => hspecial.2.2.2.2.2.1 h.symm
    · simpa using fun h => hspecial.2.2.2.2.2.2 h.symm
  · obtain ⟨c, hc, hgood⟩ := hend
    rw [hc]
    rintro h
    obtain rfl := Option.some.inj h
    revert hgood
    decide

theorem plain_reg {r : Reg} (h : Operand.Named r) : PlainText r.text.toList := by
  by_cases hname : r.name = ""
  · rw [Operand.unnamed_text hname]
    intro c hc
    rcases List.mem_cons.mp hc with rfl | hc
    · split <;> exact .inl rfl
    · exact (plainText_digits _).append ((plainText_ty _).cons (by decide)) c hc
  · rw [Operand.named_text hname]
    obtain ⟨r', htable, hsame⟩ := h.table hname
    have hword : PlainText r.name.toList := fun c hc => .inl (htable.word c (hsame ▸ hc))
    exact hword.append (plainText_suffix _)

theorem passes_literal (hsep : IsSeparator sep) {l : Literal} (h : l.Readable) :
    Passes sep depth l.text.toList := by
  have hend := literal_endsWell h
  cases l with
  | string bytes =>
    have hdollar : Passes sep depth ['$'] :=
      passes_plainText hsep (PlainText.nil.cons (by decide))
        ⟨'$', rfl, .inr (by decide)⟩
    have htext : (Literal.text (.string bytes)).toList = ['$'] ++ (quoteBytes bytes).toList := by
      simp [Literal.text]
    rw [htext]
    exact hdollar.append (passes_quoteBytes bytes)
  | int w value =>
    refine passes_plainText hsep ?_ hend
    have htext : (Literal.text (.int w value)).toList =
        '$' :: ((toString value.toInt).toList ++ ':' :: w.ty.name.toList) := by
      simp [Literal.text]
    rw [htext]
    exact ((plainText_word Operand.int_chars (by decide)).append
      ((plainText_ty _).cons (by decide))).cons (by decide)
  | float w x =>
    refine passes_plainText hsep ?_ hend
    have htext : (Literal.text (.float w x)).toList =
        '$' :: (x.text.toList ++ ':' :: w.ty.name.toList) := by
      simp [Literal.text]
    rw [htext]
    exact ((plainText_word Operand.float_chars (by decide)).append
      ((plainText_ty _).cons (by decide))).cons (by decide)
  | bool word =>
    refine passes_plainText hsep ?_ hend
    rcases h with rfl | rfl
    · exact (PlainText.of_word (t := "false".toList) (by decide)).cons (by decide)
    · exact (PlainText.of_word (t := "true".toList) (by decide)).cons (by decide)

/-- Text between the parts of an address or the items of a list. -/
theorem passes_between (hdepth : depth ≠ 0) {t : List Char}
    (ht : ∀ c ∈ t, Operand.isWordChar c = true ∨ c ∈ [' ', '+', '-', '*', ',']) :
    Passes sep depth t := by
  have hbrackets : ∀ c ∈ brackets, Operand.isWordChar c = false ∧
      c ∉ [' ', '+', '-', '*', ','] := by
    decide
  refine passes_deep hdepth fun c hc hmem => ?_
  obtain ⟨hfalse, hnot⟩ := hbrackets c hmem
  rcases ht c hc with h | h
  · rw [hfalse] at h
    cases h
  · exact hnot h

theorem dispText_chars (disp : Int64) : ∀ c ∈ (Operand.dispText disp).toList,
    Operand.isWordChar c = true ∨ c ∈ [' ', '+', '-', '*', ','] := by
  intro c hc
  unfold Operand.dispText at hc
  split at hc
  · have hsplit : c ∈ " + ".toList ∨ c ∈ (toString disp.toInt).toList := by
      simpa [or_assoc] using hc
    rcases hsplit with hc | hc
    · exact .inr ((by decide : " + ".toList ⊆ [' ', '+', '-', '*', ',']) hc)
    · refine (Operand.int_chars c hc).imp_right fun h => ?_
      rw [List.mem_singleton.mp h]
      decide
  split at hc
  · have hsplit : c ∈ " - ".toList ∨ c ∈ Nat.toDigits 10 (-disp).toUInt64.toNat := by
      simpa [Nat.toList_repr, or_assoc] using hc
    rcases hsplit with hc | hc
    · exact .inr ((by decide : " - ".toList ⊆ [' ', '+', '-', '*', ',']) hc)
    · exact .inl (Operand.isWordChar_of_isDigit (isDigit_of_mem_decimal hc))
  · cases hc

/-- Brackets around the parts of an address. -/
theorem passes_indirect (hsep : IsSeparator sep) (hdepth : 0 ≤ depth) {base index : Option Operand}
    {scale : UInt8} {disp : Int64} {t : Ty}
    (hbase : ∀ o, base = some o → Passes sep (depth + 1) o.text.toList)
    (hindex : ∀ o, index = some o → Passes sep (depth + 1) o.text.toList) :
    Passes sep depth (Operand.text (.indirect base index scale disp t)).toList := by
  have hinner : depth + 1 ≠ 0 := by omega
  have hdisp : Passes sep (depth + 1) (Operand.dispText disp).toList :=
    passes_between hinner (dispText_chars disp)
  have hfactor : ∀ n : Nat, Passes sep (depth + 1)
      ('*' :: (Nat.toDigits 10 n ++ (Operand.dispText disp).toList)) := by
    intro n
    have hscale : Passes sep (depth + 1) ('*' :: Nat.toDigits 10 n) := by
      refine passes_between hinner fun c hc => ?_
      rcases List.mem_cons.mp hc with rfl | hc
      · exact .inr (by decide)
      · exact .inl (Operand.isWordChar_of_isDigit (isDigit_of_mem_decimal hc))
    exact hscale.append hdisp
  have hplus : Passes sep (depth + 1) [' ', '+', ' '] := passes_between hinner (by decide)
  have hnumber : Passes sep (depth + 1) (toString disp.toInt).toList :=
    passes_between hinner fun c hc => (Operand.int_chars c hc).imp_right fun h => by
      rw [List.mem_singleton.mp h]
      decide
  have htype : Passes sep depth (':' :: t.name.toList) :=
    passes_plainText hsep ((plainText_ty t).cons (by decide)) ((endsWell_ty t).cons ':')
  rw [Operand.indirect_text]
  have hclose : ∀ body : List Char, Passes sep (depth + 1) body →
      Passes sep depth ('[' :: (body ++ ']' :: ':' :: t.name.toList)) := by
    intro body hbody
    have := (passes_brackets (.inl ⟨rfl, rfl⟩) hbody).append htype
    simpa using this
  refine hclose _ ?_
  cases base with
  | none =>
    cases index with
    | none => exact hnumber
    | some i => exact (hindex i rfl).append (hfactor _)
  | some b =>
    cases index with
    | none => exact (hbase b rfl).append hdisp
    | some i => exact (hbase b rfl).append (hplus.append ((hindex i rfl).append (hfactor _)))

/-- The splitter passes over a written operand. -/
theorem passes_text (hsep : IsSeparator sep) {o : Operand} (h : Readable o) (hdepth : 0 ≤ depth) :
    Passes sep depth o.text.toList := by
  induction h generalizing depth with
  | reg named => exact passes_plainText hsep (plain_reg named) (reg_endsWell named)
  | stack offset t =>
    have hname : Passes sep depth "stack".toList :=
      passes_plainText hsep (.of_word (by decide)) ⟨'k', rfl, .inl rfl⟩
    have hoffset : Passes sep (depth + 1) (toString offset.toInt).toList :=
      passes_between (by omega) fun c hc => (Operand.int_chars c hc).imp_right fun h => by
        rw [List.mem_singleton.mp h]
        decide
    have htype : Passes sep depth (':' :: t.name.toList) :=
      passes_plainText hsep ((plainText_ty t).cons (by decide)) ((endsWell_ty t).cons ':')
    rw [Operand.stack_text]
    have := hname.append ((passes_brackets (.inr ⟨rfl, rfl⟩) hoffset).append htype)
    simpa using this
  | @var v word =>
    refine passes_plainText hsep ?_ (text_endsWell (.var word))
    rw [Operand.text, Operand.var_text]
    exact ((plainText_word word.chars (by decide)).append (((plainText_ty v.ty).append
      (plainText_flags (Operand.marks_chars (by decide) (by decide)))).cons (by decide))).cons
        (by decide)
  | imm literal => exact passes_literal hsep literal
  | indirect readsBase readsIndex scaled ihBase ihIndex =>
    exact passes_indirect hsep hdepth (fun o ho => ihBase o ho (by omega))
      (fun o ho => ihIndex o ho (by omega))
  | @symbol s word const =>
    refine passes_plainText hsep ?_ (text_endsWell (.symbol word const))
    rw [Operand.text, Operand.symbol_text]
    exact ((plainText_word word.chars (by decide)).append ((plainText_suffix s.ty).append
      (plainText_flags (Operand.marks_chars (by decide) (by decide))))).cons (by decide)
  | @label l word =>
    refine passes_plainText hsep ?_ (text_endsWell (.label word))
    rw [Operand.text, Operand.label_text]
    refine ((plainText_word word.chars (by decide)).append (plainText_flags ?_)).cons (by decide)
    intro mark hmark
    obtain ⟨-, rfl⟩ := Operand.mem_markIf.mp hmark
    decide
  | @list items reads ih =>
    have hinner : Passes sep (depth + 1) (", ".intercalate (Operand.texts items)).toList := by
      cases items with
      | nil => exact .nil sep (depth + 1)
      | cons o items =>
        rw [Operand.intercalate_items]
        refine (ih o List.mem_cons_self (by omega)).append ?_
        have hrest : ∀ p ∈ items, Passes sep (depth + 1) p.text.toList := fun p hp =>
          ih p (List.mem_cons_of_mem _ hp) (by omega)
        clear ih reads
        induction items with
        | nil => exact .nil sep (depth + 1)
        | cons p items ihItems =>
          have hcomma : Passes sep (depth + 1) [',', ' '] := passes_between (by omega) (by decide)
          exact (hcomma.append (hrest p List.mem_cons_self)).append
            (ihItems fun q hq => hrest q (List.mem_cons_of_mem _ hq))
    rw [Operand.list_text]
    exact passes_brackets (.inr ⟨rfl, rfl⟩) hinner

end Written

end Backend.Instr
