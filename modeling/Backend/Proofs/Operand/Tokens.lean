-- Operands without parts are read back from their written form, whatever follows it that no word
-- can run into.
import Backend.Proofs.Float.Roundtrip
import Backend.Proofs.Operand.Readable
import Backend.Proofs.Text.Quoted

namespace Backend

open Backend.Text

namespace Operand

/-! ## What follows a token -/

/-- The text is empty or begins with one of the characters. -/
def HeadIn (cs s : List Char) : Prop := ∀ c ∈ s.head?, c ∈ cs

theorem HeadIn.nil (cs : List Char) : HeadIn cs [] := fun _ h => nomatch h

theorem HeadIn.cons {cs : List Char} {c : Char} (h : c ∈ cs) (s : List Char) :
    HeadIn cs (c :: s) := by
  intro d hd
  obtain rfl := Option.some.inj hd
  exact h

theorem HeadIn.ne {cs s s' : List Char} {c : Char} (h : HeadIn cs s) (hc : c ∉ cs) :
    s ≠ c :: s' := by
  rintro rfl
  exact hc (h c rfl)

/-- An operand is followed by nothing, by a blank or by what closes or continues a larger
operand. -/
def stops : List Char := [' ', ',', ')', ']', '*']

/-- The characters are none that the word could go on with. -/
def Ends (extra cs : List Char) : Prop := ∀ c ∈ cs, isWordChar c = false ∧ c ∉ extra

instance (extra cs : List Char) : Decidable (Ends extra cs) :=
  inferInstanceAs (Decidable (∀ c ∈ cs, isWordChar c = false ∧ c ∉ extra))

theorem skipSpace_of_head {s : List Char} (h : ∀ c ∈ s.head?, c ≠ ' ' ∧ c ≠ '\t') :
    skipSpace s = s := by
  cases s with
  | nil => rfl
  | cons c s =>
    obtain ⟨hspace, htab⟩ := h c rfl
    simp [skipSpace, hspace, htab]

theorem skipSpace_space (s : List Char) : skipSpace (' ' :: s) = skipSpace s := rfl

/-! ## Words, types and flags -/

theorem word_append {extra cs : List Char} {name : String} {s : List Char}
    (hname : ∀ c ∈ name.toList, isWordChar c = true ∨ c ∈ extra) (hs : HeadIn cs s)
    (hends : Ends extra cs) : word extra (name.toList ++ s) = (name, s) := by
  have hinside : ∀ c ∈ name.toList, (isWordChar c || extra.contains c) = true := by
    simpa using hname
  have hstop : s.takeWhile (fun c => isWordChar c || extra.contains c) = [] ∧
      s.dropWhile (fun c => isWordChar c || extra.contains c) = s := by
    cases s with
    | nil => exact ⟨rfl, rfl⟩
    | cons c s =>
      obtain ⟨hword, hextra⟩ := hends c (hs c rfl)
      have hc : (isWordChar c || extra.contains c) = false := by simp [hword, hextra]
      exact ⟨by rw [List.takeWhile_cons, hc]; rfl, by rw [List.dropWhile_cons, hc]; rfl⟩
  simp only [word]
  rw [List.takeWhile_append_of_pos hinside, List.dropWhile_append_of_pos hinside, hstop.1, hstop.2,
    List.append_nil, String.ofList_toList]

theorem name_chars (t : Ty) : ∀ c ∈ t.name.toList, isWordChar c = true ∨ c ∈ ([] : List Char) := by
  cases t <;> decide

theorem typeSuffix_name (t : Ty) {cs s : List Char} (hs : HeadIn cs s) (hends : Ends [] cs) :
    typeSuffix (':' :: (t.name.toList ++ s)) = .ok (some t, s) := by
  simp only [typeSuffix, word_append (name_chars t) hs hends, Ty.ofName?_name]

/-- A type as it is written where it may be missing. -/
def suffixText (t : Ty) : List Char := if t = .void then [] else ':' :: t.name.toList

theorem typeSuffix_text (t : Ty) {cs s : List Char} (hs : HeadIn cs s) (hends : Ends [] cs)
    (hcolon : ':' ∉ cs) :
    typeSuffix (suffixText t ++ s) = .ok (if t = .void then none else some t, s) := by
  by_cases ht : t = .void
  · simp only [suffixText, if_pos ht, List.nil_append]
    unfold typeSuffix
    split
    · exact absurd rfl (hs.ne hcolon)
    · rfl
  · simp only [suffixText, if_neg ht, List.cons_append]
    exact typeSuffix_name t hs hends

/-- Flags as they are written. -/
def flagText (marks : List String) : List Char := marks.flatMap fun mark => '!' :: mark.toList

/-- What follows a token that flags may follow. -/
theorem headIn_flagText {cs s : List Char} (hs : HeadIn cs s) (marks : List String) :
    HeadIn ('!' :: cs) (flagText marks ++ s) := by
  cases marks with
  | nil => exact fun c hc => List.mem_cons_of_mem _ (hs c hc)
  | cons mark marks => exact .cons List.mem_cons_self _

theorem flagsUpTo_text {marks : List String} {s : List Char}
    (hmarks : ∀ mark ∈ marks, ∀ c ∈ mark.toList, isWordChar c = true) (hs : HeadIn stops s)
    (n : Nat)
    (hn : marks.length ≤ n) : flagsUpTo n (flagText marks ++ s) = (marks, s) := by
  induction marks generalizing n with
  | nil =>
    unfold flagsUpTo
    split
    · exact absurd ‹_› (hs.ne (by decide))
    · rfl
  | cons mark marks ih =>
    obtain ⟨n, rfl⟩ : ∃ m, n = m + 1 := ⟨n - 1, by simp at hn; omega⟩
    have hword := word_append (fun c hc => .inl (hmarks mark List.mem_cons_self c hc))
      (headIn_flagText hs marks) (show Ends [] _ by decide)
    have htext : flagText (mark :: marks) ++ s =
        '!' :: (mark.toList ++ (flagText marks ++ s)) := by
      simp [flagText]
    rw [htext, flagsUpTo, hword]
    simp only
    rw [ih (fun m hm => hmarks m (List.mem_cons_of_mem _ hm)) n (by simpa using hn)]

theorem flags_text {marks : List String} {s : List Char}
    (hmarks : ∀ mark ∈ marks, ∀ c ∈ mark.toList, isWordChar c = true) (hs : HeadIn stops s) :
    flags (flagText marks ++ s) = (marks, s) := by
  refine flagsUpTo_text hmarks hs _ ?_
  have hlen : marks.length ≤ (flagText marks).length := by
    induction marks with
    | nil => exact Nat.zero_le _
    | cons mark marks ih =>
      have := ih fun m hm => hmarks m (List.mem_cons_of_mem _ hm)
      simp only [flagText, List.flatMap_cons, List.length_cons, List.length_append] at this ⊢
      omega
  rw [List.length_append]
  omega

/-- A flag that is set if a condition holds. -/
def markIf (b : Bool) (mark : String) : List String := if b then [mark] else []

theorem mem_markIf {b : Bool} {mark m : String} : m ∈ markIf b mark ↔ b = true ∧ m = mark := by
  cases b <;> simp [markIf]

theorem marks_chars {a b : Bool} {m m' : String} (hm : ∀ c ∈ m.toList, isWordChar c = true)
    (hm' : ∀ c ∈ m'.toList, isWordChar c = true) :
    ∀ mark ∈ markIf a m ++ markIf b m', ∀ c ∈ mark.toList, isWordChar c = true := by
  intro mark hmark
  simp only [List.mem_append, mem_markIf] at hmark
  rcases hmark with ⟨-, rfl⟩ | ⟨-, rfl⟩
  · exact hm
  · exact hm'

/-- Two flags, each of which may be set, are read. -/
theorem flags_two {a b : Bool} {m m' : String} {s : List Char} (hs : HeadIn stops s)
    (hm : ∀ c ∈ m.toList, isWordChar c = true) (hm' : ∀ c ∈ m'.toList, isWordChar c = true) :
    flags (flagText (markIf a m ++ markIf b m') ++ s) = (markIf a m ++ markIf b m', s) :=
  flags_text (marks_chars hm hm') hs

/-! ## Variables, symbols and labels -/

section Named

variable {source rest : List Char}

theorem var_text (v : Var) : v.text.toList = '%' :: (v.ident.toList ++ ':' :: (v.ty.name.toList ++
    flagText (markIf v.isConst "const" ++ markIf v.isCaptured "captured"))) := by
  cases hc : v.isConst <;> cases hp : v.isCaptured <;>
    simp [Var.text, hc, hp, markIf, flagText]

theorem readVar_text {v : Var} (h : IsWord ['.'] v.ident) (hrest : HeadIn stops rest) :
    readVar source (v.ident.toList ++ ':' :: (v.ty.name.toList ++
      (flagText (markIf v.isConst "const" ++ markIf v.isCaptured "captured") ++ rest))) =
      .ok (.var v, rest) := by
  have hword : word ['.'] (v.ident.toList ++ ':' :: (v.ty.name.toList ++
      (flagText (markIf v.isConst "const" ++ markIf v.isCaptured "captured") ++ rest))) = _ :=
    word_append h.chars (.cons (List.mem_singleton_self ':') _) (by decide)
  have htype := typeSuffix_name v.ty
    (headIn_flagText hrest (markIf v.isConst "const" ++ markIf v.isCaptured "captured")) (by decide)
  have hflags : flags (flagText (markIf v.isConst "const" ++ markIf v.isCaptured "captured") ++
      rest) = _ := flags_two hrest (by decide) (by decide)
  have hne : ¬ (v.ident == "") = true := by simpa using h.ne_empty
  simp only [readVar, hword, if_neg hne, htype, bind, Except.bind, hflags]
  cases v with
  | mk ident ty isConst isCaptured => cases isConst <;> cases isCaptured <;> rfl

theorem symbol_text (s : Symbol) : s.text.toList = '@' :: (s.name.toList ++ (suffixText s.ty ++
    flagText (markIf s.isLocal "local" ++ markIf s.isTls "tls"))) := by
  cases hl : s.isLocal <;> cases ht : s.isTls <;> by_cases hv : s.ty = .void <;>
    simp [Symbol.text, hl, ht, hv, markIf, flagText, suffixText]

theorem readSymbol_text {s : Symbol} (h : IsWord ['.', '$', '/'] s.name) (hconst : s.const = none)
    (hrest : HeadIn stops rest) : readSymbol source (s.name.toList ++ (suffixText s.ty ++
      (flagText (markIf s.isLocal "local" ++ markIf s.isTls "tls") ++ rest))) =
      .ok (.symbol s, rest) := by
  have hafter := headIn_flagText hrest (markIf s.isLocal "local" ++ markIf s.isTls "tls")
  have hsuffix : HeadIn (':' :: '!' :: stops) (suffixText s.ty ++
      (flagText (markIf s.isLocal "local" ++ markIf s.isTls "tls") ++ rest)) := by
    unfold suffixText
    split
    · exact fun c hc => List.mem_cons_of_mem _ (hafter c hc)
    · exact .cons List.mem_cons_self _
  have hword := word_append h.chars hsuffix (by decide)
  have htype := typeSuffix_text s.ty hafter (by decide) (by decide)
  have hflags : flags (flagText (markIf s.isLocal "local" ++ markIf s.isTls "tls") ++ rest) = _ :=
    flags_two hrest (by decide) (by decide)
  have hne : ¬ (s.name == "") = true := by simpa using h.ne_empty
  have hty : (if s.ty = .void then none else some s.ty).getD .void = s.ty := by
    split
    · exact (‹s.ty = .void›).symm
    · rfl
  simp only [readSymbol, hword, if_neg hne, htype, bind, Except.bind, hflags, hty]
  cases s with
  | mk name isLocal isTls ty const =>
    cases isLocal <;> cases isTls <;> simp_all [markIf, pure, Except.pure]

theorem label_text (l : Label) :
    l.text.toList = '#' :: (l.name.toList ++ flagText (markIf l.isLocal "local")) := by
  cases hl : l.isLocal <;> simp [Label.text, hl, markIf, flagText]

theorem readLabel_text {l : Label} (h : IsWord ['.', '$', '/'] l.name) (hrest : HeadIn stops rest) :
    readLabel source (l.name.toList ++ (flagText (markIf l.isLocal "local") ++ rest)) =
      .ok (.label l, rest) := by
  have hword := word_append h.chars (headIn_flagText hrest (markIf l.isLocal "local")) (by decide)
  have hmarks : ∀ mark ∈ markIf l.isLocal "local", ∀ c ∈ mark.toList, isWordChar c = true := by
    intro mark hmark
    obtain ⟨-, rfl⟩ := mem_markIf.mp hmark
    decide
  have hflags := flags_text hmarks hrest
  have hne : ¬ (l.name == "") = true := by simpa using h.ne_empty
  simp only [readLabel, hword, if_neg hne, hflags]
  cases l with
  | mk name isLocal => cases isLocal <;> rfl

/-! ## Frame slots -/

theorem stack_text (offset : Int64) (t : Ty) : (text (.stack offset t)).toList =
    "stack".toList ++ '(' :: ((toString offset.toInt).toList ++ ')' :: ':' :: t.name.toList) := by
  simp [text]

theorem isWordChar_of_isDigit {c : Char} (h : c.isDigit = true) : isWordChar c = true := by
  obtain ⟨hlow, hhigh⟩ := isDigit_iff.mp h
  simp [isWordChar, hlow, hhigh]

theorem int_chars {n : Int} : ∀ c ∈ (toString n).toList, isWordChar c = true ∨ c ∈ ['-'] :=
  fun _ hc => (mem_toString_int hc).symm.imp isWordChar_of_isDigit List.mem_singleton.mpr

theorem readStackSlot_text (offset : Int64) (t : Ty) (hrest : HeadIn stops rest) :
    readStackSlot source ((toString offset.toInt).toList ++ ')' :: ':' :: (t.name.toList ++ rest)) =
      .ok (.stack offset t, rest) := by
  have hword : word ['-'] ((toString offset.toInt).toList ++
      ')' :: ':' :: (t.name.toList ++ rest)) = (toString offset.toInt, _) :=
    word_append int_chars (.cons (List.mem_singleton_self ')') _) (by decide)
  have hskip : skipSpace (')' :: ':' :: (t.name.toList ++ rest)) = _ :=
    skipSpace_of_head fun c hc => by
      obtain rfl := Option.some.inj hc
      decide
  have htype := typeSuffix_name t hrest (by decide)
  simp only [readStackSlot, hword, readInt64_toString, hskip, htype, bind, Except.bind]
  rfl

end Named

/-! ## Literals -/

section Literals

variable {rest : List Char}

theorem ofInt_ty (w : IntWidth) (value : Int64) : Literal.ofInt w.ty value = .int w value := by
  cases w <;> rfl

theorem ofFloat_ty (w : FloatWidth) (x : Float.Binary64) : Literal.ofFloat w.ty x = .float w x := by
  cases w <;> rfl

theorem float_chars {x : Float.Binary64} :
    ∀ c ∈ x.text.toList, isWordChar c = true ∨ c ∈ ['-', '+', '.'] := by
  have hall : ∀ c ∈ ['-', '+', '.', 'e', 'I', 'n', 'f', 'N', 'a'],
      isWordChar c = true ∨ c ∈ ['-', '+', '.'] := by
    decide
  exact fun c hc => (Float.text_chars hc).elim (fun h => .inl (isWordChar_of_isDigit h)) (hall c)

/-- A number with its type is read as a number of that type. -/
theorem readLiteral_number {numeral : String} {t : Ty} {l : Literal}
    (hchars : ∀ c ∈ numeral.toList, isWordChar c = true ∨ c ∈ ['-', '+', '.'])
    (htrue : numeral ≠ "true") (hfalse : numeral ≠ "false") (hread : readNumber numeral t = .ok l)
    (hrest : HeadIn stops rest) :
    readLiteral (numeral.toList ++ ':' :: (t.name.toList ++ rest)) = .ok (.imm l, rest) := by
  have hword : word ['-', '+', '.'] (numeral.toList ++ ':' :: (t.name.toList ++ rest)) = _ :=
    word_append hchars (.cons (List.mem_singleton_self ':') _) (by decide)
  have htype := typeSuffix_name t hrest (by decide)
  have hquote : ∀ s, numeral.toList ++ ':' :: (t.name.toList ++ rest) ≠ '"' :: s := by
    intro s hs
    cases hnumeral : numeral.toList with
    | nil => simp [hnumeral] at hs
    | cons c numeral' =>
      obtain rfl : c = '"' := by simpa [hnumeral] using (List.cons.inj (hnumeral ▸ hs)).1
      have := hchars '"' (hnumeral ▸ List.mem_cons_self)
      revert this
      decide
  unfold readLiteral
  split
  · exact absurd ‹_› (hquote _)
  · have htrue' : ¬ (numeral == "true") = true := by simpa using htrue
    have hfalse' : ¬ (numeral == "false") = true := by simpa using hfalse
    simp only [hword, if_neg htrue', if_neg hfalse', htype, Option.getD_some, hread, bind,
      Except.bind]
    rfl

theorem readLiteral_keyword {keyword : String} (h : keyword = "true" ∨ keyword = "false")
    (hrest : HeadIn stops rest) : readLiteral (keyword.toList ++ rest) =
      .ok (.imm (.bool (if keyword = "true" then 1 else 0)), rest) := by
  have hchars : ∀ c ∈ keyword.toList, isWordChar c = true ∨ c ∈ ['-', '+', '.'] := by
    rcases h with rfl | rfl <;> decide
  have hword := word_append hchars hrest (by decide)
  unfold readLiteral
  split
  · rcases h with rfl | rfl <;> simp at *
  · simp only [hword]
    rcases h with rfl | rfl <;> rfl

/-- A literal is read back after its dollar sign. -/
theorem readLiteral_text {l : Literal} (h : l.Readable) (hrest : HeadIn stops rest) :
    ∃ s, l.text.toList = '$' :: s ∧ readLiteral (s ++ rest) = .ok (.imm l, rest) := by
  cases l with
  | string bytes =>
    obtain ⟨body, hbody, hread⟩ := quoteBytes_eq bytes
    refine ⟨'"' :: (body ++ ['"']), by simp [Literal.text, hbody], ?_⟩
    simp only [readLiteral, List.cons_append, List.append_assoc, List.nil_append, hread]
  | bool word =>
    rcases h with rfl | rfl
    · exact ⟨"false".toList, rfl, (readLiteral_keyword (.inr rfl) hrest).trans rfl⟩
    · exact ⟨"true".toList, rfl, (readLiteral_keyword (.inl rfl) hrest).trans rfl⟩
  | float w x =>
    have hread := Float.read?_text h
    refine ⟨x.text.toList ++ ':' :: w.ty.name.toList, by simp [Literal.text], ?_⟩
    rw [List.append_assoc, List.cons_append]
    have hne : ∀ keyword, Float.read? keyword.toList = none → x.text ≠ keyword := by
      rintro keyword hkeyword rfl
      rw [hread] at hkeyword
      cases hkeyword
    refine readLiteral_number float_chars (hne _ (by decide)) (hne _ (by decide)) ?_ hrest
    have hfloat : w.ty.isFloat = true := by cases w <;> rfl
    simp only [readNumber, hfloat, if_true, hread, ofFloat_ty]
  | int w value =>
    refine ⟨(toString value.toInt).toList ++ ':' :: w.ty.name.toList, by simp [Literal.text], ?_⟩
    rw [List.append_assoc, List.cons_append]
    have hread := readWord_toString value
    have hne : ∀ keyword e, readWord keyword.toList = .error e →
        toString value.toInt ≠ keyword := by
      rintro keyword e hkeyword rfl
      rw [hread] at hkeyword
      cases hkeyword
    refine readLiteral_number (fun c hc => (int_chars c hc).imp_right ?_)
      (hne _ .malformed rfl) (hne _ .malformed rfl) ?_ hrest
    · intro hc
      rw [List.mem_singleton.mp hc]
      decide
    · have hint : w.ty.isFloat = false := by cases w <;> rfl
      simp only [readNumber, hint, Bool.false_eq_true, if_false, hread, ofInt_ty]

end Literals

/-! ## Registers -/

section Registers

variable {source rest : List Char}

theorem unnamed_text {r : Reg} (h : r.name = "") : r.text.toList =
    (if r.cls = .float then 'x' else 'r') ::
      (Nat.toDigits 10 r.index.toNat ++ ':' :: r.ty.name.toList) := by
  cases hc : r.cls <;> simp [Reg.text, h, hc, Nat.toList_repr]

theorem named_text {r : Reg} (h : r.name ≠ "") : r.text.toList = r.name.toList ++
    suffixText (if r.cls = .float ∧ r.width = 4 then .f32 else .void) := by
  by_cases hf : r.cls = .float ∧ r.width = 4
  · simp [Reg.text, h, hf.1, hf.2, suffixText, Ty.name]
  · rw [if_neg hf]
    have hf' : (r.cls == .float && r.width == 4) = false := by simpa using hf
    simp [Reg.text, h, hf', suffixText]

/-- A name is looked up after the type that may follow it. -/
theorem readNamed_word {name : String} {t? : Option Ty} {s s' : List Char}
    (hword : word [] s = (name, s')) (hname : name ≠ "stack")
    (htype : typeSuffix s' = .ok (t?, rest)) :
    readNamed registerOfName? source s =
      match registerOfName? name, t? with
      | some r, none => .ok (.reg r, rest)
      | some r, some t => (retype name r t).map fun r => (.reg r, rest)
      | none, none => .error (.unknownOperand name)
      | none, some t =>
        match numberedRegister? name t with
        | some r => .ok (.reg r, rest)
        | none => .error (.unknownOperand name) := by
  unfold readNamed
  simp only [hword]
  split
  · rename_i hstack
    exact absurd (by simpa using hstack) hname
  · simp only [htype, bind, Except.bind]
    cases registerOfName? name with
    | none =>
      cases t? with
      | none => rfl
      | some t => cases numberedRegister? name t <;> rfl
    | some r =>
      cases t? with
      | none => rfl
      | some t => cases retype name r t <;> rfl

theorem numberedRegister?_text {mark : Char} (hmark : mark = 'r' ∨ mark = 'x') (n : UInt8)
    (t : Ty) :
    numberedRegister? (String.ofList (mark :: Nat.toDigits 10 n.toNat)) t =
      some ⟨n, UInt8.ofNat t.size, if mark = 'x' then .float else .int, ""⟩ := by
  have hread : readDecimal 256 (Nat.toDigits 10 n.toNat) = .ok n.toNat :=
    readDecimal_toDigits n.toNat_lt
  have hnonempty : (Nat.toDigits 10 n.toNat).isEmpty = false := by simp
  rcases hmark with rfl | rfl <;>
    simp [numberedRegister?, String.toList_ofList, hread]

/-- A register of the table that is read as a value of its own type stays the same but for its
name. -/
theorem retype_ty (name : String) {r : Reg} {t : Ty} (h : t.isFloat = (r.cls == .float)) :
    ∃ r', retype name r t = .ok r' ∧
      r'.nameless = { r with width := UInt8.ofNat t.size, name := "" } := by
  unfold retype
  rw [if_neg (by simp [h])]
  exact ⟨_, rfl, rfl⟩

theorem readNamed_unnamed {r : Reg} (hname : r.name = "") (hwidth : r.HasWidth)
    (hrest : HeadIn stops rest) :
    ∃ r', readNamed registerOfName? source (r.text.toList ++ rest) = .ok (.reg r', rest) ∧
      r'.nameless = r.nameless := by
  obtain ⟨mark, hmark, hcls⟩ : ∃ mark, (mark = 'r' ∨ mark = 'x') ∧
      (if r.cls = .float then 'x' else 'r') = mark := by
    split
    · exact ⟨'x', .inr rfl, rfl⟩
    · exact ⟨'r', .inl rfl, rfl⟩
  have hchars : ∀ c ∈ (String.ofList (mark :: Nat.toDigits 10 r.index.toNat)).toList,
      isWordChar c = true ∨ c ∈ ([] : List Char) := by
    intro c hc
    rw [String.toList_ofList, List.mem_cons] at hc
    rcases hc with rfl | hc
    · rcases hmark with rfl | rfl <;> exact .inl rfl
    · exact .inl (isWordChar_of_isDigit (isDigit_of_mem_decimal hc))
  have hstack : String.ofList (mark :: Nat.toDigits 10 r.index.toNat) ≠ "stack" := by
    intro h
    have hhead := congrArg (fun s => s.toList.head?) h
    rw [String.toList_ofList] at hhead
    rcases hmark with rfl | rfl <;> simp at hhead
  have htext : r.text.toList ++ rest =
      (String.ofList (mark :: Nat.toDigits 10 r.index.toNat)).toList ++
      ':' :: (r.ty.name.toList ++ rest) := by
    rw [unnamed_text hname, hcls, String.toList_ofList, List.cons_append, List.append_assoc,
      List.cons_append, List.cons_append]
  have hword := word_append hchars (.cons (List.mem_singleton_self ':') (r.ty.name.toList ++ rest))
    (by decide)
  have hnumbered := numberedRegister?_text hmark r.index r.ty
  rw [htext, readNamed_word hword hstack (typeSuffix_name r.ty hrest (by decide))]
  have hself : (⟨r.index, r.width, r.cls, ""⟩ : Reg) = r.nameless := rfl
  cases hc : r.cls with
  | float =>
    obtain rfl : 'x' = mark := by simpa [hc] using hcls
    simp only [registerOfName?_x, hnumbered, hwidth.size, if_true]
    exact ⟨_, rfl, by rw [← hself, hc]; rfl⟩
  | int =>
    obtain rfl : 'r' = mark := by simpa [hc] using hcls
    cases htable : registerOfName? (String.ofList ('r' :: Nat.toDigits 10 r.index.toNat)) with
    | none =>
      simp only [hnumbered, hwidth.size]
      exact ⟨_, rfl, by rw [← hself, hc]; rfl⟩
    | some r' =>
      obtain rfl := registerOfName?_r htable
      have hfloat : r.ty.isFloat = false := by rw [r.isFloat_ty, hc]; rfl
      obtain ⟨r', hr', hnameless⟩ :=
        retype_ty (String.ofList ('r' :: Nat.toDigits 10 r.index.toNat))
        (r := gpr (UInt8.ofNat r.index.toNat) 8) hfloat
      simp only [hr', Except.map]
      refine ⟨r', rfl, ?_⟩
      rw [hnameless, ← hself, hc, hwidth.size, UInt8.ofNat_toNat]
      rfl

/-- A register is read back but for its name. -/
theorem readNamed_reg {r : Reg} (hnamed : Named r) (hwidth : r.HasWidth)
    (hrest : HeadIn stops rest) :
    ∃ r', readNamed registerOfName? source (r.text.toList ++ rest) = .ok (.reg r', rest) ∧
      r'.nameless = r.nameless := by
  rcases hnamed with hname | htable | ⟨hfloat, hsingle, htable⟩
  · exact readNamed_unnamed hname hwidth hrest
  · have hr := tableRegister htable
    have hvoid : ¬ (r.cls = .float ∧ r.width = 4) := by
      rintro ⟨hcls, hw⟩
      have := hr.width hcls
      rw [hw] at this
      revert this
      decide
    have hword := word_append (fun c hc => .inl (hr.word c hc)) hrest (show Ends [] _ by decide)
    have htype := typeSuffix_text .void hrest (by decide) (by decide)
    rw [named_text hr.ne_empty, if_neg hvoid]
    simp only [suffixText, if_true, List.append_nil, List.nil_append] at htype ⊢
    rw [readNamed_word hword hr.ne_stack htype, htable]
    exact ⟨r, rfl, rfl⟩
  · have hr := tableRegister htable
    have hword : word [] (r.name.toList ++ ':' :: (Ty.f32.name.toList ++ rest)) = (r.name, _) :=
      word_append (fun c hc => .inl (hr.word c hc)) (.cons (List.mem_singleton_self ':') _)
        (by decide)
    have htype := typeSuffix_name .f32 hrest (by decide)
    have hne : r.name ≠ "" := hr.ne_empty
    rw [named_text hne, if_pos ⟨hfloat, hsingle⟩]
    obtain ⟨r', hr', hnameless⟩ := retype_ty r.name (r := { r with width := 8 }) (t := .f32)
      (by rw [hfloat]; rfl)
    have htext : r.name.toList ++ suffixText .f32 ++ rest =
        r.name.toList ++ ':' :: (Ty.f32.name.toList ++ rest) := by
      simp [suffixText, Ty.name]
    rw [htext, readNamed_word hword hr.ne_stack htype, htable]
    simp only [hr', Except.map]
    refine ⟨r', rfl, ?_⟩
    rw [hnameless, Reg.nameless, hsingle]
    rfl

end Registers

end Operand

end Backend
