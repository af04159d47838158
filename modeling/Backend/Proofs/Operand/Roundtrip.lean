-- Reading undoes writing: an operand that can be read is read back from its written form, to any
-- depth of memory operands and lists, but for the names of registers.
import Backend.Proofs.Operand.Tokens
import Mathlib.Data.List.DropRight

namespace Backend.Operand

open Backend.Text

/-! ## The front of an operand -/

def letters : List Char := "abcdefghijklmnopqrstuvwxyz".toList

theorem mem_letters {c : Char} (h : 'a' ≤ c ∧ c ≤ 'z') : c ∈ letters := by
  have hall : ∀ k < 26, Char.ofNat (97 + k) ∈ letters := by decide
  have hlow : 97 ≤ c.toNat := h.1
  have hhigh : c.toNat ≤ 122 := h.2
  have hc := hall (c.toNat - 97) (by omega)
  rwa [Nat.add_sub_cancel' hlow, Char.ofNat_toNat] at hc

/-- The characters that a written operand begins with. -/
def startChars : List Char := letters ++ ['%', '$', '@', '#', '[', '(']

/-- The name of a register is one of the table. -/
theorem Named.table {r : Reg} (h : Named r) (hname : r.name ≠ "") :
    ∃ r', TableRegister r' ∧ r'.name = r.name := by
  rcases h with h | h | ⟨-, -, h⟩
  · exact absurd h hname
  · exact ⟨r, tableRegister h, rfl⟩
  · exact ⟨_, tableRegister h, rfl⟩

theorem reg_text_starts {r : Reg} (h : Named r) :
    ∃ c s, r.text.toList = c :: s ∧ c ∈ letters := by
  by_cases hname : r.name = ""
  · refine ⟨_, _, unnamed_text hname, ?_⟩
    split <;> decide
  · obtain ⟨r', htable, hsame⟩ := h.table hname
    cases hs : r.name.toList with
    | nil => exact absurd (String.toList_eq_nil_iff.mp hs) hname
    | cons c s =>
      exact ⟨c, s ++ _, by rw [named_text hname, hs, List.cons_append],
        mem_letters (htable.letter c (by rw [hsame, hs]; rfl))⟩

theorem text_starts {o : Operand} (h : Readable o) :
    ∃ c s, o.text.toList = c :: s ∧ c ∈ startChars := by
  cases h with
  | reg named =>
    obtain ⟨c, s, hs, hc⟩ := reg_text_starts named
    exact ⟨c, s, hs, List.mem_append_left _ hc⟩
  | stack offset t => exact ⟨'s', _, stack_text offset t, by decide⟩
  | var word => exact ⟨'%', _, var_text _, by decide⟩
  | imm literal =>
    obtain ⟨s, hs, -⟩ := readLiteral_text literal (HeadIn.nil _)
    exact ⟨'$', s, hs, by decide⟩
  | indirect readsBase readsIndex scaled =>
    refine ⟨'[', _, by simp [text]; rfl, by decide⟩
  | symbol word const => exact ⟨'@', _, symbol_text _, by decide⟩
  | label word => exact ⟨'#', _, label_text _, by decide⟩
  | list reads => exact ⟨'(', _, by simp [text]; rfl, by decide⟩

section Read

variable {source rest : List Char} {n : Nat}

theorem readOperand_space (s : List Char) : readOperand registerOfName? source (n + 1) (' ' :: s) =
    readOperand registerOfName? source (n + 1) s := by
  rw [readOperand, readOperand, skipSpace_space]

theorem readOperand_var (s : List Char) :
    readOperand registerOfName? source (n + 1) ('%' :: s) = readVar source s := by
  rw [readOperand]
  rfl

theorem readOperand_literal (s : List Char) :
    readOperand registerOfName? source (n + 1) ('$' :: s) = readLiteral s := by
  rw [readOperand]
  rfl

theorem readOperand_symbol (s : List Char) :
    readOperand registerOfName? source (n + 1) ('@' :: s) = readSymbol source s := by
  rw [readOperand]
  rfl

theorem readOperand_label (s : List Char) :
    readOperand registerOfName? source (n + 1) ('#' :: s) = readLabel source s := by
  rw [readOperand]
  rfl

theorem readOperand_address (s : List Char) :
    readOperand registerOfName? source (n + 1) ('[' :: s) =
      readAddress registerOfName? source n .empty false s := by
  rw [readOperand]
  rfl

theorem readOperand_emptyList (s : List Char) :
    readOperand registerOfName? source (n + 1) ('(' :: ')' :: s) = .ok (.list [], s) := by
  rw [readOperand]
  rfl

theorem readOperand_items {c : Char} (h : c ∈ startChars) (s : List Char) :
    readOperand registerOfName? source (n + 1) ('(' :: c :: s) =
      readItems registerOfName? source n (c :: s) >>= fun p => .ok (.list p.1, p.2) := by
  have hspecial : ∀ c ∈ startChars, c ∉ [' ', '\t', ')'] := by decide
  have hc := hspecial c h
  simp only [List.mem_cons, List.not_mem_nil, or_false, not_or] at hc
  have hskip : skipSpace (c :: s) = c :: s := skipSpace_of_head fun d hd => by
    obtain rfl := Option.some.inj hd
    exact ⟨hc.1, hc.2.1⟩
  rw [readOperand]
  simp only [show skipSpace ('(' :: c :: s) = '(' :: c :: s from rfl, hskip]
  split
  · rename_i heq
    exact absurd (List.cons.inj heq).1 hc.2.2
  · rfl

theorem readOperand_named {c : Char} (h : c ∈ letters) (s : List Char) :
    readOperand registerOfName? source (n + 1) (c :: s) =
      readNamed registerOfName? source (c :: s) := by
  have hspecial : ∀ c ∈ letters, c ∉ [' ', '\t', '\x00', '%', '$', '@', '#', '[', '('] := by decide
  have hc := hspecial c h
  simp only [List.mem_cons, List.not_mem_nil, or_false, not_or] at hc
  have hskip : skipSpace (c :: s) = c :: s := skipSpace_of_head fun d hd => by
    obtain rfl := Option.some.inj hd
    exact ⟨hc.1, hc.2.1⟩
  rw [readOperand, hskip]
  simp [hc]

end Read

/-! ## Memory operands -/

/-- The operand is read back from its written form, up to what follows it. -/
def ReadsBack (source : List Char) (o : Operand) : Prop :=
  ∀ n rest, 3 * o.text.toList.length + 3 ≤ n → HeadIn stops rest →
    ∃ o', readOperand registerOfName? source n (o.text.toList ++ rest) = .ok (o', rest) ∧
      o'.nameless = o.nameless

section Address

variable {source rest s : List Char} {n : Nat} {a : Address} {t : Ty}

theorem takeSign_of_head {minus : Bool} (h : ∀ c ∈ s.head?, c ≠ ' ' ∧ c ≠ '\t' ∧ c ≠ '-') :
    takeSign minus s = (minus, s) := by
  have hskip := skipSpace_of_head fun c hc => ⟨(h c hc).1, (h c hc).2.1⟩
  unfold takeSign
  rw [hskip]
  split
  · exact absurd rfl (h '-' rfl).2.2
  · rfl

theorem takeSign_space (minus : Bool) (s : List Char) :
    takeSign minus (' ' :: s) = takeSign minus s := rfl

theorem toDigits_head_digit (m : Nat) (s : List Char) :
    ∃ c s', Nat.toDigits 10 m ++ s = c :: s' ∧ c.isDigit = true := by
  cases hm : Nat.toDigits 10 m with
  | nil => exact absurd hm Nat.toDigits_ne_nil
  | cons c digits => exact ⟨c, _, rfl, isDigit_of_mem_decimal (hm ▸ List.mem_cons_self)⟩

theorem takeSign_toDigits (minus : Bool) (m : Nat) (s : List Char) :
    takeSign minus (Nat.toDigits 10 m ++ s) = (minus, Nat.toDigits 10 m ++ s) := by
  obtain ⟨c, s', hs, hc⟩ := toDigits_head_digit m s
  refine takeSign_of_head fun d hd => ?_
  rw [hs] at hd
  obtain rfl := Option.some.inj hd
  exact ⟨ne_of_isDigit hc (by decide), ne_of_isDigit hc (by decide), ne_of_isDigit hc (by decide)⟩

theorem takeSign_minus (m : Nat) (s : List Char) :
    takeSign false ('-' :: (Nat.toDigits 10 m ++ s)) = (true, Nat.toDigits 10 m ++ s) := by
  obtain ⟨c, s', hs, hc⟩ := toDigits_head_digit m s
  have hskip : skipSpace (Nat.toDigits 10 m ++ s) = Nat.toDigits 10 m ++ s := by
    refine skipSpace_of_head fun d hd => ?_
    rw [hs] at hd
    obtain rfl := Option.some.inj hd
    exact ⟨ne_of_isDigit hc (by decide), ne_of_isDigit hc (by decide)⟩
  simp only [takeSign, show skipSpace ('-' :: (Nat.toDigits 10 m ++ s)) =
    '-' :: (Nat.toDigits 10 m ++ s) from rfl, hskip, Bool.not_false]

/-- The address ends. -/
theorem readTail_close (a : Address) (t : Ty) (hrest : HeadIn stops rest) :
    readTail registerOfName? source n a (']' :: ':' :: (t.name.toList ++ rest)) =
      .ok (a.close t, rest) := by
  have htype := typeSuffix_name t hrest (by decide)
  simp only [readTail, show skipSpace (']' :: ':' :: (t.name.toList ++ rest)) =
    ']' :: ':' :: (t.name.toList ++ rest) from rfl, htype, bind, Except.bind]
  rfl

/-- A number is the last part of an address. -/
theorem readAddress_number {minus negative : Bool} {m : Nat}
    (hsign : takeSign minus s =
      (negative, Nat.toDigits 10 m ++ ']' :: ':' :: (t.name.toList ++ rest)))
    (hm : m < 2 ^ 63) (hrest : HeadIn stops rest) :
    readAddress registerOfName? source (n + 1) a minus s = .ok
      (Address.close { a with disp :=
        if negative then a.disp - Int64.ofNat m else a.disp + Int64.ofNat m } t, rest) := by
  obtain ⟨c, s', hs, hc⟩ := toDigits_head_digit m (']' :: ':' :: (t.name.toList ++ rest))
  have hchars : ∀ c ∈ (String.ofList (Nat.toDigits 10 m)).toList,
      isWordChar c = true ∨ c ∈ ([] : List Char) := fun c hc =>
    .inl (isWordChar_of_isDigit (isDigit_of_mem_decimal (by simpa using hc)))
  have hword := word_append hchars
    (.cons (List.mem_singleton_self ']') (':' :: (t.name.toList ++ rest))) (by decide)
  rw [String.toList_ofList] at hword
  have hterm : readTerm registerOfName? source n a negative
      (Nat.toDigits 10 m ++ ']' :: ':' :: (t.name.toList ++ rest)) =
      .ok ({ a with disp :=
        if negative then a.disp - Int64.ofNat m else a.disp + Int64.ofNat m },
        ']' :: ':' :: (t.name.toList ++ rest)) := by
    rw [hs] at hword ⊢
    obtain ⟨hlow, hhigh⟩ := isDigit_iff.mp hc
    simp only [readTerm, hlow, hhigh, decide_true, Bool.and_self, if_true, hword,
      String.toList_ofList, readInt64_toDigits hm]
  rw [readAddress_succ, hsign]
  simp only [hterm, bind, Except.bind]
  exact readTail_close _ t hrest

theorem dispText_pos {disp : Int64} (h : 0 < disp) : ∃ m < 2 ^ 63,
    (dispText disp).toList = ' ' :: '+' :: ' ' :: Nat.toDigits 10 m ∧ disp = Int64.ofNat m := by
  have hpos : 0 < disp.toInt := Int64.lt_iff_toInt_lt.mp h
  have hlt := disp.toInt_lt
  refine ⟨disp.toInt.natAbs, by omega, ?_, ?_⟩
  · have htext := toString_of_nonneg hpos.le
    simp only [dispText, gt_iff_lt, h, if_true]
    simpa using htext
  · rw [← Int64.ofInt_eq_ofNat, Int.natAbs_of_nonneg hpos.le, Int64.ofInt_toInt]

theorem dispText_neg {disp : Int64} (h : disp < 0) (hdisp : Int64.minValue < disp) : ∃ m < 2 ^ 63,
    (dispText disp).toList = ' ' :: '-' :: ' ' :: Nat.toDigits 10 m ∧ disp = -Int64.ofNat m := by
  have hneg : disp.toInt < 0 := Int64.lt_iff_toInt_lt.mp h
  have hmin : -2 ^ 63 < disp.toInt := Int64.lt_iff_toInt_lt.mp hdisp
  have hnot : ¬ 0 < disp := fun hpos => by
    have : 0 < disp.toInt := Int64.lt_iff_toInt_lt.mp hpos
    omega
  have hself : disp = -Int64.ofNat disp.toInt.natAbs := by
    rw [← Int64.ofInt_eq_ofNat, Int.ofNat_natAbs_of_nonpos hneg.le, Int64.ofInt_neg, Int64.neg_neg,
      Int64.ofInt_toInt]
  have hval : (-disp).toUInt64.toNat = disp.toInt.natAbs := by
    have hint : (Int64.ofNat disp.toInt.natAbs).toInt = disp.toInt.natAbs :=
      Int64.toInt_ofNat_of_lt (by omega)
    have hnonneg : 0 ≤ Int64.ofNat disp.toInt.natAbs := by
      rw [Int64.le_iff_toInt_le, hint]
      exact Int.natCast_nonneg _
    rw [hself, Int64.neg_neg, Int64.toNat_toUInt64_of_le hnonneg, ← hself]
    exact congrArg Int.toNat hint
  refine ⟨disp.toInt.natAbs, by omega, ?_, hself⟩
  simp only [dispText, gt_iff_lt, h, hnot, if_false, if_true, hval]
  simp [Nat.toList_repr]

/-- The displacement after other parts. -/
theorem readTail_dispText {disp : Int64} (hzero : a.disp = 0) (hdisp : Int64.minValue < disp)
    (hrest : HeadIn stops rest) :
    readTail registerOfName? source (n + 1) a
      ((dispText disp).toList ++ ']' :: ':' :: (t.name.toList ++ rest)) =
      .ok (Address.close { a with disp := disp } t, rest) := by
  rcases lt_trichotomy disp.toInt 0 with hlt | heq | hgt
  · obtain ⟨m, hm, htext, hval⟩ := dispText_neg (Int64.lt_iff_toInt_lt.mpr hlt) hdisp
    have hsign := takeSign_toDigits true m (']' :: ':' :: (t.name.toList ++ rest))
    rw [← takeSign_space] at hsign
    have hread : readAddress registerOfName? source (n + 1) a true _ = _ :=
      readAddress_number hsign hm hrest
    rw [htext]
    rw [hzero, if_pos rfl, Int64.zero_sub, ← hval] at hread
    exact hread
  · obtain rfl : disp = 0 := Int64.toInt_inj.mp heq
    have hself : ({ a with disp := 0 } : Address) = a := by rw [← hzero]
    rw [hself]
    exact readTail_close a t hrest
  · obtain ⟨m, hm, htext, hval⟩ := dispText_pos (Int64.lt_iff_toInt_lt.mpr hgt)
    have hsign := takeSign_toDigits false m (']' :: ':' :: (t.name.toList ++ rest))
    rw [← takeSign_space] at hsign
    have hread : readAddress registerOfName? source (n + 1) a false _ = _ :=
      readAddress_number hsign hm hrest
    rw [htext]
    rw [hzero, if_neg Bool.false_ne_true, Int64.zero_add, ← hval] at hread
    exact hread

/-! ### Parts of an address -/

theorem takeSign_operand {o : Operand} (ho : Readable o) (s : List Char) :
    takeSign false (o.text.toList ++ s) = (false, o.text.toList ++ s) := by
  obtain ⟨c, s', hs, hc⟩ := text_starts ho
  refine takeSign_of_head fun d hd => ?_
  rw [hs] at hd
  obtain rfl := Option.some.inj hd
  have hspecial : ∀ c ∈ startChars, c ≠ ' ' ∧ c ≠ '\t' ∧ c ≠ '-' := by decide
  exact hspecial c hc

/-- A part that is no number is an operand. -/
theorem readTerm_operand {o : Operand} (ho : Readable o) (s : List Char) :
    readTerm registerOfName? source n a false (o.text.toList ++ s) =
      readPart registerOfName? source n a false (o.text.toList ++ s) := by
  obtain ⟨c, s', hs, hc⟩ := text_starts ho
  have hspecial : ∀ c ∈ startChars, (decide ('0' ≤ c) && decide (c ≤ '9')) = false := by decide
  rw [hs, List.cons_append, readTerm]
  simp only [hspecial c hc, Bool.false_eq_true, if_false]

/-- An operand without a scale is added to the address. -/
theorem readTerm_plain {o : Operand} (ho : Readable o) (hreads : ReadsBack source o)
    (hn : 3 * o.text.toList.length + 3 ≤ n) (hrest : HeadIn stops rest)
    (hstar : ∀ s, skipSpace rest ≠ '*' :: s) :
    ∃ o', readTerm registerOfName? source (n + 1) a false (o.text.toList ++ rest) =
      .ok (a.add o', skipSpace rest) ∧ o'.nameless = o.nameless := by
  obtain ⟨o', hread, hsame⟩ := hreads n rest hn hrest
  refine ⟨o', ?_, hsame⟩
  rw [readTerm_operand ho, readPart]
  simp only [Bool.false_eq_true, if_false, hread, bind, Except.bind]
  rfl

/-- An operand with a scale is the index of the address. -/
theorem readTerm_scaled {o : Operand} (ho : Readable o) (hreads : ReadsBack source o)
    (hn : 3 * o.text.toList.length + 3 ≤ n) (k : UInt8) (hrest : HeadIn [' ', ']'] rest) :
    ∃ o', readTerm registerOfName? source (n + 1) a false
        (o.text.toList ++ '*' :: (Nat.toDigits 10 k.toNat ++ rest)) =
      .ok ({ a with index := some o', scale := k }, rest) ∧ o'.nameless = o.nameless := by
  obtain ⟨o', hread, hsame⟩ := hreads n ('*' :: (Nat.toDigits 10 k.toNat ++ rest)) hn
    (.cons (by decide) _)
  refine ⟨o', ?_, hsame⟩
  have hchars : ∀ c ∈ (String.ofList (Nat.toDigits 10 k.toNat)).toList,
      isWordChar c = true ∨ c ∈ ([] : List Char) := fun c hc =>
    .inl (isWordChar_of_isDigit (isDigit_of_mem_decimal (by simpa using hc)))
  have hword := word_append hchars hrest (by decide)
  rw [String.toList_ofList] at hword
  have hskip : skipSpace (Nat.toDigits 10 k.toNat ++ rest) = Nat.toDigits 10 k.toNat ++ rest := by
    obtain ⟨c, s', hs, hc⟩ := toDigits_head_digit k.toNat rest
    refine skipSpace_of_head fun d hd => ?_
    rw [hs] at hd
    obtain rfl := Option.some.inj hd
    exact ⟨ne_of_isDigit hc (by decide), ne_of_isDigit hc (by decide)⟩
  rw [readTerm_operand ho, readPart]
  simp only [Bool.false_eq_true, if_false, hread, bind, Except.bind,
    show skipSpace ('*' :: (Nat.toDigits 10 k.toNat ++ rest)) =
      '*' :: (Nat.toDigits 10 k.toNat ++ rest) from rfl, hskip, hword, String.toList_ofList,
    readDecimal_toDigits k.toNat_lt, UInt8.ofNat_toNat]
  rfl

theorem readTail_skipSpace (s : List Char) :
    readTail registerOfName? source n a (skipSpace s) = readTail registerOfName? source n a s := by
  unfold readTail
  rw [show skipSpace (skipSpace s) = skipSpace s from List.dropWhile_idempotent _ _]

/-- What follows the parts of an address but its displacement. -/
theorem headIn_dispText (disp : Int64) (s : List Char) :
    HeadIn [' ', ']'] ((dispText disp).toList ++ ']' :: s) := by
  unfold dispText
  split
  · simpa using HeadIn.cons (by decide) _
  split
  · simpa using HeadIn.cons (by decide) _
  · simpa using HeadIn.cons (by decide) _

theorem skipSpace_dispText (disp : Int64) (s s' : List Char) :
    skipSpace ((dispText disp).toList ++ ']' :: s) ≠ '*' :: s' := by
  unfold dispText
  split
  · simp [skipSpace]
  split
  · simp [skipSpace]
  · simp [skipSpace]

theorem indirect_text (base index : Option Operand) (scale : UInt8) (disp : Int64) (t : Ty) :
    (text (.indirect base index scale disp t)).toList = '[' :: ((match base, index with
      | none, none => (toString disp.toInt).toList
      | some b, none => b.text.toList ++ (dispText disp).toList
      | none, some i => i.text.toList ++ '*' ::
          (Nat.toDigits 10 (if scale == 0 then 1 else scale.toNat) ++ (dispText disp).toList)
      | some b, some i => b.text.toList ++ ' ' :: '+' :: ' ' :: (i.text.toList ++ '*' ::
          (Nat.toDigits 10 (if scale == 0 then 1 else scale.toNat) ++ (dispText disp).toList))) ++
      ']' :: ':' :: t.name.toList) := by
  cases base <;> cases index <;> simp [text, optionText, Nat.toList_repr]

variable {base index : Option Operand} {scale : UInt8} {disp : Int64}

/-- What follows the last part of an address that is no number. -/
def addressTail (disp : Int64) (t : Ty) (rest : List Char) : List Char :=
  (dispText disp).toList ++ ']' :: ':' :: (t.name.toList ++ rest)

theorem readAddress_base {b : Operand} (hb : Readable b) (hreads : ReadsBack source b)
    (hn : 3 * b.text.toList.length + 3 ≤ n) (hdisp : Int64.minValue < disp)
    (hrest : HeadIn stops rest) :
    ∃ b', readAddress registerOfName? source (n + 2) .empty false
        (b.text.toList ++ addressTail disp t rest) =
      .ok (.indirect (some b') none 0 disp t, rest) ∧ b'.nameless = b.nameless := by
  have htail : HeadIn stops (addressTail disp t rest) := fun c hc =>
    (by decide : ∀ c ∈ [' ', ']'], c ∈ stops) c (headIn_dispText disp _ c hc)
  obtain ⟨b', hterm, hsame⟩ := readTerm_plain (a := .empty) hb hreads hn htail
    (skipSpace_dispText disp _)
  refine ⟨b', ?_, hsame⟩
  rw [readAddress_succ, takeSign_operand hb]
  simp only [hterm, bind, Except.bind, readTail_skipSpace]
  exact readTail_dispText rfl hdisp hrest

theorem readAddress_index {i : Operand} {a : Address} (hi : Readable i)
    (hreads : ReadsBack source i) (hn : 3 * i.text.toList.length + 3 ≤ n) (hscale : scale ≠ 0)
    (hzero : a.disp = 0) (hdisp : Int64.minValue < disp) (hrest : HeadIn stops rest) :
    ∃ i', readAddress registerOfName? source (n + 2) a false (i.text.toList ++
        '*' :: (Nat.toDigits 10 scale.toNat ++ addressTail disp t rest)) =
      .ok (.indirect a.base (some i') scale disp t, rest) ∧ i'.nameless = i.nameless := by
  obtain ⟨i', hterm, hsame⟩ := readTerm_scaled (a := a) hi hreads hn scale
    (headIn_dispText disp (':' :: (t.name.toList ++ rest)))
  refine ⟨i', ?_, hsame⟩
  have htail : readTail registerOfName? source (n + 1) { a with index := some i', scale := scale }
      ((dispText disp).toList ++ ']' :: ':' :: (t.name.toList ++ rest)) = _ :=
    readTail_dispText hzero hdisp hrest
  have hclose : (scale == 0) = false := by simpa using hscale
  rw [readAddress_succ, takeSign_operand hi]
  simp only [addressTail, hterm, bind, Except.bind, htail, Address.close,
    Option.isSome_some, hclose, Bool.and_false, Bool.false_eq_true, if_false]

/-- Another part follows. -/
theorem readTail_plus (s : List Char) :
    readTail registerOfName? source (n + 1) a (' ' :: '+' :: ' ' :: s) =
      readAddress registerOfName? source (n + 1) a false s := by
  have htail : readTail registerOfName? source (n + 1) a (' ' :: '+' :: ' ' :: s) =
      readAddress registerOfName? source (n + 1) a false (' ' :: s) := rfl
  rw [htail, readAddress_succ, readAddress_succ, takeSign_space]

theorem readAddress_both {b i : Operand} (hb : Readable b) (hreads : ReadsBack source b)
    (hi : Readable i) (hreads' : ReadsBack source i)
    (hn : 3 * b.text.toList.length + 3 ≤ n + 1) (hn' : 3 * i.text.toList.length + 3 ≤ n)
    (hscale : scale ≠ 0) (hdisp : Int64.minValue < disp) (hrest : HeadIn stops rest) :
    ∃ b' i', readAddress registerOfName? source (n + 3) .empty false (b.text.toList ++
        ' ' :: '+' :: ' ' :: (i.text.toList ++
          '*' :: (Nat.toDigits 10 scale.toNat ++ addressTail disp t rest))) =
      .ok (.indirect (some b') (some i') scale disp t, rest) ∧ b'.nameless = b.nameless ∧
        i'.nameless = i.nameless := by
  obtain ⟨b', hterm, hsame⟩ := readTerm_plain (a := .empty) hb hreads hn
    (.cons (show ' ' ∈ stops by decide) ('+' :: ' ' :: (i.text.toList ++
      '*' :: (Nat.toDigits 10 scale.toNat ++ addressTail disp t rest))))
    (fun s hs => absurd (List.cons.inj hs).1 (by decide))
  obtain ⟨i', hindex, hsame'⟩ :=
    readAddress_index (a := Address.empty.add b') (t := t) hi hreads' hn'
    hscale rfl hdisp hrest
  refine ⟨b', i', ?_, hsame, hsame'⟩
  rw [readAddress_succ, takeSign_operand hb]
  simp only [hterm, bind, Except.bind, readTail_skipSpace, readTail_plus]
  exact hindex

/-- An address without parts is its displacement. -/
theorem readAddress_disp (hdisp : Int64.minValue < disp) (hrest : HeadIn stops rest) :
    readAddress registerOfName? source (n + 1) .empty false
        ((toString disp.toInt).toList ++ ']' :: ':' :: (t.name.toList ++ rest)) =
      .ok (.indirect none none 0 disp t, rest) := by
  have hmin : -2 ^ 63 < disp.toInt := Int64.lt_iff_toInt_lt.mp hdisp
  have hlt := disp.toInt_lt
  rcases Int.lt_or_le disp.toInt 0 with hneg | hpos
  · have hsign := takeSign_minus disp.toInt.natAbs (']' :: ':' :: (t.name.toList ++ rest))
    rw [toString_of_neg hneg, List.cons_append, readAddress_number hsign (by omega) hrest]
    have hself : (0 : Int64) - Int64.ofNat disp.toInt.natAbs = disp := by
      rw [Int64.zero_sub, ← Int64.ofInt_eq_ofNat, Int.ofNat_natAbs_of_nonpos hneg.le,
        Int64.ofInt_neg, Int64.neg_neg, Int64.ofInt_toInt]
    simp only [if_true, Address.empty, Address.close, hself]
    rfl
  · have hsign := takeSign_toDigits false disp.toInt.natAbs (']' :: ':' :: (t.name.toList ++ rest))
    rw [toString_of_nonneg hpos, readAddress_number hsign (by omega) hrest]
    have hself : (0 : Int64) + Int64.ofNat disp.toInt.natAbs = disp := by
      rw [Int64.zero_add, ← Int64.ofInt_eq_ofNat, Int.natAbs_of_nonneg hpos, Int64.ofInt_toInt]
    simp only [Bool.false_eq_true, if_false, Address.empty, Address.close, hself]
    rfl

theorem readsBack_indirect (hbase : ∀ o, base = some o → Readable o ∧ ReadsBack source o)
    (hindex : ∀ o, index = some o → Readable o ∧ ReadsBack source o)
    (hscaled : scale = 0 ↔ index = none) (hdisp : Int64.minValue < disp) :
    ReadsBack source (.indirect base index scale disp t) := by
  intro n rest hn hrest
  have htext := indirect_text base index scale disp t
  obtain ⟨n, rfl⟩ : ∃ m, n = m + 5 := ⟨n - 5, by
    rw [htext] at hn
    simp only [List.length_cons, List.length_append] at hn
    omega⟩
  cases base with
  | none =>
    cases index with
    | none =>
      obtain rfl : scale = 0 := hscaled.mpr rfl
      refine ⟨_, ?_, rfl⟩
      rw [htext, List.cons_append, readOperand_address, List.append_assoc]
      exact readAddress_disp hdisp hrest
    | some i =>
      obtain ⟨hi, hreads⟩ := hindex i rfl
      have hscale : scale ≠ 0 := fun h => nomatch hscaled.mp h
      have hlen : 3 * i.text.toList.length + 3 ≤ n + 2 := by
        rw [htext] at hn
        simp only [List.length_cons, List.length_append] at hn
        omega
      obtain ⟨i', hread, hsame⟩ :=
        readAddress_index (a := .empty) (t := t) hi hreads hlen hscale rfl
        hdisp hrest
      refine ⟨.indirect none (some i') scale disp t, ?_, ?_⟩
      · rw [htext, List.cons_append, readOperand_address]
        simpa [addressTail, hscale, Address.empty] using hread
      · simp [nameless, namelessSlot, hsame]
  | some b =>
    obtain ⟨hb, hreads⟩ := hbase b rfl
    cases index with
    | none =>
      obtain rfl : scale = 0 := hscaled.mpr rfl
      have hlen : 3 * b.text.toList.length + 3 ≤ n + 2 := by
        rw [htext] at hn
        simp only [List.length_cons, List.length_append] at hn
        omega
      obtain ⟨b', hread, hsame⟩ := readAddress_base (t := t) hb hreads hlen hdisp hrest
      refine ⟨.indirect (some b') none 0 disp t, ?_, ?_⟩
      · rw [htext, List.cons_append, readOperand_address]
        simpa [addressTail] using hread
      · simp [nameless, namelessSlot, hsame]
    | some i =>
      obtain ⟨hi, hreads'⟩ := hindex i rfl
      have hscale : scale ≠ 0 := fun h => nomatch hscaled.mp h
      have hlen : 3 * b.text.toList.length + 3 ≤ n + 1 + 1 ∧
          3 * i.text.toList.length + 3 ≤ n + 1 := by
        rw [htext] at hn
        simp only [List.length_cons, List.length_append] at hn
        omega
      obtain ⟨b', i', hread, hsame, hsame'⟩ := readAddress_both (t := t) hb hreads hi hreads' hlen.1
        hlen.2 hscale hdisp hrest
      refine ⟨.indirect (some b') (some i') scale disp t, ?_, ?_⟩
      · rw [htext, List.cons_append, readOperand_address]
        simpa [addressTail, hscale, Address.empty] using hread
      · simp [nameless, namelessSlot, hsame, hsame']

end Address

/-! ## Lists -/

section Lists

variable {source rest : List Char}

/-- The items after the first, as they are written. -/
def itemsTail (items : List Operand) : List Char :=
  items.flatMap fun o => ',' :: ' ' :: o.text.toList

theorem texts_eq (items : List Operand) : texts items = items.map text := by
  induction items with
  | nil => rfl
  | cons o rest ih => rw [texts, ih, List.map_cons]

theorem intercalate_comma (t : String) (ts : List String) :
    (", ".intercalate (t :: ts)).toList =
      t.toList ++ ts.flatMap fun u => ',' :: ' ' :: u.toList := by
  rw [String.toList_intercalate]
  induction ts generalizing t with
  | nil => simp
  | cons u ts ih =>
    have hrest := ih u
    simp only [List.map_cons] at hrest ⊢
    rw [List.intercalate_cons_cons, hrest]
    simp

theorem intercalate_items (o : Operand) (items : List Operand) :
    (", ".intercalate (texts (o :: items))).toList = o.text.toList ++ itemsTail items := by
  rw [texts_eq, List.map_cons, intercalate_comma, List.flatMap_map]
  rfl

theorem readItems_text (items : List Operand) (o : Operand) {n : Nat}
    (hitems : ∀ p ∈ o :: items, ReadsBack source p)
    (hn : 3 * (o.text.toList ++ itemsTail items).length + 4 ≤ n) :
    ∃ items', readItems registerOfName? source n
        (o.text.toList ++ (itemsTail items ++ ')' :: rest)) = .ok (items', rest) ∧
      namelessItems items' = namelessItems (o :: items) := by
  induction items generalizing o n with
  | nil =>
    obtain ⟨n, rfl⟩ : ∃ m, n = m + 1 := ⟨n - 1, by omega⟩
    obtain ⟨o', hread, hsame⟩ := hitems o List.mem_cons_self n (')' :: rest)
      (by simp [itemsTail] at hn; omega) (.cons (by decide) _)
    refine ⟨[o'], ?_, by simp [namelessItems, hsame]⟩
    rw [readItems]
    simp only [itemsTail, List.flatMap_nil, List.nil_append, hread, bind, Except.bind]
    rfl
  | cons p items ih =>
    obtain ⟨n, rfl⟩ : ∃ m, n = m + 1 := ⟨n - 1, by omega⟩
    have htail : itemsTail (p :: items) = ',' :: ' ' :: (p.text.toList ++ itemsTail items) := by
      simp [itemsTail]
    rw [htail] at hn
    simp only [List.length_append, List.length_cons] at hn
    obtain ⟨o', hread, hsame⟩ := hitems o List.mem_cons_self n
      (',' :: ' ' :: (p.text.toList ++ (itemsTail items ++ ')' :: rest))) (by omega)
      (.cons (by decide) _)
    obtain ⟨items', hrest, hsame'⟩ := ih p (n := n)
      (fun q hq => hitems q (List.mem_cons_of_mem _ hq)) (by rw [List.length_append]; omega)
    refine ⟨o' :: items', ?_, by rw [namelessItems, hsame, hsame']; rfl⟩
    obtain ⟨n, rfl⟩ : ∃ m, n = m + 2 := ⟨n - 2, by omega⟩
    have hspace : readItems registerOfName? source (n + 2)
        (' ' :: (p.text.toList ++ (itemsTail items ++ ')' :: rest))) = .ok (items', rest) := by
      rw [readItems, readOperand_space]
      rw [readItems] at hrest
      exact hrest
    rw [readItems]
    simp only [htail, List.cons_append, List.append_assoc, hread, bind, Except.bind,
      show skipSpace (',' :: ' ' :: (p.text.toList ++ (itemsTail items ++ ')' :: rest))) =
        ',' :: ' ' :: (p.text.toList ++ (itemsTail items ++ ')' :: rest)) from rfl, hspace]
    rfl

/-- An operand is read at any bound but zero if it has no parts. -/
theorem readsBack_simple {o : Operand} (h : ∀ n rest, HeadIn stops rest →
    ∃ o', readOperand registerOfName? source (n + 1) (o.text.toList ++ rest) = .ok (o', rest) ∧
      o'.nameless = o.nameless) : ReadsBack source o := by
  intro n rest hn hrest
  obtain ⟨n, rfl⟩ : ∃ m, n = m + 1 := ⟨n - 1, by omega⟩
  exact h n rest hrest

theorem list_text (items : List Operand) :
    (text (.list items)).toList = '(' :: ((", ".intercalate (texts items)).toList ++ [')']) := by
  simp [text]

theorem readsBack_list {items : List Operand} (hreadable : ∀ o ∈ items, Readable o)
    (hreads : ∀ o ∈ items, ReadsBack source o) : ReadsBack source (.list items) := by
  intro n rest hn hrest
  rw [list_text] at hn ⊢
  obtain ⟨n, rfl⟩ : ∃ m, n = m + 1 := ⟨n - 1, by omega⟩
  cases items with
  | nil => exact ⟨.list [], readOperand_emptyList rest, rfl⟩
  | cons o items =>
    rw [intercalate_items] at hn ⊢
    simp only [List.length_cons, List.length_append] at hn
    obtain ⟨items', hread, hsame⟩ : ∃ items', readItems registerOfName? source n
        (o.text.toList ++ (itemsTail items ++ ')' :: rest)) = .ok (items', rest) ∧ _ :=
      readItems_text items o hreads (by rw [List.length_append]; omega)
    refine ⟨.list items', ?_, by rw [nameless, hsame]; rfl⟩
    obtain ⟨c, s, hs, hc⟩ := text_starts (hreadable o List.mem_cons_self)
    simp only [List.cons_append, List.append_assoc, List.nil_append, hs] at hread ⊢
    rw [readOperand_items hc, hread]
    rfl

/-- An operand that can be read is read back. -/
theorem readsBack {o : Operand} (h : Readable o) (hprint : Printable o) (source : List Char) :
    ReadsBack source o := by
  induction h with
  | @reg r named =>
    cases hprint with
    | reg width =>
      refine readsBack_simple fun n rest hrest => ?_
      obtain ⟨r', hread, hsame⟩ : ∃ r', readNamed registerOfName? source (r.text.toList ++ rest) =
          .ok (.reg r', rest) ∧ _ := readNamed_reg named width hrest
      refine ⟨.reg r', ?_, by rw [nameless, hsame]; rfl⟩
      obtain ⟨c, s, hs, hc⟩ := reg_text_starts named
      rw [text]
      rw [hs, List.cons_append] at hread ⊢
      rw [readOperand_named hc, hread]
  | stack offset t =>
    refine readsBack_simple fun n rest hrest => ⟨_, ?_, rfl⟩
    have hword : word [] ("stack".toList ++ '(' :: ((toString offset.toInt).toList ++
        ')' :: ':' :: (t.name.toList ++ rest))) = ("stack", _) :=
      word_append (by decide) (.cons (List.mem_singleton_self '(') _) (by decide)
    have hread : readStackSlot source _ = _ := readStackSlot_text offset t hrest
    rw [stack_text, List.append_assoc, List.cons_append, List.append_assoc]
    simp only [List.cons_append]
    rw [show "stack".toList = 's' :: "tack".toList from rfl, List.cons_append] at hword ⊢
    rw [readOperand_named (by decide), readNamed]
    simp only [hword, beq_self_eq_true]
    exact hread
  | @var v word =>
    refine readsBack_simple fun n rest hrest => ⟨_, ?_, rfl⟩
    rw [text, var_text, List.cons_append, readOperand_var]
    simpa using readVar_text word hrest
  | @imm l literal =>
    refine readsBack_simple fun n rest hrest => ⟨_, ?_, rfl⟩
    obtain ⟨s, hs, hread⟩ := readLiteral_text literal hrest
    rw [text, hs, List.cons_append, readOperand_literal, hread]
  | indirect readsBase readsIndex scaled ihBase ihIndex =>
    cases hprint with
    | indirect printsBase printsIndex disp_gt =>
      exact readsBack_indirect (fun o ho => ⟨readsBase o ho, ihBase o ho (printsBase o ho)⟩)
        (fun o ho => ⟨readsIndex o ho, ihIndex o ho (printsIndex o ho)⟩) scaled disp_gt
  | @symbol s word const =>
    refine readsBack_simple fun n rest hrest => ⟨_, ?_, rfl⟩
    rw [text, symbol_text, List.cons_append, readOperand_symbol]
    simpa using readSymbol_text word const hrest
  | @label l word =>
    refine readsBack_simple fun n rest hrest => ⟨_, ?_, rfl⟩
    rw [text, label_text, List.cons_append, readOperand_label]
    simpa using readLabel_text word hrest
  | list reads ih =>
    cases hprint with
    | list prints => exact readsBack_list reads fun o ho => ih o ho (prints o ho)

end Lists

/-- Reading undoes writing, also after a space. -/
theorem parse_text_gap {o : Operand} (h : Readable o) (hprint : Printable o) {gap : List Char}
    (hgap : gap = [] ∨ gap = [' ']) :
    ∃ o', parse registerOfName? (gap ++ o.text.toList) = .ok o' ∧ o'.nameless = o.nameless := by
  have hbound : 3 * o.text.toList.length + 3 ≤ readBound (gap ++ o.text.toList) := by
    rw [readBound, List.length_append]
    omega
  obtain ⟨o', hread, hsame⟩ := readsBack h hprint (gap ++ o.text.toList) _ [] hbound (HeadIn.nil _)
  rw [List.append_nil] at hread
  refine ⟨o', ?_, hsame⟩
  have hread' : readOperand registerOfName? (gap ++ o.text.toList)
      (readBound (gap ++ o.text.toList)) (gap ++ o.text.toList) = .ok (o', []) := by
    rcases hgap with rfl | rfl
    · exact hread
    · rw [← hread]
      exact readOperand_space o.text.toList
  simp only [parse, hread', bind, Except.bind]
  rfl

/-- Reading undoes writing. -/
theorem parse_text {o : Operand} (h : Readable o) (hprint : Printable o) :
    ∃ o', parse registerOfName? o.text.toList = .ok o' ∧ o'.nameless = o.nameless :=
  parse_text_gap h hprint (.inl rfl)

end Backend.Operand
