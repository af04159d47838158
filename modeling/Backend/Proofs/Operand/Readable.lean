-- The operands that can be read: what the reader returns names variables, symbols and labels by
-- words, names registers as the table does, and gives an index a scale.
import Backend.Proofs.Machine.State
import Backend.Proofs.Target.Registers
import Mathlib.Data.List.TakeWhile

namespace Backend

/-! ## Words -/

namespace Operand

/-- The longest word is made of the characters of a word. -/
theorem word_chars {extra s : List Char} {c : Char} (h : c ∈ (word extra s).1.toList) :
    isWordChar c = true ∨ c ∈ extra := by
  simp only [word, String.toList_ofList] at h
  simpa using List.mem_takeWhile_imp h

/-- A text that is read as one word with some extra characters. -/
structure IsWord (extra : List Char) (name : String) : Prop where
  ne_empty : name ≠ ""
  chars : ∀ c ∈ name.toList, isWordChar c = true ∨ c ∈ extra

theorem isWord_word {extra s : List Char} (h : ¬ ((word extra s).1 == "") = true) :
    IsWord extra (word extra s).1 :=
  ⟨by simpa using h, fun _ => word_chars⟩

end Operand

/-! ## Floats that are read -/

namespace Float

theorem Binary64.magnitude_ofMagnitude (negative : Bool) {m : Nat} (h : m < 2 ^ 63) :
    (Binary64.ofMagnitude negative m).magnitude = m := by
  have hpow : Nat.pow 2 63 = 2 ^ 63 := rfl
  simp only [ofMagnitude, magnitude, hpow, UInt64.toNat_ofNat']
  cases negative <;> simp only [Bool.false_eq_true, if_false, if_true] <;> omega

theorem nearestMagnitude?_lt {value base m : Nat} {exponent : Int}
    (h : nearestMagnitude? value base exponent = some m) : m < Format.binary64.infinity := by
  unfold nearestMagnitude? at h
  simp only [Option.ite_none_right_eq_some, Option.some.injEq] at h
  exact h.2 ▸ h.1

theorem magnitude?_lt {s : List Char} {m : Nat} (h : magnitude? s = some m) :
    m < Format.binary64.infinity := by
  have hdecimal : ∀ s, decimalMagnitude? s = some m → m < Format.binary64.infinity := by
    intro s h
    simp only [decimalMagnitude?, Option.bind_eq_bind] at h
    split at h
    · cases h
    · obtain ⟨⟨e, rest⟩, -, h⟩ := Option.bind_eq_some_iff.mp h
      simp only [Option.ite_none_right_eq_some] at h
      exact nearestMagnitude?_lt h.2
  have hhex : ∀ s, hexMagnitude? s = some m → m < Format.binary64.infinity := by
    intro s h
    simp only [hexMagnitude?, Option.bind_eq_bind] at h
    split at h
    · cases h
    · obtain ⟨⟨e, rest⟩, -, h⟩ := Option.bind_eq_some_iff.mp h
      simp only [Option.ite_none_right_eq_some] at h
      exact nearestMagnitude?_lt h.2
  unfold magnitude? at h
  split at h
  · split at h
    · exact hhex _ h
    · exact hdecimal _ h
  · exact hdecimal _ h

/-- A numeral is never read as a NaN but for the one that `nan` stands for. -/
theorem nan_of_read? {s : List Char} {x : Binary64} (h : read? s = some x) :
    x = .nan ∨ x.isNaN = false := by
  have hfinite : ∀ negative m, m ≤ Format.binary64.infinity →
      (Binary64.ofMagnitude negative m).isNaN = false := by
    intro negative m hm
    have hinf : Format.binary64.infinity < 2 ^ 63 := by decide
    rw [Binary64.isNaN, Binary64.magnitude_ofMagnitude negative (by omega), decide_eq_false_iff_not]
    omega
  unfold read? at h
  generalize splitSign s = parts at h
  obtain ⟨sign, unsigned⟩ := parts
  simp only at h
  split at h
  · rw [← Option.some.inj h]
    exact .inr (hfinite _ _ (Nat.le_refl _))
  · split at h
    · exact .inl (Option.some.inj h).symm
    · obtain ⟨m, hm, h⟩ := Option.bind_eq_some_iff.mp h
      split at h
      · cases h
      · rw [← Option.some.inj h]
        exact .inr (hfinite _ _ (magnitude?_lt hm).le)

end Float

/-- The literals that can be read: booleans are zero or one, and there is one NaN. -/
def Literal.Readable : Literal → Prop
  | .float _ x => x = .nan ∨ x.isNaN = false
  | .bool w => w = 0 ∨ w = 1
  | _ => True

open Backend.Text

namespace Operand

/-- A register without a name, or as the table names it. A float register of the table may be
accessed as a single. -/
def Named (r : Reg) : Prop :=
  r.name = "" ∨ registerOfName? r.name = some r ∨
    (r.cls = .float ∧ r.width = 4 ∧ registerOfName? r.name = some { r with width := 8 })

/-- The operands that can be read. -/
inductive Readable : Operand → Prop
  | reg {r : Reg} (named : Named r) : Readable (.reg r)
  | stack (offset : Int64) (t : Ty) : Readable (.stack offset t)
  | var {v : Var} (word : IsWord ['.'] v.ident) : Readable (.var v)
  | imm {l : Literal} (literal : l.Readable) : Readable (.imm l)
  | indirect {base index : Option Operand} {scale : UInt8} {disp : Int64} {t : Ty}
      (readsBase : ∀ o, base = some o → Readable o) (readsIndex : ∀ o, index = some o → Readable o)
      (scaled : scale = 0 ↔ index = none) : Readable (.indirect base index scale disp t)
  | symbol {s : Symbol} (word : IsWord ['.', '$', '/'] s.name) (const : s.const = none) :
      Readable (.symbol s)
  | label {l : Label} (word : IsWord ['.', '$', '/'] l.name) : Readable (.label l)
  | list {items : List Operand} (reads : ∀ o ∈ items, Readable o) : Readable (.list items)

section Parts

variable {source s : List Char} {o : Operand} {rest : List Char}

theorem readVar_readable (h : readVar source s = .ok (o, rest)) : Readable o := by
  unfold readVar at h
  simp only at h
  split at h
  · cases h
  · rename_i hword
    obtain ⟨⟨t?, s'⟩, -, h⟩ := bind_eq_ok.mp h
    cases t? with
    | none => cases h
    | some t =>
      simp only at h
      split at h
      · cases h
      · obtain ⟨rfl, -⟩ := Prod.mk.inj (Except.ok.inj h)
        exact .var (isWord_word hword)

theorem readSymbol_readable (h : readSymbol source s = .ok (o, rest)) : Readable o := by
  unfold readSymbol at h
  simp only at h
  split at h
  · cases h
  · rename_i hword
    obtain ⟨⟨t?, s'⟩, -, h⟩ := bind_eq_ok.mp h
    simp only at h
    split at h
    · cases h
    · obtain ⟨rfl, -⟩ := Prod.mk.inj (Except.ok.inj h)
      exact .symbol (isWord_word hword) rfl

theorem readLabel_readable (h : readLabel source s = .ok (o, rest)) : Readable o := by
  unfold readLabel at h
  simp only at h
  split at h
  · cases h
  · rename_i hword
    split at h
    · cases h
    · obtain ⟨rfl, -⟩ := Prod.mk.inj (Except.ok.inj h)
      exact .label (isWord_word hword)

theorem readable_ofInt (t : Ty) (value : Int64) : (Literal.ofInt t value).Readable := by
  unfold Literal.ofInt
  split
  · simp only [Literal.Readable]
    split <;> simp
  · split <;> trivial

theorem readNumber_readable {numeral : String} {t : Ty} {l : Literal}
    (h : readNumber numeral t = .ok l) : l.Readable := by
  unfold readNumber at h
  split at h
  · split at h
    · rename_i x hx
      obtain rfl := Except.ok.inj h
      unfold Literal.ofFloat
      split <;> exact Float.nan_of_read? hx
    · cases h
  · split at h
    · obtain rfl := Except.ok.inj h
      exact readable_ofInt t _
    · cases h

theorem readLiteral_readable (h : readLiteral s = .ok (o, rest)) : Readable o := by
  unfold readLiteral at h
  split at h
  · split at h
    · obtain ⟨rfl, -⟩ := Prod.mk.inj (Except.ok.inj h)
      exact .imm trivial
    · cases h
  · simp only at h
    split at h
    · obtain ⟨rfl, -⟩ := Prod.mk.inj (Except.ok.inj h)
      exact .imm (.inr rfl)
    · split at h
      · obtain ⟨rfl, -⟩ := Prod.mk.inj (Except.ok.inj h)
        exact .imm (.inl rfl)
      · obtain ⟨⟨t?, s'⟩, -, h⟩ := bind_eq_ok.mp h
        obtain ⟨l, hl, h⟩ := bind_eq_ok.mp h
        obtain ⟨rfl, -⟩ := Prod.mk.inj (Except.ok.inj h)
        exact .imm (readNumber_readable hl)

theorem readStackSlot_readable (h : readStackSlot source s = .ok (o, rest)) : Readable o := by
  unfold readStackSlot at h
  simp only at h
  split at h
  · cases h
  · split at h
    · obtain ⟨⟨t?, s'⟩, -, h⟩ := bind_eq_ok.mp h
      cases t? with
      | none => cases h
      | some t =>
        obtain ⟨rfl, -⟩ := Prod.mk.inj (Except.ok.inj h)
        exact .stack _ t
    · cases h

theorem named_retype {name : String} {r r' : Reg} {t : Ty} (hr : TableRegister r)
    (h : retype name r t = .ok r') : Named r' := by
  unfold retype at h
  split at h
  · cases h
  · rename_i hclass
    obtain rfl := Except.ok.inj h
    obtain ⟨index, width, cls, name'⟩ := r
    cases cls with
    | int =>
      by_cases hw : width.toNat = t.size
      · right; left
        have hwidth : UInt8.ofNat t.size = width := by rw [← hw, UInt8.ofNat_toNat]
        simpa [hw, hwidth] using hr.known
      · exact .inl (by simp [hw])
    | float =>
      obtain rfl : width = 8 := hr.width rfl
      have ht : t = .f32 ∨ t = .f64 := by
        cases t <;> simp_all [Ty.isFloat]
      right
      rcases ht with rfl | rfl
      · exact .inr ⟨rfl, rfl, hr.known⟩
      · exact .inl hr.known

theorem readNamed_readable (h : readNamed registerOfName? source s = .ok (o, rest)) :
    Readable o := by
  unfold readNamed at h
  simp only at h
  split at h
  · exact readStackSlot_readable h
  · obtain ⟨⟨t?, s'⟩, -, h⟩ := bind_eq_ok.mp h
    simp only at h
    split at h
    · rename_i r hr
      obtain ⟨rfl, -⟩ := Prod.mk.inj (Except.ok.inj h)
      exact .reg (.inr (.inl (tableRegister hr).known))
    · rename_i r t hr
      obtain ⟨r', hr', h⟩ := bind_eq_ok.mp h
      obtain ⟨rfl, -⟩ := Prod.mk.inj (Except.ok.inj h)
      exact .reg (named_retype (tableRegister hr) hr')
    · cases h
    · split at h
      · rename_i r hr
        obtain ⟨rfl, -⟩ := Prod.mk.inj (Except.ok.inj h)
        refine .reg (.inl ?_)
        unfold numberedRegister? at hr
        split at hr
        · split at hr
          · split at hr
            · rw [← Option.some.inj hr]
            · cases hr
          · cases hr
        · cases hr
      · cases h

end Parts

/-! ## Memory operands and lists -/

/-- One part of an address: a number goes into the displacement. -/
def readTerm (regs : RegisterTable) (source : List Char) (n : Nat) (a : Address) (minus : Bool)
    (s : List Char) : Except OperandError (Address × List Char) :=
  match s with
  | c :: _ =>
    if '0' ≤ c && c ≤ '9' then
      match readInt64 (word [] s).1.toList with
      | .ok d => .ok ({ a with disp := if minus then a.disp - d else a.disp + d }, (word [] s).2)
      | .error _ => .error (.badDisplacement (word [] s).1)
    else readPart regs source n a minus s
  | [] => readPart regs source n a minus s

/-- What follows a part of an address: the end, or a sign and the next part. -/
def readTail (regs : RegisterTable) (source : List Char) (n : Nat) (a : Address) (s : List Char) :
    Except OperandError (Operand × List Char) :=
  match skipSpace s with
  | ']' :: s => do
    match ← typeSuffix s with
    | (none, _) => throw (.untypedMemory (String.ofList source))
    | (some t, s) => pure (a.close t, s)
  | '+' :: s => readAddress regs source n a false s
  | '-' :: s => readAddress regs source n a true s
  | _ => throw (.unterminatedMemory (String.ofList source))

theorem readAddress_succ (regs : RegisterTable) (source : List Char) (n : Nat) (a : Address)
    (minus : Bool) (s : List Char) :
    readAddress regs source (n + 1) a minus s =
      readTerm regs source n a (takeSign minus s).1 (takeSign minus s).2 >>= fun p =>
        readTail regs source n p.1 p.2 := by
  rw [readAddress]
  generalize takeSign minus s = signed
  obtain ⟨minus, s⟩ := signed
  unfold readTerm
  cases s with
  | nil => rfl
  | cons c s =>
    dsimp only
    split
    · cases readInt64 (word [] (c :: s)).1.toList <;> rfl
    · rfl
/-- The parts of an address can be read, and a scale belongs to an index. -/
structure Address.Readable (a : Address) : Prop where
  base : ∀ o, a.base = some o → Operand.Readable o
  index : ∀ o, a.index = some o → Operand.Readable o
  scaled : a.index = none → a.scale = 0

theorem Address.Readable.empty : Address.empty.Readable :=
  ⟨fun _ h => (nomatch h), fun _ h => (nomatch h), fun _ => rfl⟩

theorem Address.Readable.close {a : Address} (h : a.Readable) (t : Ty) :
    Operand.Readable (a.close t) := by
  refine .indirect h.base h.index ?_
  cases hindex : a.index with
  | none => simp [h.scaled hindex]
  | some o =>
    by_cases hzero : a.scale = 0 <;> simp [hzero]

theorem Address.Readable.add {a : Address} {o : Operand} (h : a.Readable)
    (ho : Operand.Readable o) : (a.add o).Readable := by
  unfold Address.add
  split
  · rename_i hbase
    exact ⟨fun o' ho' => Option.some.inj ho' ▸ ho, h.index, h.scaled⟩
  · exact ⟨h.base, fun o' ho' => Option.some.inj ho' ▸ ho, by simp⟩

/-- What the readers return at one bound on their recursion. -/
structure ReadsReadable (source : List Char) (n : Nat) : Prop where
  operand : ∀ s o rest, readOperand registerOfName? source n s = .ok (o, rest) → Readable o
  address : ∀ a minus s o rest, a.Readable →
    readAddress registerOfName? source n a minus s = .ok (o, rest) → Readable o
  part : ∀ a minus s a' rest, a.Readable →
    readPart registerOfName? source n a minus s = .ok (a', rest) → a'.Readable
  items : ∀ s items rest, readItems registerOfName? source n s = .ok (items, rest) →
    ∀ o ∈ items, Readable o

theorem reads_readable (source : List Char) (n : Nat) : ReadsReadable source n := by
  induction n with
  | zero =>
    refine ⟨?_, ?_, ?_, ?_⟩
    · intro s o rest h
      simp [readOperand] at h
    · intro a minus s o rest _ h
      simp [readAddress] at h
    · intro a minus s a' rest _ h
      simp [readPart] at h
    · intro s items rest h
      simp [readItems] at h
  | succ n ih =>
    refine ⟨?_, ?_, ?_, ?_⟩
    · intro s o rest h
      unfold readOperand at h
      split at h
      · cases h
      · cases h
      · exact readVar_readable h
      · exact readLiteral_readable h
      · exact readSymbol_readable h
      · exact readLabel_readable h
      · exact ih.address _ _ _ _ _ .empty h
      · split at h
        · obtain ⟨rfl, -⟩ := Prod.mk.inj (Except.ok.inj h)
          exact .list fun _ h => absurd h List.not_mem_nil
        · obtain ⟨⟨items, s'⟩, hitems, h⟩ := bind_eq_ok.mp h
          obtain ⟨rfl, -⟩ := Prod.mk.inj (Except.ok.inj h)
          exact .list (ih.items _ _ _ hitems)
      · exact readNamed_readable h
    · intro a minus s o rest ha h
      rw [readAddress_succ] at h
      obtain ⟨⟨a', s'⟩, hterm, h⟩ := bind_eq_ok.mp h
      have ha' : a'.Readable := by
        unfold readTerm at hterm
        split at hterm
        · split at hterm
          · split at hterm
            · obtain ⟨rfl, -⟩ := Prod.mk.inj (Except.ok.inj hterm)
              exact ⟨ha.base, ha.index, ha.scaled⟩
            · cases hterm
          · exact ih.part _ _ _ _ _ ha hterm
        · exact ih.part _ _ _ _ _ ha hterm
      unfold readTail at h
      split at h
      · obtain ⟨⟨t?, s''⟩, -, h⟩ := bind_eq_ok.mp h
        cases t? with
        | none => cases h
        | some t =>
          obtain ⟨rfl, -⟩ := Prod.mk.inj (Except.ok.inj h)
          exact ha'.close t
      · exact ih.address _ _ _ _ _ ha' h
      · exact ih.address _ _ _ _ _ ha' h
      · cases h
    · intro a minus s a' rest ha h
      unfold readPart at h
      split at h
      · cases h
      · obtain ⟨⟨o, s'⟩, ho, h⟩ := bind_eq_ok.mp h
        have hread := ih.operand _ _ _ ho
        simp only at h
        split at h
        · split at h
          · obtain ⟨rfl, -⟩ := Prod.mk.inj (Except.ok.inj h)
            exact ⟨ha.base, fun o' ho' => Option.some.inj ho' ▸ hread,
              fun h => absurd h (Option.some_ne_none o)⟩
          · cases h
        · obtain ⟨rfl, -⟩ := Prod.mk.inj (Except.ok.inj h)
          exact ha.add hread
    · intro s items rest h
      unfold readItems at h
      obtain ⟨⟨o, s'⟩, ho, h⟩ := bind_eq_ok.mp h
      have hread := ih.operand _ _ _ ho
      simp only at h
      split at h
      · obtain ⟨⟨items', s''⟩, hitems, h⟩ := bind_eq_ok.mp h
        obtain ⟨rfl, -⟩ := Prod.mk.inj (Except.ok.inj h)
        exact List.forall_mem_cons.mpr ⟨hread, ih.items _ _ _ hitems⟩
      · obtain ⟨rfl, -⟩ := Prod.mk.inj (Except.ok.inj h)
        exact List.forall_mem_singleton.mpr hread
      · cases h

/-- What is read as an operand can be read. -/
theorem readable_of_parse {s : List Char} {o : Operand} (h : parse registerOfName? s = .ok o) :
    Readable o := by
  obtain ⟨⟨o', rest⟩, hread, h⟩ := bind_eq_ok.mp h
  simp only at h
  split at h
  · obtain rfl := Except.ok.inj h
    exact (reads_readable s _).operand _ _ _ hread
  · cases h

end Operand

/-! ## Names and widths -/

/-- The register without the name that is shown for it. -/
def Reg.nameless (r : Reg) : Reg := { r with name := "" }

/-- The register is accessed at a width that registers of its class have. -/
def Reg.HasWidth (r : Reg) : Prop :=
  match r.cls with
  | .int => r.width ∈ [1, 2, 4, 8]
  | .float => r.width ∈ [4, 8]

instance (r : Reg) : Decidable r.HasWidth := by
  unfold Reg.HasWidth
  split <;> infer_instance

theorem Reg.HasWidth.size {r : Reg} (h : r.HasWidth) : UInt8.ofNat r.ty.size = r.width := by
  obtain ⟨index, width, cls, name⟩ := r
  cases cls with
  | int =>
    simp only [HasWidth, List.mem_cons, List.not_mem_nil, or_false] at h
    rcases h with rfl | rfl | rfl | rfl <;> rfl
  | float =>
    simp only [HasWidth, List.mem_cons, List.not_mem_nil, or_false] at h
    rcases h with rfl | rfl <;> rfl

theorem Reg.isFloat_ty (r : Reg) : r.ty.isFloat = (r.cls == .float) := by
  obtain ⟨index, width, cls, name⟩ := r
  cases cls with
  | int =>
    simp only [Reg.ty, Ty.ofIntWidth]
    split
    · rfl
    split
    · rfl
    split <;> rfl
  | float =>
    simp only [Reg.ty, Ty.ofFloatWidth]
    split <;> rfl

namespace Operand

mutual

/-- The operand without the names of its registers. -/
def nameless : Operand → Operand
  | .reg r => .reg r.nameless
  | .indirect base index scale disp t =>
    .indirect (namelessSlot base) (namelessSlot index) scale disp t
  | .list items => .list (namelessItems items)
  | o => o

/-- A slot without the names of its registers. -/
def namelessSlot : Option Operand → Option Operand
  | none => none
  | some o => some o.nameless

def namelessItems : List Operand → List Operand
  | [] => []
  | o :: rest => o.nameless :: namelessItems rest

end

/-- The registers in the operand have widths of their class, and the displacements have a magnitude
that is a displacement. -/
inductive Printable : Operand → Prop
  | reg {r : Reg} (width : r.HasWidth) : Printable (.reg r)
  | stack (offset : Int64) (t : Ty) : Printable (.stack offset t)
  | var (v : Var) : Printable (.var v)
  | imm (l : Literal) : Printable (.imm l)
  | indirect {base index : Option Operand} {scale : UInt8} {disp : Int64} {t : Ty}
      (printsBase : ∀ o, base = some o → Printable o)
      (printsIndex : ∀ o, index = some o → Printable o) (disp_gt : Int64.minValue < disp) :
      Printable (.indirect base index scale disp t)
  | symbol (s : Symbol) : Printable (.symbol s)
  | label (l : Label) : Printable (.label l)
  | list {items : List Operand} (prints : ∀ o ∈ items, Printable o) : Printable (.list items)

end Operand

end Backend
