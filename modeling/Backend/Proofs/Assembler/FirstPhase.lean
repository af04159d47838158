-- What a linker makes of the text of a unit, and the first phase of assembling it: each instruction
-- adds its bytes, its relocation or a reserved branch, and labels get the offset at which they
-- stand.
import Backend.Assembler
import Backend.Proofs.CodeUnit.Symbols
import Backend.Proofs.Machine.Roundtrip

namespace Backend.Linking

open CodeUnit (Relocation)
open Machine (Inst)
open Machine.Decoder (decode)

/-! ## Relocation -/

/-- Where a program is loaded: the address of the text, the addresses of the symbols that the text
does not define, and the offsets of thread-local symbols. -/
structure Addresses where
  text : Int
  symbol : String → Int
  thread : String → Int

/-- The address of a symbol. -/
def Addresses.of (l : Addresses) (u : CodeUnit) (name : String) : Int :=
  match u.textOffset? name with
  | some value => l.text + value.toNat
  | none => l.symbol name

/-- The value of a relocated field: relative to the place of the field, or the offset of a
thread-local symbol. The other kinds are not of four bytes. -/
def value? (l : Addresses) (u : CodeUnit) (r : Relocation) : Option Int :=
  match r.kind with
  | .pc32 | .plt32 => some (l.of u r.symbol + r.addend.toInt - (l.text + r.offset.toNat))
  | .tpoff32 => some (l.thread r.symbol + r.addend.toInt)
  | .abs64 | .reserved _ => none

theorem value?_relative (l : Addresses) (u : CodeUnit) {r : Relocation}
    (h : r.kind = .pc32 ∨ r.kind = .plt32) :
    value? l u r = some (l.of u r.symbol + r.addend.toInt - (l.text + r.offset.toNat)) := by
  unfold value?
  rcases h with h | h <;> rw [h]

/-- The value fits a signed field of four bytes. -/
def Fits (v : Int) : Prop := -2 ^ 31 ≤ v ∧ v < 2 ^ 31

instance (v : Int) : Decidable (Fits v) := inferInstanceAs (Decidable (_ ∧ _))

/-- All values of the relocations fit. -/
def AllFit (l : Addresses) (u : CodeUnit) (rels : List Relocation) : Prop :=
  ∀ r ∈ rels, ∀ v, value? l u r = some v → Fits v

/-- The bytes of a field, for a value that fits. -/
def field (v : Int) : List UInt8 := Machine.le32 (Int32.ofInt v).toUInt32

/-- Fills in the field of a relocation. -/
def relocate (l : Addresses) (u : CodeUnit) (text : List UInt8) (r : Relocation) : List UInt8 :=
  match value? l u r with
  | some v => overwrite text r.offset.toNat (field v)
  | none => text

/-- The linked text of a unit. -/
def link (l : Addresses) (u : CodeUnit) : List UInt8 := u.relocs.foldl (relocate l u) u.text

/-! ## Resolved references -/

/-- The bytes of a direct branch at an offset go to its target, and only a target outside the text
takes a relocation, whose value has to fit. -/
structure BranchSettled (l : Addresses) (u : CodeUnit) (pos : Nat) (op : Machine.Op)
    (cond : Machine.Cond) (name : String) (chunk : List UInt8) (mine : List Relocation) : Prop where
  length : chunk.length = Machine.longSize op ∨ chunk.length = 2 ∧ op ≠ .call
  relocs : if (u.textOffset? name).isSome then mine = [] else ∃ r, mine = [r] ∧ r.symbol = name
  reaches : AllFit l u mine → ∃ d : Int, l.text + pos + chunk.length + d = l.of u name ∧
    ((op = .jcc → cond.code.toNat < 16) → ∀ rest,
      decode (chunk ++ rest) = some (⟨op, if op = .jcc then cond else ⟨0⟩, [.rel d]⟩, rest))

/-- The bytes of another instruction at an offset are its encoding, where a symbolic displacement
leads to the address or the thread offset of its symbol. -/
structure OperandsSettled (l : Addresses) (u : CodeUnit) (pos : Nat) (inst : Inst)
    (chunk : List UInt8) (mine : List Relocation) (e : Machine.Encoding) (d : Int) : Prop where
  encode : inst.encode = .ok e
  length : chunk.length = e.bytes.length
  relocs : mine.map Relocation.symbol = (e.fixup.map Machine.Fixup.symbol).toList
  addresses : AllFit l u mine → ∀ f ∈ e.fixup, f.isTls = false →
    l.text + pos + chunk.length + d = l.of u f.symbol
  threads : AllFit l u mine → ∀ f ∈ e.fixup, f.isTls = true → d = l.thread f.symbol
  decode : ∀ f cond dst src src2, inst = .op f cond dst src src2 → inst.Takes →
    (e.fixup.map fun f => (f.symbol, f.isTls)) = Machine.operandSymbol? dst src src2 ∧
    ∀ rest, decode (chunk ++ rest) = some (Machine.encodedInstr f cond dst src src2 d, rest)

/-- The bytes at an offset are those of the instruction with its references resolved, and the
relocations are those in its bytes. -/
def Settled (l : Addresses) (u : CodeUnit) (pos : Nat) (inst : Inst) (chunk : List UInt8)
    (mine : List Relocation) : Prop :=
  match inst, inst.branchTarget? with
  | .label name _ _, _ => chunk = [] ∧ mine = [] ∧ u.textOffset? name = some (UInt64.ofNat pos)
  | .op op cond _ _ _, some target => BranchSettled l u pos op cond target.name chunk mine
  | .op _ _ _ _ _, none => ∃ e d, OperandsSettled l u pos inst chunk mine e d

/-- The bytes from an offset on are those of the instructions, one after the other, and the
relocations are those of the instructions. -/
inductive Laid (l : Addresses) (u : CodeUnit) :
    Nat → List Inst → List UInt8 → List Relocation → Prop where
  | nil (pos : Nat) : Laid l u pos [] [] []
  | cons {pos : Nat} {inst : Inst} {insts : List Inst} {chunk text : List UInt8}
      {mine others : List Relocation} (settled : Settled l u pos inst chunk mine)
      (inside : ∀ r ∈ mine, pos ≤ r.offset.toNat ∧ r.offset.toNat + 4 ≤ pos + chunk.length)
      (rest : Laid l u (pos + chunk.length) insts text others) :
      Laid l u pos (inst :: insts) (chunk ++ text) (mine ++ others)

end Backend.Linking

namespace Backend.Assembler

open CodeUnit (Relocation)
open Machine (Inst Target)

/-! ## What one instruction adds -/

/-- What the first phase lays down for an instruction at an offset: bytes, relocations and reserved
branches. Only the offsets of symbols matter of the unit. -/
inductive Item (u : CodeUnit) (pos : Nat) :
    Inst → List UInt8 → List Relocation → List PendingBranch → Prop where
  | label {name : String} {kind : CodeUnit.SymbolKind} {binding : CodeUnit.Binding}
      (offset : u.textOffset? name = some (UInt64.ofNat pos)) :
      Item u pos (.label name kind binding) [] [] []
  | short {op : Machine.Op} {cond : Machine.Cond} {dst src src2 : Option Machine.Operand}
      {target : Target} {value : UInt64} {bytes : List UInt8}
      (branch : (Inst.op op cond dst src src2).branchTarget? = some target)
      (offset : u.textOffset? target.name = some value)
      (encoded : Machine.encodeShort op cond
        (value.toInt64 - (UInt64.ofNat pos).toInt64 - 2) = .ok bytes) :
      Item u pos (.op op cond dst src src2) bytes [] []
  | long {op : Machine.Op} {cond : Machine.Cond} {dst src src2 : Option Machine.Operand}
      {target : Target} {value : UInt64} {bytes : List UInt8}
      (branch : (Inst.op op cond dst src src2).branchTarget? = some target)
      (offset : u.textOffset? target.name = some value)
      (encoded : Machine.encodeLong op cond (value.toInt64 - (UInt64.ofNat pos).toInt64 -
        Int64.ofNat (Machine.longSize op)) = .ok bytes) :
      Item u pos (.op op cond dst src src2) bytes [] []
  | reserved {op : Machine.Op} {cond : Machine.Cond} {dst src src2 : Option Machine.Operand}
      {target : Target} (line : Option Nat)
      (branch : (Inst.op op cond dst src src2).branchTarget? = some target) :
      Item u pos (.op op cond dst src src2) (List.replicate (Machine.longSize op) 0) []
        [⟨op, cond, target, .op op cond dst src src2, UInt64.ofNat pos, line⟩]
  | plain {op : Machine.Op} {cond : Machine.Cond} {dst src src2 : Option Machine.Operand}
      {e : Machine.Encoding} (branch : (Inst.op op cond dst src src2).branchTarget? = none)
      (encoded : (Inst.op op cond dst src src2).encode = .ok e) :
      Item u pos (.op op cond dst src src2) e.bytes
        (e.fixup.map (fixupRelocation (UInt64.ofNat pos))).toList []

/-- Symbols of the text keep their offsets. -/
def Grows (u v : CodeUnit) : Prop :=
  ∀ name value, u.textOffset? name = some value → v.textOffset? name = some value

theorem Item.grows {u v : CodeUnit} {pos : Nat} {inst : Inst} {chunk : List UInt8}
    {rels : List Relocation} {pends : List PendingBranch}
    (h : Item u pos inst chunk rels pends) (hg : Grows u v) : Item v pos inst chunk rels pends := by
  cases h with
  | label offset => exact .label (hg _ _ offset)
  | short branch offset encoded => exact .short branch (hg _ _ offset) encoded
  | long branch offset encoded => exact .long branch (hg _ _ offset) encoded
  | reserved line branch => exact .reserved line branch
  | plain branch encoded => exact .plain branch encoded

/-- The second assembler has these bytes, relocations and reserved branches more than the first, and
its symbols are defined inside its text. -/
structure Extends (a b : Assembler) (text : List UInt8) (rels : List Relocation)
    (pends : List PendingBranch) : Prop where
  text : b.unit.text = a.unit.text ++ text
  relocs : b.unit.relocs = a.unit.relocs ++ rels
  pending : b.pending = a.pending ++ pends
  plt : b.plt = a.plt
  grows : Grows a.unit b.unit
  bounded : (∀ name value, a.unit.textOffset? name = some value →
      value.toNat ≤ a.unit.text.length) →
    ∀ name value, b.unit.textOffset? name = some value → value.toNat ≤ b.unit.text.length

theorem withLine_fields (u : CodeUnit) (l : CodeUnit.Line) :
    (withLine u l).text = u.text ∧ (withLine u l).relocs = u.relocs ∧
      (withLine u l).symbols = u.symbols := by
  unfold withLine
  split <;> exact ⟨rfl, rfl, rfl⟩

theorem emitLine_fields (u : CodeUnit) (inst : Inst) (bytes : List UInt8) :
    (emitLine u inst bytes).text = u.text ++ bytes ∧ (emitLine u inst bytes).relocs = u.relocs ∧
      (emitLine u inst bytes).symbols = u.symbols :=
  withLine_fields _ _

/-- Adding text and relocations leaves the symbols where they are. -/
theorem Extends.of_same {a b : Assembler} {text : List UInt8} {rels : List Relocation}
    {pends : List PendingBranch} (htext : b.unit.text = a.unit.text ++ text)
    (hrelocs : b.unit.relocs = a.unit.relocs ++ rels) (hpending : b.pending = a.pending ++ pends)
    (hplt : b.plt = a.plt)
    (hsame : ∀ name, b.unit.textOffset? name = a.unit.textOffset? name) :
    Extends a b text rels pends := by
  refine ⟨htext, hrelocs, hpending, hplt, fun name value h => ?_, fun hin name value h => ?_⟩
  · rw [hsame]
    exact h
  · rw [hsame] at h
    have hle := hin name value h
    rw [htext, List.length_append]
    omega

theorem Extends.trans {a b c : Assembler} {s t : List UInt8} {rels rels' : List Relocation}
    {pends pends' : List PendingBranch} (h : Extends a b s rels pends)
    (h' : Extends b c t rels' pends') :
    Extends a c (s ++ t) (rels ++ rels') (pends ++ pends') := by
  refine ⟨?_, ?_, ?_, h'.plt.trans h.plt, fun name value hv => h'.grows _ _ (h.grows _ _ hv),
    fun hin => h'.bounded (h.bounded hin)⟩
  · rw [h'.text, h.text, List.append_assoc]
  · rw [h'.relocs, h.relocs, List.append_assoc]
  · rw [h'.pending, h.pending, List.append_assoc]

theorem encoded_ok {α : Type} {inst : Inst} {x : Except Machine.EncodeError α} {y : α}
    (h : encoded inst x = .ok y) : x = .ok y := by
  cases x with
  | ok z =>
    obtain rfl := Except.ok.inj h
    rfl
  | error e => simp [encoded] at h

theorem textDistance?_eq (u : CodeUnit) (name : String) (pos : UInt64) :
    textDistance? u name pos = (u.textOffset? name).map fun v => v.toInt64 - pos.toInt64 := by
  unfold textDistance? CodeUnit.textOffset?
  cases u.lookup? name with
  | none => rfl
  | some s =>
    simp only
    split <;> rfl

/-- The unit with the bytes of an instruction, and with its relocation if it has one. -/
def emitted (u : CodeUnit) (inst : Inst) (e : Machine.Encoding) : CodeUnit :=
  match e.fixup with
  | some f => (emitLine u inst e.bytes).addRelocation (fixupRelocation u.offset f)
  | none => emitLine u inst e.bytes

/-- The assembler with room for a branch, which stays pending. -/
def reserved (a : Assembler) (inst : Inst) (op : Machine.Op) (cond : Machine.Cond)
    (target : Target) : Assembler :=
  { a with
    unit := withLine (a.unit.emit (List.replicate (Machine.longSize op) 0))
      ⟨a.unit.offset, [], inst.text, ""⟩
    pending := a.pending ++ [⟨op, cond, target, inst, a.unit.offset,
      if a.unit.listing then some a.unit.lines.length else none⟩] }

/-- How the first phase takes one instruction: it defines a label, encodes a branch to a label that
it knows or reserves room for it, and encodes any other instruction. -/
inductive Assembled (a : Assembler) : Inst → Assembler → Prop where
  | label {name : String} {kind : CodeUnit.SymbolKind} {binding : CodeUnit.Binding} {u : CodeUnit}
      (defined : a.unit.define name kind binding .text a.unit.offset = .ok u) :
      Assembled a (.label name kind binding) { a with unit := withLine u ⟨u.offset, [], "", name⟩ }
  | short {op : Machine.Op} {cond : Machine.Cond} {dst src src2 : Option Machine.Operand}
      {target : Target} {value : UInt64} {bytes : List UInt8}
      (branch : (Inst.op op cond dst src src2).branchTarget? = some target)
      (known : a.unit.textOffset? target.name = some value)
      (encoded : Machine.encodeShort op cond (value.toInt64 - a.unit.offset.toInt64 - 2) =
        .ok bytes) :
      Assembled a (.op op cond dst src src2)
        { a with unit := emitLine a.unit (.op op cond dst src src2) bytes }
  | long {op : Machine.Op} {cond : Machine.Cond} {dst src src2 : Option Machine.Operand}
      {target : Target} {value : UInt64} {bytes : List UInt8}
      (branch : (Inst.op op cond dst src src2).branchTarget? = some target)
      (known : a.unit.textOffset? target.name = some value)
      (encoded : Machine.encodeLong op cond (value.toInt64 - a.unit.offset.toInt64 -
        Int64.ofNat (Machine.longSize op)) = .ok bytes) :
      Assembled a (.op op cond dst src src2)
        { a with unit := emitLine a.unit (.op op cond dst src src2) bytes }
  | reserved {op : Machine.Op} {cond : Machine.Cond} {dst src src2 : Option Machine.Operand}
      {target : Target} (branch : (Inst.op op cond dst src src2).branchTarget? = some target) :
      Assembled a (.op op cond dst src src2) (a.reserved (.op op cond dst src src2) op cond target)
  | plain {op : Machine.Op} {cond : Machine.Cond} {dst src src2 : Option Machine.Operand}
      {e : Machine.Encoding} (branch : (Inst.op op cond dst src src2).branchTarget? = none)
      (encoded : (Inst.op op cond dst src src2).encode = .ok e) :
      Assembled a (.op op cond dst src src2)
        { a with unit := emitted a.unit (.op op cond dst src src2) e }

theorem assembled_branch {a b : Assembler} {op : Machine.Op} {cond : Machine.Cond}
    {dst src src2 : Option Machine.Operand} {target : Target}
    (hb : (Inst.op op cond dst src src2).branchTarget? = some target)
    (h : a.branch (.op op cond dst src src2) op cond target = .ok b) :
    Assembled a (.op op cond dst src src2) b := by
  unfold branch at h
  simp only [textDistance?_eq] at h
  cases hv : a.unit.textOffset? target.name with
  | some value =>
    simp only [hv, Option.map_some] at h
    split at h
    · obtain ⟨bytes, hbytes, h⟩ := bind_eq_ok.mp h
      obtain rfl := Except.ok.inj h
      exact .short hb hv (encoded_ok hbytes)
    · obtain ⟨bytes, hbytes, h⟩ := bind_eq_ok.mp h
      obtain rfl := Except.ok.inj h
      exact .long hb hv (encoded_ok hbytes)
  | none =>
    simp only [hv, Option.map_none] at h
    obtain rfl := Except.ok.inj h
    exact .reserved hb

theorem assembled_of_ok {a b : Assembler} {inst : Inst} (h : a.assemble inst = .ok b) :
    Assembled a inst b := by
  cases inst with
  | label name kind binding =>
    simp only [assemble] at h
    split at h
    · rename_i u hu
      obtain rfl := Except.ok.inj h
      exact .label hu
    · cases h
  | op op cond dst src src2 =>
    simp only [assemble] at h
    split at h
    · rename_i target hb
      exact assembled_branch hb h
    · rename_i hb
      obtain ⟨e, he, h⟩ := bind_eq_ok.mp h
      have hplain := Assembled.plain (a := a) hb (encoded_ok he)
      unfold emitted at hplain
      cases hf : e.fixup with
      | none =>
        simp only [hf] at h hplain
        obtain rfl := Except.ok.inj h
        exact hplain
      | some f =>
        simp only [hf] at h hplain
        obtain rfl := Except.ok.inj h
        exact hplain

theorem assembleAll_cons_eq_ok {a b : Assembler} {inst : Inst} {insts : List Inst} :
    a.assembleAll (inst :: insts) = .ok b ↔
      ∃ c, a.assemble inst = .ok c ∧ c.assembleAll insts = .ok b := by
  unfold assembleAll
  rw [List.foldlM_cons]
  exact bind_eq_ok

/-- An encoded instruction adds its bytes and its relocation. -/
theorem emitted_fields (u : CodeUnit) (inst : Inst) (e : Machine.Encoding) :
    (emitted u inst e).text = u.text ++ e.bytes ∧
      (emitted u inst e).relocs = u.relocs ++ (e.fixup.map (fixupRelocation u.offset)).toList ∧
      ∀ name, (emitted u inst e).textOffset? name = u.textOffset? name := by
  obtain ⟨htext, hrelocs, hsymbols⟩ := emitLine_fields u inst e.bytes
  have hsame := CodeUnit.textOffset?_congr hsymbols
  unfold emitted
  cases e.fixup with
  | none => exact ⟨htext, by simpa using hrelocs, hsame⟩
  | some f =>
    obtain ⟨htext', hrelocs'⟩ := CodeUnit.addRelocation_fields (emitLine u inst e.bytes)
      (fixupRelocation u.offset f)
    refine ⟨htext'.trans htext, ?_, fun name => ?_⟩
    · rw [hrelocs', hrelocs]
      rfl
    · rw [CodeUnit.textOffset?_addRelocation, hsame]

/-- The first phase of a label: the text stays, and the symbol is defined at its end. -/
theorem label_item {a : Assembler} {u : CodeUnit} {name : String} {kind : CodeUnit.SymbolKind}
    {binding : CodeUnit.Binding}
    (hu : a.unit.define name kind binding .text a.unit.offset = .ok u) :
    Extends a { a with unit := withLine u ⟨u.offset, [], "", name⟩ } [] [] [] ∧
      Item (withLine u ⟨u.offset, [], "", name⟩) a.unit.text.length (.label name kind binding)
        [] [] [] := by
  obtain ⟨hline, hrels, hsymbols⟩ := withLine_fields u ⟨u.offset, [], "", name⟩
  obtain ⟨htext, -, hrelocs, -⟩ := CodeUnit.define_fields hu
  have hundefined : a.unit.textOffset? name = none :=
    CodeUnit.textOffset?_of_undefined (CodeUnit.define_ok hu).2
  have hafter : ∀ m, (withLine u ⟨u.offset, [], "", name⟩).textOffset? m =
      if m = name then some a.unit.offset else a.unit.textOffset? m := by
    intro m
    rw [CodeUnit.textOffset?_congr hsymbols, CodeUnit.textOffset?_define hu]
  refine ⟨⟨?_, ?_, (List.append_nil _).symm, rfl, fun m value hm => ?_,
    fun hin m value hm => ?_⟩, .label ?_⟩
  · rw [hline, htext, List.append_nil]
  · rw [hrels, hrelocs, List.append_nil]
  · rw [hafter, if_neg, hm]
    rintro rfl
    rw [hundefined] at hm
    simp at hm
  · rw [hafter] at hm
    rw [hline, htext]
    split at hm
    · obtain rfl := Option.some.inj hm
      exact Nat.mod_le _ _
    · exact hin m value hm
  · rw [hafter, if_pos rfl]
    rfl

/-- The first phase of one instruction. -/
theorem assemble_item {a b : Assembler} {inst : Inst} (h : a.assemble inst = .ok b) :
    ∃ chunk rels pends, Extends a b chunk rels pends ∧
      Item b.unit a.unit.text.length inst chunk rels pends := by
  have hemit : ∀ inst bytes,
      Extends a { a with unit := emitLine a.unit inst bytes } bytes [] [] := by
    intro inst bytes
    obtain ⟨htext, hrelocs, hsymbols⟩ := emitLine_fields a.unit inst bytes
    exact .of_same htext (by simpa using hrelocs) (List.append_nil _).symm rfl
      (CodeUnit.textOffset?_congr hsymbols)
  cases assembled_of_ok h with
  | label defined => exact ⟨[], [], [], label_item defined⟩
  | short branch known encoded =>
    exact ⟨_, [], [], hemit _ _, .short branch ((hemit _ _).grows _ _ known) encoded⟩
  | long branch known encoded =>
    exact ⟨_, [], [], hemit _ _, .long branch ((hemit _ _).grows _ _ known) encoded⟩
  | @reserved op cond dst src src2 target branch =>
    obtain ⟨htext, hrelocs, hsymbols⟩ := withLine_fields
      (a.unit.emit (List.replicate (Machine.longSize op) 0))
      ⟨a.unit.offset, [], (Inst.op op cond dst src src2).text, ""⟩
    exact ⟨_, [], _, .of_same htext (hrelocs.trans (List.append_nil _).symm) rfl rfl
      (CodeUnit.textOffset?_congr hsymbols), .reserved _ branch⟩
  | @plain op cond dst src src2 e branch encoded =>
    obtain ⟨htext, hrelocs, hsame⟩ := emitted_fields a.unit (.op op cond dst src src2) e
    exact ⟨_, _, [], .of_same htext hrelocs (List.append_nil _).symm rfl hsame,
      .plain branch encoded⟩

/-! ## What a list of instructions adds -/

/-- What the first phase lays down for instructions from an offset on. -/
inductive Draft (u : CodeUnit) :
    Nat → List Inst → List UInt8 → List Relocation → List PendingBranch → Prop where
  | nil (pos : Nat) : Draft u pos [] [] [] []
  | cons {pos : Nat} {inst : Inst} {insts : List Inst} {chunk text : List UInt8}
      {rels rels' : List Relocation} {pends pends' : List PendingBranch}
      (item : Item u pos inst chunk rels pends)
      (rest : Draft u (pos + chunk.length) insts text rels' pends') :
      Draft u pos (inst :: insts) (chunk ++ text) (rels ++ rels') (pends ++ pends')

theorem Draft.grows {u v : CodeUnit} {pos : Nat} {insts : List Inst} {text : List UInt8}
    {rels : List Relocation} {pends : List PendingBranch}
    (h : Draft u pos insts text rels pends) (hg : Grows u v) :
    Draft v pos insts text rels pends := by
  induction h with
  | nil pos => exact .nil pos
  | cons item rest ih => exact .cons (item.grows hg) ih

/-- The first phase. -/
theorem assembleAll_draft {insts : List Inst} {a b : Assembler}
    (h : a.assembleAll insts = .ok b) :
    ∃ text rels pends, Extends a b text rels pends ∧
      Draft b.unit a.unit.text.length insts text rels pends := by
  induction insts generalizing a with
  | nil =>
    obtain rfl := Except.ok.inj h
    exact ⟨[], [], [], .of_same (List.append_nil _).symm (List.append_nil _).symm
      (List.append_nil _).symm rfl fun _ => rfl, .nil _⟩
  | cons inst insts ih =>
    obtain ⟨c, hc, h⟩ := assembleAll_cons_eq_ok.mp h
    obtain ⟨chunk, rels, pends, hstep, hitem⟩ := assemble_item hc
    obtain ⟨text, rels', pends', hrest, hdraft⟩ := ih h
    refine ⟨_, _, _, hstep.trans hrest, .cons (hitem.grows hrest.grows) ?_⟩
    rw [hstep.text, List.length_append] at hdraft
    exact hdraft

end Backend.Assembler
