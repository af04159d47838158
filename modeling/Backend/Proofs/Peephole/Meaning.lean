-- What the instructions of a block mean. Moves, integer arithmetic and address computations have
-- their usual meaning modulo the width of the output; every other instruction is an arbitrary
-- function of what it reads.
import Backend.Peephole.Basic
import Mathlib.Data.BitVec
import Mathlib.Logic.Function.Basic

namespace Backend.Peephole

universe u

/-! ## States -/

/-- What keeps the value of a register or of a variable. -/
inductive Cell where
  | reg (key : Nat)
  | slot (offset : Int64)
  | own (ident : String)
  deriving DecidableEq

/-- A variable shares the cell of the register or frame slot it is placed in. -/
def varCell (locs : Locations) (ident : String) : Cell :=
  match locs.lookup ident with
  | some ⟨some r, _⟩ => .reg r.key
  | some ⟨none, some offset⟩ => .slot offset
  | _ => .own ident

/-- Different variables never share a register or a slot. -/
def Separate (locs : Locations) : Prop :=
  ∀ a b, varCell locs a = varCell locs b → a = b

theorem varCell_of_not_mem {locs : Locations} {ident : String} (h : ident ∉ locs.map Prod.fst) :
    varCell locs ident = .own ident := by
  have hnone : locs.lookup ident = none := by
    rw [List.lookup_eq_none_iff]
    intro p hp
    simp only [List.mem_map, not_exists, not_and] at h
    simpa using fun heq : ident = p.1 => h p hp heq.symm
  simp [varCell, hnone]

theorem eq_of_varCell_own {locs : Locations} {a b : String} (h : varCell locs a = .own b) :
    a = b := by
  unfold varCell at h
  split at h <;> simp_all

/-- Variables that are not placed never share a cell, so only placed ones need to be looked at. -/
theorem separate_iff {locs : Locations} :
    Separate locs ↔ ∀ a ∈ locs.map Prod.fst, ∀ b ∈ locs.map Prod.fst,
      varCell locs a = varCell locs b → a = b := by
  refine ⟨fun h a _ b _ => h a b, fun h a b hab => ?_⟩
  by_cases ha : a ∈ locs.map Prod.fst
  · by_cases hb : b ∈ locs.map Prod.fst
    · exact h a ha b hb hab
    · rw [varCell_of_not_mem hb] at hab
      exact eq_of_varCell_own hab
  · rw [varCell_of_not_mem ha] at hab
    exact (eq_of_varCell_own hab.symm).symm

/-- The cell of a register or of a variable. -/
def cell? (locs : Locations) : Operand → Option Cell
  | .reg r => some (.reg r.key)
  | .var v => some (varCell locs v.ident)
  | _ => none

/-- A place in memory that is not a slot of a variable. An address has the type and value of its
base and index. -/
inductive MemoryRef where
  | frame (offset : Int64)
  | symbol (name : String) (isTls : Bool)
  | address (base index : Option (Ty × BitVec 64)) (scale : UInt8) (disp : Int64)

/-- What an instruction gets to see of an operand. -/
inductive Reading where
  | value (t : Ty) (v : BitVec 64)
  | memory (ref : MemoryRef) (t : Ty) (v : BitVec 64)
  | label (name : String)
  | list (items : List Reading)

/-- The value that was read; labels and lists have none. -/
def Reading.bits : Reading → BitVec 64
  | .value _ v => v
  | .memory _ _ v => v
  | _ => 0

/-- What an instruction reads: its sources, and where in memory its output is. -/
structure Readings where
  first : Option Reading
  second : Option Reading
  addend : Option Reading
  target : Option MemoryRef

/-- What an instruction knows of an output before it is written. All registers and variables of a
type look alike. -/
inductive Shape where
  | direct (t : Ty)
  | frame (offset : Int64) (t : Ty)
  | symbol (s : Symbol)
  | address (scale : UInt8) (disp : Int64) (t : Ty)
  | label (l : Label)
  | unwritable

/-- What others see of a run: the stores, and every instruction that is not a move, a sum or the
like, with all it was given. -/
inductive Event where
  | store (ref : MemoryRef) (t : Ty) (value : BitVec 64)
  | perform (op : Opcode) (readings : Readings) (outputs : List Shape)

/-- The cells, the rest of memory, and what has happened so far. -/
structure State (μ : Type u) where
  cells : Cell → BitVec 64
  mem : μ
  log : List Event

/-- What is left open: the bits of literals that are not integers, memory, float arithmetic, the
upper bytes of a cell after a narrow write, and the effect of all other instructions. -/
structure Meaning (μ : Type u) where
  constant : Literal → BitVec 64
  load : μ → MemoryRef → Ty → BitVec 64
  store : μ → MemoryRef → Ty → BitVec 64 → μ
  float : Opcode → Nat → BitVec 64 → BitVec 64 → BitVec 64 → BitVec 64
  fill : Cell → Nat → BitVec 64 → BitVec 64 → BitVec 64
  other : Opcode → Readings → List Shape → μ → (Nat → BitVec 64) × μ

/-- The low `w` bytes of a word. -/
def trunc (w : Nat) (v : BitVec 64) : BitVec 64 := (v.setWidth (8 * w)).setWidth 64

/-- Writing changes the low bytes of a cell to the value, and doubling a float is the same as
multiplying it by two. -/
structure Meaning.Lawful {μ : Type u} (M : Meaning μ) : Prop where
  fill : ∀ c w old v, trunc w (M.fill c w old v) = trunc w v
  doubled : ∀ t l x c, literalIsTwo l = true → l.isFloat = true → l.ty = t →
    M.float .mul t.size x (trunc t.size (M.constant l)) c = M.float .add t.size x x c ∧
      M.float .mul t.size (trunc t.size (M.constant l)) x c = M.float .add t.size x x c

/-! ## Operands -/

section Operands

variable {μ : Type u} (M : Meaning μ) (locs : Locations) (s : State μ)

/-- The bits of a literal. Integers and truth values are what they are. -/
def Meaning.bits : Literal → BitVec 64
  | .int _ value => value.toBitVec
  | .bool word => word.toBitVec
  | l => M.constant l

/-- What is in memory at a place. -/
def fetch (ref : MemoryRef) (t : Ty) : Reading :=
  .memory ref t (trunc t.size (M.load s.mem ref t))

mutual

/-- What an operand shows in a state. A symbol that stands for a literal shows the literal. -/
def reading : Operand → Reading
  | .reg r => .value r.ty (trunc r.ty.size (s.cells (.reg r.key)))
  | .var v => .value v.ty (trunc v.ty.size (s.cells (varCell locs v.ident)))
  | .imm l => .value l.ty (trunc l.ty.size (M.bits l))
  | .stack offset t => fetch M s (.frame offset) t
  | .symbol sym =>
    match sym.const with
    | some l => .memory (.symbol sym.name sym.isTls) sym.ty (trunc sym.ty.size (M.bits l))
    | none => fetch M s (.symbol sym.name sym.isTls) sym.ty
  | .indirect base index scale disp t =>
    fetch M s (.address (readingPart base) (readingPart index) scale disp) t
  | .label l => .label l.name
  | .list items => .list (readingItems items)

/-- The type and value of a part of an address. -/
def readingPart : Option Operand → Option (Ty × BitVec 64)
  | none => none
  | some o => some (o.ty, (reading o).bits)

/-- What the items of a list show. -/
def readingItems : List Operand → List Reading
  | [] => []
  | o :: rest => reading o :: readingItems rest

end

/-- The place in memory that an output denotes. -/
def memoryRef? : Operand → Option MemoryRef
  | .stack offset _ => some (.frame offset)
  | .symbol sym => some (.symbol sym.name sym.isTls)
  | .indirect base index scale disp _ =>
    some (.address (readingPart M locs s base) (readingPart M locs s index) scale disp)
  | _ => none

/-- What an output looks like from outside. -/
def shape : Operand → Shape
  | .reg r => .direct r.ty
  | .var v => .direct v.ty
  | .stack offset t => .frame offset t
  | .symbol sym => .symbol sym
  | .indirect _ _ scale disp t => .address scale disp t
  | .label l => .label l
  | _ => .unwritable

/-- The instruction reads none of its operands. -/
def isSilent (op : Opcode) : Bool :=
  match op with
  | .label | .bal | .nop | .fnBegin => true
  | _ => false

/-- What an instruction reads in a state. A branch has no output to address. -/
def readings (i : Instr) : Readings :=
  if isSilent i.op then ⟨none, none, none, none⟩
  else
    ⟨i.first.map (reading M locs s), i.second.map (reading M locs s),
      i.addend.map (reading M locs s),
      if i.op.isBranch then none else i.output.bind (memoryRef? M locs s)⟩

/-- The outputs of an instruction, those in a list one by one. -/
def outputShapes (i : Instr) : List Shape :=
  match i.output with
  | none => []
  | some (.list items) => items.map shape
  | some o => [shape o]

end Operands

/-! ## Results -/

/-- The value of a source that may be missing. -/
def bitsOf (r : Option Reading) : BitVec 64 := (r.map Reading.bits).getD 0

/-- A sum, difference, product or fused product of words. -/
def arithmetic (op : Opcode) (a b c : BitVec 64) : BitVec 64 :=
  match op with
  | .add => a + b
  | .sub => a - b
  | .mul => a * b
  | .fmadd => c + a * b
  | .fmsub => c - a * b
  | .fnmsub => a * b - c
  | _ => 0

/-- The operations that `arithmetic` is about. -/
def isArith : Opcode → Bool
  | .add | .sub | .mul | .fmadd | .fmsub | .fnmsub => true
  | _ => false

/-- The part of an address is missing or as wide as the result. -/
def partFits (w : Nat) (p : Option (Ty × BitVec 64)) : Bool :=
  (p.map fun q => q.1.size == w).getD true

def partBits (p : Option (Ty × BitVec 64)) : BitVec 64 := (p.map Prod.snd).getD 0

/-- The result of an address computation on parts of the width of the output. -/
def addressValue? (t : Ty) : Option Reading → Option (BitVec 64)
  | some (.memory (.address base index scale disp) _ _) =>
    if partFits t.size base && partFits t.size index then
      some (partBits base +
        partBits index * BitVec.ofNat 64 (if scale == 0 then 1 else scale.toNat) + disp.toBitVec)
    else none
  | _ => none

/-- The value that arithmetic gives at a type. -/
def Meaning.value {μ : Type u} (M : Meaning μ) (op : Opcode) (t : Ty) (a b c : BitVec 64) :
    BitVec 64 :=
  trunc t.size (if t.isFloat then M.float op t.size a b c else arithmetic op a b c)

/-- The result of the instructions with a fixed meaning, for an output of a type. -/
def result? {μ : Type u} (M : Meaning μ) (op : Opcode) (t : Ty) (r : Readings) :
    Option (BitVec 64) :=
  if op == .move then some (trunc t.size (bitsOf r.first))
  else if op == .lea then (addressValue? t r.first).map (trunc t.size)
  else if isArith op then some (M.value op t (bitsOf r.first) (bitsOf r.second) (bitsOf r.addend))
  else none

/-- The values for the outputs, the memory and the events after an instruction. -/
structure Outcome (μ : Type u) where
  values : Nat → BitVec 64
  mem : μ
  log : List Event

/-- The outcome of an instruction with a fixed result. -/
def stored {μ : Type u} (M : Meaning μ) (t : Ty) (target : Option MemoryRef) (v : BitVec 64)
    (m : μ) (log : List Event) : Outcome μ :=
  match target with
  | some ref => ⟨fun _ => v, M.store m ref t v, log ++ [.store ref t v]⟩
  | none => ⟨fun _ => v, m, log⟩

/-- The outcome of an instruction from what it reads. -/
def outcome {μ : Type u} (M : Meaning μ) (op : Opcode) (t : Ty) (r : Readings)
    (shapes : List Shape) (m : μ) (log : List Event) : Outcome μ :=
  match result? M op t r with
  | some v => stored M t r.target v m log
  | none => ⟨(M.other op r shapes m).1, (M.other op r shapes m).2, log ++ [.perform op r shapes]⟩

/-! ## Runs -/

section Runs

variable {μ : Type u} (M : Meaning μ) (locs : Locations)

/-- The cells after a value is written to the operand, if it is a register or a variable. -/
def writeCell (cells : Cell → BitVec 64) (o : Operand) (v : BitVec 64) : Cell → BitVec 64 :=
  match cell? locs o with
  | some c => Function.update cells c (M.fill c o.ty.size (cells c) (trunc o.ty.size v))
  | none => cells

/-- The cells after the outputs from the `k`-th on are written. -/
def writeCells (values : Nat → BitVec 64) :
    Nat → List Operand → (Cell → BitVec 64) → Cell → BitVec 64
  | _, [], cells => cells
  | k, o :: rest, cells => writeCells values (k + 1) rest (writeCell M locs cells o (values k))

/-- The state after an instruction. -/
def exec (i : Instr) (s : State μ) : State μ :=
  let e := outcome M i.op (typeOf i.output) (readings M locs s i) (outputShapes i) s.mem s.log
  ⟨writeCells M locs e.values 0 i.defs s.cells, e.mem, e.log⟩

/-- The state after a list of instructions. -/
def runBlock (ops : List Instr) (s : State μ) : State μ :=
  ops.foldl (fun s i => exec M locs i s) s

@[simp] theorem runBlock_nil (s : State μ) : runBlock M locs [] s = s := rfl

@[simp] theorem runBlock_cons (i : Instr) (ops : List Instr) (s : State μ) :
    runBlock M locs (i :: ops) s = runBlock M locs ops (exec M locs i s) := rfl

theorem runBlock_append (p q : List Instr) (s : State μ) :
    runBlock M locs (p ++ q) s = runBlock M locs q (runBlock M locs p s) :=
  List.foldl_append

/-- Two runs end alike for what comes after the block: the live variables, memory, and all that
has happened. -/
structure SameEnd (liveOut : List String) (s s' : State μ) : Prop where
  live : ∀ ident ∈ liveOut, s.cells (varCell locs ident) = s'.cells (varCell locs ident)
  mem : s.mem = s'.mem
  log : s.log = s'.log

theorem SameEnd.refl (liveOut : List String) (s : State μ) : SameEnd locs liveOut s s :=
  ⟨fun _ _ => rfl, rfl, rfl⟩

theorem SameEnd.trans {liveOut : List String} {s s' s'' : State μ}
    (h : SameEnd locs liveOut s s') (h' : SameEnd locs liveOut s' s'') :
    SameEnd locs liveOut s s'' :=
  ⟨fun ident hi => (h.live ident hi).trans (h'.live ident hi), h.mem.trans h'.mem,
    h.log.trans h'.log⟩

end Runs

end Backend.Peephole
