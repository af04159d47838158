-- Lowering brings the instructions of a closure into forms that the target can encode. This file
-- has the state of that work and how operands are made encodable. r10 is the temporary register:
-- when two operands of an instruction need it, the earlier one moves to a scratch slot of the
-- frame.
import Backend.Closure.Defect
import Backend.Lowering.Frame

namespace Backend.Lowering

/-! ## State -/

/-- What stays fixed while one instruction is lowered. -/
structure Context where
  variadic : List String
  scratch : Option Int64
  instr : Instr

/-- The closure so far and the lowered instructions of the current block. -/
structure State where
  closure : Closure
  out : List Instr

abbrev LowerM := StateT State (Except InternalError)

/-- Stops with a defect of the current instruction. -/
def fail {α : Type} (cx : Context) (d : Defect) : LowerM α := do
  throw ⟨.lower, (← get).closure.name, some cx.instr, d⟩

/-- Appends an instruction. -/
def keep (i : Instr) : LowerM Unit := modify fun s => { s with out := s.out ++ [i] }

/-- Appends an instruction at the place of the current one. -/
def emit (cx : Context) (op : Opcode) (first second output : Option Operand) : LowerM Unit :=
  keep ⟨op, first, second, none, output, cx.instr.pos⟩

/-- Places a literal in the data of the closure. -/
def materialize (l : Literal) : LowerM Symbol := do
  let (symbol, c) := (← get).closure.materialize l
  modify fun s => { s with closure := c }
  pure symbol

/-- Fails unless the variable has been placed. -/
def locate (cx : Context) (v : Var) : LowerM Location := do
  match (← get).closure.locate? v with
  | some l => pure l
  | none => fail cx (.unplaced v)

/-- The type an instruction computes in. Comparisons and branches compute in the type of their
operands. -/
def opType (i : Instr) : Ty :=
  let typeOf (o : Option Operand) : Ty := (o.map Operand.ty).getD .void
  if !i.op.isCompare && !i.op.isBranch && typeOf i.output != .void then typeOf i.output
  else if typeOf i.first != .void then typeOf i.first
  else typeOf i.second

/-- The temporary register at the width of a type. -/
def tempReg (t : Ty) : Reg := gpr Machine.r10 (registerWidth t)

/-! ## Operand slots -/

/-- The places of an instruction that hold operands. -/
inductive Slot where
  | first
  | second
  | addend
  | output
  deriving DecidableEq

def Slot.get (slot : Slot) (i : Instr) : Option Operand :=
  match slot with
  | .first => i.first
  | .second => i.second
  | .addend => i.addend
  | .output => i.output

def Slot.set (slot : Slot) (o : Operand) (i : Instr) : Instr :=
  match slot with
  | .first => { i with first := some o }
  | .second => { i with second := some o }
  | .addend => { i with addend := some o }
  | .output => { i with output := some o }

/-- An instruction whose operands are being made encodable: which slot holds the temporary
register and how many scratch slots are taken. -/
structure Draft where
  instr : Instr
  holder : Option Slot
  spilled : Nat

def Draft.of (i : Instr) : Draft := ⟨i, none, 0⟩

/-- Puts an operand into a slot. -/
def Draft.put (d : Draft) (slot : Slot) (o : Operand) : Draft :=
  { d with instr := slot.set o d.instr }

/-- The type of the operand in a slot. -/
def Draft.typeAt (d : Draft) (slot : Slot) : Ty := ((slot.get d.instr).map Operand.ty).getD .void

/-- Moves the operand that holds the temporary register to a scratch slot. -/
def spill (cx : Context) (d : Draft) : LowerM Draft :=
  match d.holder with
  | none => pure d
  | some slot =>
    match slot.get d.instr with
    | none => pure { d with holder := none }
    | some o =>
      match cx.scratch with
      | none => fail cx (.noScratch o)
      | some base =>
        if d.spilled ≥ 2 then fail cx (.noScratch o)
        else do
          let t := if o.ty == .void then .i64 else o.ty
          let home : Operand := .stack (base + 8 * Int64.ofNat d.spilled) t
          emit cx .move (some o) none (some home)
          pure { (d.put slot home) with holder := none, spilled := d.spilled + 1 }

/-- Takes the temporary register for a slot, moving the slot that held it before out of the
way. -/
def reserveTemp (cx : Context) (slot : Slot) (d : Draft) : LowerM Draft := do
  let d ← match d.holder with
    | some other => if other == slot then pure d else spill cx d
    | none => pure d
  pure { d with holder := some slot }

/-- Loads the operand of a slot into the temporary register. -/
def intoTemp (cx : Context) (slot : Slot) (d : Draft) : LowerM Draft := do
  let t := d.typeAt slot
  let d ← reserveTemp cx slot d
  emit cx .move (slot.get d.instr) none (some (.reg (tempReg t)))
  pure (d.put slot (.reg (tempReg t)))

/-! ## Addresses -/

/-- The operand is a general purpose register or a variable that lives in one. -/
def inRegister (cx : Context) : Operand → LowerM Bool
  | .reg r => pure (r.cls == .int)
  | .var v => do
    let l ← locate cx v
    pure ((l.reg.map fun r => r.cls == .int).getD false)
  | _ => pure false

/-- A missing address part needs no register. -/
def addressable (cx : Context) : Option Operand → LowerM Bool
  | none => pure true
  | some o => inRegister cx o

/-- Loads an address base that is not in a register. -/
def loadBase (cx : Context) (base : Operand) (r : Reg) : LowerM Unit :=
  match base with
  | .symbol _ => emit cx .lea (some base) none (some (.reg r))
  | .var _ | .stack _ _ => emit cx .move (some base) none (some (.reg r))
  | _ => fail cx (.addressBase base)

/-- The value a literal adds to an address; only integers and booleans have one. -/
def literalWord (l : Literal) : Int64 := l.int?.getD 0

/-- The parts of a memory operand with literal parts folded into the displacement and an unscaled
index without base as the base. -/
def foldAddress (base index : Option Operand) (scale : UInt8) (disp : Int64) :
    Option Operand × Option Operand × UInt8 × Int64 :=
  let scale := if scale == 0 then 1 else scale
  let (base, disp) := match base with
    | some (.imm l) => (none, disp + literalWord l)
    | b => (b, disp)
  let (index, scale, disp) := match index with
    | some (.imm l) => (none, 1, disp + literalWord l * Int64.ofNat scale.toNat)
    | i => (i, scale, disp)
  match base, index with
  | none, some i => if scale == 1 then (some i, none, scale, disp) else (none, some i, scale, disp)
  | b, i => (b, i, scale, disp)

/-- The number of factors two in a byte, eight for zero. -/
def trailingZeros (n : UInt8) : Nat := ((List.range 8).find? fun k => n.toNat.testBit k).getD 8

/-- Makes base and index of a memory operand general purpose registers. A base in the frame is
loaded into the temporary register; an index in the frame is scaled there and the base added. -/
def address (cx : Context) (slot : Slot) (base index : Option Operand) (scale : UInt8)
    (disp : Int64) (t : Ty) (d : Draft) : LowerM Draft := do
  let (base, index, scale, disp) := foldAddress base index scale disp
  let whole : Operand := .indirect base index scale disp t
  if !Machine.fitsInt32 disp then fail cx (.displacement disp)
  if base.isNone && index.isNone then fail cx (.absoluteAddress whole)
  let baseOk ← addressable cx base
  let indexOk ← addressable cx index
  if baseOk && indexOk then return d.put slot whole
  let d ← reserveTemp cx slot d
  let r := tempReg .i64
  let temp : Option Operand := some (.reg r)
  match base, index with
  | some b, some i =>
    if !baseOk && !indexOk then
      match b with
      | .symbol _ => fail cx (.symbolBase whole)
      | _ =>
        emit cx .move (some i) none temp
        if scale > 1 then
          let shift := Literal.ofInt .i8 (Int64.ofNat (trailingZeros scale))
          emit cx .shl temp (some (.imm shift)) temp
        emit cx .add temp (some b) temp
        pure (d.put slot (.indirect temp none 1 disp t))
    else if !baseOk then
      loadBase cx b r
      pure (d.put slot (.indirect temp index scale disp t))
    else
      emit cx .move (some i) none temp
      pure (d.put slot (.indirect base temp scale disp t))
  | some b, none =>
    loadBase cx b r
    pure (d.put slot (.indirect temp none scale disp t))
  | none, _ =>
    emit cx .move index none temp
    pure (d.put slot (.indirect none temp scale disp t))

/-! ## Sources and outputs -/

/-- Makes the operand in a slot encodable as a source. `narrow` asks integers to fit a
sign-extended field of 32 bits. -/
def source (cx : Context) (slot : Slot) (narrow : Bool) (d : Draft) : LowerM Draft :=
  match slot.get d.instr with
  | some (.var v) => do
    let _ ← locate cx v
    pure d
  | some (.imm l) =>
    match l with
    | .float _ _ => do pure (d.put slot (.symbol (← materialize l)))
    | .string _ => do
      let symbol ← materialize l
      let d ← reserveTemp cx slot d
      let r := tempReg .str
      emit cx .lea (some (.symbol symbol)) none (some (.reg r))
      pure (d.put slot (.reg r))
    | .int _ value => if narrow && !Machine.fitsInt32 value then intoTemp cx slot d else pure d
    | .bool _ => pure d
  | some (.indirect base index scale disp t) => address cx slot base index scale disp t d
  | _ => pure d

/-- Makes the operand in a slot encodable as an output. -/
def dest (cx : Context) (slot : Slot) (d : Draft) : LowerM Draft :=
  match slot.get d.instr with
  | some (.var v) => do
    let _ ← locate cx v
    pure d
  | some (.symbol s) => if s.const.isSome then fail cx (.literalStore s) else pure d
  | some (.indirect base index scale disp t) => address cx slot base index scale disp t d
  | some (.imm l) => fail cx (.unwritable (.imm l))
  | _ => pure d

/-- Moves a value into an output, which is made encodable around a value in the temporary
register. -/
def store (cx : Context) (value : Reg) (output : Option Operand) : LowerM Unit := do
  let i : Instr := ⟨.move, some (.reg value), none, none, output, cx.instr.pos⟩
  let holder := if value.is regR10 then some Slot.first else none
  let d ← dest cx .output ⟨i, holder, 0⟩
  keep d.instr

end Backend.Lowering
