-- Assembling in two phases. The first encodes everything whose bytes are known and reserves room
-- for branches to labels that are not yet defined; the second fills those in.
import Backend.CodeUnit.Basic
import Backend.Machine.Encoding

namespace Backend

open Backend.CodeUnit (Relocation Line)
open Backend.Machine (Inst Target EncodeError)

/-- Why assembling fails. -/
inductive AsmError where
  | encode (inst : Inst) (cause : EncodeError)
  | undefinedBranch (name : String)
  | lengthChanged (inst : Inst) (size reserved : Nat)
  | unit (cause : CodeUnit.Error)
  deriving DecidableEq

/-- The wording of an assembling error. -/
def AsmError.message : AsmError → String
  | .encode inst cause => s!"encode {inst.text}: {cause.message}"
  | .undefinedBranch name => s!"branch to {Text.quote name}: undefined symbol"
  | .lengthChanged inst size reserved =>
    s!"encode {inst.text}: {size} bytes for {reserved} reserved: encoding length changed"
  | .unit cause => cause.message?.getD ""

/-- A branch whose bytes are reserved but not known. -/
structure PendingBranch where
  op : Machine.Op
  cond : Machine.Cond
  target : Target
  inst : Inst
  pos : UInt64
  line : Option Nat

/-- A unit that is being assembled. `plt` says how calls of other units are relocated. -/
structure Assembler where
  unit : CodeUnit
  plt : Bool
  pending : List PendingBranch

namespace Assembler

/-- An assembler that writes into a unit. -/
def start (unit : CodeUnit) (plt : Bool) : Assembler := ⟨unit, plt, []⟩

/-- Adds a line to the listing, if there is one. -/
def withLine (u : CodeUnit) (l : Line) : CodeUnit := if u.listing then u.addLine l else u

/-- Appends the bytes of an instruction and its line. -/
def emitLine (u : CodeUnit) (inst : Inst) (bytes : List UInt8) : CodeUnit :=
  withLine (u.emit bytes) ⟨u.offset, bytes, inst.text, ""⟩

/-- Wraps the outcome of an encoding. -/
def encoded {α : Type} (inst : Inst) : Except EncodeError α → Except AsmError α
  | .ok a => .ok a
  | .error e => .error (.encode inst e)

/-! ## First phase -/

/-- The relocation of a symbolic displacement in an instruction at `pos`. -/
def fixupRelocation (pos : UInt64) (f : Machine.Fixup) : Relocation :=
  let offset := pos + UInt64.ofNat f.offset
  if f.isTls then ⟨offset, f.symbol, .tpoff32, 0⟩
  else ⟨offset, f.symbol, .pc32, -4 - Int64.ofNat f.trailing⟩

/-- The distance from `pos` to a symbol that the text defines. -/
def textDistance? (u : CodeUnit) (name : String) (pos : UInt64) : Option Int64 :=
  match u.lookup? name with
  | some s =>
    if s.defined && s.sec == .text then some (s.value.toInt64 - pos.toInt64) else none
  | none => none

/-- A direct branch. To a known label it takes the short form if that reaches; otherwise room is
reserved for the long form. -/
def branch (a : Assembler) (inst : Inst) (op : Machine.Op) (cond : Machine.Cond)
    (target : Target) : Except AsmError Assembler :=
  let u := a.unit
  let size := Machine.longSize op
  match textDistance? u target.name u.offset with
  | some dist =>
    if op != .call && Machine.fitsInt8 (dist - 2) then do
      let bytes ← encoded inst (Machine.encodeShort op cond (dist - 2))
      pure { a with unit := emitLine u inst bytes }
    else do
      let bytes ← encoded inst (Machine.encodeLong op cond (dist - Int64.ofNat size))
      pure { a with unit := emitLine u inst bytes }
  | none =>
    let v := u.emit (List.replicate size 0)
    let line := if u.listing then some u.lines.length else none
    .ok { a with
      unit := withLine v ⟨u.offset, [], inst.text, ""⟩
      pending := a.pending ++ [⟨op, cond, target, inst, u.offset, line⟩] }

/-- The first phase for one instruction. -/
def assemble (a : Assembler) (inst : Inst) : Except AsmError Assembler :=
  match inst with
  | .label name kind binding =>
    match a.unit.define name kind binding .text a.unit.offset with
    | .ok u => .ok { a with unit := withLine u ⟨u.offset, [], "", name⟩ }
    | .error e => .error (.unit e)
  | .op op cond _ _ _ =>
    match inst.branchTarget? with
    | some target => a.branch inst op cond target
    | none => do
      let enc ← encoded inst inst.encode
      let u := emitLine a.unit inst enc.bytes
      match enc.fixup with
      | some f => pure { a with unit := u.addRelocation (fixupRelocation a.unit.offset f) }
      | none => pure { a with unit := u }

/-- The first phase for a list of instructions. -/
def assembleAll (a : Assembler) (insts : List Inst) : Except AsmError Assembler :=
  insts.foldlM assemble a

/-! ## Second phase -/

/-- Fills in one reserved branch. A target that the text does not define becomes a relocation,
unless it is local. -/
def resolve (plt : Bool) (u : CodeUnit) (p : PendingBranch) : Except AsmError CodeUnit := do
  let size := Machine.longSize p.op
  let dist := textDistance? u p.target.name (p.pos + UInt64.ofNat size)
  if dist.isNone && p.target.isLocal then throw (.undefinedBranch p.target.name)
  let bytes ← encoded p.inst (Machine.encodeLong p.op p.cond (dist.getD 0))
  if bytes.length != size then throw (.lengthChanged p.inst bytes.length size)
  match u.patch p.pos bytes with
  | .error e => throw (.unit e)
  | .ok v =>
    let w := match p.line with
      | some index => v.setLineBytes index bytes
      | none => v
    if dist.isSome then pure w
    else
      let kind : CodeUnit.RelocKind := if plt && p.op == .call then .plt32 else .pc32
      pure (w.addRelocation ⟨p.pos + UInt64.ofNat size - 4, p.target.name, kind, -4⟩)

/-- Fills in reserved branches up to the first that fails. -/
def resolveAll (plt : Bool) : CodeUnit → List PendingBranch → CodeUnit × Option AsmError
  | u, [] => (u, none)
  | u, p :: rest =>
    match resolve plt u p with
    | .ok v => resolveAll plt v rest
    | .error e => (u, some e)

/-- The second phase. If it fails, all branches stay pending. -/
def finish (a : Assembler) : Assembler × Option AsmError :=
  match resolveAll a.plt a.unit a.pending with
  | (u, none) => ({ a with unit := u, pending := [] }, none)
  | (u, some e) => ({ a with unit := u }, some e)

end Assembler

end Backend
