-- Emitting a lowered closure into a unit: its label, its machine code, and its data.
import Backend.Assembler
import Backend.Selection.Closure

namespace Backend

/-- Why a closure cannot be emitted. -/
inductive EmitError where
  | select (cause : InternalError)
  | assemble (closure : String) (cause : AsmError)
  | data (cause : CodeUnit.Error)

/-- The wording of an emission error. -/
def EmitError.message : EmitError → String
  | .select cause => cause.message
  | .assemble closure cause => s!"assemble {closure}: {cause.message}"
  | .data cause => cause.message?.getD ""

namespace Assembler

/-- Adds the data of a closure. -/
def addDataItems (u : CodeUnit) (items : List DataItem) : Except CodeUnit.Error CodeUnit :=
  items.foldlM (fun u d => u.addData d.name d.value (if d.isLocal then .loc else .glob)) u

/-- Selects a closure and runs the first phase over it. The size of its symbol is the length of
its code. -/
def emitClosure (a : Assembler) (c : Closure) : Except EmitError Assembler := do
  let insts ← match c.select with
    | .ok insts => pure insts
    | .error e => throw (.select e)
  let start := a.unit.offset
  let head : Machine.Inst := .label c.symbol .func (if c.isGlobal then .glob else .loc)
  match a.assembleAll (head :: insts) with
  | .error e => throw (.assemble c.name e)
  | .ok a =>
    let u := a.unit.update c.symbol fun s => { s with size := a.unit.offset - start }
    match addDataItems u c.data with
    | .ok u => pure { a with unit := u }
    | .error e => throw (.data e)

end Assembler

end Backend
