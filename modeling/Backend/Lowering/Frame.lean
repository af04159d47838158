-- The frame of a function: slots for the variables that have no place yet, for the registers that
-- have to be preserved, and for scratch values.
--
--   [rbp+16+8k]  stack parameter k
--   [rbp+8]      return address
--   [rbp]        saved rbp
--   [rbp-n]      variables, preserved registers, scratch
import Backend.Closure.Basic
import Backend.Machine.Encoding
import Backend.Target.Basic

namespace Backend.Lowering

/-- Rounds a frame size up to a multiple, in 64-bit arithmetic. -/
def alignFrame (size align : Int64) : Int64 :=
  if align ≤ 1 then size else (size + align - 1) / align * align

/-- The extent of the slots that were assigned beforehand to variables without a register. -/
def placedExtent (locs : Locations) : Int64 :=
  locs.foldl (fun size (_, l) =>
    match l.reg, l.stack with
    | none, some offset => if -offset > size then -offset else size
    | _, _ => size) 0

/-- Gives one variable a slot below the others unless it has a place. -/
def placeLocal (st : Int64 × Locations) (v : Var) : Int64 × Locations :=
  let (size, locs) := st
  match (locs.lookup v.ident).filter Location.isPlaced with
  | some _ => st
  | none =>
    let n : Int64 := Int64.ofNat (registerWidth v.ty)
    let size := alignFrame (size + n) n
    (size, assocInsert v.ident ⟨none, some (-size)⟩ locs)

/-- Gives a preserved register a slot if some variable lives in it. -/
def placeSaved (locs : Locations) (st : Int64 × List SavedReg) (id : Machine.RegId) :
    Int64 × List SavedReg :=
  let (size, saved) := st
  let r := gpr id 8
  if locs.occupies r then (size + 8, saved ++ [⟨r, -(size + 8)⟩]) else st

/-! ## Scratch -/

mutual

/-- Lowering the operand may need the temporary register. -/
def mayNeedTemp : Operand → Bool
  | .indirect _ _ _ _ _ => true
  | .imm (.string _) => true
  | .imm (.int _ value) => !Machine.fitsInt32 value
  | .list items => anyMayNeedTemp items
  | _ => false

/-- Lowering some item may need the temporary register. -/
def anyMayNeedTemp : List Operand → Bool
  | [] => false
  | o :: rest => mayNeedTemp o || anyMayNeedTemp rest

end

/-- Divisions and shifts always may need a scratch slot, others if an operand may need the
temporary register. -/
def mayNeedScratch (i : Instr) : Bool :=
  match i.op with
  | .sdiv | .udiv | .srem | .urem | .shl | .shr | .sar => true
  | _ => [i.first, i.second, i.addend, i.output].any fun o => (o.map mayNeedTemp).getD false

def needsScratch (c : Closure) : Bool := c.blocks.any fun b => b.ops.any mayNeedScratch

/-! ## Layout -/

/-- Lays out the frame: variables in reverse order of declaration, preserved registers, then two
scratch slots if the code may need them. Gives the offset of the scratch slots. -/
def layout (c : Closure) : Closure × Option Int64 :=
  let (size, locs) := c.locals.reverse.foldl placeLocal (placedExtent c.locations, c.locations)
  let (size, saved) := calleeSaved.foldl (placeSaved locs) (alignFrame size 16, [])
  if needsScratch c then
    let size := size + 16
    ({ c with locations := locs, saved := saved, frame := alignFrame size 16 }, some (-size))
  else ({ c with locations := locs, saved := saved, frame := alignFrame size 16 }, none)

end Backend.Lowering
