-- Float arithmetic and conversions between integers and floats.
import Backend.Lowering.Basic
import Backend.Selection.Integer

namespace Backend.Selection

open Backend.Machine (Inst)
open Backend.Lowering (opType)

/-- The instruction of a float operation. -/
def floatOp? : Opcode → Option Machine.Op
  | .add => some .adds
  | .sub => some .subs
  | .mul => some .muls
  | .sdiv | .udiv => some .divs
  | _ => none

/-- The instruction of a fused multiplication. -/
def fusedOp? : Opcode → Option Machine.Op
  | .fmadd => some .vfmadd231
  | .fnmsub => some .vfmsub231
  | .fmsub => some .vfnmadd231
  | _ => none

/-- The destination if it is a float register, otherwise the scratch register. -/
def workXmm (d : Option Machine.Operand) : Option Machine.Operand :=
  if isXmm d then d else some (.xmm (xmm15 (opWidth d)))

/-- The two-address form of a float operation. -/
def floatBinary (op : Machine.Op) (d a b : Option Machine.Operand) (commutative : Bool) :
    Result (List Inst) := do
  let w := opWidth d
  let b := b.map fun o => resize o w
  let swap := isXmm d && clobbers d b && commutative && !clobbers d a
  let (a, b) := if swap then (b, a.map fun o => resize o w) else (a, b)
  let work := if isXmm d && (swap || !clobbers d b) then d else some (.xmm (xmm15 w))
  if !isXmm b && !isMem b then throw (.floatOperand b)
  let load ← move work a false
  let result ← move d work false
  pure (load ++ [inst op work b] ++ result)

/-- Flips the sign bit. -/
def floatNeg (d a : Option Machine.Operand) : Result (List Inst) := do
  let w := opWidth d
  let r : Machine.Operand := .reg (r11 w)
  let load ← move (some r) a false
  let result ← move d (some r) false
  pure (load ++ [two .btc r (.imm (Int64.ofNat (w.toNat * 8) - 1))] ++ result)

/-- A fused multiplication. -/
def fused (c : Closure) (i : Instr) (d a b : Option Machine.Operand) : Result (List Inst) := do
  match fusedOp? i.op, (opType i).isFloat with
  | some op, true =>
    let addend ← required c i.addend
    let w := opWidth d
    let work : Option Machine.Operand :=
      if !isXmm d || clobbers d a || clobbers d b then some (.xmm (xmm15 w)) else d
    let load ← move work (some addend) false
    let (loadFactor, left) ← if isXmm a then pure ([], a) else do
      let x : Option Machine.Operand := some (.xmm (xmm14 w))
      pure (← move x a false, x)
    let result ← move d work false
    pure (load ++ loadFactor ++ [.op op ⟨0⟩ work left (b.map fun o => resize o w)] ++ result)
  | _, _ => throw .integerMultiplyAdd

/-- The width an integer is brought to before it is converted, zero if it stays as it is. -/
def conversionWidth (a : Option Machine.Operand) (signed : Bool) : UInt8 :=
  let w := opWidth a
  if w == 0 then 8 else if w < 4 then 4 else if w == 4 && !signed then 8 else 0

def intToFloat (d a : Option Machine.Operand) (signed : Bool) : Result (List Inst) := do
  let width := conversionWidth a signed
  let wide : Option Machine.Operand := some (.reg (r11 width))
  let load ← if width == 0 then pure [] else move wide a signed
  let work := workXmm d
  let result ← move d work false
  pure (load ++ [inst .cvtsi2s work (if width == 0 then a else wide)] ++ result)

def floatToInt (d a : Option Machine.Operand) (signed : Bool) : Result (List Inst) := do
  let conv : UInt8 := if opWidth d == 8 || !signed then 8 else 4
  if isGpr d && opWidth d == conv then pure [inst .cvtts2si d a]
  else
    let r : Option Machine.Operand := some (.reg (r11 conv))
    let result ← move d r signed
    pure ([inst .cvtts2si r a] ++ result)

/-- Between the float widths. -/
def floatToFloat (d a : Option Machine.Operand) : Result (List Inst) := do
  let work := workXmm d
  let result ← move d work false
  pure ([inst .cvts2s work a] ++ result)

end Backend.Selection
