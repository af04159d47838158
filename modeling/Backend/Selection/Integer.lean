-- Integer arithmetic in two-address form, where the work is done in the destination, or in the
-- scratch register if the destination is memory or a source still needs it; and comparisons, which
-- set the flags and store what they say.
import Backend.Selection.Move

namespace Backend.Selection

open Backend.Machine (Inst)

/-- The instruction of an integer operation. -/
def intOp? : Opcode → Option Machine.Op
  | .add => some .add
  | .sub => some .sub
  | .and => some .and
  | .or => some .or
  | .xor => some .xor
  | .shl => some .shl
  | .shr => some .shr
  | .sar => some .sar
  | .neg => some .neg
  | .not => some .not
  | _ => none

/-- An instruction with operands that may be missing. -/
def inst (op : Machine.Op) (dst src : Option Machine.Operand) : Inst := .op op ⟨0⟩ dst src none

/-- The destination if it is a general purpose register, otherwise the scratch register. -/
def workReg (d : Option Machine.Operand) : Option Machine.Operand :=
  if isGpr d then d else some (.reg (r11 (opWidth d)))

/-- The two-address form of `d = a op b`. The work is done in the destination unless that is memory
or the second source reads it; then the sources are swapped if they may be, or the scratch register
is used. -/
def binary (op : Machine.Op) (d a b : Option Machine.Operand) (commutative signed : Bool) :
    Result (List Inst) := do
  let w := opWidth d
  let swap := isGpr d && clobbers d b && commutative && !clobbers d a
  let (a, b) := if swap then (b, a.map fun o => resize o w) else (a, b)
  let work := if isGpr d && (swap || !clobbers d b) then d else some (.reg (r11 w))
  let load ← move work a signed
  let result ← move d work signed
  pure (load ++ [inst op work b] ++ result)

/-- A multiplication. Bytes are multiplied in 32 bits, whose low byte is the same. -/
def mul (d a b : Option Machine.Operand) (signed : Bool) : Result (List Inst) := do
  let w := opWidth d
  if w == 1 then
    let wide : Machine.Operand := .reg (r11 4)
    let load ← move (some wide) (a.map fun o => resize o 1) false
    let product ← match b with
      | some (.imm k) => pure (Inst.op .imul ⟨0⟩ (some wide) (some wide) (some (.imm k)))
      | some (.reg r) => pure (two .imul wide (.reg ⟨r.id, 4⟩))
      | _ => throw .byteMultiply
    let result ← move d (some (.reg (r11 1))) signed
    pure (load ++ [product] ++ result)
  else
    let b := b.map fun o => resize o w
    match b with
    | some (.imm k) =>
      let work := workReg d
      let load ← if isImm a then move work a signed else pure []
      let src := if isImm a then work else a.map fun o => resize o w
      let result ← move d work signed
      pure (load ++ [.op .imul ⟨0⟩ work src (some (.imm k))] ++ result)
    | _ => binary .imul d a b true signed

/-- A division of rax by an operand, in the form that lowering gives it. -/
def divide (op : Opcode) (a b : Option Machine.Operand) : Result (List Inst) :=
  match a with
  | some (.reg r) =>
    if r.id != Machine.rax then .error (.dividend a)
    else
      let divisor := b.map fun o => resize o r.width
      let rdx : Machine.Operand := .reg ⟨Machine.rdx, 4⟩
      if op == .sdiv || op == .srem then
        .ok [inst .cqo a none, inst .idiv divisor none]
      else .ok [two .xor rdx rdx, inst .div divisor none]
  | _ => .error (.dividend a)

/-- An operation with one source. -/
def unary (op : Machine.Op) (d a : Option Machine.Operand) (signed : Bool) :
    Result (List Inst) := do
  let work := workReg d
  let load ← move work a signed
  let result ← move d work signed
  pure (load ++ [inst op work none] ++ result)

/-- The count of a shift: an immediate below the width, or cl. -/
def shiftCount (w : UInt8) (b : Option Machine.Operand) : Result Machine.Operand :=
  match b with
  | some (.imm n) => .ok (.imm (n &&& (Int64.ofNat (w.toNat * 8) - 1)))
  | some (.reg r) =>
    if r.id != Machine.rcx then .error (.shiftCountRegister r) else .ok (.reg ⟨Machine.rcx, 1⟩)
  | _ => .error (.shiftCount b)

/-! ## Comparisons -/

/-- The condition of an integer comparison. -/
def intCond : Opcode → Machine.Cond
  | .slt | .blt => .l
  | .sle | .ble => .le
  | .sgt | .bgt => .g
  | .sge | .bge => .ge
  | .ult | .bult => .b
  | .ule | .bule => .be
  | .ugt | .bugt => .a
  | .uge | .buge => .ae
  | .seq | .beq => .e
  | .sne | .bne => .ne
  | _ => .o

/-- The condition of a comparison. A float comparison sets the flags like an unsigned one. -/
def condOf (op : Opcode) (float : Bool) : Machine.Cond :=
  let c := intCond op
  if !float then c
  else if c == .l then .b
  else if c == .le then .be
  else if c == .g then .a
  else if c == .ge then .ae
  else c

/-- The width of a comparison: that of the first operand that has one. -/
def compareWidth (a b : Option Machine.Operand) : UInt8 :=
  if opWidth a == 0 then opWidth b else opWidth a

/-- Sets the flags by comparing two operands. -/
def compare (a b : Option Machine.Operand) (float : Bool) : Result (List Inst) := do
  let w := compareWidth a b
  let right := b.map fun o => resize o w
  if float then
    let (load, left) ← if isXmm a then pure ([], a) else do
      let x : Option Machine.Operand := some (.xmm (xmm15 w))
      pure (← move x a false, x)
    if !isXmm b && !isMem b then throw (.floatCompare b)
    pure (load ++ [inst .ucomis left right])
  else if isImm a || (!isGpr a && isMem b) then
    let left : Option Machine.Operand := some (.reg (r11 w))
    let load ← move left a false
    pure (load ++ [inst .cmp left right])
  else pure [inst .cmp a right]

/-- Stores the outcome of a comparison. -/
def setCond (c : Machine.Cond) (d : Option Machine.Operand) : Result (List Inst) := do
  if opWidth d == 1 && !isXmm d then pure [.op .setcc c d none none]
  else
    let wide := max (opWidth d) 4
    let result ← move d (some (.reg (r11 wide))) false
    pure ([.op .setcc c (some (.reg (r11 1))) none none,
      two .movzx (.reg (r11 4)) (.reg (r11 1))] ++ result)

end Backend.Selection
