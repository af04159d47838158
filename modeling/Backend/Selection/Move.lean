-- Copying one machine operand to another: narrower integers are extended, wider ones truncated, and
-- bits are copied between the register classes.
import Backend.Selection.Operand

namespace Backend.Selection

open Backend.Machine (Inst)

/-- An instruction with two operands. -/
def two (op : Machine.Op) (dst src : Machine.Operand) : Inst := .binary op dst src

/-- Extension of a narrower operand into a register. -/
def extend (d : Machine.Reg) (src : Machine.Operand) (signed : Bool) : Inst :=
  two (if signed then .movsx else .movzx) (.reg d) src

/-- A register into a register of the same class. -/
def moveRegReg (d s : Machine.Reg) (signed : Bool) : List Inst :=
  if d == s then []
  else if s.width == d.width then [two .mov (.reg d) (.reg s)]
  else if s.width < d.width then [extend d (.reg s) signed]
  else if s.id != d.id then [two .mov (.reg d) (.reg ⟨s.id, d.width⟩)]
  else []

/-- Memory into a register. -/
def moveRegMem (d : Machine.Reg) (m : Machine.Memory) (signed : Bool) : List Inst :=
  if m.width == d.width then [two .mov (.reg d) (.mem m)]
  else if m.width < d.width then [extend d (.mem m) signed]
  else [two .mov (.reg d) (.mem (m.sized d.width))]

/-- A register into memory. -/
def moveMemReg (d : Machine.Memory) (s : Machine.Reg) (signed : Bool) : List Inst :=
  if s.width ≥ d.width then [two .mov (.mem d) (.reg ⟨s.id, d.width⟩)]
  else [extend (r11 d.width) (.reg s) signed, two .mov (.mem d) (.reg (r11 d.width))]

/-- Anything into a float register. -/
def moveToXmm (d : Machine.Xmm) (src : Machine.Operand) : Result (List Inst) :=
  match src with
  | .xmm s => .ok (if s.id != d.id then [two .movs (.xmm d) (.xmm ⟨s.id, d.width⟩)] else [])
  | .mem m => .ok [two .movs (.xmm d) (.mem (m.sized d.width))]
  | .reg r => if r.width < 4 then .error (.bitMove r) else .ok [two .movq (.xmm d) (.reg r)]
  | .imm v =>
    .ok (if v == 0 then [two .xorps (.xmm d) (.xmm d)]
      else [two .mov (.reg (r11 8)) (.imm v), two .movq (.xmm d) (.reg (r11 d.width))])
  | .target t => .error (.noMove (some (.target t)) (some (.xmm d)))

/-- Anything into a general purpose register. -/
def moveToReg (d : Machine.Reg) (src : Machine.Operand) (signed : Bool) : Result (List Inst) :=
  match src with
  | .xmm x =>
    .ok (if d.width ≥ 4 then [two .movq (.reg d) (.xmm x)]
      else two .movq (.reg (r11 4)) (.xmm x) :: moveRegReg d (r11 d.width) signed)
  | .reg r => .ok (moveRegReg d r signed)
  | .mem m => .ok (moveRegMem d m signed)
  | .imm v => .ok [two .mov (.reg d) (.imm (truncate v d.width))]
  | .target t => .error (.noMove (some (.target t)) (some (.reg d)))

/-- Anything into memory. -/
def moveToMem (d : Machine.Memory) (src : Machine.Operand) (signed : Bool) :
    Result (List Inst) :=
  match src with
  | .reg r => .ok (moveMemReg d r signed)
  | .xmm x =>
    .ok (if x.width == d.width then [two .movs (.mem d) (.xmm x)]
      else two .movq (.reg (r11 x.width)) (.xmm x) :: moveMemReg d (r11 x.width) signed)
  | .mem m =>
    .ok (moveRegMem (r11 d.width) m signed ++ [two .mov (.mem d) (.reg (r11 d.width))])
  | .imm v =>
    let value := truncate v d.width
    .ok (if Machine.fitsInt32 value then [two .mov (.mem d) (.imm value)]
      else [two .mov (.reg (r11 8)) (.imm v), two .mov (.mem d) (.reg (r11 8))])
  | .target t => .error (.noMove (some (.target t)) (some (.mem d)))

/-- Copies the second operand to the first; nothing to do if they are the same. -/
def move (dst src : Option Machine.Operand) (signed : Bool) : Result (List Inst) :=
  if sameOperand dst src then .ok []
  else
    match dst, src with
    | some (.xmm d), some s => moveToXmm d s
    | some (.reg d), some s => moveToReg d s signed
    | some (.mem d), some s => moveToMem d s signed
    | _, _ => .error (.noMove src dst)

end Backend.Selection
