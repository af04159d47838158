-- Machine forms of lowered operands: where a variable, a frame slot, an address or a symbol is
-- found by an instruction, and how machine operands overlap.
import Backend.Closure.Defect
import Backend.Machine.Encoding
import Backend.Target.Basic

namespace Backend.Selection

/-- The outcome of selecting a part of an instruction. -/
abbrev Result (α : Type) := Except Defect α

/-! ## Resolving operands -/

/-- The assembler name of a label; a local one is private to its function. -/
def labelName (c : Closure) (l : Label) : String :=
  if l.isLocal then ".L" ++ c.symbol ++ "." ++ l.name else l.name

/-- The width of a type as a machine operand. -/
def widthOf (t : Ty) : UInt8 := UInt8.ofNat (registerWidth t)

def machineReg (r : Reg) (width : UInt8) : Machine.Operand :=
  match r.cls with
  | .float => .xmm ⟨r.index, width⟩
  | .int => .reg ⟨r.index, width⟩

/-- The scratch register of selection at a width. -/
def r11 (width : UInt8) : Machine.Reg := ⟨Machine.r11, width⟩

/-- The float scratch register of selection at a width. -/
def xmm15 (width : UInt8) : Machine.Xmm := ⟨15, width⟩

/-- The second float scratch register of selection at a width. -/
def xmm14 (width : UInt8) : Machine.Xmm := ⟨14, width⟩

/-- A displacement that is known to fit 32 bits. -/
def toDisp (v : Int64) : Int32 := v.toInt32

/-- A slot of the frame. -/
def frameSlot (offset : Int64) (width : UInt8) : Result Machine.Operand :=
  if Machine.fitsInt32 offset then
    .ok (.mem (.ofBase ⟨Machine.rbp, 8⟩ (toDisp offset) width))
  else .error (.frameOffset offset)

def locate (c : Closure) (v : Var) : Result Location :=
  match c.locate? v with
  | some l => .ok l
  | none => .error (.unplaced v)

/-- A register as part of an address, if the part is there. -/
def addressReg (c : Closure) : Option Operand → Result (Option Machine.Reg)
  | none => .ok none
  | some o =>
    match o with
    | .reg r =>
      if r.cls == .int then .ok (some ⟨r.index, 8⟩) else .error (.addressComponent o)
    | .var v => do
      let l ← locate c v
      match l.reg with
      | some r => if r.cls == .int then .ok (some ⟨r.index, 8⟩) else .error (.addressComponent o)
      | none => .error (.addressComponent o)
    | _ => .error (.addressComponent o)

/-- A memory operand whose parts are in registers. -/
def memory (c : Closure) (base index : Option Operand) (scale : UInt8) (disp : Int64) (t : Ty) :
    Result Machine.Memory := do
  let b ← addressReg c base
  let i ← addressReg c index
  if !Machine.fitsInt32 disp then throw (.displacement disp)
  let scale := if scale == 0 then 1 else scale
  match b, i with
  | some b, some i => pure (.ofIndex b i scale (toDisp disp) (widthOf t))
  | some b, none => pure (.ofBase b (toDisp disp) (widthOf t))
  | none, some i => pure (.ofScaled i scale (toDisp disp) (widthOf t))
  | none, none => throw (.addressWithoutRegister (.indirect base index scale disp t))

/-- The machine form of an operand. -/
def operand (c : Closure) : Operand → Result Machine.Operand
  | .reg r => .ok (machineReg r r.width)
  | .var v => do
    let l ← locate c v
    match l.reg with
    | some r => .ok (machineReg r (widthOf v.ty))
    | none => frameSlot (l.stack.getD 0) (widthOf v.ty)
  | .stack offset t => frameSlot offset (widthOf t)
  | .imm l =>
    match l.int? with
    | some value => .ok (.imm value)
    | none => .error (.literal l)
  | .indirect base index scale disp t => do .ok (.mem (← memory c base index scale disp t))
  | .symbol s =>
    .ok (.mem (if s.isTls then .ofTls s.name (widthOf s.ty) else .ofRip s.name (widthOf s.ty)))
  | .label l => .ok (.target ⟨labelName c l, l.isLocal⟩)
  | .list items => .error (.noMachineForm (some (.list items)))

/-- The machine form of an operand that has to be there. -/
def required (c : Closure) : Option Operand → Result Machine.Operand
  | some o => operand c o
  | none => .error (.noMachineForm none)

/-- The machine form of an operand that may be missing. -/
def optional (c : Closure) : Option Operand → Result (Option Machine.Operand)
  | some o => do .ok (some (← operand c o))
  | none => .ok none

/-! ## Machine operands -/

/-- The width of an operand, zero if it has none. -/
def opWidth : Option Machine.Operand → UInt8
  | some (.reg r) => r.width
  | some (.xmm x) => x.width
  | some (.mem m) => m.width
  | _ => 0

/-- The signed value of the low bytes of an immediate. -/
def truncate (v : Int64) (width : UInt8) : Int64 :=
  match width.toNat with
  | 1 => v.toInt8.toInt64
  | 2 => v.toInt16.toInt64
  | 4 => v.toInt32.toInt64
  | _ => v

/-- An operand viewed at another width. -/
def resize (o : Machine.Operand) (width : UInt8) : Machine.Operand :=
  match o with
  | .reg r => .reg ⟨r.id, width⟩
  | .xmm x => .xmm ⟨x.id, width⟩
  | .mem m => .mem (m.sized width)
  | .imm v => .imm (truncate v width)
  | .target t => .target t

def isGpr : Option Machine.Operand → Bool
  | some (.reg _) => true
  | _ => false

def isXmm : Option Machine.Operand → Bool
  | some (.xmm _) => true
  | _ => false

def isMem : Option Machine.Operand → Bool
  | some (.mem _) => true
  | _ => false

def isImm : Option Machine.Operand → Bool
  | some (.imm _) => true
  | _ => false

/-- The same register or memory at the same width. -/
def sameOperand : Option Machine.Operand → Option Machine.Operand → Bool
  | some (.reg r), some (.reg s) => r == s
  | some (.xmm x), some (.xmm y) => x == y
  | some (.mem m), some (.mem n) => m == n
  | _, _ => false

/-- The address uses the register. -/
def addressUses (id : Machine.RegId) : Machine.Address → Bool
  | .regs base index _ =>
    (base.map fun b => b.id == id).getD false || (index.map fun (i, _) => i.id == id).getD false
  | _ => false

/-- Writing the first operand changes the value of the second. -/
def clobbers : Option Machine.Operand → Option Machine.Operand → Bool
  | some (.reg r), some (.reg s) => s.id == r.id
  | some (.reg r), some (.mem m) => addressUses r.id m.addr
  | some (.xmm x), some (.xmm y) => y.id == x.id
  | _, _ => false

end Backend.Selection
