-- The operations of the intermediate representation: their names, their classes, and the
-- comparison that holds with the operands swapped.

namespace Backend

/-- An operation. The fused multiplications at the end come from the peephole rules, all others
from the front end. -/
inductive Opcode where
  | nop
  | label
  | phi
  | fnBegin
  | fnEnd
  | safepoint
  | move
  | lea
  | clr
  | push
  | pop
  | add
  | sub
  | mul
  | sdiv
  | udiv
  | srem
  | urem
  | neg
  | and
  | or
  | xor
  | not
  | shl
  | shr
  | sar
  | slt
  | sle
  | sgt
  | sge
  | ult
  | ule
  | ugt
  | uge
  | seq
  | sne
  | beq
  | bne
  | blt
  | ble
  | bgt
  | bge
  | bult
  | bule
  | bugt
  | buge
  | bal
  | call
  | rtCall
  | retValue
  | ret
  | itof
  | ftoi
  | fext
  | ftrunc
  | fmadd
  | fmsub
  | fnmsub
  deriving DecidableEq, Repr

namespace Opcode

/-- All operations in the order of their codes. -/
def all : List Opcode :=
  [.nop, .label, .phi, .fnBegin, .fnEnd, .safepoint, .move, .lea, .clr, .push, .pop, .add, .sub,
   .mul, .sdiv, .udiv, .srem, .urem, .neg, .and, .or, .xor, .not, .shl, .shr, .sar, .slt, .sle,
   .sgt, .sge, .ult, .ule, .ugt, .uge, .seq, .sne, .beq, .bne, .blt, .ble, .bgt, .bge, .bult,
   .bule, .bugt, .buge, .bal, .call, .rtCall, .retValue, .ret, .itof, .ftoi, .fext, .ftrunc,
   .fmadd, .fmsub, .fnmsub]

/-- The written name of an operation. -/
def name : Opcode → String
  | .nop => "nop"
  | .label => "label"
  | .phi => "phi"
  | .fnBegin => "fn_begin"
  | .fnEnd => "fn_end"
  | .safepoint => "safepoint"
  | .move => "move"
  | .lea => "lea"
  | .clr => "clr"
  | .push => "push"
  | .pop => "pop"
  | .add => "add"
  | .sub => "sub"
  | .mul => "mul"
  | .sdiv => "sdiv"
  | .udiv => "udiv"
  | .srem => "srem"
  | .urem => "urem"
  | .neg => "neg"
  | .and => "and"
  | .or => "or"
  | .xor => "xor"
  | .not => "not"
  | .shl => "shl"
  | .shr => "shr"
  | .sar => "sar"
  | .slt => "slt"
  | .sle => "sle"
  | .sgt => "sgt"
  | .sge => "sge"
  | .ult => "ult"
  | .ule => "ule"
  | .ugt => "ugt"
  | .uge => "uge"
  | .seq => "seq"
  | .sne => "sne"
  | .beq => "beq"
  | .bne => "bne"
  | .blt => "blt"
  | .ble => "ble"
  | .bgt => "bgt"
  | .bge => "bge"
  | .bult => "bult"
  | .bule => "bule"
  | .bugt => "bugt"
  | .buge => "buge"
  | .bal => "bal"
  | .call => "call"
  | .rtCall => "rt_call"
  | .retValue => "return"
  | .ret => "ret"
  | .itof => "itof"
  | .ftoi => "ftoi"
  | .fext => "fext"
  | .ftrunc => "ftrunc"
  | .fmadd => "fmadd"
  | .fmsub => "fmsub"
  | .fnmsub => "fnmsub"

/-- The operation of a given name. -/
def ofName? (s : String) : Option Opcode := all.find? fun op => op.name == s

theorem ofName?_name (op : Opcode) : ofName? op.name = some op := by
  cases op <;> decide

/-! ## Classes -/

/-- Branches taken when a comparison of the two sources holds. -/
def isCondBranch : Opcode → Bool
  | .beq | .bne | .blt | .ble | .bgt | .bge | .bult | .bule | .bugt | .buge => true
  | _ => false

def isBranch (op : Opcode) : Bool := op.isCondBranch || op == .bal

/-- Comparisons that store their outcome. -/
def isCompare : Opcode → Bool
  | .slt | .sle | .sgt | .sge | .ult | .ule | .ugt | .uge | .seq | .sne => true
  | _ => false

def isCall : Opcode → Bool
  | .call | .rtCall => true
  | _ => false

/-- The instruction transfers control out of its block. -/
def isControl (op : Opcode) : Bool := op.isBranch || op == .retValue || op == .ret

def isFused : Opcode → Bool
  | .fmadd | .fmsub | .fnmsub => true
  | _ => false

/-- The two sources may be swapped. -/
def isCommutative : Opcode → Bool
  | .add | .mul | .and | .or | .xor | .seq | .sne | .beq | .bne => true
  | _ => false

/-- The two-source and one-source operations on numbers. -/
def isArithmetic : Opcode → Bool
  | .add | .sub | .mul | .sdiv | .udiv | .srem | .urem | .neg | .and | .or | .xor | .not
  | .shl | .shr | .sar => true
  | _ => false

/-- Conversions between number types. -/
def isConversion : Opcode → Bool
  | .itof | .ftoi | .fext | .ftrunc => true
  | _ => false

/-- The instruction only computes its output from its sources, so that the output may be
exchanged for another one. -/
def computes (op : Opcode) : Bool :=
  op.isArithmetic || op.isCompare || op.isFused || op == .lea || op.isConversion

/-- The comparison that holds with its operands swapped; other operations stay as they are. -/
def swapped : Opcode → Opcode
  | .slt => .sgt
  | .sle => .sge
  | .sgt => .slt
  | .sge => .sle
  | .ult => .ugt
  | .ule => .uge
  | .ugt => .ult
  | .uge => .ule
  | .blt => .bgt
  | .ble => .bge
  | .bgt => .blt
  | .bge => .ble
  | .bult => .bugt
  | .bule => .buge
  | .bugt => .bult
  | .buge => .bule
  | op => op

/-! ## Codes -/

/-- An operation as one byte. The codes after the last operation are reserved. -/
structure Code where
  val : UInt8
  deriving DecidableEq

/-- The position of an operation in `all`. -/
def code (op : Opcode) : Code := ⟨UInt8.ofNat (all.idxOf op)⟩

namespace Code

/-- The operation a code stands for, if it is not reserved. -/
def opcode? (c : Code) : Option Opcode := all[c.val.toNat]?

/-- A reserved code is named by its number. -/
def name (c : Code) : String :=
  match c.opcode? with
  | some op => op.name
  | none => s!"op({c.val.toNat})"

/-- Whether the operation of the code has a property; a reserved code has none. -/
def holds (c : Code) (p : Opcode → Bool) : Bool := (c.opcode?.map p).getD false

/-- The code of the swapped comparison; a reserved code stays as it is. -/
def swapped (c : Code) : Code := (c.opcode?.map fun op => op.swapped.code).getD c

end Code

end Opcode

end Backend
