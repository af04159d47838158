-- The x86-64 Linux target: its registers by name, the roles that the System V calling convention
-- gives them, and the options that choose between instruction sequences.
import Backend.Instr
import Backend.Machine.Operand
import Backend.Operand.Parser

namespace Backend

/-! ## Registers -/

/-- A general purpose register at a width. -/
def gpr (id : Machine.RegId) (width : Nat) : Reg :=
  ⟨id, UInt8.ofNat width, .int, Machine.regName id width⟩

/-- An SSE register at a width. -/
def xmm (id : Machine.RegId) (width : Nat) : Reg :=
  ⟨id, UInt8.ofNat width, .float, s!"xmm{id.toNat}"⟩

/-- The width of a type in a register; a type without a size takes a whole one. -/
def registerWidth (t : Ty) : Nat := if t.size == 0 then 8 else t.size

/-- The register with a number, of the class and width of a type. -/
def regFor (id : Machine.RegId) (t : Ty) : Reg :=
  if t.isFloat then xmm id (registerWidth t) else gpr id (registerWidth t)

def regRax : Reg := gpr Machine.rax 8
def regRcx : Reg := gpr Machine.rcx 8
def regRdx : Reg := gpr Machine.rdx 8
def regRsp : Reg := gpr Machine.rsp 8
def regRbp : Reg := gpr Machine.rbp 8
def regR10 : Reg := gpr Machine.r10 8
def regXmm13 : Reg := xmm 13 8

/-- The registers of integer arguments in order. -/
def intArgRegs : List Machine.RegId :=
  [Machine.rdi, Machine.rsi, Machine.rdx, Machine.rcx, Machine.r8, Machine.r9]

/-- The registers of float arguments in order. -/
def floatArgRegs : List Machine.RegId := [0, 1, 2, 3, 4, 5, 6, 7]

/-- The registers a function has to preserve. -/
def calleeSaved : List Machine.RegId :=
  [Machine.rbx, Machine.r12, Machine.r13, Machine.r14, Machine.r15]

/-- The register carries call arguments. -/
def isArgRegister (r : Reg) : Bool :=
  match r.cls with
  | .int => intArgRegs.contains r.index
  | .float => floatArgRegs.contains r.index

/-- A decimal numeral with an optional sign. -/
def signedDecimal? (s : List Char) : Option Int :=
  let digits (r : List Char) : Option Int :=
    match Text.readDecimal (Nat.pow 2 63) r with
    | .ok n => some n
    | .error _ => none
  match s with
  | '-' :: r => (digits r).map fun n => -n
  | '+' :: r => digits r
  | r => digits r

/-- The register of an assembler name: the general purpose registers at four widths, and `xmm0` to
`xmm15`. -/
def registerOfName? (name : String) : Option Reg :=
  match Machine.Reg.ofName? name with
  | some r => some (gpr r.id r.width.toNat)
  | none =>
    match name.toList with
    | 'x' :: 'm' :: 'm' :: rest =>
      match signedDecimal? rest with
      | some n => if 0 ≤ n && n ≤ 15 then some (xmm (UInt8.ofNat n.toNat) 8) else none
      | none => none
    | _ => none

/-! ## Arguments -/

/-- How many argument registers of each class are taken. -/
structure ArgCount where
  ints : Nat
  floats : Nat
  deriving DecidableEq

/-- The register of the next argument of a type, if one is left. -/
def ArgCount.next (a : ArgCount) (t : Ty) : Option Reg × ArgCount :=
  if t.isFloat then
    match floatArgRegs[a.floats]? with
    | some id => (some (regFor id t), { a with floats := a.floats + 1 })
    | none => (none, a)
  else
    match intArgRegs[a.ints]? with
    | some id => (some (regFor id t), { a with ints := a.ints + 1 })
    | none => (none, a)

/-- The register in which a value of a type is returned. -/
def returnReg (t : Ty) : Reg := regFor 0 t

/-! ## Targets -/

/-- The choices a target leaves open: fused multiplication of floats, calls through the procedure
linkage table, and the functions that follow the variadic convention. -/
structure TargetOptions where
  fma : Bool
  plt : Bool
  variadic : List String

/-- The fusions that a target can encode. -/
structure Features where
  lea : Bool
  floatMulAdd : Bool
  intMulAdd : Bool
  deriving DecidableEq

/-- The registers that instructions use without naming them: those that carry call arguments, the
stack pointer and the frame pointer. -/
structure RegisterRoles where
  isArgument : Reg → Bool
  stackPointer : Reg
  framePointer : Reg

/-- No target is known for an architecture and system. -/
structure UnsupportedTarget where
  arch : String
  os : String
  deriving DecidableEq

def UnsupportedTarget.message (e : UnsupportedTarget) : String :=
  s!"target {e.arch}/{e.os}: unsupported target configuration"

/-- A target that code is generated for. -/
structure Target where
  arch : String
  os : String
  options : TargetOptions

namespace Target

/-- The x86-64 Linux target. -/
def amd64Linux (options : TargetOptions) : Target := ⟨"amd64", "linux", options⟩

/-- The target for an architecture and system. -/
def lookup (arch os : String) (options : TargetOptions) : Except UnsupportedTarget Target :=
  if arch == "amd64" && os == "linux" then .ok (amd64Linux options) else .error ⟨arch, os⟩

def features (t : Target) : Features := ⟨true, t.options.fma, false⟩

/-- The roles of registers under the System V convention. -/
def roles : RegisterRoles := ⟨isArgRegister, regRsp, regRbp⟩

end Target

end Backend
