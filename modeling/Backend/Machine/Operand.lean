-- Operands of x86-64 instructions: registers with a width, addresses, immediates and branch
-- targets, with their written form.
import Backend.Text.Hex

namespace Backend.Machine

/-! ## Registers -/

/-- The hardware number of a general purpose or SSE register. -/
abbrev RegId := UInt8

def rax : RegId := 0
def rcx : RegId := 1
def rdx : RegId := 2
def rbx : RegId := 3
def rsp : RegId := 4
def rbp : RegId := 5
def rsi : RegId := 6
def rdi : RegId := 7
def r8 : RegId := 8
def r9 : RegId := 9
def r10 : RegId := 10
def r11 : RegId := 11
def r12 : RegId := 12
def r13 : RegId := 13
def r14 : RegId := 14
def r15 : RegId := 15

def names64 : List String :=
  ["rax", "rcx", "rdx", "rbx", "rsp", "rbp", "rsi", "rdi",
   "r8", "r9", "r10", "r11", "r12", "r13", "r14", "r15"]

def names32 : List String :=
  ["eax", "ecx", "edx", "ebx", "esp", "ebp", "esi", "edi",
   "r8d", "r9d", "r10d", "r11d", "r12d", "r13d", "r14d", "r15d"]

def names16 : List String :=
  ["ax", "cx", "dx", "bx", "sp", "bp", "si", "di",
   "r8w", "r9w", "r10w", "r11w", "r12w", "r13w", "r14w", "r15w"]

def names8 : List String :=
  ["al", "cl", "dl", "bl", "spl", "bpl", "sil", "dil",
   "r8b", "r9b", "r10b", "r11b", "r12b", "r13b", "r14b", "r15b"]

/-- The names of the general purpose registers at a width in bytes. -/
def namesOfWidth (width : Nat) : List String :=
  match width with
  | 1 => names8
  | 2 => names16
  | 4 => names32
  | _ => names64

/-- The name of a general purpose register at a width; a number that no register has is shown
as such. -/
def regName (id : RegId) (width : Nat) : String :=
  ((namesOfWidth width)[id.toNat]?).getD s!"r?{id.toNat}"

/-- A general purpose register and its accessed width in bytes. -/
structure Reg where
  id : RegId
  width : UInt8
  deriving DecidableEq

namespace Reg

/-- The low three bits of the number, which go into an instruction field. -/
def code (r : Reg) : UInt8 := r.id &&& 7

/-- The number needs a fourth bit. -/
def isHigh (r : Reg) : Bool := decide (8 ≤ r.id)

/-- The byte registers spl, bpl, sil and dil need a prefix to tell them from ah to bh. -/
def needsBytePrefix (r : Reg) : Bool := r.width == 1 && decide (4 ≤ r.id) && decide (r.id ≤ 7)

def text (r : Reg) : String := regName r.id r.width.toNat

/-- The register of a given name. -/
def ofName? (name : String) : Option Reg :=
  [(8, names64), (4, names32), (2, names16), (1, names8)].findSome? fun (width, names) =>
    let i := names.idxOf name
    if i < 16 then some ⟨UInt8.ofNat i, width⟩ else none

end Reg

/-- An SSE register used as a scalar of four or eight bytes. -/
structure Xmm where
  id : RegId
  width : UInt8
  deriving DecidableEq

namespace Xmm

def code (x : Xmm) : UInt8 := x.id &&& 7

def isHigh (x : Xmm) : Bool := decide (8 ≤ x.id)

def text (x : Xmm) : String := s!"xmm{x.id.toNat}"

end Xmm

/-! ## Memory -/

/-- An effective address: registers with a displacement, a symbol relative to the instruction
pointer, or the thread offset of a symbol. -/
inductive Address where
  | regs (base : Option Reg) (index : Option (Reg × UInt8)) (disp : Int32)
  | rip (symbol : String)
  | tls (symbol : String)
  deriving DecidableEq

/-- A memory operand and its accessed width in bytes. -/
structure Memory where
  addr : Address
  width : UInt8
  deriving DecidableEq

namespace Memory

/-- The memory at a register plus a displacement. -/
def ofBase (base : Reg) (disp : Int32) (width : UInt8) : Memory :=
  ⟨.regs (some base) none disp, width⟩

/-- The memory at a register plus a scaled index and a displacement; a scale of zero counts as
one. -/
def ofIndex (base index : Reg) (scale : UInt8) (disp : Int32) (width : UInt8) : Memory :=
  ⟨.regs (some base) (some (index, if scale == 0 then 1 else scale)) disp, width⟩

/-- The memory at a scaled index and a displacement. -/
def ofScaled (index : Reg) (scale : UInt8) (disp : Int32) (width : UInt8) : Memory :=
  ⟨.regs none (some (index, scale)) disp, width⟩

def ofRip (symbol : String) (width : UInt8) : Memory := ⟨.rip symbol, width⟩

def ofTls (symbol : String) (width : UInt8) : Memory := ⟨.tls symbol, width⟩

/-- The same address accessed at another width. -/
def sized (m : Memory) (width : UInt8) : Memory := { m with width := width }

def widthName (width : UInt8) : String :=
  match width.toNat with
  | 1 => "byte"
  | 2 => "word"
  | 4 => "dword"
  | 8 => "qword"
  | _ => ""

def addressText : Address → String
  | .rip symbol => s!"[rip+{symbol}]"
  | .tls symbol => s!"fs:[{symbol}@tpoff]"
  | .regs base index disp =>
    let baseText := (base.map Reg.text).toList
    let indexText := (index.map fun (r, scale) => s!"{r.text}*{scale.toNat}").toList
    let regs := "+".intercalate (baseText ++ indexText)
    let dispText :=
      if disp < 0 then "-0x" ++ Text.hex disp.toInt.natAbs
      else if disp > 0 || regs.isEmpty then
        (if regs.isEmpty then "" else "+") ++ "0x" ++ Text.hex disp.toInt.natAbs
      else ""
    s!"[{regs}{dispText}]"

def text (m : Memory) : String := widthName m.width ++ " ptr " ++ addressText m.addr

end Memory

/-! ## Operands -/

/-- The destination of a branch or call. -/
structure Target where
  name : String
  isLocal : Bool
  deriving DecidableEq

/-- An operand of a machine instruction. -/
inductive Operand where
  | reg (r : Reg)
  | xmm (x : Xmm)
  | mem (m : Memory)
  | imm (value : Int64)
  | target (t : Target)
  deriving DecidableEq

namespace Operand

def text : Operand → String
  | .reg r => r.text
  | .xmm x => x.text
  | .mem m => m.text
  | .imm value => Text.hexMarked value.toInt
  | .target t => t.name

end Operand

/-- What an operand is, as messages call it. -/
def kindName : Option Operand → String
  | none => "<nil>"
  | some (.reg _) => "amd64.Reg"
  | some (.xmm _) => "amd64.Xmm"
  | some (.mem _) => "amd64.Memory"
  | some (.imm _) => "amd64.Imm"
  | some (.target _) => "amd64.Target"

end Backend.Machine
