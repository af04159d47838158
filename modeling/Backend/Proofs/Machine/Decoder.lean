-- A decoder of the instruction subset after the architecture manual: legacy prefixes, REX or VEX,
-- opcode, ModRM, SIB, displacement and immediate. It shares nothing with the encoder but the names
-- of instructions and registers.
import Backend.Machine.Inst
import Backend.Proofs.Bytes

namespace Backend.Machine.Decoder

/-! ## Decoded instructions -/

/-- A decoded address: registers of eight bytes with a displacement, or a displacement from the end
of the instruction. -/
inductive Address where
  | regs (base : Option RegId) (index : Option (RegId × UInt8)) (disp : Int)
  | rip (disp : Int)
  deriving DecidableEq

/-- A decoded operand. Memory is marked if it is in the thread segment; an immediate is given
modulo the range of the operand it goes to. -/
inductive Operand where
  | reg (r : Reg)
  | xmm (x : Xmm)
  | mem (isTls : Bool) (addr : Address) (width : UInt8)
  | imm (value : Int)
  | rel (disp : Int)
  deriving DecidableEq

/-- A decoded instruction. Instructions without a condition have the first one. -/
structure Instr where
  op : Op
  cond : Cond
  operands : List Operand
  deriving DecidableEq

/-! ## Prefixes -/

/-- What the bytes before the opcode say. -/
structure Context where
  fs : Bool
  size : Bool
  repne : Bool
  rep : Bool
  hasRex : Bool
  w : Bool
  r : Bool
  x : Bool
  b : Bool
  deriving DecidableEq

def Context.empty : Context := ⟨false, false, false, false, false, false, false, false, false⟩

/-- The operand width of instructions that have no width of their own. -/
def Context.width (c : Context) : UInt8 := if c.w then 8 else if c.size then 2 else 4

/-- Reads the legacy prefixes. -/
def legacyPrefixes : List UInt8 → Context × List UInt8
  | [] => (.empty, [])
  | b :: rest =>
    let (c, after) := legacyPrefixes rest
    if b == 0x64 then ({ c with fs := true }, after)
    else if b == 0x66 then ({ c with size := true }, after)
    else if b == 0xf2 then ({ c with repne := true }, after)
    else if b == 0xf3 then ({ c with rep := true }, after)
    else (.empty, b :: rest)

/-- The bit of a byte. -/
def bit (b : UInt8) (n : UInt8) : Bool := b >>> n &&& 1 == 1

/-- Reads a REX prefix, which comes last. -/
def rexPrefix (c : Context) : List UInt8 → Context × List UInt8
  | [] => (c, [])
  | b :: rest =>
    if b >>> 4 == 4 then
      ({ c with hasRex := true, w := bit b 3, r := bit b 2, x := bit b 1, b := bit b 0 }, rest)
    else (c, b :: rest)

/-! ## Addresses -/

/-- The register or memory operand that a ModRM byte names. -/
inductive Rm where
  | reg (id : RegId)
  | mem (addr : Address)
  deriving DecidableEq

/-- A register number of three bits and its extension. -/
def extend (high : Bool) (low : UInt8) : RegId := low + if high then 8 else 0

/-- The displacement that follows the addressing bytes with a mod field other than three. -/
def readDisp (mod : UInt8) (bytes : List UInt8) : Option (Int × List UInt8) :=
  if mod == 0 then some (0, bytes) else if mod == 1 then readInt 1 bytes else readInt 4 bytes

/-- Reads the byte with scale, index and base. A base of five without displacement means that there
is no base, but a displacement of four bytes; an index of four means that there is no index. -/
def readSib (c : Context) (mod : UInt8) : List UInt8 → Option (Address × List UInt8)
  | [] => none
  | s :: rest =>
    let id := extend c.x (s >>> 3 &&& 7)
    let index := if id == 4 then none else some (id, (1 : UInt8) <<< (s >>> 6))
    if mod == 0 && s &&& 7 == 5 then
      (readInt 4 rest).map fun (disp, rest) => (.regs none index disp, rest)
    else
      (readDisp mod rest).map fun (disp, rest) =>
        (.regs (some (extend c.b (s &&& 7))) index disp, rest)

/-- Reads the operand of a ModRM byte. -/
def readRm (c : Context) (mod rm : UInt8) (rest : List UInt8) : Option (Rm × List UInt8) :=
  if mod == 3 then some (.reg (extend c.b rm), rest)
  else if rm == 4 then (readSib c mod rest).map fun (addr, rest) => (.mem addr, rest)
  else if mod == 0 && rm == 5 then
    (readInt 4 rest).map fun (disp, rest) => (.mem (.rip disp), rest)
  else
    (readDisp mod rest).map fun (disp, rest) =>
      (.mem (.regs (some (extend c.b rm)) none disp), rest)

/-! ## Operands -/

/-- Where an operand of an instruction is found. -/
inductive Slot where
  /-- A general purpose register in the reg field. -/
  | reg (width : UInt8)
  /-- A general purpose register or memory in the rm field. -/
  | rm (width : UInt8)
  /-- Memory in the rm field that is not accessed. -/
  | address
  /-- An SSE register in the reg field. -/
  | xreg (width : UInt8)
  /-- An SSE register or memory in the rm field. -/
  | xrm (width : UInt8)
  /-- An SSE register in the VEX prefix. -/
  | vreg (width : UInt8)
  /-- A general purpose register in the low bits of the opcode. -/
  | opcode (low : UInt8) (width : UInt8)
  /-- A register that the opcode implies. -/
  | implied (r : Reg)
  /-- A sign-extended field of some bytes, for an operand of a width. -/
  | imm (bytes : Nat) (width : UInt8)
  /-- The distance of a branch target from the end of the instruction. -/
  | rel (bytes : Nat)
  deriving DecidableEq

/-- The fields that slots refer to. -/
structure Fields where
  reg : RegId
  rm : Option Rm
  vvvv : RegId

/-- A general purpose register. Without REX prefix the byte registers four to seven are ah to bh,
which this subset does not have. -/
def gpr? (c : Context) (id : RegId) (width : UInt8) : Option Operand :=
  if width == 1 && 4 ≤ id && id ≤ 7 && !c.hasRex then none else some (.reg ⟨id, width⟩)

/-- Reads one operand; immediates are taken from the bytes. -/
def Slot.read (c : Context) (f : Fields) (bytes : List UInt8) :
    Slot → Option (Operand × List UInt8)
  | .reg w => (gpr? c f.reg w).map fun o => (o, bytes)
  | .rm w =>
    match f.rm with
    | some (.reg id) => (gpr? c id w).map fun o => (o, bytes)
    | some (.mem addr) => some (.mem c.fs addr w, bytes)
    | none => none
  | .address =>
    match f.rm with
    | some (.mem addr) => some (.mem c.fs addr 0, bytes)
    | _ => none
  | .xreg w => some (.xmm ⟨f.reg, w⟩, bytes)
  | .xrm w =>
    match f.rm with
    | some (.reg id) => some (.xmm ⟨id, w⟩, bytes)
    | some (.mem addr) => some (.mem c.fs addr w, bytes)
    | none => none
  | .vreg w => some (.xmm ⟨f.vvvv, w⟩, bytes)
  | .opcode low w => (gpr? c (extend c.b low) w).map fun o => (o, bytes)
  | .implied r => some (.reg r, bytes)
  | .imm n w => (readInt n bytes).map fun (v, rest) => (.imm (v % 256 ^ w.toNat), rest)
  | .rel n => (readInt n bytes).map fun (v, rest) => (.rel v, rest)

/-- Reads the operands in order. -/
def readSlots (c : Context) (f : Fields) :
    List Slot → List UInt8 → Option (List Operand × List UInt8)
  | [], bytes => some ([], bytes)
  | slot :: slots, bytes => do
    let (o, bytes) ← slot.read c f bytes
    let (os, bytes) ← readSlots c f slots bytes
    some (o :: os, bytes)

/-! ## Opcodes -/

/-- An instruction and where its operands are. -/
structure Shape where
  op : Op
  slots : List Slot
  cond : Cond

/-- What follows an opcode: the operands, or a ModRM byte whose reg field may belong to the
opcode. -/
inductive Pattern where
  | plain (s : Shape)
  | modrm (shape? : UInt8 → Option Shape)

/-- A pattern with ModRM byte whose reg field is an operand. -/
def Pattern.always (op : Op) (slots : List Slot) : Pattern := .modrm fun _ => some ⟨op, slots, ⟨0⟩⟩

/-- The arithmetic instruction of a digit. -/
def arithmetic? (digit : UInt8) : Option Op :=
  match digit.toNat with
  | 0 => some .add
  | 1 => some .or
  | 4 => some .and
  | 5 => some .sub
  | 6 => some .xor
  | 7 => some .cmp
  | _ => none

/-- The shift of a digit. -/
def shift? (digit : UInt8) : Option Op :=
  match digit.toNat with
  | 4 => some .shl
  | 5 => some .shr
  | 7 => some .sar
  | _ => none

/-- The shape of a group instruction. -/
def grouped (op? : UInt8 → Option Op) (slots : List Slot) : Pattern :=
  .modrm fun digit => (op? digit).map fun op => ⟨op, slots, ⟨0⟩⟩

/-- The group of tests with an immediate and of one-operand arithmetic. -/
def unaryGroup (w : UInt8) (immediate : Nat) : Pattern :=
  .modrm fun digit =>
    match digit.toNat with
    | 0 => some ⟨.test, [.rm w, .imm immediate w], ⟨0⟩⟩
    | 2 => some ⟨.not, [.rm w], ⟨0⟩⟩
    | 3 => some ⟨.neg, [.rm w], ⟨0⟩⟩
    | 6 => some ⟨.div, [.rm w], ⟨0⟩⟩
    | 7 => some ⟨.idiv, [.rm w], ⟨0⟩⟩
    | _ => none

/-- The group of indirect jumps, calls and pushes. -/
def branchGroup : Pattern :=
  .modrm fun digit =>
    match digit.toNat with
    | 2 => some ⟨.call, [.rm 8], ⟨0⟩⟩
    | 4 => some ⟨.jmp, [.rm 8], ⟨0⟩⟩
    | 6 => some ⟨.push, [.rm 8], ⟨0⟩⟩
    | _ => none

/-- The number of bytes of an immediate for an operand width: at most four. -/
def immediateBytes (w : UInt8) : Nat := min w.toNat 4

/-- A group in which only the digit zero is of this subset. -/
def digitZero (op : Op) (slots : List Slot) : Pattern :=
  .modrm fun digit => if digit == 0 then some ⟨op, slots, ⟨0⟩⟩ else none

/-- The opcodes of one byte that contain neither a register nor a condition. -/
def plainOpcode (w : UInt8) (b : UInt8) : Option Pattern :=
  match b.toNat with
  | 0x63 => some (.always .movsx [.reg w, .rm 4])
  | 0x68 => some (.plain ⟨.push, [.imm 4 8], ⟨0⟩⟩)
  | 0x69 => some (.always .imul [.reg w, .rm w, .imm (immediateBytes w) w])
  | 0x6a => some (.plain ⟨.push, [.imm 1 8], ⟨0⟩⟩)
  | 0x6b => some (.always .imul [.reg w, .rm w, .imm 1 w])
  | 0x80 => some (grouped arithmetic? [.rm 1, .imm 1 1])
  | 0x81 => some (grouped arithmetic? [.rm w, .imm (immediateBytes w) w])
  | 0x83 => some (grouped arithmetic? [.rm w, .imm 1 w])
  | 0x84 => some (.always .test [.rm 1, .reg 1])
  | 0x85 => some (.always .test [.rm w, .reg w])
  | 0x88 => some (.always .mov [.rm 1, .reg 1])
  | 0x89 => some (.always .mov [.rm w, .reg w])
  | 0x8a => some (.always .mov [.reg 1, .rm 1])
  | 0x8b => some (.always .mov [.reg w, .rm w])
  | 0x8d => some (.always .lea [.reg w, .address])
  | 0x8f => some (digitZero .pop [.rm 8])
  | 0x99 => some (.plain ⟨.cqo, [.implied ⟨rax, w⟩], ⟨0⟩⟩)
  | 0xc0 => some (grouped shift? [.rm 1, .imm 1 1])
  | 0xc1 => some (grouped shift? [.rm w, .imm 1 1])
  | 0xc3 => some (.plain ⟨.ret, [], ⟨0⟩⟩)
  | 0xc6 => some (digitZero .mov [.rm 1, .imm 1 1])
  | 0xc7 => some (digitZero .mov [.rm w, .imm (immediateBytes w) w])
  | 0xd2 => some (grouped shift? [.rm 1, .implied ⟨rcx, 1⟩])
  | 0xd3 => some (grouped shift? [.rm w, .implied ⟨rcx, 1⟩])
  | 0xe8 => some (.plain ⟨.call, [.rel 4], ⟨0⟩⟩)
  | 0xe9 => some (.plain ⟨.jmp, [.rel 4], ⟨0⟩⟩)
  | 0xeb => some (.plain ⟨.jmp, [.rel 1], ⟨0⟩⟩)
  | 0xf6 => some (unaryGroup 1 1)
  | 0xf7 => some (unaryGroup w (immediateBytes w))
  | 0xff => some branchGroup
  | _ => none

/-- The opcodes of one byte. Arithmetic has its digit in the upper bits. -/
def oneByte (c : Context) (b : UInt8) : Option Pattern :=
  let w := c.width
  let low := b &&& 7
  match (b >>> 3).toNat with
  | 0x0a => some (.plain ⟨.push, [.opcode low 8], ⟨0⟩⟩)
  | 0x0b => some (.plain ⟨.pop, [.opcode low 8], ⟨0⟩⟩)
  | 0x0e | 0x0f => some (.plain ⟨.jcc, [.rel 1], ⟨b &&& 15⟩⟩)
  | 0x16 => some (.plain ⟨.mov, [.opcode low 1, .imm 1 1], ⟨0⟩⟩)
  | 0x17 => some (.plain ⟨.mov, [.opcode low w, .imm w.toNat w], ⟨0⟩⟩)
  | _ =>
    match arithmetic? (b >>> 3) with
    | some op =>
      match low.toNat with
      | 0 => some (.always op [.rm 1, .reg 1])
      | 1 => some (.always op [.rm w, .reg w])
      | 2 => some (.always op [.reg 1, .rm 1])
      | 3 => some (.always op [.reg w, .rm w])
      | _ => none
    | none => plainOpcode w b

/-- The width of the scalar that a mandatory prefix names. -/
def scalarWidth? (c : Context) : Option UInt8 :=
  if c.rep then some 4 else if c.repne then some 8 else none

/-- A scalar instruction on SSE registers. -/
def scalar (c : Context) (slots : UInt8 → List Slot) (op : Op) : Option Pattern :=
  (scalarWidth? c).map fun w => .always op (slots w)

/-- The width of the other scalar. -/
def otherScalar (w : UInt8) : UInt8 := if w == 4 then 8 else 4

/-- The opcodes after 0F. -/
def twoByte (c : Context) (b : UInt8) : Option Pattern :=
  let w := c.width
  let word : UInt8 := if c.w then 8 else 4
  match (b >>> 4).toNat with
  | 8 => some (.plain ⟨.jcc, [.rel 4], ⟨b &&& 15⟩⟩)
  | 9 => some (.modrm fun _ => some ⟨.setcc, [.rm 1], ⟨b &&& 15⟩⟩)
  | _ =>
    match b.toNat with
    | 0x10 => scalar c (fun w => [.xreg w, .xrm w]) .movs
    | 0x11 => scalar c (fun w => [.xrm w, .xreg w]) .movs
    | 0x2a => scalar c (fun w => [.xreg w, .rm word]) .cvtsi2s
    | 0x2c => scalar c (fun w => [.reg word, .xrm w]) .cvtts2si
    | 0x2e => some (if c.size then .always .ucomis [.xreg 8, .xrm 8]
        else .always .ucomis [.xreg 4, .xrm 4])
    | 0x57 => if c.size then none else some (.always .xorps [.xreg 16, .xrm 16])
    | 0x58 => scalar c (fun w => [.xreg w, .xrm w]) .adds
    | 0x59 => scalar c (fun w => [.xreg w, .xrm w]) .muls
    | 0x5a => scalar c (fun w => [.xreg (otherScalar w), .xrm w]) .cvts2s
    | 0x5c => scalar c (fun w => [.xreg w, .xrm w]) .subs
    | 0x5e => scalar c (fun w => [.xreg w, .xrm w]) .divs
    | 0x6e => if c.size then some (.always .movq [.xreg word, .rm word]) else none
    | 0x7e => if c.size then some (.always .movq [.rm word, .xreg word]) else none
    | 0xaf => some (.always .imul [.reg w, .rm w])
    | 0xb6 => some (.always .movzx [.reg w, .rm 1])
    | 0xb7 => some (.always .movzx [.reg w, .rm 2])
    | 0xba => some (.modrm fun digit =>
        if digit == 7 then some ⟨.btc, [.rm w, .imm 1 1], ⟨0⟩⟩ else none)
    | 0xbe => some (.always .movsx [.reg w, .rm 1])
    | 0xbf => some (.always .movsx [.reg w, .rm 2])
    | _ => none

/-- The opcodes of the VEX map 0F38 with the implied prefix 66. -/
def vexOpcode (w : UInt8) (b : UInt8) : Option Shape :=
  let slots : List Slot := [.xreg w, .vreg w, .xrm w]
  match b.toNat with
  | 0xb9 => some ⟨.vfmadd231, slots, ⟨0⟩⟩
  | 0xbb => some ⟨.vfmsub231, slots, ⟨0⟩⟩
  | 0xbd => some ⟨.vfnmadd231, slots, ⟨0⟩⟩
  | _ => none

/-! ## Instructions -/

/-- Reads the operands of a shape. -/
def Shape.read (s : Shape) (c : Context) (f : Fields) (bytes : List UInt8) :
    Option (Instr × List UInt8) :=
  (readSlots c f s.slots bytes).map fun (os, rest) => (⟨s.op, s.cond, os⟩, rest)

/-- Reads a ModRM byte with its operand, and then the operands of the shape of its reg field. -/
def readModrm (c : Context) (shape? : UInt8 → Option Shape) (vvvv : RegId) :
    List UInt8 → Option (Instr × List UInt8)
  | [] => none
  | m :: rest => do
    let digit := m >>> 3 &&& 7
    let (rm, rest) ← readRm c (m >>> 6) (m &&& 7) rest
    let shape ← shape? digit
    shape.read c ⟨extend c.r digit, some rm, vvvv⟩ rest

def Pattern.read (c : Context) (bytes : List UInt8) : Pattern → Option (Instr × List UInt8)
  | .plain s => s.read c ⟨0, none, 0⟩ bytes
  | .modrm shape? => readModrm c shape? 0 bytes

/-- Reads what follows the byte C4: three register extensions stored inverted and the map, then
W, a register stored inverted, the vector length and the implied prefix. -/
def readVex (c : Context) : List UInt8 → Option (Instr × List UInt8)
  | b1 :: b2 :: b :: rest =>
    if b1 &&& 0x1f == 2 && b2 &&& 7 == 1 then
      let c := { c with w := bit b2 7, r := !bit b1 7, x := !bit b1 6, b := !bit b1 5 }
      readModrm c (fun _ => vexOpcode (if c.w then 8 else 4) b) (~~~(b2 >>> 3) &&& 15) rest
    else none
  | _ => none

/-- The instruction at the front of the bytes, and the bytes after it. -/
def decode (bytes : List UInt8) : Option (Instr × List UInt8) :=
  let (c, bytes) := legacyPrefixes bytes
  if bytes.head? == some 0xc4 then readVex c bytes.tail
  else
    let (c, bytes) := rexPrefix c bytes
    match bytes with
    | [] => none
    | b :: rest =>
      if b == 0x0f then rest.head?.bind fun b => (twoByte c b).bind fun p => p.read c rest.tail
      else (oneByte c b).bind fun p => p.read c rest

end Backend.Machine.Decoder
