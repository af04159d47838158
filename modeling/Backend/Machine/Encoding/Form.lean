-- The layout of an encoded instruction: prefixes, opcode, addressing bytes, displacement and
-- immediate, with the place of a symbolic displacement that has to be filled in later.
import Backend.Machine.Encoding.Error

namespace Backend.Machine

/-! ## Results -/

/-- The place of a symbolic displacement inside an encoding, with the number of bytes that follow
the field. -/
structure Fixup where
  offset : Nat
  trailing : Nat
  symbol : String
  isTls : Bool
  deriving DecidableEq

/-- The machine code of one instruction. -/
structure Encoding where
  bytes : List UInt8
  fixup : Option Fixup
  deriving DecidableEq

def Encoding.plain (bytes : List UInt8) : Encoding := ⟨bytes, none⟩

/-! ## Fields -/

/-- The bits of a REX prefix, and whether one is wanted even without them. -/
structure Rex where
  w : Bool
  r : Bool
  x : Bool
  b : Bool
  force : Bool

/-- The prefix byte, if any bit asks for it. -/
def Rex.bytes (p : Rex) : List UInt8 :=
  if p.w || p.r || p.x || p.b || p.force then
    [0x40 ||| (if p.w then 8 else 0) ||| (if p.r then 4 else 0) ||| (if p.x then 2 else 0) |||
      (if p.b then 1 else 0)]
  else []

/-- The operand size prefix of two-byte operands. -/
def sizePrefix (width : UInt8) : List UInt8 := if width == 2 then [0x66] else []

/-- The segment override that reaches thread-local memory. -/
def segmentMark (isTls : Bool) : List UInt8 := if isTls then [0x64] else []

/-- One-byte operands have an opcode of their own. -/
def sizedOpcode (width wide narrow : UInt8) : UInt8 := if width == 1 then narrow else wide

/-- The four bytes of a word, the least significant first. -/
def le32 (v : UInt32) : List UInt8 :=
  [v.toUInt8, (v >>> 8).toUInt8, (v >>> 16).toUInt8, (v >>> 24).toUInt8]

/-- The eight bytes of a word, the least significant first. -/
def le64 (v : UInt64) : List UInt8 := le32 v.toUInt32 ++ le32 (v >>> 32).toUInt32

def fitsInt8 (v : Int64) : Bool := decide (-128 ≤ v) && decide (v ≤ 127)

def fitsInt32 (v : Int64) : Bool := decide (-2147483648 ≤ v) && decide (v ≤ 2147483647)

/-- The immediate field for a width. Eight-byte operands take a sign-extended field of four. -/
def immBytes (width : UInt8) (value : Int64) : Except EncodeError (List UInt8) :=
  if width == 1 then
    if value < -128 || value > 255 then .error (.immediateRange 8 value)
    else .ok [value.toUInt64.toUInt8]
  else if width == 2 then
    if value < -32768 || value > 65535 then .error (.immediateRange 16 value)
    else .ok [value.toUInt64.toUInt8, (value.toUInt64 >>> 8).toUInt8]
  else if fitsInt32 value then .ok (le32 value.toUInt64.toUInt32)
  else .error (.immediateRange 32 value)

/-! ## Addresses -/

/-- The addressing bytes of a memory operand. -/
structure MemoryFields where
  modrm : UInt8
  sib : List UInt8
  disp : List UInt8
  x : Bool
  b : Bool
  symbol : Option String
  isTls : Bool

def scaleBits (scale : UInt8) : Except EncodeError UInt8 :=
  match scale.toNat with
  | 1 => .ok 0
  | 2 => .ok 1
  | 4 => .ok 2
  | 8 => .ok 3
  | _ => .error (.indexScale scale)

/-- An index register and its scale field, if they can be encoded. -/
def checkIndex (r : Reg) (scale : UInt8) : Except EncodeError UInt8 :=
  if r.width != 8 then .error .indexWidth
  else if r.id == rsp then .error .stackPointerIndex
  else scaleBits scale

/-- The addressing bytes of an address. A base of rsp or r12 needs a second byte, and one of rbp
or r13 needs a displacement. -/
def memoryFields : Address → Except EncodeError MemoryFields
  | .rip symbol =>
    if symbol == "" then .error .missingSymbol
    else .ok ⟨0x05, [], [0, 0, 0, 0], false, false, some symbol, false⟩
  | .tls symbol =>
    if symbol == "" then .error .missingSymbol
    else .ok ⟨0x04, [0x25], [0, 0, 0, 0], false, false, some symbol, true⟩
  | .regs none none _ => .error .missingAddress
  | .regs none (some (index, scale)) disp => do
    let ss ← checkIndex index scale
    .ok ⟨0x04, [ss <<< 6 ||| index.code <<< 3 ||| 5], le32 disp.toUInt32, index.isHigh, false,
      none, false⟩
  | .regs (some base) index disp => do
    if base.width != 8 then throw .baseWidth
    let (mod, field) : UInt8 × List UInt8 :=
      if disp == 0 && base.code != 5 then (0x00, [])
      else if -128 ≤ disp && disp ≤ 127 then (0x40, [disp.toUInt32.toUInt8])
      else (0x80, le32 disp.toUInt32)
    match index with
    | some (r, scale) =>
      let ss ← checkIndex r scale
      pure ⟨mod ||| 4, [ss <<< 6 ||| r.code <<< 3 ||| base.code], field, r.isHigh, base.isHigh,
        none, false⟩
    | none =>
      if base.code == 4 then
        pure ⟨mod ||| 4, [(4 : UInt8) <<< 3 ||| base.code], field, false, base.isHigh, none, false⟩
      else pure ⟨mod ||| base.code, [], field, false, base.isHigh, none, false⟩

/-! ## Instruction forms -/

/-- An instruction with a ModRM operand. `reg` is a register number or an opcode digit, and
`regByte` says that it is a byte register. -/
structure ModrmForm where
  legacy : List UInt8
  w : Bool
  opcode : List UInt8
  reg : UInt8
  regByte : Bool
  rm : Option Operand
  imm : List UInt8

/-- A form without prefixes, register byte and immediate. -/
def ModrmForm.simple (opcode : List UInt8) (reg : UInt8) (rm : Option Operand) : ModrmForm :=
  ⟨[], false, opcode, reg, false, rm, []⟩

/-- A form for an operand width. -/
def ModrmForm.sized (width : UInt8) (opcode : List UInt8) (reg : UInt8) (regByte : Bool)
    (rm : Option Operand) (imm : List UInt8) : ModrmForm :=
  ⟨sizePrefix width, width == 8, opcode, reg, regByte, rm, imm⟩

/-- Puts the parts of a form in order. -/
def ModrmForm.assemble (f : ModrmForm) (rex : Rex) (modrm : UInt8) (mem : Option MemoryFields) :
    Encoding :=
  let isTls := (mem.map MemoryFields.isTls).getD false
  let head := segmentMark isTls ++ f.legacy ++ rex.bytes ++ f.opcode ++
    [modrm ||| (f.reg &&& 7) <<< 3] ++ (mem.map MemoryFields.sib).getD []
  let fixup := (mem.bind MemoryFields.symbol).map fun symbol =>
    Fixup.mk head.length f.imm.length symbol isTls
  ⟨head ++ (mem.map MemoryFields.disp).getD [] ++ f.imm, fixup⟩

def ModrmForm.encode (f : ModrmForm) : Except EncodeError Encoding :=
  let force := f.regByte && decide (4 ≤ f.reg) && decide (f.reg ≤ 7)
  let rex (x b force : Bool) : Rex := ⟨f.w, f.reg &&& 8 != 0, x, b, force⟩
  match f.rm with
  | some (.reg r) =>
    .ok (f.assemble (rex false r.isHigh (force || r.needsBytePrefix)) (0xc0 ||| r.code) none)
  | some (.xmm x) => .ok (f.assemble (rex false x.isHigh force) (0xc0 ||| x.code) none)
  | some (.mem m) => do
    let fields ← memoryFields m.addr
    .ok (f.assemble (rex fields.x fields.b force) fields.modrm (some fields))
  | rm => .error (.unsupportedRm (kindName rm))

/-- A three-operand VEX instruction of the 0F38 map with the implied 66 prefix. -/
structure VexForm where
  w : Bool
  opcode : UInt8
  reg : UInt8
  vvvv : UInt8
  rm : Option Operand

/-- Puts the parts of a form in order. The register extension bits are stored inverted. -/
def VexForm.assemble (f : VexForm) (x b : Bool) (modrm : UInt8) (mem : Option MemoryFields) :
    Encoding :=
  let isTls := (mem.map MemoryFields.isTls).getD false
  let byte1 : UInt8 := 0x02 ||| (if f.reg &&& 8 == 0 then 0x80 else 0) |||
    (if x then 0 else 0x40) ||| (if b then 0 else 0x20)
  let byte2 : UInt8 := (~~~f.vvvv &&& 0x0f) <<< 3 ||| 0x01 ||| (if f.w then 0x80 else 0)
  let head := segmentMark isTls ++
    [0xc4, byte1, byte2, f.opcode, modrm ||| (f.reg &&& 7) <<< 3] ++
    (mem.map MemoryFields.sib).getD []
  let fixup := (mem.bind MemoryFields.symbol).map fun symbol =>
    Fixup.mk head.length 0 symbol isTls
  ⟨head ++ (mem.map MemoryFields.disp).getD [], fixup⟩

def VexForm.encode (f : VexForm) : Except EncodeError Encoding :=
  match f.rm with
  | some (.xmm x) => .ok (f.assemble false x.isHigh (0xc0 ||| x.code) none)
  | some (.mem m) => do
    let fields ← memoryFields m.addr
    .ok (f.assemble fields.x fields.b fields.modrm (some fields))
  | rm => .error (.unsupportedVexRm (kindName rm))

end Backend.Machine
