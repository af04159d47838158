-- The encodings of integer instructions: moves, arithmetic, shifts and the stack.
import Backend.Machine.Encoding.Form

namespace Backend.Machine

def gprWidth (o : Option Operand) : Except EncodeError UInt8 :=
  match Inst.gprWidth? o with
  | some width => .ok width
  | none => .error (.notRegisterOrMemory (kindName o))

def xmmWidth (o : Option Operand) : Except EncodeError UInt8 :=
  match Inst.xmmWidth? o with
  | some width => .ok width
  | none => .error (.notXmmOrMemory (kindName o))

def checkWidth (r : Reg) (expected : UInt8) : Except EncodeError Unit :=
  if r.width == expected then .ok () else .error (.registerWidth expected r.width)

/-- An immediate into a register: the sign-extended form where it reaches, otherwise the full
one. -/
def encodeMovImmediate (r : Reg) (value : Int64) : Except EncodeError Encoding :=
  if r.width == 8 && fitsInt32 value then
    ModrmForm.encode ⟨[], true, [0xc7], 0, false, some (.reg r), le32 value.toUInt64.toUInt32⟩
  else
    let rex : Rex := ⟨r.width == 8, false, false, r.isHigh, r.needsBytePrefix⟩
    let full (opcode : UInt8) (imm : List UInt8) : Encoding :=
      .plain (sizePrefix r.width ++ rex.bytes ++ [opcode] ++ imm)
    match r.width.toNat with
    | 8 => .ok (full (0xb8 + r.code) (le64 value.toUInt64))
    | 4 =>
      if value < -2147483648 || value > 4294967295 then .error (.movImmediateRange r value)
      else .ok (full (0xb8 + r.code) (le32 value.toUInt64.toUInt32))
    | 2 => do .ok (full (0xb8 + r.code) (← immBytes 2 value))
    | 1 => do .ok (full (0xb0 + r.code) (← immBytes 1 value))
    | _ => .error (.unsupportedRegisterWidth r.width)

def encodeMov (dst src : Option Operand) : Except EncodeError Encoding :=
  match dst, src with
  | some (.reg d), some (.reg s) => do
    checkWidth s d.width
    (ModrmForm.sized d.width [sizedOpcode d.width 0x89 0x88] s.id (d.width == 1) dst []).encode
  | some (.reg d), some (.mem _) =>
    (ModrmForm.sized d.width [sizedOpcode d.width 0x8b 0x8a] d.id (d.width == 1) src []).encode
  | some (.reg d), some (.imm value) => encodeMovImmediate d value
  | some (.mem _), some (.reg s) =>
    (ModrmForm.sized s.width [sizedOpcode s.width 0x89 0x88] s.id (s.width == 1) dst []).encode
  | some (.mem d), some (.imm value) => do
    let imm ← immBytes d.width value
    (ModrmForm.sized d.width [sizedOpcode d.width 0xc7 0xc6] 0 false dst imm).encode
  | _, _ => .error (.movOperands (kindName dst) (kindName src))

/-- Zero and sign extension. Zero extension from four bytes is a plain move, since it clears the
upper half. -/
def encodeExtend (signed : Bool) (dst : Reg) (src : Option Operand) :
    Except EncodeError Encoding := do
  let width ← gprWidth src
  if dst.width ≤ width then throw (.extensionWidth width dst.width)
  let extend (opcode : List UInt8) : Except EncodeError Encoding :=
    (ModrmForm.sized dst.width opcode dst.id false src []).encode
  if width == 4 && signed then extend [0x63]
  else if width == 4 then encodeMov (some (.reg ⟨dst.id, 4⟩)) src
  else if signed then extend [0x0f, sizedOpcode width 0xbf 0xbe]
  else extend [0x0f, sizedOpcode width 0xb7 0xb6]

/-- The opcode digit of a two-operand arithmetic instruction. -/
def aluDigit : Op → UInt8
  | .or => 1
  | .and => 4
  | .sub => 5
  | .xor => 6
  | .cmp => 7
  | _ => 0

def encodeAlu (op : Op) (dst src : Option Operand) : Except EncodeError Encoding := do
  let digit := aluDigit op
  let width ← gprWidth dst
  match src with
  | some (.reg s) => do
    checkWidth s width
    (ModrmForm.sized width [sizedOpcode width (digit <<< 3 ||| 1) (digit <<< 3)] s.id (width == 1)
      dst []).encode
  | some (.mem _) =>
    match dst with
    | some (.reg d) =>
      (ModrmForm.sized width [sizedOpcode width (digit <<< 3 ||| 3) (digit <<< 3 ||| 2)] d.id
        (width == 1) src []).encode
    | _ => throw (.memoryToMemory op)
  | some (.imm value) =>
    if width == 1 then do
      let imm ← immBytes 1 value
      ModrmForm.encode ⟨[], false, [0x80], digit, false, dst, imm⟩
    else if fitsInt8 value then
      (ModrmForm.sized width [0x83] digit false dst [value.toUInt64.toUInt8]).encode
    else do
      let imm ← immBytes width value
      (ModrmForm.sized width [0x81] digit false dst imm).encode
  | _ => throw (.unsupportedSource op (kindName src))

def encodeTest (dst src : Option Operand) : Except EncodeError Encoding := do
  let width ← gprWidth dst
  match src with
  | some (.reg s) =>
    (ModrmForm.sized width [sizedOpcode width 0x85 0x84] s.id (width == 1) dst []).encode
  | some (.imm value) => do
    let imm ← immBytes width value
    (ModrmForm.sized width [sizedOpcode width 0xf7 0xf6] 0 false dst imm).encode
  | _ => throw (.unsupportedSource .test (kindName src))

def encodeImul (dst : Reg) (src factor : Option Operand) : Except EncodeError Encoding :=
  if dst.width == 1 then .error (.imulWidth dst.width)
  else
    match factor with
    | none => (ModrmForm.sized dst.width [0x0f, 0xaf] dst.id false src []).encode
    | some (.imm k) =>
      if fitsInt8 k then
        (ModrmForm.sized dst.width [0x6b] dst.id false src [k.toUInt64.toUInt8]).encode
      else do
        let imm ← immBytes dst.width k
        (ModrmForm.sized dst.width [0x69] dst.id false src imm).encode
    | some _ => .error .imulFactor

/-- The opcode digit of a one-operand instruction. -/
def unaryDigit : Op → UInt8
  | .not => 2
  | .neg => 3
  | .div => 6
  | _ => 7

def encodeUnary (op : Op) (dst : Option Operand) : Except EncodeError Encoding := do
  let width ← gprWidth dst
  (ModrmForm.sized width [sizedOpcode width 0xf7 0xf6] (unaryDigit op) false dst []).encode

/-- The opcode digit of a shift. -/
def shiftDigit : Op → UInt8
  | .shl => 4
  | .shr => 5
  | _ => 7

def encodeShift (op : Op) (dst count : Option Operand) : Except EncodeError Encoding := do
  let width ← gprWidth dst
  match count with
  | some (.imm n) =>
    if n < 0 || n > 63 then throw (.shiftCountRange n)
    (ModrmForm.sized width [sizedOpcode width 0xc1 0xc0] (shiftDigit op) false dst
      [n.toUInt64.toUInt8]).encode
  | some (.reg r) =>
    if r.id != rcx || r.width != 1 then throw (.shiftCountRegister r)
    (ModrmForm.sized width [sizedOpcode width 0xd3 0xd2] (shiftDigit op) false dst []).encode
  | _ => throw (.unsupportedCount op (kindName count))

def encodePushPop (push : Bool) (o : Option Operand) : Except EncodeError Encoding :=
  match o, push with
  | some (.reg r), _ => do
    checkWidth r 8
    .ok (.plain ((if r.isHigh then [0x41] else []) ++ [(if push then 0x50 else 0x58) + r.code]))
  | some (.mem _), true => (ModrmForm.simple [0xff] 6 o).encode
  | some (.mem _), false => (ModrmForm.simple [0x8f] 0 o).encode
  | some (.imm value), true =>
    if fitsInt8 value then .ok (.plain [0x6a, value.toUInt64.toUInt8])
    else do .ok (.plain (0x68 :: (← immBytes 4 value)))
  | _, _ => .error (.pushPopOperand (kindName o))

end Backend.Machine
