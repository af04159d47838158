-- The machine code of one instruction, and that of branches once their distance is known.
import Backend.Machine.Encoding.Scalar

namespace Backend.Machine

/-! ## Whole instructions -/

/-- An indirect jump or call. -/
def encodeIndirect (op : Op) (dst : Option Operand) : Except EncodeError Encoding :=
  let digit : UInt8 := if op == .jmp then 4 else 2
  match dst with
  | some (.reg r) => do
    checkWidth r 8
    (ModrmForm.simple [0xff] digit dst).encode
  | some (.mem _) => (ModrmForm.simple [0xff] digit dst).encode
  | _ => .error (.directBranch op)

/-- The machine code of an instruction that is not a direct branch; those need to know their
target. -/
def Inst.encode : Inst → Except EncodeError Encoding
  | .label _ _ _ => .ok (.plain [])
  | .op f cond dst src src2 =>
    match f with
    | .mov => encodeMov dst src
    | .movzx | .movsx =>
      match dst with
      | some (.reg d) => encodeExtend (f == .movsx) d src
      | _ => .error .destinationNotRegister
    | .lea =>
      match dst, src with
      | some (.reg d), some (.mem _) =>
        if d.width < 4 then .error .leaOperands
        else ModrmForm.encode ⟨[], d.width == 8, [0x8d], d.id, false, src, []⟩
      | _, _ => .error .leaOperands
    | .add | .or | .and | .sub | .xor | .cmp => encodeAlu f dst src
    | .test => encodeTest dst src
    | .imul =>
      match dst with
      | some (.reg d) => encodeImul d src src2
      | _ => .error .destinationNotRegister
    | .neg | .not | .div | .idiv => encodeUnary f dst
    | .cqo =>
      match dst with
      | some (.reg d) =>
        match d.width.toNat with
        | 8 => .ok (.plain [0x48, 0x99])
        | 4 => .ok (.plain [0x99])
        | 2 => .ok (.plain [0x66, 0x99])
        | _ => .error (.signExtensionWidth d.width)
      | _ => .ok (.plain [0x48, 0x99])
    | .shl | .shr | .sar => encodeShift f dst src
    | .btc => do
      let width ← gprWidth dst
      match src with
      | some (.imm bit) =>
        (ModrmForm.sized width [0x0f, 0xba] 7 false dst [bit.toUInt64.toUInt8]).encode
      | _ => throw .btcIndexNotImmediate
    | .setcc => do
      let width ← gprWidth dst
      if width != 1 then throw (.setNeedsByte cond)
      (ModrmForm.simple [0x0f, 0x90 + cond.code] 0 dst).encode
    | .jmp | .call => encodeIndirect f dst
    | .jcc => .error .conditionalBranch
    | .ret => .ok (.plain [0xc3])
    | .push => encodePushPop true dst
    | .pop => encodePushPop false dst
    | .movs | .adds | .subs | .muls | .divs | .ucomis | .xorps | .cvtsi2s | .cvtts2si | .cvts2s
    | .movq => encodeScalar f dst src
    | .vfmadd231 | .vfmsub231 | .vfnmadd231 => encodeFma f dst src src2
    | .reserved _ => .error (.unknownInstruction f)

/-! ## Direct branches -/

/-- The bytes of a direct branch with a one-byte displacement. -/
def encodeShort (op : Op) (cond : Cond) (disp : Int64) : Except EncodeError (List UInt8) :=
  if op == .call then .error .shortCall
  else if !fitsInt8 disp then .error (.shortRange disp)
  else if op == .jmp then .ok [0xeb, disp.toUInt64.toUInt8]
  else .ok [0x70 + cond.code, disp.toUInt64.toUInt8]

/-- The bytes of a direct branch with a four-byte displacement. -/
def encodeLong (op : Op) (cond : Cond) (disp : Int64) : Except EncodeError (List UInt8) :=
  if !fitsInt32 disp then .error (.longRange disp)
  else
    let rel := le32 disp.toUInt64.toUInt32
    match op with
    | .call => .ok (0xe8 :: rel)
    | .jmp => .ok (0xe9 :: rel)
    | .jcc => .ok (0x0f :: (0x80 + cond.code) :: rel)
    | _ => .error (.notBranch op)

/-- The length of a direct branch with a four-byte displacement. -/
def longSize (op : Op) : Nat := if op == .jcc then 6 else 5

end Backend.Machine
