-- The encodings of scalar float instructions: moves, arithmetic, conversions and fused
-- multiplications.
import Backend.Machine.Encoding.Integer

namespace Backend.Machine

/-- The mandatory prefix of a scalar of four or eight bytes. -/
def scalarMark (width : UInt8) : List UInt8 := if width == 4 then [0xf3] else [0xf2]

/-- A scalar instruction with a mandatory prefix. -/
def scalarForm (mark : List UInt8) (w : Bool) (opcode : UInt8) (reg : UInt8)
    (rm : Option Operand) : Except EncodeError Encoding :=
  ModrmForm.encode ⟨mark, w, [0x0f, opcode], reg, false, rm, []⟩

/-- The opcode of scalar arithmetic. -/
def scalarOpcode : Op → UInt8
  | .adds => 0x58
  | .muls => 0x59
  | .subs => 0x5c
  | .divs => 0x5e
  | _ => 0

def encodeMovs (dst src : Option Operand) : Except EncodeError Encoding :=
  match dst with
  | some (.mem d) =>
    match src with
    | some (.xmm s) => scalarForm (scalarMark d.width) false 0x11 s.id dst
    | _ => .error .movsStoreSource
  | some (.xmm d) => scalarForm (scalarMark d.width) false 0x10 d.id src
  | _ => .error (.movsDestination (kindName dst))

def encodeMovq (dst src : Option Operand) : Except EncodeError Encoding :=
  match dst, src with
  | some (.xmm x), _ => do
    let width ← gprWidth src
    scalarForm [0x66] (width == 8) 0x6e x.id src
  | _, some (.xmm x) => do
    let width ← gprWidth dst
    scalarForm [0x66] (width == 8) 0x7e x.id dst
  | _, _ => .error .movqOperands

def encodeScalar (op : Op) (dst src : Option Operand) : Except EncodeError Encoding :=
  match op, dst with
  | .movs, _ => encodeMovs dst src
  | .movq, _ => encodeMovq dst src
  | .cvtts2si, some (.reg d) =>
    if d.width < 4 then .error .cvtts2siDestination
    else do
      let width ← xmmWidth src
      scalarForm (scalarMark width) (d.width == 8) 0x2c d.id src
  | .cvtts2si, _ => .error .cvtts2siDestination
  | .ucomis, some (.xmm d) =>
    scalarForm (if d.width == 8 then [0x66] else []) false 0x2e d.id src
  | .xorps, some (.xmm d) => scalarForm [] false 0x57 d.id src
  | .cvts2s, some (.xmm d) => do
    let width ← xmmWidth src
    scalarForm (scalarMark width) false 0x5a d.id src
  | .cvtsi2s, some (.xmm d) => do
    let width ← gprWidth src
    if width < 4 then throw .cvtsi2sSource
    scalarForm (scalarMark d.width) (width == 8) 0x2a d.id src
  | _, some (.xmm d) => scalarForm (scalarMark d.width) false (scalarOpcode op) d.id src
  | _, _ => .error (.destinationNotXmm op)

/-- The opcode of a fused multiplication. -/
def fmaOpcode : Op → UInt8
  | .vfmadd231 => 0xb9
  | .vfmsub231 => 0xbb
  | _ => 0xbd

def encodeFma (op : Op) (dst src src2 : Option Operand) : Except EncodeError Encoding :=
  match dst, src with
  | some (.xmm d), some (.xmm s) => VexForm.encode ⟨d.width == 8, fmaOpcode op, d.id, s.id, src2⟩
  | some (.xmm _), _ => .error (.firstSourceNotXmm op)
  | _, _ => .error (.destinationNotXmm op)

end Backend.Machine
