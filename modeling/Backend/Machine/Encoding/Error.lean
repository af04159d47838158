-- Why a machine instruction has no encoding.
import Backend.Machine.Inst

namespace Backend.Machine

/-- Why an instruction has no encoding. The texts are written forms of operands and their
kinds. -/
inductive EncodeError where
  | destinationNotRegister
  | leaOperands
  | signExtensionWidth (width : UInt8)
  | btcIndexNotImmediate
  | setNeedsByte (cond : Cond)
  | registerWidth (expected actual : UInt8)
  | directBranch (op : Op)
  | conditionalBranch
  | unknownInstruction (op : Op)
  | notRegisterOrMemory (kind : String)
  | notXmmOrMemory (kind : String)
  | missingSymbol
  | missingAddress
  | baseWidth
  | indexWidth
  | stackPointerIndex
  | indexScale (scale : UInt8)
  | unsupportedRm (kind : String)
  | unsupportedVexRm (kind : String)
  | immediateRange (bits : Nat) (value : Int64)
  | movImmediateRange (reg : Reg) (value : Int64)
  | unsupportedRegisterWidth (width : UInt8)
  | movOperands (dst src : String)
  | extensionWidth (source destination : UInt8)
  | memoryToMemory (op : Op)
  | unsupportedSource (op : Op) (kind : String)
  | imulWidth (width : UInt8)
  | imulFactor
  | shiftCountRange (count : Int64)
  | shiftCountRegister (reg : Reg)
  | unsupportedCount (op : Op) (kind : String)
  | pushPopOperand (kind : String)
  | movsStoreSource
  | movsDestination (kind : String)
  | destinationNotXmm (op : Op)
  | cvtsi2sSource
  | cvtts2siDestination
  | movqOperands
  | firstSourceNotXmm (op : Op)
  | shortCall
  | shortRange (disp : Int64)
  | longRange (disp : Int64)
  | notBranch (op : Op)
  deriving DecidableEq

namespace EncodeError

/-- The error is about a value that does not fit its field. -/
def isRange : EncodeError → Bool
  | .immediateRange _ _ | .movImmediateRange _ _ | .shiftCountRange _ | .shortRange _
  | .longRange _ => true
  | _ => false

/-- The wording of an encoding error. -/
def message : EncodeError → String
  | .destinationNotRegister => "destination must be a register"
  | .leaOperands => "lea needs a 32 or 64-bit register and memory"
  | .signExtensionWidth width => s!"no sign extension into dx for width {width.toNat}"
  | .btcIndexNotImmediate => "btc bit index must be immediate"
  | .setNeedsByte cond => s!"set{cond.name} needs a byte operand"
  | .registerWidth expected actual =>
    s!"expected {(expected * 8).toNat}-bit register, got {(actual * 8).toNat}-bit width"
  | .directBranch op => s!"direct {op.name} must go through the assembler"
  | .conditionalBranch => "conditional branch must go through the assembler"
  | .unknownInstruction op => s!"unknown instruction {op.name}"
  | .notRegisterOrMemory kind => s!"expected register or memory operand, got {kind}"
  | .notXmmOrMemory kind => s!"expected xmm or memory operand, got {kind}"
  | .missingSymbol => "symbolic memory operand requires a symbol"
  | .missingAddress => "memory operand requires base or index register"
  | .baseWidth => "base register must be 64-bit"
  | .indexWidth => "index register must be 64-bit"
  | .stackPointerIndex => "rsp cannot be used as index register"
  | .indexScale scale => s!"invalid index scale {scale.toNat}"
  | .unsupportedRm kind => s!"unsupported r/m operand {kind}"
  | .unsupportedVexRm kind => s!"unsupported vex r/m operand {kind}"
  | .immediateRange bits value => s!"imm{bits} {value.toInt}: value out of encodable range"
  | .movImmediateRange reg value =>
    s!"mov {reg.text}, {value.toInt}: value out of encodable range"
  | .unsupportedRegisterWidth width => s!"unsupported register width {width.toNat}"
  | .movOperands dst src => s!"mov {dst}, {src}: unsupported operand combination"
  | .extensionWidth source destination =>
    s!"extension from {(source * 8).toNat} to {(destination * 8).toNat} bits"
  | .memoryToMemory op => s!"{op.name}: memory to memory"
  | .unsupportedSource op kind => s!"{op.name}: unsupported source {kind}"
  | .imulWidth width => s!"imul unsupported width {(width * 8).toNat}"
  | .imulFactor => "imul: third operand must be immediate"
  | .shiftCountRange count => s!"shift count {count.toInt}: value out of encodable range"
  | .shiftCountRegister reg => s!"variable shift count must be cl, got {reg.text}"
  | .unsupportedCount op kind => s!"{op.name}: unsupported count {kind}"
  | .pushPopOperand kind => s!"push/pop: unsupported operand {kind}"
  | .movsStoreSource => "movs store needs xmm source"
  | .movsDestination kind => s!"movs: unsupported destination {kind}"
  | .destinationNotXmm op => s!"{op.name}: destination must be xmm"
  | .cvtsi2sSource => "cvtsi2s: source must be 32 or 64 bits"
  | .cvtts2siDestination => "cvtts2si: destination must be a 32 or 64-bit register"
  | .movqOperands => "movq: one operand must be xmm"
  | .firstSourceNotXmm op => s!"{op.name}: first source must be xmm"
  | .shortCall => "call has no rel8 form"
  | .shortRange disp => s!"rel8 displacement {disp.toInt}: value out of encodable range"
  | .longRange disp => s!"rel32 displacement {disp.toInt}: value out of encodable range"
  | .notBranch op => s!"{op.name} is not a branch"

end EncodeError

end Backend.Machine
