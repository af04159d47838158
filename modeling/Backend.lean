import Backend.Assembler
import Backend.Assoc
import Backend.Build.Basic
import Backend.Build.FileSystem
import Backend.Build.FileTree
import Backend.Bytes
import Backend.Closure.Basic
import Backend.Closure.Defect
import Backend.CodeUnit.Basic
import Backend.CodeUnit.Listing
import Backend.CodeUnit.Symbol
import Backend.CommandLine.Basic
import Backend.CommandLine.Flags
import Backend.Config.Basic
import Backend.Config.File
import Backend.ElfObject
import Backend.Emission
import Backend.Float.Binary64
import Backend.Float.Numeral
import Backend.Float.Shortest
import Backend.Instr
import Backend.Instr.Parser
import Backend.Literal
import Backend.Lowering.Basic
import Backend.Lowering.Call
import Backend.Lowering.Closure
import Backend.Lowering.Frame
import Backend.Lowering.ParallelMove
import Backend.Machine.Encoding
import Backend.Machine.Encoding.Error
import Backend.Machine.Encoding.Form
import Backend.Machine.Encoding.Integer
import Backend.Machine.Encoding.Scalar
import Backend.Machine.Inst
import Backend.Machine.Operand
import Backend.Main
import Backend.ModuleFile.Basic
import Backend.ModuleFile.Reader
import Backend.ModuleFile.Writer
import Backend.Opcode
import Backend.Operand
import Backend.Operand.Parser
import Backend.Peephole.Basic
import Backend.Peephole.Rules
import Backend.Pipeline
import Backend.Proofs.Assembler.Linked
import Backend.Proofs.Assembler.Listing
import Backend.Proofs.Build.Outputs
import Backend.Proofs.Closure.Literals
import Backend.Proofs.CodeUnit.History
import Backend.Proofs.CodeUnit.Writes
import Backend.Proofs.ElfObject.Object
import Backend.Proofs.Float.Arithmetic
import Backend.Proofs.Instr.Roundtrip
import Backend.Proofs.Instr.Uses
import Backend.Proofs.Lowering.Addresses
import Backend.Proofs.Lowering.Arguments
import Backend.Proofs.Lowering.Assignment
import Backend.Proofs.Lowering.Comparison
import Backend.Proofs.Lowering.Encodable
import Backend.Proofs.Lowering.FrameSlots
import Backend.Proofs.Lowering.IndirectCall
import Backend.Proofs.Lowering.ParallelMove
import Backend.Proofs.Lowering.Places
import Backend.Proofs.Lowering.Preparation
import Backend.Proofs.Lowering.Preserved
import Backend.Proofs.Lowering.ScratchRoom
import Backend.Proofs.Lowering.SharedEffects
import Backend.Proofs.Lowering.ShiftCounts
import Backend.Proofs.Lowering.StackBalance
import Backend.Proofs.Machine.Flags
import Backend.Proofs.Machine.Footprint
import Backend.Proofs.Machine.State
import Backend.Proofs.Machine.Step
import Backend.Proofs.ModuleFile.Globals
import Backend.Proofs.ModuleFile.Rewriting
import Backend.Proofs.Operand.Sameness
import Backend.Proofs.Peephole.Acceptance
import Backend.Proofs.Peephole.Doubling
import Backend.Proofs.Peephole.Fixpoint
import Backend.Proofs.Peephole.Literals
import Backend.Proofs.Peephole.Order
import Backend.Proofs.Peephole.Run
import Backend.Proofs.Pipeline.LocalLabels
import Backend.Proofs.Schedule.Control
import Backend.Proofs.Schedule.Coverage
import Backend.Proofs.Schedule.Edges
import Backend.Proofs.Schedule.Idempotence
import Backend.Proofs.Schedule.Meaning
import Backend.Proofs.Schedule.Order
import Backend.Proofs.Selection.Comparison
import Backend.Proofs.Selection.ConstantMove
import Backend.Proofs.Selection.Division
import Backend.Proofs.Selection.FloatComparison
import Backend.Proofs.Selection.Footprint
import Backend.Proofs.Selection.Integer
import Backend.Proofs.Selection.Ready
import Backend.Schedule.Access
import Backend.Schedule.Block
import Backend.Schedule.Graph
import Backend.Selection.Closure
import Backend.Selection.Integer
import Backend.Selection.Move
import Backend.Selection.Operand
import Backend.Selection.Scalar
import Backend.Target.Basic
import Backend.Text.Hex
import Backend.Text.Letter
import Backend.Text.Numeral
import Backend.Text.Printable
import Backend.Text.Quoted
import Backend.Text.Utf8
import Backend.Ty
import Backend.Yaml.Cursor
import Backend.Yaml.Decode
import Backend.Yaml.Node.Basic
import Backend.Yaml.Node.Printer
import Backend.Yaml.Node.Reader
import Backend.Yaml.Resolve
import Backend.Yaml.Token
import Backend.Yaml.Token.Property
import Backend.Yaml.Token.Scalar
import Backend.Yaml.Token.Stream
