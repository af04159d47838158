-- Module files: what a file declares before names, types and instructions are looked up, what is
-- asked of the codec of its trees, and why a file is refused.
import Backend.Instr.Parser
import Backend.Yaml.Decode
import Backend.Yaml.Node.Reader

namespace Backend.ModuleFile

/-! ## Declarations -/

/-- A declared global. A size of zero is not given. -/
structure GlobalDecl where
  name : String
  size : Int
  value : Option Yaml.Node

/-- A declared block with its instructions as written. -/
structure BlockDecl where
  label : String
  liveIn : List String
  liveOut : List String
  succs : List String
  ops : List Yaml.Node

/-- A declared function. An empty symbol or return type is not given. -/
structure FunctionDecl where
  name : String
  symbol : String
  isGlobal : Bool
  ret : String
  locals : List String
  locations : List (String × String)
  blocks : List BlockDecl

/-- What a module file declares. -/
structure ModuleDecl where
  ident : String
  globals : List GlobalDecl
  functions : List FunctionDecl

def GlobalDecl.empty : GlobalDecl := ⟨"", 0, none⟩

def BlockDecl.empty : BlockDecl := ⟨"", [], [], [], []⟩

def FunctionDecl.empty : FunctionDecl := ⟨"", "", false, "", [], [], []⟩

def ModuleDecl.empty : ModuleDecl := ⟨"", [], []⟩

/-! ## Trees -/

/-- What module files ask of a codec of trees: it finds the document in a text and writes a tree as
a text, and it decodes a document as declarations and a node as a text or as a list of bytes. A null
decodes as none. Aliases stand for the nodes of the anchors. -/
structure Codec where
  read : String → Yaml.Source
  declarations : Yaml.Document → Except Yaml.DecodeError (Option ModuleDecl)
  text : List (Nat × Yaml.Node) → Yaml.Node → Except Yaml.DecodeError (Option String)
  bytes : List (Nat × Yaml.Node) → Yaml.Node → Except Yaml.DecodeError (Option (List UInt8))
  write : Yaml.Node → String

/-! ## Errors -/

/-- Why the value of a global is refused. A line is that of the value. An integer of negative size
is not refused but a fault, which ends the program. -/
inductive GlobalDefect where
  | notInteger (line : Nat) (text : String)
  | bytes (line : Nat) (cause : Yaml.DecodeError)
  | unsupported (line : Nat)
  | tooLong (length : Nat) (size : Int)
  | negativeSize (size : Int)

/-- The wording of a refusal. A fault has none. -/
def GlobalDefect.message? : GlobalDefect → Option String
  | .notInteger line text => some s!"line {line}: value {Text.quote text} is not an integer"
  | .bytes line cause => some s!"line {line}: {cause.message}"
  | .unsupported line => some s!"line {line}: unsupported value"
  | .tooLong length size => some s!"{length} byte value exceeds size {size}"
  | .negativeSize _ => none

/-- Why the location of a variable is refused. -/
inductive LocationDefect where
  | badStack (text : String)
  | badOffset (text : String)
  | unknownRegister (text : String)
  deriving DecidableEq

def LocationDefect.message : LocationDefect → String
  | .badStack text => s!"bad stack location {Text.quote text}"
  | .badOffset text => s!"bad stack offset {Text.quote text}"
  | .unknownRegister text => s!"unknown register {Text.quote text}"

/-- Why a function is refused. -/
inductive FunctionDefect where
  | unnamed
  | unknownType (name : String)
  | badLocal (text : String) (cause : OperandError)
  | localNotVariable (text : String)
  | badLocation (ident : String) (cause : LocationDefect)
  | opNotText (line : Nat) (cause : Yaml.DecodeError)
  | badOp (line : Nat) (cause : InstrError)
  | duplicateBlock (label : String)
  | unknownSuccessor (label name : String)

def FunctionDefect.message : FunctionDefect → String
  | .unnamed => "function without a name"
  | .unknownType name => s!"unknown return type {Text.quote name}"
  | .badLocal text cause => s!"local {Text.quote text}: {cause.message}"
  | .localNotVariable text => s!"local {Text.quote text} is not a variable"
  | .badLocation ident cause => s!"location of {ident}: {cause.message}"
  | .opNotText line cause => s!"line {line}: {cause.message}"
  | .badOp line cause => s!"line {line}: {cause.message}"
  | .duplicateBlock label => s!"duplicate block {Text.quote label}"
  | .unknownSuccessor label name => s!"block {label}: unknown successor {Text.quote name}"

/-- Why a module file is refused. -/
inductive Error where
  | empty
  | document (cause : Yaml.DecodeError)
  | unnamedGlobal
  | global (name : String) (cause : GlobalDefect)
  | function (name : String) (cause : FunctionDefect)

/-- The wording of a module file error. A fault has none. -/
def Error.message? : Error → Option String
  | .empty => some "parse module: EOF"
  | .document cause => some s!"parse module: {cause.message}"
  | .unnamedGlobal => some "global without a name"
  | .global name cause => cause.message?.map fun text => s!"global {name}: {text}"
  | .function name cause => some s!"function {name}: {cause.message}"

/-- The error of the document behind a module file error, if it comes from there. -/
def Error.decodeError? : Error → Option Yaml.DecodeError
  | .document cause => some cause
  | .global _ (.bytes _ cause) => some cause
  | .function _ (.opNotText _ cause) => some cause
  | _ => none

end Backend.ModuleFile
