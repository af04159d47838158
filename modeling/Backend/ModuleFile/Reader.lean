-- Reading module files.
import Backend.Closure.Basic
import Backend.ModuleFile.Basic
import Backend.Target.Basic
import Backend.Text.Numeral
import Backend.Yaml.Node.Printer

namespace Backend.ModuleFile

open Yaml.Decode (RecordField)

/-! ## Globals -/

/-- The size of a global that nothing else determines. -/
def defaultSize : Nat := 8

/-- An integer as the value of a global: the lowest bytes of its 64-bit form, as many as the size
asks for. -/
def integerBytes (size : Int) (n : Int64) : Except GlobalDefect (List UInt8) :=
  let size := if size == 0 then (defaultSize : Int) else size
  if size < 0 then .error (.negativeSize size)
  else .ok ((littleEndian 8 n.toUInt64.toNat).take size.toNat)

/-- The bytes of a declared value: a text with a zero behind it, an integer, or a list of bytes. -/
def Codec.valueBytes (codec : Codec) (anchors : List (Nat × Yaml.Node)) (size : Int)
    (v : Yaml.Node) : Except GlobalDefect (List UInt8) :=
  match v with
  | .scalar _ tag _ text =>
    if tag == Yaml.strTag then .ok (Text.utf8 text ++ [0])
    else
      match Text.readInt64 text.toList with
      | .ok n => integerBytes size n
      | .error _ => .error (.notInteger v.line text)
  | .seq _ _ _ _ =>
    match codec.bytes anchors v with
    | .ok bytes => .ok (bytes.getD [])
    | .error e => .error (.bytes v.line e)
  | _ => .error (.unsupported v.line)

/-- A global with its size filled in: that of its value if none is given. -/
def sizedGlobal (g : GlobalDecl) (value : List UInt8) : Except GlobalDefect Global :=
  let size : Int := if g.size != 0 then g.size else value.length
  let size : Int := if size != 0 then size else defaultSize
  if size < value.length then .error (.tooLong value.length size) else .ok ⟨g.name, size, value⟩

/-- The global that a declaration stands for. -/
def Codec.global (codec : Codec) (anchors : List (Nat × Yaml.Node)) (g : GlobalDecl) :
    Except Error Global :=
  if g.name == "" then .error .unnamedGlobal
  else
    let value : Except GlobalDefect (List UInt8) := match g.value with
      | none => .ok []
      | some v => codec.valueBytes anchors g.size v
    match value.bind (sizedGlobal g) with
    | .ok x => .ok x
    | .error e => .error (.global g.name e)

/-! ## Functions -/

/-- The offset behind `stack(`, which a parenthesis closes. -/
def stackOffset (text : List Char) : Except LocationDefect Int64 :=
  match text.reverse with
  | ')' :: digits =>
    match Text.readInt64 digits.reverse with
    | .ok n => .ok n
    | .error _ => .error (.badOffset (String.ofList digits.reverse))
  | _ => .error (.badStack ("stack(" ++ String.ofList text))

/-- The location that a text stands for: a register, or `stack(OFFSET)`. -/
def location (regs : RegisterTable) (text : String) : Except LocationDefect Location :=
  let s := Text.trim text.toList
  if "stack(".toList.isPrefixOf s then do
    return ⟨none, some (← stackOffset (s.drop 6))⟩
  else
    match regs (String.ofList s) with
    | some r => .ok ⟨some r, none⟩
    | none => .error (.unknownRegister (String.ofList s))

/-- A local variable. -/
def localVar (regs : RegisterTable) (text : String) : Except FunctionDefect Var :=
  match Operand.parse regs text.toList with
  | .ok (.var v) => .ok v
  | .ok _ => .error (.localNotVariable text)
  | .error e => .error (.badLocal text e)

/-- A declared return type; no type is void. -/
def returnType (name : String) : Except FunctionDefect Ty :=
  if name == "" then .ok .void
  else
    match Ty.ofName? name with
    | some t => .ok t
    | none => .error (.unknownType name)

/-- An instruction at the place of its node. -/
def Codec.instruction (codec : Codec) (regs : RegisterTable) (anchors : List (Nat × Yaml.Node))
    (n : Yaml.Node) : Except FunctionDefect Instr :=
  match codec.text anchors n with
  | .error e => .error (.opNotText n.line e)
  | .ok text =>
    match Instr.parse regs (text.getD "").toList with
    | .error e => .error (.badOp n.line e)
    | .ok i => .ok { i with pos := ⟨n.line, n.column⟩ }

/-- A set of names in order. -/
def nameSet (names : List String) : List String := (names.mergeSort fun a b => !(b < a)).eraseDups

/-- The blocks of a function without their neighbours. No label may come twice. -/
def Codec.blocksFrom (codec : Codec) (regs : RegisterTable) (anchors : List (Nat × Yaml.Node)) :
    List String → List BlockDecl → Except FunctionDefect (List Block)
  | _, [] => .ok []
  | labels, b :: rest => do
    let ops ← b.ops.mapM (codec.instruction regs anchors)
    if labels.contains b.label then throw (.duplicateBlock b.label)
    let more ← codec.blocksFrom regs anchors (b.label :: labels) rest
    return ⟨b.label, ops, nameSet b.liveIn, nameSet b.liveOut, b.succs, []⟩ :: more

/-- Every successor is a block of the function. -/
def checkSuccessors (blocks : List Block) : Except FunctionDefect Unit :=
  blocks.forM fun b => b.succs.forM fun name =>
    if blocks.any fun c => c.label == name then .ok () else .error (.unknownSuccessor b.label name)

/-- Fills in the predecessors of every block, one for each time it is a successor. -/
def linkPredecessors (blocks : List Block) : List Block :=
  blocks.map fun b =>
    { b with preds := blocks.flatMap fun a => (a.succs.filter (· == b.label)).map fun _ => a.label }

/-- The closure that a declaration stands for. -/
def Codec.closure (codec : Codec) (regs : RegisterTable) (anchors : List (Nat × Yaml.Node))
    (f : FunctionDecl) : Except FunctionDefect Closure := do
  if f.name == "" then throw .unnamed
  let ret ← returnType f.ret
  let locals ← f.locals.mapM (localVar regs)
  let locations ← f.locations.mapM fun (ident, text) =>
    match location regs text with
    | .ok l => .ok (ident, l)
    | .error e => .error (.badLocation ident e)
  let blocks ← codec.blocksFrom regs anchors [] f.blocks
  checkSuccessors blocks
  let symbol := if f.symbol == "" then f.name else f.symbol
  return ⟨f.name, symbol, f.isGlobal, ret, locals, linkPredecessors blocks, locations, [],
    [], 0, []⟩

/-! ## Modules -/

/-- The module that declarations stand for. -/
def Codec.resolve (codec : Codec) (regs : RegisterTable) (anchors : List (Nat × Yaml.Node))
    (d : ModuleDecl) : Except Error Module := do
  let globals ← d.globals.mapM (codec.global anchors)
  let closures ← d.functions.mapM fun f =>
    match codec.closure regs anchors f with
    | .ok c => .ok c
    | .error e => .error (.function f.name e)
  return ⟨d.ident, globals, closures⟩

/-- The module of a document. -/
def Codec.ofDocument (codec : Codec) (regs : RegisterTable) (d : Yaml.Document) :
    Except Error Module := do
  match codec.declarations d with
  | .error e => throw (.document e)
  | .ok decl => codec.resolve regs d.anchors (decl.getD .empty)

/-- The module in a text. -/
def Codec.parse (codec : Codec) (regs : RegisterTable) (text : String) : Except Error Module :=
  match codec.read text with
  | .malformed => .error (.document .malformed)
  | .empty => .error .empty
  | .document d => codec.ofDocument regs d

/-! ## YAML -/

/-- A list of texts; null is the empty list. -/
def names : Yaml.Decoder (List String) := fun n => do
  return (← Yaml.Decode.list "[]string" .string n).map fun l => l.getD []

/-- A list of records; null is the empty list. -/
def records {α : Type} (type : String) (item : Yaml.Decoder α) :
    Yaml.Decoder (List α) := fun n => do
  return (← Yaml.Decode.list type item n).map fun l => l.getD []

def globalDecl : Yaml.Decoder GlobalDecl :=
  .record "lirfile.fileGlobal"
    [.of "name" .string fun x g => { g with name := x },
     .of "size" .int fun x g => { g with size := x },
     .of "value" .node fun x g => { g with value := some x }]
    .empty

def blockDecl : Yaml.Decoder BlockDecl :=
  .record "lirfile.fileBlock"
    [.of "label" .string fun x b => { b with label := x },
     .of "live_in" names fun x b => { b with liveIn := x },
     .of "live_out" names fun x b => { b with liveOut := x },
     .of "succs" names fun x b => { b with succs := x },
     .of "ops" (records "[]yaml.Node" .node) fun x b => { b with ops := x }]
    .empty

def functionDecl : Yaml.Decoder FunctionDecl :=
  .record "lirfile.fileFunction"
    [.of "name" .string fun x f => { f with name := x },
     .of "symbol" .string fun x f => { f with symbol := x },
     .of "global" .bool fun x f => { f with isGlobal := x },
     .of "return" .string fun x f => { f with ret := x },
     .of "locals" names fun x f => { f with locals := x },
     .of "locations" .table fun x f => { f with locations := x },
     .of "blocks" (records "[]lirfile.fileBlock" blockDecl) fun x f => { f with blocks := x }]
    .empty

def moduleDecl : Yaml.Decoder ModuleDecl :=
  .record "lirfile.fileModule"
    [.of "module" .string fun x m => { m with ident := x },
     .of "globals" (records "[]lirfile.fileGlobal" globalDecl) fun x m => { m with globals := x },
     .of "functions" (records "[]lirfile.fileFunction" functionDecl)
       fun x m => { m with functions := x }]
    .empty

/-- The codec of YAML, in which the files are written. -/
def yaml : Codec where
  read := Yaml.read
  declarations d := d.decode moduleDecl
  text anchors n := n.decode anchors .string
  bytes anchors n := n.decode anchors (records "[]uint8" .byte)
  write := Yaml.Node.render

/-- Reads a module file. -/
def parse (regs : RegisterTable) (text : String) : Except Error Module := yaml.parse regs text

end Backend.ModuleFile
