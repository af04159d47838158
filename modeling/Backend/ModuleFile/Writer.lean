-- Writing module files. What has its default value is left out, and instructions are written in
-- their printed form.
import Backend.ModuleFile.Reader

namespace Backend.ModuleFile

open Yaml (Node)

/-- A field that is written only if `given` holds. -/
def optional (given : Bool) (name : String) (value : Node) : List (String × Node) :=
  if given then [(name, value)] else []

/-- A list of names, left out if it is empty. -/
def nameField (name : String) (names : List String) : List (String × Node) :=
  optional (!names.isEmpty) name (.ofItems (names.map .ofText))

/-- The text of a location: the register if there is one. -/
def locationText (l : Location) : String :=
  match l.reg with
  | some r => r.name
  | none => s!"stack({(l.stack.getD 0).toInt})"

def globalNode (g : Global) : Node :=
  .ofFields ([("name", .ofText g.name)] ++ optional (g.size != 0) "size" (.ofInt g.size) ++
    [("value", .ofFlowItems (g.value.map fun b => .ofInt b.toNat))])

def blockNode (b : Block) : Node :=
  .ofFields ([("label", .ofText b.label)] ++ nameField "live_in" b.liveIn ++
    nameField "live_out" b.liveOut ++ nameField "succs" b.succs ++
    [("ops", .ofItems (b.ops.map fun i => .ofSource i.text))])

def closureNode (c : Closure) : Node :=
  .ofFields ([("name", .ofText c.name)] ++
    optional (c.symbol != c.name && c.symbol != "") "symbol" (.ofText c.symbol) ++
    optional c.isGlobal "global" (.ofBool true) ++
    optional (c.ret != .void) "return" (.ofText c.ret.name) ++
    nameField "locals" (c.locals.map Var.text) ++
    optional (!c.locations.isEmpty) "locations"
      (.ofFields ((Yaml.sortEntries c.locations).map fun (ident, l) => (ident,
        .ofText (locationText l)))) ++
    [("blocks", .ofItems (c.blocks.map blockNode))])

/-- The document of a module. -/
def toNode (m : Module) : Node :=
  .ofFields ([("module", .ofText m.ident)] ++
    optional (!m.globals.isEmpty) "globals" (.ofItems (m.globals.map globalNode)) ++
    [("functions", .ofItems (m.closures.map closureNode))])

/-- Writes a module file. -/
def render (m : Module) : String := yaml.write (toNode m)

end Backend.ModuleFile
