-- Functions under compilation: blocks of instructions, where the allocator placed each variable,
-- the literals placed in the data section, and the frame.
import Backend.Assoc
import Backend.Instr

namespace Backend

/-! ## Blocks and use counts -/

/-- The register or frame slot assigned to a variable. -/
structure Location where
  reg : Option Reg
  stack : Option Int64
  deriving DecidableEq

/-- The variable has been placed. -/
def Location.isPlaced (l : Location) : Bool := l.reg.isSome || l.stack.isSome

/-- Where each variable lives, by identifier. -/
abbrev Locations := List (String × Location)

/-- The register a variable lives in. -/
def Locations.reg? (locs : Locations) (ident : String) : Option Reg :=
  (locs.lookup ident).bind Location.reg

/-- Some variable lives in the register. -/
def Locations.occupies (locs : Locations) (r : Reg) : Bool :=
  locs.any fun (_, l) => (l.reg.map fun s => s.is r).getD false

/-- A basic block. The live sets hold variable identifiers and the neighbours block labels. -/
structure Block where
  label : String
  ops : List Instr
  liveIn : List String
  liveOut : List String
  succs : List String
  preds : List String

namespace Block

/-- The number of times the block reads a variable. -/
def useCount (b : Block) (ident : String) : Nat :=
  (b.ops.flatMap Instr.usedVars).countP fun v => v.ident == ident

/-- The variables that the block reads and how often. -/
def useCounts (b : Block) : List (String × Nat) :=
  ((b.ops.flatMap Instr.usedVars).map Var.ident).eraseDups.map fun ident =>
    (ident, b.useCount ident)

/-- The block reads the register by name. -/
def readsReg (b : Block) (key : Nat) : Bool :=
  b.ops.any fun i => i.uses.any fun
    | .reg r => r.key == key
    | _ => false

/-- The block reads the register of the variable by name, such as a call argument that is
already in place. -/
def isPinned (b : Block) (locs : Locations) (ident : String) : Bool :=
  ((locs.reg? ident).map fun r => b.readsReg r.key).getD false

/-- The definition of a variable may be dropped or given another target: it is not live out, its
register is not read by name, and it is read at most once. -/
def canRemove (b : Block) (locs : Locations) (ident : String) : Bool :=
  !b.liveOut.contains ident && !b.isPinned locs ident && decide (b.useCount ident ≤ 1)

end Block

/-! ## Closures and modules -/

/-- An object in the data section. -/
structure DataItem where
  name : String
  value : List UInt8
  isLocal : Bool
  deriving DecidableEq

/-- A callee-saved register and the frame slot that keeps it. -/
structure SavedReg where
  reg : Reg
  offset : Int64
  deriving DecidableEq

/-- A function. `locals` are the frame variables in order of declaration; `imms` maps the keys of
materialised literals to data symbols. -/
structure Closure where
  name : String
  symbol : String
  isGlobal : Bool
  ret : Ty
  locals : List Var
  blocks : List Block
  locations : Locations
  imms : List (List UInt8 × String)
  data : List DataItem
  frame : Int64
  saved : List SavedReg

namespace Closure

/-- The number of instructions of all blocks. -/
def length (c : Closure) : Nat := c.blocks.foldl (fun n b => n + b.ops.length) 0

/-- The location of a variable, if it has been placed. -/
def locate? (c : Closure) (v : Var) : Option Location :=
  (c.locations.lookup v.ident).filter Location.isPlaced

/-- The first name `SYMBOL.imm.N`, counting from the number of literals, that no data has. -/
def freshName (c : Closure) : String :=
  let candidates := (List.range (c.data.length + 1)).map fun n =>
    s!"{c.symbol}.imm.{c.imms.length + n}"
  (candidates.find? fun name => !c.data.any fun d => d.name == name).getD ""

/-- Places a literal in the data of the closure and gives the local symbol that names it. Literals
with one key share a symbol. -/
def materialize (c : Closure) (l : Literal) : Symbol × Closure :=
  let symbol (name : String) : Symbol := ⟨name, true, false, l.ty, some l⟩
  match c.imms.lookup l.key with
  | some name => (symbol name, c)
  | none =>
    let name := c.freshName
    (symbol name,
      { c with imms := c.imms ++ [(l.key, name)], data := c.data ++ [⟨name, l.bytes, true⟩] })

end Closure

/-- A variable of a module, placed in the data section. -/
structure Global where
  name : String
  size : Int
  value : List UInt8
  deriving DecidableEq

/-- One compilation unit. -/
structure Module where
  ident : String
  globals : List Global
  closures : List Closure

end Backend
