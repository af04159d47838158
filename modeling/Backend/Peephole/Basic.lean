-- Peephole optimisation of a closure: sweeps over its blocks until no rule applies or the limit is
-- reached, then literals that nothing refers to any more are dropped.
import Backend.Peephole.Rules

namespace Backend.Peephole

/-- The rules in the order in which they are tried. -/
def defaultRules : List Rule := [fuseLea, fuseMulAdd, reduceMul, eliminateMove]

/-! ## Sweeps -/

/-- The first rule that applies. -/
def applyFirst (rules : List Rule) (s : Setting) (b : Block) (ops : List Instr) :
    Option (List Instr) := rules.findSome? fun r => r s b ops

/-- Moves over the instructions of a block. After a rule was applied the same place is tried again.
`n` bounds the steps; gives the instructions and the number of applications. -/
def sweepFrom (rules : List Rule) (s : Setting) (b : Block) :
    Nat → List Instr → List Instr → Nat → List Instr × Nat
  | 0, done, ops, fired => (done ++ ops, fired)
  | _ + 1, done, [], fired => (done, fired)
  | n + 1, done, i :: rest, fired =>
    match applyFirst rules s { b with ops := done ++ i :: rest } (i :: rest) with
    | some ops => sweepFrom rules s b n done ops (fired + 1)
    | none => sweepFrom rules s b n (done ++ [i]) rest fired

/-- The number of multiplications. -/
def mulCount (ops : List Instr) : Nat := ops.countP fun i => i.op == .mul

/-- A rule removes an instruction or a multiplication, and every other step passes an
instruction. -/
def sweepBound (ops : List Instr) : Nat := 2 * ops.length + mulCount ops + 1

/-- Sweeps over a block once; gives the block and the number of applications. -/
def sweep (rules : List Rule) (s : Setting) (b : Block) : Block × Nat :=
  let (ops, fired) := sweepFrom rules s b (sweepBound b.ops) [] b.ops 0
  ({ b with ops := ops }, fired)

/-- How much a run did. -/
structure Summary where
  sweeps : Nat
  applied : Nat
  pruned : Nat
  deriving DecidableEq

/-- At most `n` sweeps over all blocks, stopping after one in which no rule applied. -/
def sweeps (rules : List Rule) (s : Setting) : Nat → List Block → List Block × Nat × Nat
  | 0, blocks => (blocks, 0, 0)
  | n + 1, blocks =>
    let swept := blocks.map (sweep rules s)
    let fired := swept.foldl (fun n b => n + b.2) 0
    let blocks := swept.map Prod.fst
    if fired == 0 then (blocks, 1, 0)
    else
      let (blocks, count, applied) := sweeps rules s n blocks
      (blocks, count + 1, applied + fired)

/-! ## Unused literals -/

mutual

/-- The symbols in an operand at any depth. -/
def symbolsOf : Operand → List String
  | .symbol s => [s.name]
  | .indirect base index _ _ _ => symbolsOfOption base ++ symbolsOfOption index
  | .list items => symbolsOfItems items
  | _ => []

def symbolsOfOption : Option Operand → List String
  | none => []
  | some o => symbolsOf o

def symbolsOfItems : List Operand → List String
  | [] => []
  | o :: rest => symbolsOf o ++ symbolsOfItems rest

end

/-- The symbols that an instruction refers to. -/
def instrSymbols (i : Instr) : List String :=
  [i.first, i.second, i.addend, i.output].flatMap symbolsOfOption

/-- Drops the literals that no instruction refers to; gives their number. -/
def prune (c : Closure) : Closure × Nat :=
  let used := c.blocks.flatMap fun b => b.ops.flatMap instrSymbols
  let isLiteral (name : String) : Bool := c.imms.any fun (_, n) => n == name
  let data := c.data.filter fun d => !isLiteral d.name || used.contains d.name
  let imms := c.imms.filter fun (_, name) => used.contains name
  ({ c with data := data, imms := imms }, c.data.length - data.length)

/-! ## Runs -/

/-- The number of sweeps if none is asked for. -/
def defaultLimit : Nat := 10

/-- Optimises a closure with a list of rules. -/
def runWith (rules : List Rule) (features : Features) (limit : Int) (c : Closure) :
    Closure × Summary :=
  let n := if limit ≤ 0 then defaultLimit else limit.toNat
  let (blocks, count, applied) := sweeps rules ⟨c.locations, features⟩ n c.blocks
  let (c, pruned) := prune { c with blocks := blocks }
  (c, ⟨count, applied, pruned⟩)

/-- Optimises a closure. -/
def run (features : Features) (limit : Int) (c : Closure) : Closure × Summary :=
  runWith defaultRules features limit c

end Backend.Peephole
