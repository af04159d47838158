-- Reordering the instructions of a block. Every edge of the graph points forward, so the given
-- order is always one of the possible ones.
import Backend.Closure.Defect
import Backend.Schedule.Access
import Backend.Schedule.Graph

namespace Backend.Schedule

/-! ## Building the graph -/

/-- What has been seen of a block so far: the edges, the last definition of each key, the readers
since then, and the last access to memory. -/
structure Builder where
  edges : List (Nat × Nat)
  lastDef : List (Key × Nat)
  readers : List (Key × List Nat)
  lastMem : Option Nat

def Builder.empty : Builder := ⟨[], [], [], none⟩

/-- Adds an edge unless it is there or leads to its own start. -/
def addEdge (edges : List (Nat × Nat)) (start : Nat) (stop : Nat) : List (Nat × Nat) :=
  if start == stop || edges.contains (start, stop) then edges else edges ++ [(start, stop)]

/-- An edge from the last definition of a key. -/
def Builder.afterDef (idx : Nat) (bd : Builder) (k : Key) : Builder :=
  match bd.lastDef.lookup k with
  | some d => { bd with edges := addEdge bd.edges d idx }
  | none => bd

/-- Edges from the readers of a key since its last definition. -/
def Builder.afterReaders (idx : Nat) (bd : Builder) (k : Key) : Builder :=
  { bd with
    edges := ((bd.readers.lookup k).getD []).foldl (fun es r => addEdge es r idx) bd.edges }

def Builder.noteRead (idx : Nat) (bd : Builder) (k : Key) : Builder :=
  { bd with readers := assocInsert k ((bd.readers.lookup k).getD [] ++ [idx]) bd.readers }

def Builder.noteWrite (idx : Nat) (bd : Builder) (k : Key) : Builder :=
  { bd with
    lastDef := assocInsert k idx bd.lastDef
    readers := bd.readers.filter fun (key, _) => key != k }

/-- Chains the accesses to memory. -/
def Builder.memory (idx : Nat) (bd : Builder) : Builder :=
  let edges := match bd.lastMem with
    | some m => addEdge bd.edges m idx
    | none => bd.edges
  { bd with edges := edges, lastMem := some idx }

/-- Edges from all earlier instructions. -/
def Builder.afterAll (idx : Nat) (bd : Builder) : Builder :=
  { bd with edges := (List.range idx).foldl (fun es p => addEdge es p idx) bd.edges }

/-- Adds one instruction. -/
def Builder.add (roles : RegisterRoles) (locs : Locations) (bd : Builder) (item : Instr × Nat) :
    Builder :=
  let (i, idx) := item
  let a := access roles locs i
  let bd := a.reads.foldl (Builder.afterDef idx) bd
  let bd := a.writes.foldl (fun bd k => (bd.afterDef idx k).afterReaders idx k) bd
  let bd := a.reads.foldl (Builder.noteRead idx) bd
  let bd := a.writes.foldl (Builder.noteWrite idx) bd
  let bd := if a.memRead || a.memWrite then bd.memory idx else bd
  if isBarrier i || isControl i then bd.afterAll idx else bd

/-- Edges from every barrier to all later instructions. -/
def barrierEdges (n : Nat) (edges : List (Nat × Nat)) (item : Instr × Nat) : List (Nat × Nat) :=
  let (i, idx) := item
  if isBarrier i then
    ((List.range n).drop (idx + 1)).foldl (fun es next => addEdge es idx next) edges
  else edges

/-- The edges between the instructions of a block. -/
def edges (roles : RegisterRoles) (locs : Locations) (ops : List Instr) : List (Nat × Nat) :=
  let bd := ops.zipIdx.foldl (Builder.add roles locs) .empty
  ops.zipIdx.foldl (barrierEdges ops.length) bd.edges

/-- The dependency graph of a block. -/
def graph (roles : RegisterRoles) (locs : Locations) (ops : List Instr) : Graph :=
  let es := edges roles locs ops
  let nodes := List.range ops.length
  { scores := ops.map fun i => (score roles i (access roles locs i)).rank
    succs := nodes.map fun i => es.filterMap fun (a, b) => if a == i then some b else none
    preds := nodes.map fun i => (es.countP fun (_, b) => b == i : Nat) }

/-! ## Scheduling -/

/-- The instructions in the order of their numbers. -/
def pick (ops : List Instr) (nodes : List Nat) : List Instr := nodes.filterMap fun i => ops[i]?

/-- A block in schedule order, or the reason why it stays as it is. -/
def block (roles : RegisterRoles) (locs : Locations) (b : Block) : Block × Option CycleError :=
  match (graph roles locs b.ops).order with
  | .ok nodes => ({ b with ops := pick b.ops nodes }, none)
  | .error e => (b, some e)

/-- A block whose dependencies form a cycle. -/
structure Error where
  cause : InternalError

def Error.message (e : Error) : String := "dependency cycle: " ++ e.cause.message

/-- Schedules every block. A block with a cycle keeps its order; the first such block is
reported. -/
def run (roles : RegisterRoles) (c : Closure) : Closure × Option Error :=
  let scheduled := c.blocks.map fun b => (b.label, block roles c.locations b)
  let error := scheduled.findSome? fun (label, _, e) =>
    e.map fun e => Error.mk ⟨.schedule, c.name, none, .cyclicBlock label e.scheduled e.total⟩
  ({ c with blocks := scheduled.map fun (_, b, _) => b }, error)

end Backend.Schedule
