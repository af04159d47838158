-- Dependency graphs and their greedy ordering: of the nodes whose predecessors are all done, the
-- one with the least score is next, and of equal scores the earlier node.

namespace Backend.Schedule

/-- A dependency graph over nodes numbered from zero. `succs` lists the nodes that come after each
node, and `preds` counts the nodes that come before it. -/
structure Graph where
  scores : List Int
  succs : List (List Nat)
  preds : List Int
  deriving DecidableEq

/-- Not all nodes could be ordered. -/
structure CycleError where
  scheduled : Nat
  total : Nat
  deriving DecidableEq

def CycleError.message (e : CycleError) : String :=
  s!"scheduled {e.scheduled} of {e.total} instructions"

namespace Graph

def size (g : Graph) : Nat := g.scores.length

def score (g : Graph) (i : Nat) : Int := g.scores.getD i 0

/-- Node `a` goes before node `b` when both are ready. -/
def before (g : Graph) (a b : Nat) : Bool :=
  if g.score a != g.score b then decide (g.score a < g.score b) else decide (a < b)

/-- The ready node that goes first. -/
def least (g : Graph) (first : Nat) (rest : List Nat) : Nat :=
  rest.foldl (fun best i => if g.before i best then i else best) first

/-- Notes that a predecessor of `s` is done; a node without predecessors left becomes ready. -/
def release (st : List Int × List Nat) (s : Nat) : List Int × List Nat :=
  let (pending, ready) := st
  let left := pending.getD s 0 - 1
  (pending.set s left, if left == 0 && s < pending.length then ready ++ [s] else ready)

/-- Orders nodes until none is ready; `n` bounds their number. -/
def orderFrom (g : Graph) : Nat → List Int → List Nat → List Nat
  | 0, _, _ => []
  | _ + 1, _, [] => []
  | n + 1, pending, first :: rest =>
    let next := g.least first rest
    let ready := (first :: rest).filter (· != next)
    let (pending, ready) := (g.succs.getD next []).foldl release (pending, ready)
    next :: orderFrom g n pending ready

/-- The nodes in schedule order. -/
def order (g : Graph) : Except CycleError (List Nat) :=
  let ready := (List.range g.size).filter fun i => g.preds.getD i 0 == 0
  let nodes := g.orderFrom g.size g.preds ready
  if nodes.length != g.size then .error ⟨nodes.length, g.size⟩ else .ok nodes

end Graph

end Backend.Schedule
