-- What an instruction reads and writes, reduced to keys of variables and registers and one cell for
-- all of memory, and the score that orders ready instructions.
import Backend.Closure.Basic
import Backend.Target.Basic

namespace Backend.Schedule

/-- A variable or a physical register. -/
inductive Key where
  | var (ident : String)
  | reg (key : Nat)
  deriving DecidableEq

/-- What one instruction reads and writes. -/
structure Access where
  reads : List Key
  writes : List Key
  memRead : Bool
  memWrite : Bool

def Access.empty : Access := ⟨[], [], false, false⟩

/-- Adds a key that is read or written. -/
def Access.addKey (a : Access) (write : Bool) (k : Key) : Access :=
  if write then { a with writes := a.writes ++ [k] } else { a with reads := a.reads ++ [k] }

/-- Adds an access to memory. -/
def Access.addMemory (a : Access) (write : Bool) : Access :=
  if write then { a with memWrite := true } else { a with memRead := true }

/-- Adds an access to the frame, which reads the frame pointer. -/
def Access.addFrame (roles : RegisterRoles) (a : Access) (write : Bool) : Access :=
  { a.addMemory write with reads := a.reads ++ [.reg roles.framePointer.key] }

/-- Adds one operand that is read or written. -/
def Access.addOperand (roles : RegisterRoles) (locs : Locations) (write : Bool) (a : Access)
    (o : Operand) : Access :=
  match o with
  | .reg r => a.addKey write (.reg r.key)
  | .var v =>
    let a := a.addKey write (.var v.ident)
    match locs.lookup v.ident with
    | some l =>
      match l.reg, l.stack with
      | some r, _ => a.addKey write (.reg r.key)
      | none, some _ => a.addFrame roles write
      | none, none => a
    | none => a
  | .stack _ _ => a.addFrame roles write
  | .indirect _ _ _ _ _ | .symbol _ => a.addMemory write
  | _ => a

/-- The operands an instruction reads. An address computation reads the parts of the address, not
the memory there. -/
def readOperands (i : Instr) : List Operand :=
  if i.op == .lea then
    let parts (o : Option Operand) : List Operand := (o.map Instr.addressParts).getD []
    parts i.first ++ i.second.toList ++ i.addend.toList ++ parts i.output
  else i.uses

/-- The accesses of an instruction. Whatever moves the stack pointer counts as a write to
memory. -/
def access (roles : RegisterRoles) (locs : Locations) (i : Instr) : Access :=
  let a := (readOperands i).foldl (Access.addOperand roles locs false) .empty
  let a := i.defs.foldl (Access.addOperand roles locs true) a
  let sp : Key := .reg roles.stackPointer.key
  let a :=
    if i.op == .push || i.op == .pop then
      ((a.addKey false sp).addKey true sp).addMemory (i.op == .push)
    else a
  if a.writes.contains sp then { a with memWrite := true } else a

/-! ## Kinds of instructions -/

/-- Nothing moves across these: calls, safepoints and the heads of blocks. -/
def isBarrier (i : Instr) : Bool :=
  match i.op with
  | .call | .rtCall | .safepoint | .label | .phi | .fnBegin => true
  | _ => false

/-- Nothing moves from before to after these. -/
def isControl (i : Instr) : Bool :=
  i.op.isBranch || i.op == .retValue || i.op == .ret || i.op == .fnEnd

/-- What orders ready instructions. -/
inductive Score where
  | label
  | phi
  | fnBegin
  | safepoint
  | arg
  | memRead
  | memWrite
  | plain
  | compare
  | control
  | fnEnd
  deriving DecidableEq

/-- The lower rank goes first. -/
def Score.rank : Score → Int
  | .label => 0
  | .phi => 1
  | .fnBegin => 2
  | .safepoint => 3
  | .arg => 4
  | .memRead => 5
  | .memWrite => 6
  | .plain => 7
  | .compare => 8
  | .control => 9
  | .fnEnd => 10

/-- The instruction moves a value into an argument register. -/
def setsArgument (roles : RegisterRoles) (i : Instr) : Bool :=
  match i.op, i.output with
  | .move, some (.reg r) => roles.isArgument r
  | _, _ => false

def score (roles : RegisterRoles) (i : Instr) (a : Access) : Score :=
  match i.op with
  | .label => .label
  | .phi => .phi
  | .fnBegin => .fnBegin
  | .safepoint => .safepoint
  | .fnEnd => .fnEnd
  | .call | .rtCall => .plain
  | .push => .arg
  | _ =>
    if setsArgument roles i then .arg
    else if isControl i then .control
    else if i.op.isCompare then .compare
    else if a.memWrite then .memWrite
    else if a.memRead then .memRead
    else .plain

end Backend.Schedule
