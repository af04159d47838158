-- Simultaneous assignment: moves are put in an order in which every source is read before its
-- register is overwritten, and cycles are broken through xmm13.
import Backend.Lowering.Basic

namespace Backend.Lowering

/-- One member of a simultaneous assignment; `lea` takes the address of the source. -/
structure Move where
  dst : Operand
  src : Operand
  lea : Bool

/-- The physical register that holds an operand. -/
def regKey? (locs : Locations) : Operand → Option Nat
  | .reg r => some r.key
  | .var v => (locs.reg? v.ident).map Reg.key
  | _ => none

mutual

/-- Evaluating the operand reads the register. -/
def readsKey (locs : Locations) (key : Nat) : Operand → Bool
  | .indirect base index _ _ _ => readsKeyOption locs key base || readsKeyOption locs key index
  | o => regKey? locs o == some key

/-- Evaluating an address part reads the register. -/
def readsKeyOption (locs : Locations) (key : Nat) : Option Operand → Bool
  | none => false
  | some o => readsKey locs key o

end

/-- Some move of the list reads the register. -/
def anyReads (locs : Locations) (key : Nat) (moves : List Move) : Bool :=
  moves.any fun m => readsKey locs key m.src

/-- The pending moves up to the first whose destination no other one reads, that move, and the
rest. -/
def splitReady (locs : Locations) : List Move → List Move → Option (List Move × Move × List Move)
  | _, [] => none
  | before, m :: after =>
    let blocked := match regKey? locs m.dst with
      | some key => anyReads locs key (before ++ after)
      | none => false
    if blocked then splitReady locs (before ++ [m]) after else some (before, m, after)

/-- The whole register with a key. -/
def fullReg (key : Nat) : Reg :=
  let id := UInt8.ofNat (key % 256)
  if key / 256 == 1 then xmm id 8 else gpr id 8

/-- Sends the reading of a register to xmm13. -/
def redirect (locs : Locations) (key : Nat) (m : Move) : Move :=
  if readsKey locs key m.src then { m with src := .reg (xmm 13 (registerWidth m.src.ty)) } else m

/-- Every move that reads the register reads it directly, not through an address. -/
def readDirectly (locs : Locations) (key : Nat) (moves : List Move) : Bool :=
  moves.all fun m => !readsKey locs key m.src || (regKey? locs m.src).isSome

/-- Finds a destination whose register all other moves read directly; gives its key and the moves
with those readings sent to xmm13. -/
def breakCycle? (locs : Locations) : List Move → List Move → Option (Nat × List Move)
  | _, [] => none
  | before, m :: after =>
    match regKey? locs m.dst with
    | some key =>
      if readDirectly locs key (before ++ after) then
        some (key, before.map (redirect locs key) ++ m :: after.map (redirect locs key))
      else breakCycle? locs (before ++ [m]) after
    | none => breakCycle? locs (before ++ [m]) after

def Move.emit (cx : Context) (m : Move) : LowerM Unit :=
  Lowering.emit cx (if m.lea then .lea else .move) (some m.src) none (some m.dst)

/-- Emits the pending moves, of which there are at most `n`. When all are blocked a cycle is broken
first, which unblocks one of them. -/
def parallelUpTo (cx : Context) (locs : Locations) : Nat → List Move → LowerM Unit
  | 0, [] => pure ()
  | 0, _ :: _ => fail cx .unorderedMoves
  | n + 1, pending =>
    match pending with
    | [] => pure ()
    | _ =>
      match splitReady locs [] pending with
      | some (before, m, after) => do
        m.emit cx
        parallelUpTo cx locs n (before ++ after)
      | none =>
        match breakCycle? locs [] pending with
        | none => fail cx .unorderedMoves
        | some (key, pending) => do
          Lowering.emit cx .move (some (.reg (fullReg key))) none (some (.reg regXmm13))
          match splitReady locs [] pending with
          | some (before, m, after) => do
            m.emit cx
            parallelUpTo cx locs n (before ++ after)
          | none => fail cx .unorderedMoves

/-- The move changes something: it takes an address, or source and destination are neither in the
same register nor the same operand. -/
def Move.isNeeded (locs : Locations) (m : Move) : Bool :=
  m.lea ||
    (!((regKey? locs m.dst).isSome && regKey? locs m.dst == regKey? locs m.src) &&
      !m.dst.same m.src)

/-- Assigns all destinations at once. -/
def parallel (cx : Context) (moves : List Move) : LowerM Unit := do
  let locs := (← get).closure.locations
  let pending := moves.filter (Move.isNeeded locs)
  parallelUpTo cx locs pending.length pending

end Backend.Lowering
