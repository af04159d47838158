-- The calling convention: the start of a function, which takes its parameters from where the caller
-- put them, and calls, which put arguments there.
import Backend.Lowering.ParallelMove

namespace Backend.Lowering

/-- The adjustment of the stack pointer by a number of bytes. -/
def adjustStack (cx : Context) (op : Opcode) (bytes : Int64) : LowerM Unit :=
  emit cx op (some (.reg regRsp)) (some (.imm (.ofInt .i64 bytes))) (some (.reg regRsp))

/-! ## The start of a function -/

/-- Where the parameters are taken from: argument registers counted so far, stack slots used, and
the moves into variables that have a place. -/
structure ParamState where
  args : ArgCount
  stack : Nat
  moves : List Move

/-- Takes one parameter. A parameter without a place stays where the caller put it. -/
def takeParam (cx : Context) (st : ParamState) (item : Operand) : LowerM ParamState := do
  match item with
  | .var p =>
    let (reg, args) := st.args.next p.ty
    let offset : Int64 := 16 + 8 * Int64.ofNat st.stack
    let (src, home, stack) : Operand × Location × Nat := match reg with
      | some r => (.reg r, ⟨some r, none⟩, st.stack)
      | none => (.stack offset p.ty, ⟨none, some offset⟩, st.stack + 1)
    match (← get).closure.locate? p with
    | none =>
      modify fun s =>
        { s with closure :=
          { s.closure with locations := assocInsert p.ident home s.closure.locations } }
      pure ⟨args, stack, st.moves⟩
    | some _ => pure ⟨args, stack, st.moves ++ [⟨.var p, src, false⟩]⟩
  | _ => fail cx (.parameter item)

/-- Builds the frame, saves registers, and moves parameters to their places. -/
def prologue (cx : Context) : LowerM Unit := do
  let c := (← get).closure
  keep cx.instr
  emit cx .push (some (.reg regRbp)) none none
  emit cx .move (some (.reg regRsp)) none (some (.reg regRbp))
  if c.frame > 0 then adjustStack cx .sub c.frame
  for s in c.saved do
    emit cx .move (some (.reg s.reg)) none (some (.stack s.offset .i64))
  match cx.instr.output with
  | some (.list items) =>
    let st ← items.foldlM (takeParam cx) ⟨⟨0, 0⟩, 0, []⟩
    parallel cx st.moves
  | _ => pure ()

/-! ## Calls -/

/-- How the arguments of a call are passed: the registers taken, the moves into them, and what
goes on the stack. -/
structure ArgState where
  args : ArgCount
  moves : List Move
  stack : List Operand

def assignArg (st : ArgState) (a : Operand) : ArgState :=
  match st.args.next a.ty with
  | (some r, args) => { st with args := args, moves := st.moves ++ [⟨.reg r, a, false⟩] }
  | (none, args) => { st with args := args, stack := st.stack ++ [a] }

/-- The argument has a push instruction of its own. -/
def hasPush (cx : Context) (a : Operand) : LowerM Bool :=
  match a with
  | .imm l => pure ((l.int?.map Machine.fitsInt32).getD false)
  | .reg r => pure (r.cls == .int)
  | .var v => do
    let l ← locate cx v
    pure (match l.reg with
      | some r => r.cls == .int
      | none => v.ty.size == 8)
  | .stack _ t => pure (t.size == 8)
  | _ => pure false

/-- Pushes one stack argument, through the temporary register if it has no push of its own. -/
def pushArg (cx : Context) (a : Operand) : LowerM Unit := do
  if ← hasPush cx a then emit cx .push (some a) none none
  else
    let d ← source cx .first false (.of (.make .move (some a) none none))
    let inTemp := match d.instr.first with
      | some (.reg r) => r.is regR10
      | _ => false
    if !inTemp then
      emit cx .move d.instr.first none (some (.reg (tempReg (d.typeAt .first))))
    emit cx .push (some (.reg regR10)) none none

/-- The first argument other than the one at `index` that reads the register. -/
def conflicting? (locs : Locations) (key index : Nat) (moves : List Move) : Option Operand :=
  (moves.zipIdx.find? fun (m, k) => k != index && readsKey locs key m.src).map fun (m, _) => m.src

/-- Materialises a literal argument and loads a memory argument that needs the temporary register
right away. Gives the move that is left to do. -/
def directArg (cx : Context) (moves : List Move) (index : Nat) (m : Move) :
    LowerM (Option Move) :=
  match m.src with
  | .imm l =>
    match l with
    | .float _ _ => do pure (some { m with src := .symbol (← materialize l) })
    | .string _ => do pure (some { m with src := .symbol (← materialize l), lea := true })
    | _ => pure (some m)
  | .var v => do
    let _ ← locate cx v
    pure (some m)
  | .indirect base part scale disp t => do
    let d ← address cx .first base part scale disp t (.of (.make .move (some m.src) none none))
    let src := d.instr.first.getD m.src
    if d.holder.isNone then return some { m with src := src }
    let locs := (← get).closure.locations
    match (regKey? locs m.dst).bind fun key => conflicting? locs key index moves with
    | some o => fail cx (.argumentConflict m.src o)
    | none =>
      emit cx .move (some src) none (some m.dst)
      pure none
  | _ => pure (some m)

/-- Handles the arguments that are not part of the simultaneous assignment. -/
def directArgs (cx : Context) (moves : List Move) : LowerM (List Move) := do
  let rest ← moves.zipIdx.mapM fun (m, k) => directArg cx moves k m
  pure (rest.filterMap id)

/-- The operand a call goes through: a symbol, or the temporary register with the address. -/
def callee (cx : Context) : LowerM Operand :=
  match cx.instr.first with
  | none => fail cx .missingCallee
  | some (.symbol s) => pure (.symbol s)
  | some f => do
    let d ← source cx .first false (.of (.make .move (some f) none none))
    emit cx .move d.instr.first none (some (.reg regR10))
    pure (.reg regR10)

/-- The number of float arguments, which a variadic function expects in al. -/
def countFloats (cx : Context) (floats : Nat) : LowerM Unit :=
  if floats == 0 then emit cx .clr none none (some (.reg regRax))
  else
    emit cx .move (some (.imm (.ofInt .i32 (Int64.ofNat floats)))) none
      (some (.reg (gpr Machine.rax 4)))

/-- A call: stack arguments are pushed in reverse over padding that keeps the stack aligned,
register arguments are assigned at once, and the stack is cleaned up afterwards. -/
def call (cx : Context) : LowerM Unit := do
  let args := match cx.instr.second with
    | none => []
    | some (.list items) => items
    | some a => [a]
  let st := args.foldl assignArg ⟨⟨0, 0⟩, [], []⟩
  let n := 8 * st.stack.length
  let pad := alignUp n 16 - n
  if pad > 0 then adjustStack cx .sub (Int64.ofNat pad)
  for a in st.stack.reverse do pushArg cx a
  let moves ← directArgs cx st.moves
  let f ← callee cx
  parallel cx moves
  let isVariadic := match f with
    | .symbol s => cx.variadic.contains s.name
    | _ => false
  if isVariadic then countFloats cx st.args.floats
  let used := st.moves.map Move.dst ++ if isVariadic then [.reg regRax] else []
  let result := cx.instr.output.map fun o => returnReg o.ty
  emit cx cx.instr.op (some f) (some (.list used)) (result.map fun r => .list [.reg r])
  if n + pad > 0 then adjustStack cx .add (Int64.ofNat (n + pad))
  match result with
  | some r => store cx r cx.instr.output
  | none => pure ()

end Backend.Lowering
