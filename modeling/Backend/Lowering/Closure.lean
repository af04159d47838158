-- Lowering every kind of instruction, and lowering a whole closure.
import Backend.Lowering.Call

namespace Backend.Lowering

/-- The operand lives in memory. -/
def memoryResident (locs : Locations) : Option Operand → Bool
  | some (.var v) => (locs.reg? v.ident).isNone
  | some o => o.isMemory
  | none => false

/-- Loads an integer literal of a slot into the temporary register. -/
def intImmediateIntoTemp (cx : Context) (slot : Slot) (d : Draft) : LowerM Draft :=
  match slot.get d.instr with
  | some (.imm l) => if l.isInt then intoTemp cx slot d else pure d
  | _ => pure d

/-- An instruction whose operands only have to be encodable. A multiplication of bytes is done in
32 bits, which has no memory form. -/
def generic (cx : Context) (i : Instr) : LowerM Unit := do
  let d ← source cx .first (i.op == .push) (.of i)
  let d ← source cx .second true d
  let d ← source cx .addend true d
  let t := opType d.instr
  let d ←
    if i.op == .itof then intImmediateIntoTemp cx .first d
    else if i.op == .mul && t.size == 1 && !t.isFloat &&
        memoryResident (← get).closure.locations d.instr.second then intoTemp cx .second d
    else pure d
  let d ← dest cx .output d
  keep d.instr

/-- A move. A string literal becomes its address, and an integer literal that no store can hold
goes through the temporary register. -/
def move (cx : Context) (i : Instr) : LowerM Unit := do
  let d ← match i.first with
    | some (.imm l) =>
      match l with
      | .string _ => do
        let symbol ← materialize l
        pure (Draft.of { i with op := .lea, first := some (.symbol symbol) })
      | .int _ value =>
        if Machine.fitsInt32 value then pure (Draft.of i)
        else do
          let direct ← match i.output with
            | some o => inRegister cx o
            | none => pure false
          if direct then pure (Draft.of i) else intoTemp cx .first (.of i)
      | _ => pure (Draft.of i)
    | _ => pure (Draft.of i)
  let d ← source cx .first false d
  let d ← dest cx .output d
  keep d.instr

def isLiteral : Option Operand → Bool
  | some (.imm _) => true
  | _ => false

/-- Swaps a literal first operand with the second, and the comparison with them. -/
def literalSecond (i : Instr) : Instr :=
  if isLiteral i.first && !isLiteral i.second then
    { i with op := i.op.swapped, first := i.second, second := i.first }
  else i

/-- A comparison or a conditional branch, with a literal only as the second operand. -/
def compare (cx : Context) (i : Instr) : LowerM Unit := do
  let i := literalSecond i
  let d ← source cx .first false (.of i)
  let d ← source cx .second true d
  let d ← intImmediateIntoTemp cx .first d
  let d ← if i.op.isCompare then dest cx .output d else pure d
  keep d.instr

/-- A return: the value goes to the return register. -/
def ret (cx : Context) (i : Instr) : LowerM Unit :=
  match i.first with
  | none => emit cx .ret none none none
  | some value => do
    let r : Operand := .reg (returnReg value.ty)
    move cx ⟨.move, some value, none, none, some r, i.pos⟩
    emit cx .ret (some r) none none

/-- A division with its implicit registers made explicit, in at least 32 bits. rax and rdx are
preserved if variables live in them. -/
def divide (cx : Context) (i : Instr) : LowerM Unit := do
  let w := max (opType i).size 4
  let d ← source cx .first false (.of i)
  let d ← source cx .second false d
  let d ← if d.holder == some .first then spill cx d else pure d
  let locs := (← get).closure.locations
  let save := [regRax, regRdx].filter locs.occupies
  for r in save do emit cx .push (some (.reg r)) none none
  let rax := gpr Machine.rax w
  let rdx := gpr Machine.rdx w
  let temp := gpr Machine.r10 w
  emit cx .move d.instr.second none (some (.reg temp))
  emit cx .move d.instr.first none (some (.reg rax))
  emit cx i.op (some (.reg rax)) (some (.reg temp)) (some (.list [.reg rax, .reg rdx]))
  let result := if i.op == .srem || i.op == .urem then rdx else rax
  if !save.isEmpty then
    if d.instr.output.isSome then emit cx .move (some (.reg result)) none (some (.reg temp))
    for r in save.reverse do emit cx .pop none none (some (.reg r))
  match d.instr.output with
  | some o => store cx (if save.isEmpty then result else temp) (some o)
  | none => pure ()

/-- A shift by a literal counts modulo the width. -/
def literalCount (t : Ty) (l : Literal) : Literal :=
  .ofInt .i8 (literalWord l &&& (Int64.ofNat (t.size * 8) - 1))

/-- A shift. Another count than a literal goes through cl, and rcx is preserved if a variable
lives in it. -/
def shift (cx : Context) (i : Instr) : LowerM Unit := do
  let t := opType i
  match i.second with
  | some (.imm l) => generic cx { i with second := some (.imm (literalCount t l)) }
  | _ =>
    let d ← source cx .first false (.of i)
    let d ← source cx .second false d
    let cl : Operand := .reg (gpr Machine.rcx 1)
    let count : Operand := .reg (regFor Machine.rcx (d.typeAt .second))
    if !(← get).closure.locations.occupies regRcx then
      let d ← dest cx .output d
      emit cx .move d.instr.second none (some count)
      keep (d.put .second cl).instr
    else
      let d ← if d.holder == some .second then spill cx d else pure d
      let r := tempReg t
      emit cx .move d.instr.first none (some (.reg r))
      emit cx .push (some (.reg regRcx)) none none
      emit cx .move d.instr.second none (some count)
      emit cx i.op (some (.reg r)) (some cl) (some (.reg r))
      emit cx .pop none none (some (.reg regRcx))
      store cx r d.instr.output

/-- Lowers one instruction. -/
def instr (cx : Context) : LowerM Unit := do
  let i := cx.instr
  match i.op with
  | .nop => pure ()
  | .label | .phi | .bal | .ret => keep i
  | .safepoint => emit cx .safepoint none none (some (.reg regRax))
  | .fnBegin => prologue cx
  | .fnEnd =>
    if ((← get).out.getLast?.map fun last => last.op == .ret).getD false then pure () else keep i
  | .retValue => ret cx i
  | .call | .rtCall => call cx
  | .move => move cx i
  | .sdiv | .udiv => if (opType i).isFloat then generic cx i else divide cx i
  | .srem | .urem => if (opType i).isFloat then fail cx .floatRemainder else divide cx i
  | .shl | .shr | .sar => shift cx i
  | _ => if i.op.isCompare || i.op.isCondBranch then compare cx i else generic cx i

/-- Lowers the instructions of a block. -/
def block (variadic : List String) (scratch : Option Int64) (c : Closure) (b : Block) :
    Except InternalError (Closure × Block) := do
  let (_, st) ← (b.ops.forM fun i => instr ⟨variadic, scratch, i⟩).run ⟨c, []⟩
  pure (st.closure, { b with ops := st.out })

/-- Lowers blocks one after the other. -/
def blocks (variadic : List String) (scratch : Option Int64) :
    Closure → List Block → Except InternalError (Closure × List Block)
  | c, [] => .ok (c, [])
  | c, b :: rest => do
    let (c, b) ← block variadic scratch c b
    let (c, rest) ← blocks variadic scratch c rest
    pure (c, b :: rest)

end Backend.Lowering

namespace Backend

/-- Brings a closure into forms that the target can encode, and lays out its frame. -/
def Target.lower (t : Target) (c : Closure) : Except InternalError Closure := do
  let (c, scratch) := Lowering.layout c
  let (c, bs) ← Lowering.blocks t.options.variadic scratch c c.blocks
  pure { c with blocks := bs }

end Backend
