-- The peephole rules. A rule looks at the instructions from a position of a block on and replaces
-- the first two or three of them. Whether a definition may go is decided from the use counts and
-- the live-out set of the block; no rule looks beyond it.
import Backend.Closure.Basic
import Backend.Machine.Encoding
import Backend.Target.Basic

namespace Backend.Peephole

/-- What the rules know besides the block: where variables live and which fusions the target can
encode. -/
structure Setting where
  locations : Locations
  features : Features

/-- A rule changes the rest of a block, if it applies at its front. -/
abbrev Rule := Setting → Block → List Instr → Option (List Instr)

/-! ## Operands -/

def typeOf (o : Option Operand) : Ty := (o.map Operand.ty).getD .void

/-- The variable in an operand, if its definition may be dropped. -/
def temp? (s : Setting) (b : Block) (o : Option Operand) : Option Var :=
  match o with
  | some (.var v) => if !v.isConst && b.canRemove s.locations v.ident then some v else none
  | _ => none

/-- The operand is the variable. -/
def isVar (o : Option Operand) (v : Var) : Bool := Operand.sameOption o (some (.var v))

/-- A general purpose register or a variable that lives in one. -/
def inRegister (s : Setting) : Option Operand → Bool
  | some (.reg r) => r.cls == .int
  | some (.var v) => ((s.locations.reg? v.ident).map fun r => r.cls == .int).getD false
  | _ => false

/-- A variable or a register. -/
def isDirect : Option Operand → Bool
  | some (.var _) => true
  | some (.reg _) => true
  | _ => false

def literal? : Option Operand → Option Literal
  | some (.imm l) => some l
  | _ => none

/-- The value of an integer literal. -/
def intLiteral? (o : Option Operand) : Option Int64 := (literal? o).bind Literal.int?

/-! ## Address fusion -/

/-- A scaled multiplication followed by the addition of a constant. -/
structure LeaFusion where
  index : Option Operand
  scale : Int64
  disp : Int64
  dst : Option Operand
  pos : Position
  rest : List Instr

/-- The multiplication of a register by an address scale into a temporary: register, scale and
temporary. -/
def scaledProduct? (s : Setting) (b : Block) (mul : Instr) :
    Option (Option Operand × Int64 × Var) := do
  if !s.features.lea || mul.op != .mul then none
  let t ← temp? s b mul.output
  if t.ty.isFloat || (t.ty.size != 4 && t.ty.size != 8) then none
  let (v, factor) :=
    if (literal? mul.first).isSome then (mul.second, mul.first) else (mul.first, mul.second)
  let scale ← intLiteral? factor
  if scale != 1 && scale != 2 && scale != 4 && scale != 8 then none
  if !inRegister s v || typeOf v != t.ty then none
  some (v, scale, t)

/-- Passes over a move of the temporary to another one; gives the temporary that holds the
product and the instructions after the move. -/
def followMove? (s : Setting) (b : Block) (t : Var) (rest : List Instr) :
    Option (Var × List Instr) :=
  match rest with
  | mv :: after =>
    if mv.op == .move && isVar mv.first t then
      match temp? s b mv.output with
      | some t2 => if t2.ty == t.ty then some (t2, after) else none
      | none => none
    else some (t, rest)
  | [] => some (t, [])

/-- The constant that an instruction adds to the temporary. -/
def addedConstant? (add : Instr) (t : Var) : Option Int64 := do
  let other ←
    if isVar add.first t then some add.second
    else if add.op == .add && isVar add.second t then some add.first
    else none
  let disp ← intLiteral? other
  if !Machine.fitsInt32 disp || !Machine.fitsInt32 (-disp) then none
  some (if add.op == .sub then -disp else disp)

def isIndirect : Option Operand → Bool
  | some (.indirect _ _ _ _ _) => true
  | _ => false

/-- The address fusion at the front of the instructions. -/
def leaFusion? (s : Setting) (b : Block) : List Instr → Option LeaFusion
  | [] => none
  | mul :: rest => do
    let (v, scale, t) ← scaledProduct? s b mul
    let (cur, rest) ← followMove? s b t rest
    match rest with
    | [] => none
    | add :: rest =>
      if add.op != .add && add.op != .sub then none
      let disp ← addedConstant? add cur
      if isIndirect add.output || add.output.isNone || typeOf add.output != t.ty then none
      some ⟨v, scale, disp, add.output, add.pos, rest⟩

/-- The address computation of a fusion. -/
def LeaFusion.instr (f : LeaFusion) : Instr :=
  let t := typeOf f.dst
  let addr : Operand :=
    if f.scale == 1 then .indirect f.index none 0 f.disp t
    else .indirect none f.index f.scale.toUInt64.toUInt8 f.disp t
  { Instr.make .lea (some addr) none f.dst with pos := f.pos }

/-- A scaled multiplication and the addition of a constant become one address computation. -/
def fuseLea : Rule := fun s b ops => (leaFusion? s b ops).map fun f => f.instr :: f.rest

/-! ## Multiply-add fusion -/

/-- The literal with its value negated. -/
def negate : Literal → Literal
  | .float w x => .float w x.neg
  | .int w v => .int w (-v)
  | .bool w => .bool (-w)
  | .string bytes => .string bytes

/-- How an addition or subtraction uses a product: the fused operation and its addend. -/
def productUse? (next : Instr) (t : Var) : Option (Opcode × Option Operand) :=
  if next.op == .add && isVar next.first t then some (.fmadd, next.second)
  else if next.op == .add && isVar next.second t then some (.fmadd, next.first)
  else if next.op == .sub && isVar next.first t then
    match next.second with
    | some (.imm (.string bytes)) => some (.fnmsub, some (.imm (.string bytes)))
    | some (.imm l) => some (.fmadd, some (.imm (negate l)))
    | o => some (.fnmsub, o)
  else if next.op == .sub && isVar next.second t then some (.fmsub, next.first)
  else none

/-- The target can encode the fused operation on a type with an addend. -/
def canFuse (features : Features) (t : Ty) (op : Opcode) (addend : Option Operand) : Bool :=
  if t.isFloat then features.floatMulAdd
  else features.intMulAdd && op != .fnmsub && (literal? addend).isNone

/-- The fused instruction for a multiplication and the next instruction. -/
def mulAdd? (s : Setting) (b : Block) (mul next : Instr) : Option Instr := do
  if mul.op != .mul then none
  let t ← temp? s b mul.output
  if !isDirect mul.first || !isDirect mul.second then none
  if typeOf mul.first != t.ty || typeOf mul.second != t.ty then none
  if next.output.isNone || typeOf next.output != t.ty then none
  let (op, addend) ← productUse? next t
  if addend.isNone || isVar addend t then none
  if !canFuse s.features t.ty op addend then none
  some ⟨op, mul.first, mul.second, addend, next.output, next.pos⟩

/-- A multiplication and the addition or subtraction that uses it become one instruction. -/
def fuseMulAdd : Rule := fun s b ops =>
  match ops with
  | mul :: next :: rest => (mulAdd? s b mul next).map fun i => i :: rest
  | _ => none

/-! ## Strength reduction -/

/-- The literal two, as an integer or a float. -/
def literalIsTwo : Literal → Bool
  | .int _ v => v == 2
  | .float _ x => x.equal ⟨0x4000000000000000⟩
  | _ => false

/-- The constant two, also as a materialised literal. -/
def isTwo : Option Operand → Bool
  | some (.imm l) => literalIsTwo l
  | some (.symbol s) => (s.const.map literalIsTwo).getD false
  | _ => false

/-- The multiplication at the front belongs to a fusion, which goes before strength reduction. -/
def isFusible (s : Setting) (b : Block) (ops : List Instr) : Bool :=
  (leaFusion? s b ops).isSome || (fuseMulAdd s b ops).isSome

/-- The instruction as the sum of an operand with itself. -/
def doubled (mul : Instr) (x : Option Operand) : Instr :=
  { mul with op := .add, first := x, second := x }

/-- The factor of a multiplication besides the temporary. -/
def otherFactor? (mul : Instr) (t : Var) : Option (Option Operand) :=
  if isVar mul.second t then some mul.first
  else if isVar mul.first t then some mul.second
  else none

/-- A multiplication by two becomes an addition. The two may come through a temporary. -/
def reduceMul : Rule := fun s b ops =>
  match ops with
  | [] => none
  | i :: rest =>
    if i.op == .mul then
      if isTwo i.second && !isFusible s b ops then some (doubled i i.first :: rest)
      else if !isTwo i.second && isTwo i.first && !isFusible s b ops then
        some (doubled i i.second :: rest)
      else none
    else if i.op == .move && isTwo i.first then
      match rest with
      | [] => none
      | mul :: after => do
        let t ← temp? s b i.output
        if mul.op != .mul || isFusible s b rest then none
        let x ← otherFactor? mul t
        if typeOf x != t.ty || isVar x t then none
        some (doubled mul x :: after)
    else none

/-! ## Move elimination -/

/-- The computation with its temporary output replaced by where it is moved to. -/
def retarget? (s : Setting) (b : Block) (op mv : Instr) : Option Instr := do
  if !op.op.computes || mv.op != .move then none
  let t ← temp? s b op.output
  if isVar mv.first t && isDirect mv.output && typeOf mv.output == t.ty then
    some { op with output := mv.output }
  else none

/-- The computation with a temporary source replaced by what was moved into it. -/
def substitute? (s : Setting) (b : Block) (mv op : Instr) : Option Instr := do
  if mv.op != .move || !op.op.computes then none
  let t ← temp? s b mv.output
  if !isDirect mv.first || typeOf mv.first != t.ty then none
  if isVar op.first t then some { op with first := mv.first }
  else if isVar op.second t then some { op with second := mv.first }
  else none

/-- A move out of or into a temporary is merged with the computation next to it. -/
def eliminateMove : Rule := fun s b ops =>
  match ops with
  | a :: c :: rest => ((retarget? s b a c).or (substitute? s b a c)).map fun i => i :: rest
  | _ => none

end Backend.Peephole
