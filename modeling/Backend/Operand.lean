-- The operands of instructions: registers, frame slots, variables, literals, memory operands,
-- symbols, labels and lists, with their written form and the equality all passes match by.
import Backend.Literal

namespace Backend

/-! ## The kinds of operand -/

/-- The allocation class of a register. -/
inductive RegClass where
  | int
  | float
  deriving DecidableEq, Repr

/-- A physical register: its number within the class and the accessed width in bytes. The name
is only shown. -/
structure Reg where
  index : UInt8
  width : UInt8
  cls : RegClass
  name : String
  deriving DecidableEq

namespace Reg

/-- Identifies the physical register whatever the accessed width. -/
def key (r : Reg) : Nat :=
  match r.cls with
  | .int => r.index.toNat
  | .float => 256 + r.index.toNat

/-- Both name the same physical register. -/
def is (r s : Reg) : Bool := r.key == s.key

def ty (r : Reg) : Ty :=
  match r.cls with
  | .int => Ty.ofIntWidth r.width.toNat
  | .float => Ty.ofFloatWidth r.width.toNat

/-- A register without a name is written by class, number and type. -/
def text (r : Reg) : String :=
  if r.name != "" then
    if r.cls == .float && r.width == 4 then r.name ++ ":f32" else r.name
  else
    let mark := if r.cls == .float then "x" else "r"
    s!"{mark}{r.index.toNat}:{r.ty.name}"

end Reg

/-- A named value. Its identity is the identifier; where it lives is up to its closure. -/
structure Var where
  ident : String
  ty : Ty
  isConst : Bool
  isCaptured : Bool
  deriving DecidableEq

def Var.text (v : Var) : String :=
  let const := if v.isConst then "!const" else ""
  let captured := if v.isCaptured then "!captured" else ""
  s!"%{v.ident}:{v.ty.name}{const}{captured}"

/-- A named code or data symbol. As a value it denotes the memory at the symbol. A symbol that
stands for a materialised literal carries that literal. -/
structure Symbol where
  name : String
  isLocal : Bool
  isTls : Bool
  ty : Ty
  const : Option Literal
  deriving DecidableEq

def Symbol.text (s : Symbol) : String :=
  let ty := if s.ty != .void then ":" ++ s.ty.name else ""
  let loc := if s.isLocal then "!local" else ""
  let tls := if s.isTls then "!tls" else ""
  s!"@{s.name}{ty}{loc}{tls}"

/-- A branch target. -/
structure Label where
  name : String
  isLocal : Bool
  deriving DecidableEq

def Label.text (l : Label) : String :=
  let loc := if l.isLocal then "!local" else ""
  s!"#{l.name}{loc}"

/-- An operand of an instruction. A memory operand denotes `base + index * scale + disp`. -/
inductive Operand where
  | reg (r : Reg)
  | stack (offset : Int64) (ty : Ty)
  | var (v : Var)
  | imm (l : Literal)
  | indirect (base index : Option Operand) (scale : UInt8) (disp : Int64) (ty : Ty)
  | symbol (s : Symbol)
  | label (l : Label)
  | list (items : List Operand)

namespace Operand

/-- The number of a kind, from one. -/
def kind : Operand → Nat
  | .reg _ => 1
  | .stack _ _ => 2
  | .var _ => 3
  | .imm _ => 4
  | .indirect _ _ _ _ _ => 5
  | .symbol _ => 6
  | .label _ => 7
  | .list _ => 8

/-- The type of the value, `void` for labels and lists. -/
def ty : Operand → Ty
  | .reg r => r.ty
  | .stack _ t => t
  | .var v => v.ty
  | .imm l => l.ty
  | .indirect _ _ _ _ t => t
  | .symbol s => s.ty
  | .label _ => .void
  | .list _ => .void

/-- The operand denotes a memory location once lowered. -/
def isMemory : Operand → Bool
  | .stack _ _ | .indirect _ _ _ _ _ | .symbol _ => true
  | _ => false

def var? : Operand → Option Var
  | .var v => some v
  | _ => none

/-! ## Written form -/

/-- A displacement after other address parts. -/
def dispText (disp : Int64) : String :=
  if disp > 0 then s!" + {disp.toInt}"
  else if disp < 0 then s!" - {(-disp).toUInt64.toNat}"
  else ""

mutual

/-- The written form of an operand. -/
def text : Operand → String
  | .reg r => r.text
  | .stack offset t => s!"stack({offset.toInt}):{t.name}"
  | .var v => v.text
  | .imm l => l.text
  | .symbol s => s.text
  | .label l => l.text
  | .list items => "(" ++ ", ".intercalate (texts items) ++ ")"
  | .indirect base index scale disp t =>
    let factor := if scale == 0 then 1 else scale.toNat
    let parts := optionText base "" ++ optionText index s!"*{factor}"
    let expr :=
      if parts.isEmpty then toString disp.toInt
      else " + ".intercalate parts ++ dispText disp
    "[" ++ expr ++ "]:" ++ t.name

/-- The written forms of the items of a list. -/
def texts : List Operand → List String
  | [] => []
  | o :: rest => o.text :: texts rest

/-- An address part with a suffix, if it is there. -/
def optionText : Option Operand → String → List String
  | none, _ => []
  | some o, suffix => [o.text ++ suffix]

end

/-! ## Sameness -/

mutual

/-- Structural equality, where variables compare by identifier, registers by physical register
and width, symbols by name and storage, labels by name, and floats as numbers. -/
def same : Operand → Operand → Bool
  | .reg r, .reg s => r.is s && r.width == s.width
  | .stack a t, .stack b u => a == b && t == u
  | .var v, .var w => v.ident == w.ident
  | .imm a, .imm b => a.same b
  | .indirect b i s d t, .indirect b2 i2 s2 d2 t2 =>
    sameOption b b2 && sameOption i i2 && s == s2 && d == d2 && t == t2
  | .symbol a, .symbol b => a.name == b.name && a.isTls == b.isTls
  | .label a, .label b => a.name == b.name
  | .list a, .list b => sameItems a b
  | _, _ => false

/-- Two missing operands are the same. -/
def sameOption : Option Operand → Option Operand → Bool
  | none, none => true
  | some a, some b => a.same b
  | _, _ => false

/-- Lists of one length whose items are the same one by one. -/
def sameItems : List Operand → List Operand → Bool
  | [], [] => true
  | a :: as, b :: bs => a.same b && sameItems as bs
  | _, _ => false

end

end Operand

end Backend
