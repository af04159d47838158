-- Machine instructions: the instruction families, condition codes, and the Intel syntax of an
-- instruction.
import Backend.CodeUnit.Symbol
import Backend.Machine.Operand

namespace Backend.Machine

/-! ## Families -/

/-- A family of instructions, whose sized variants the operands select. Codes that no family has
are reserved. -/
inductive Op where
  | mov
  | movzx
  | movsx
  | lea
  | add
  | or
  | and
  | sub
  | xor
  | cmp
  | test
  | imul
  | neg
  | not
  | div
  | idiv
  | cqo
  | shl
  | shr
  | sar
  | btc
  | setcc
  | jcc
  | jmp
  | call
  | ret
  | push
  | pop
  | movs
  | adds
  | subs
  | muls
  | divs
  | ucomis
  | xorps
  | cvtsi2s
  | cvtts2si
  | cvts2s
  | movq
  | vfmadd231
  | vfmsub231
  | vfnmadd231
  | reserved (code : UInt8)
  deriving DecidableEq

namespace Op

/-- The families in the order of their codes, which start at two. -/
def all : List Op :=
  [.mov, .movzx, .movsx, .lea, .add, .or, .and, .sub, .xor, .cmp, .test, .imul, .neg, .not, .div,
   .idiv, .cqo, .shl, .shr, .sar, .btc, .setcc, .jcc, .jmp, .call, .ret, .push, .pop, .movs,
   .adds, .subs, .muls, .divs, .ucomis, .xorps, .cvtsi2s, .cvtts2si, .cvts2s, .movq, .vfmadd231,
   .vfmsub231, .vfnmadd231]

/-- The name of a family. -/
def name : Op → String
  | .mov => "mov"
  | .movzx => "movzx"
  | .movsx => "movsx"
  | .lea => "lea"
  | .add => "add"
  | .or => "or"
  | .and => "and"
  | .sub => "sub"
  | .xor => "xor"
  | .cmp => "cmp"
  | .test => "test"
  | .imul => "imul"
  | .neg => "neg"
  | .not => "not"
  | .div => "div"
  | .idiv => "idiv"
  | .cqo => "cqo"
  | .shl => "shl"
  | .shr => "shr"
  | .sar => "sar"
  | .btc => "btc"
  | .setcc => "set"
  | .jcc => "j"
  | .jmp => "jmp"
  | .call => "call"
  | .ret => "ret"
  | .push => "push"
  | .pop => "pop"
  | .movs => "movs"
  | .adds => "adds"
  | .subs => "subs"
  | .muls => "muls"
  | .divs => "divs"
  | .ucomis => "ucomis"
  | .xorps => "xorps"
  | .cvtsi2s => "cvtsi2s"
  | .cvtts2si => "cvtts2si"
  | .cvts2s => "cvts2s"
  | .movq => "movq"
  | .vfmadd231 => "vfmadd231"
  | .vfmsub231 => "vfmsub231"
  | .vfnmadd231 => "vfnmadd231"
  | .reserved code => s!"op({code.toNat})"

/-- The family of a code. -/
def ofCode (code : UInt8) : Op :=
  if code < 2 then .reserved code else (all[code.toNat - 2]?).getD (.reserved code)

/-- The family of a given name. -/
def ofName? (s : String) : Option Op := all.find? fun op => op.name == s

end Op

/-! ## Conditions -/

/-- A condition code in its hardware encoding. -/
structure Cond where
  code : UInt8
  deriving DecidableEq

namespace Cond

def o : Cond := ⟨0⟩
def no : Cond := ⟨1⟩
def b : Cond := ⟨2⟩
def ae : Cond := ⟨3⟩
def e : Cond := ⟨4⟩
def ne : Cond := ⟨5⟩
def be : Cond := ⟨6⟩
def a : Cond := ⟨7⟩
def s : Cond := ⟨8⟩
def ns : Cond := ⟨9⟩
def p : Cond := ⟨10⟩
def np : Cond := ⟨11⟩
def l : Cond := ⟨12⟩
def ge : Cond := ⟨13⟩
def le : Cond := ⟨14⟩
def g : Cond := ⟨15⟩

def names : List String :=
  ["o", "no", "b", "ae", "e", "ne", "be", "a", "s", "ns", "p", "np", "l", "ge", "le", "g"]

/-- A code beyond the hardware's is named by its number. -/
def name (c : Cond) : String := (names[c.code.toNat]?).getD s!"cc{c.code.toNat}"

/-- The condition that holds exactly when `c` does not. -/
def invert (c : Cond) : Cond := ⟨c.code ^^^ 1⟩

end Cond

/-! ## Instructions -/

/-- A machine instruction in Intel operand order, or the definition of a label, which has no
bytes. -/
inductive Inst where
  | label (name : String) (kind : CodeUnit.SymbolKind) (binding : CodeUnit.Binding)
  | op (op : Op) (cond : Cond) (dst src src2 : Option Operand)
  deriving DecidableEq

namespace Inst

/-- An instruction without operands. -/
def plain (f : Op) : Inst := .op f ⟨0⟩ none none none

/-- An instruction with a destination only. -/
def unary (f : Op) (dst : Operand) : Inst := .op f ⟨0⟩ (some dst) none none

/-- An instruction with a destination and a source. -/
def binary (f : Op) (dst src : Operand) : Inst := .op f ⟨0⟩ (some dst) (some src) none

/-- The symbolic destination of a direct jump or call. -/
def branchTarget? : Inst → Option Target
  | .op .jcc _ (some (.target t)) _ _ => some t
  | .op .jmp _ (some (.target t)) _ _ => some t
  | .op .call _ (some (.target t)) _ _ => some t
  | _ => none

/-- The width of a register or memory operand. -/
def gprWidth? : Option Operand → Option UInt8
  | some (.reg r) => some r.width
  | some (.mem m) => some m.width
  | _ => none

/-- The width of an SSE register or memory operand. -/
def xmmWidth? : Option Operand → Option UInt8
  | some (.xmm x) => some x.width
  | some (.mem m) => some m.width
  | _ => none

/-- The mark of a scalar of four or eight bytes. -/
def scalarSuffix (o : Option Operand) : String := if xmmWidth? o == some 4 then "ss" else "sd"

/-- The mnemonic of the sized instruction. -/
def mnemonic : Inst → String
  | .label _ _ _ => "label"
  | .op f cond dst src _ =>
    match f with
    | .setcc | .jcc => f.name ++ cond.name
    | .movsx => if gprWidth? src == some 4 then "movsxd" else "movsx"
    | .cqo =>
      match dst with
      | some (.reg r) => if r.width == 4 then "cdq" else if r.width == 2 then "cwd" else "cqo"
      | _ => "cqo"
    | .movs => "mov" ++ scalarSuffix dst
    | .adds => "add" ++ scalarSuffix dst
    | .subs => "sub" ++ scalarSuffix dst
    | .muls => "mul" ++ scalarSuffix dst
    | .divs => "div" ++ scalarSuffix dst
    | .ucomis => "ucomi" ++ scalarSuffix dst
    | .cvtsi2s => "cvtsi2" ++ scalarSuffix dst
    | .vfmadd231 | .vfmsub231 | .vfnmadd231 => f.name ++ scalarSuffix dst
    | .cvtts2si => "cvtt" ++ scalarSuffix src ++ "2si"
    | .cvts2s => if scalarSuffix src == "ss" then "cvtss2sd" else "cvtsd2ss"
    | .movq =>
      let gpr := match src with
        | some (.xmm _) => dst
        | _ => src
      if gprWidth? gpr == some 4 then "movd" else "movq"
    | _ => f.name

/-- The written form in Intel syntax. -/
def text (i : Inst) : String :=
  match i with
  | .label name _ _ => name ++ ":"
  | .op .cqo _ _ _ _ => i.mnemonic
  | .op _ _ dst src src2 =>
    let operands := (dst.toList ++ src.toList ++ src2.toList).map Operand.text
    if operands.isEmpty then i.mnemonic else i.mnemonic ++ " " ++ ", ".intercalate operands

end Inst

/-! ## Names that code defines -/

/-- The name that an instruction defines. -/
def Inst.label? : Inst → Option String
  | .label name _ _ => some name
  | .op _ _ _ _ _ => none

/-- The names that machine code defines. -/
def labels (code : List Inst) : List String := code.filterMap Inst.label?

@[simp] theorem labels_nil : labels [] = [] := rfl

@[simp] theorem labels_cons_label (name : String) (kind : CodeUnit.SymbolKind)
    (binding : CodeUnit.Binding) (code : List Inst) :
    labels (.label name kind binding :: code) = name :: labels code := rfl

@[simp] theorem labels_cons_op (op : Op) (cond : Cond) (dst src src2 : Option Operand)
    (code : List Inst) : labels (.op op cond dst src src2 :: code) = labels code := rfl

@[simp] theorem labels_append (code code' : List Inst) :
    labels (code ++ code') = labels code ++ labels code' := List.filterMap_append

end Backend.Machine
