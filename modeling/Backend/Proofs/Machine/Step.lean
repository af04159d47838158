-- The meaning of integer instructions in two-address form. An instruction whose operands do not
-- have the widths that it takes has no meaning, so a run that ends is also a run of well-formed
-- instructions.
import Backend.Machine.Inst
import Backend.Proofs.Machine.State

namespace Backend.Machine

/-! ## Operands -/

/-- The address that an address expression denotes. -/
def Address.eval (l : Linkage) (s : State) : Address → BitVec 64
  | .regs base index disp =>
    (base.map fun b => s.regs b.id).getD 0 +
      (index.map fun (i, scale) => s.regs i.id * BitVec.ofNat 64 scale.toNat).getD 0 +
      disp.toBitVec.signExtend 64
  | .rip symbol => l.symbol symbol
  | .tls symbol => l.thread symbol

/-- The low `n` bytes of an operand. An immediate is a word of eight bytes. -/
def Operand.value (l : Linkage) (s : State) (o : Operand) (n : Nat) : BitVec (8 * n) :=
  match o with
  | .reg r => s.get (.reg r.id) n
  | .xmm x => s.get (.xmm x.id) n
  | .mem m => s.get (.mem (m.addr.eval l s)) n
  | .imm v => v.toBitVec.setWidth (8 * n)
  | .target _ => 0

/-- The place that an operand names. -/
def Operand.place? (l : Linkage) (s : State) : Operand → Option Place
  | .reg r => some (.reg r.id)
  | .xmm x => some (.xmm x.id)
  | .mem m => some (.mem (m.addr.eval l s))
  | _ => none

/-- An integer instruction can read the operand at the width. -/
def Operand.readableAt (n : Nat) : Operand → Bool
  | .reg r => r.width.toNat == n
  | .mem m => m.width.toNat == n
  | .imm _ => true
  | _ => false

/-- The value brought to another width: a wider one is cut, a narrower one extended. -/
def convert (signed : Bool) {n : Nat} (m : Nat) (v : BitVec (8 * n)) : BitVec (8 * m) :=
  if signed then v.signExtend (8 * m) else v.setWidth (8 * m)

/-! ## Instructions -/

/-- The value that a two-operand instruction gives its destination. -/
def Op.binary? : Op → Option ((n : Nat) → BitVec n → BitVec n → BitVec n)
  | .mov => some fun _ _ y => y
  | .add => some fun _ x y => x + y
  | .sub => some fun _ x y => x - y
  | .and => some fun _ x y => x &&& y
  | .or => some fun _ x y => x ||| y
  | .xor => some fun _ x y => x ^^^ y
  | _ => none

/-- The value that a one-operand instruction gives its destination. -/
def Op.unary? : Op → Option ((n : Nat) → BitVec n → BitVec n)
  | .neg => some fun _ x => -x
  | .not => some fun _ x => ~~~x
  | _ => none

/-- The value that a shift gives its destination. -/
def Op.shift? : Op → Option ((n : Nat) → BitVec n → Nat → BitVec n)
  | .shl => some fun _ x k => x <<< k
  | .shr => some fun _ x k => x >>> k
  | .sar => some fun _ x k => x.sshiftRight k
  | _ => none

/-- The machine counts shifts modulo 32, or modulo 64 for a whole register. -/
def shiftModulus (n : Nat) : Nat := if n = 8 then 64 else 32

/-- The count of a shift: an immediate or the low byte of rcx. -/
def shiftCount? (s : State) : Operand → Option (BitVec 8)
  | .imm v => some (v.toBitVec.setWidth 8)
  | .reg r => if r.id = rcx ∧ r.width = 1 then some ((s.regs rcx).setWidth 8) else none
  | _ => none

/-- The state after the destination is given a function of its value. -/
def update (l : Linkage) (s : State) (dst : Operand)
    (f : (n : Nat) → BitVec (8 * n) → BitVec (8 * n)) : Option State :=
  match dst with
  | .reg r => some (s.setReg r.id (f r.width.toNat (dst.value l s _)))
  | .mem m => some (s.store (m.addr.eval l s) (f m.width.toNat (dst.value l s _)))
  | _ => none

/-- `dst := dst op src`. At most one of the operands is memory. -/
def twoAddress (l : Linkage) (s : State) (f : (n : Nat) → BitVec n → BitVec n → BitVec n)
    (dst src : Operand) : Option State :=
  match dst, src with
  | .mem _, .mem _ => none
  | .reg r, src =>
    if src.readableAt r.width.toNat then update l s dst fun n x => f _ x (src.value l s n) else none
  | .mem m, src =>
    if src.readableAt m.width.toNat then update l s dst fun n x => f _ x (src.value l s n) else none
  | _, _ => none

/-- `dst := dst * src` or `dst := src * factor`. The destination is a register of at least two
bytes. -/
def multiply (l : Linkage) (s : State) (dst src : Operand) (factor : Option Operand) :
    Option State :=
  match dst, src, factor with
  | .reg r, src, none => if r.width = 1 then none else twoAddress l s (fun _ x y => x * y) dst src
  | .reg _, .imm _, some _ => none
  | .reg r, src, some (.imm k) =>
    if r.width = 1 then none
    else twoAddress l s (fun n _ y => y * k.toBitVec.setWidth n) dst src
  | _, _, _ => none

/-- `dst := src`, extended to the width of the destination. -/
def extendInto (l : Linkage) (s : State) (signed : Bool) (dst src : Operand) : Option State :=
  match dst, src with
  | .reg d, .reg r =>
    if r.width < d.width then
      update l s dst fun n _ => convert signed n (src.value l s r.width.toNat)
    else none
  | .reg d, .mem m =>
    if m.width < d.width then
      update l s dst fun n _ => convert signed n (src.value l s m.width.toNat)
    else none
  | _, _ => none

/-- The state after an instruction, if the instruction has a meaning here. -/
def Inst.exec (l : Linkage) (s : State) : Inst → Option State
  | .op .movzx _ (some dst) (some src) none => extendInto l s false dst src
  | .op .movsx _ (some dst) (some src) none => extendInto l s true dst src
  | .op .imul _ (some dst) (some src) factor => multiply l s dst src factor
  | .op f _ (some dst) (some src) none =>
    match f.binary?, f.shift? with
    | some g, _ => twoAddress l s g dst src
    | none, some g => do
      let count ← shiftCount? s src
      update l s dst fun n x => g _ x (count.toNat % shiftModulus n)
    | none, none => none
  | .op f _ (some dst) none none => do
    let g ← f.unary?
    update l s dst fun _ x => g _ x
  | _ => none

/-- The state after a list of instructions. -/
def run (l : Linkage) : List Inst → State → Option State
  | [], s => some s
  | i :: rest, s => do run l rest (← i.exec l s)

@[simp] theorem run_nil (l : Linkage) (s : State) : run l [] s = some s := rfl

theorem run_append (l : Linkage) (xs ys : List Inst) (s : State) :
    run l (xs ++ ys) s = (run l xs s).bind (run l ys) := by
  induction xs generalizing s with
  | nil => rfl
  | cons i rest ih =>
    simp only [List.cons_append, run]
    cases h : i.exec l s with
    | none => rfl
    | some s1 => exact ih s1

/-- Two pieces of code one after the other. -/
theorem run_append_of_some {l : Linkage} {xs ys : List Inst} {s s1 : State}
    (h : run l xs s = some s1) : run l (xs ++ ys) s = run l ys s1 := by
  rw [run_append, h]
  rfl

theorem run_singleton (l : Linkage) (i : Inst) (s : State) : run l [i] s = i.exec l s := by
  simp only [run]
  cases i.exec l s <;> rfl

end Backend.Machine
