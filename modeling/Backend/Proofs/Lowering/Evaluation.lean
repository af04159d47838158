-- The meaning of lowered instructions and of those they are made from: what an operand is worth in
-- a state, which place an output is, what an instruction does, and what holds after a run of them.
-- A part of an address counts as a word of eight bytes, extended by the sign of its type.
import Backend.Lowering.Closure
import Backend.Proofs.Lowering.Assignment
import Backend.Proofs.Selection.Integer

namespace Backend.Lowering

open Backend.Machine (Place Assigns convert)
open Backend.Selection (arithmetic? complement? shifted? convert_self convert_of_le)

/-! ## Values -/

/-- A value of `width` bytes that is extended by its sign or by zeros. -/
structure Datum where
  signed : Bool
  width : Nat
  bits : BitVec (8 * width)

namespace Datum

/-- The value cut or extended to `n` bytes. -/
def brought (d : Datum) (n : Nat) : BitVec (8 * n) := convert d.signed n d.bits

/-- The low `n` bytes of a value that has as many. -/
def low? (d : Datum) (n : Nat) : Option (BitVec (8 * n)) :=
  if n ≤ d.width then some (d.brought n) else none

/-- The second value does for the first one where up to `m` bytes are asked for. -/
def Agrees (m : Nat) (d d' : Datum) : Prop :=
  (∀ n ≤ m, d'.brought n = d.brought n) ∧ ∀ n ≤ m, n ≤ d.width → n ≤ d'.width

theorem Agrees.refl (m : Nat) (d : Datum) : d.Agrees m d := ⟨fun _ _ => rfl, fun _ _ h => h⟩

theorem Agrees.trans {m : Nat} {d d' d'' : Datum} (h : d.Agrees m d') (h' : d'.Agrees m d'') :
    d.Agrees m d'' :=
  ⟨fun n hn => (h'.1 n hn).trans (h.1 n hn), fun n hn hw => h'.2 n hn (h.2 n hn hw)⟩

theorem Agrees.low? {m n : Nat} {d d' : Datum} {v : BitVec (8 * n)} (h : d.Agrees m d') (hn : n ≤ m)
    (hv : d.low? n = some v) : d'.low? n = some v := by
  unfold Datum.low? at hv ⊢
  split at hv
  · rename_i hw
    rw [if_pos (h.2 n hn hw), h.1 n hn]
    exact hv
  · cases hv

/-- Cutting a value that was cut or extended before to no more bytes than it then has. -/
theorem convert_brought (d : Datum) (signed : Bool) {n k : Nat} (h : k ≤ n) :
    convert signed k (d.brought n) = d.brought k := by
  rw [convert_of_le _ _ h]
  apply BitVec.eq_of_getLsbD_eq
  intro i hi
  have hn : i < 8 * n := by omega
  unfold brought convert
  cases d.signed <;>
    simp only [BitVec.getLsbD_setWidth, BitVec.getLsbD_signExtend, hi, hn, decide_true,
      Bool.true_and, if_true, Bool.false_eq_true, if_false]

/-- A value that went through a register or a slot of `n` bytes. -/
theorem agrees_brought (d : Datum) (signed : Bool) {m n : Nat} (h : m ≤ n) :
    d.Agrees m ⟨signed, n, d.brought n⟩ :=
  ⟨fun _ hk => d.convert_brought signed (hk.trans h), fun _ hk _ => hk.trans h⟩

/-- At its own width a value keeps its sign. -/
theorem brought_self (d : Datum) : d.brought d.width = d.bits := convert_self d.signed d.bits

end Datum

/-! ## Comparisons -/

/-- The comparison takes integers as unsigned. -/
def isUnsignedComparison : Opcode → Bool
  | .ult | .ule | .ugt | .uge | .bult | .bule | .bugt | .buge => true
  | _ => false

/-- The bits of a float, below the sign, from which on there are no numbers. -/
def floatLimit (n : Nat) : Nat := if n = 4 then 0x7f800000 else 0x7ff0000000000000

/-- A number that is ordered as the float of the bits is, unless that is no number. -/
def floatRank? {n : Nat} (v : BitVec (8 * n)) : Option Int :=
  let magnitude := v.toNat % 2 ^ (8 * n - 1)
  if magnitude > floatLimit n then none
  else some (if v.msb then -(magnitude : Int) else magnitude)

/-- How two values compare; floats that are no numbers do not. -/
def order? (float unsigned : Bool) {n : Nat} (x y : BitVec (8 * n)) : Option Ordering :=
  if float then do
    let a ← floatRank? x
    let b ← floatRank? y
    some (Ord.compare a b)
  else some (if unsigned then Ord.compare x.toNat y.toNat else Ord.compare x.toInt y.toInt)

/-- The comparison or conditional branch holds for values that compare like this. -/
def holdsFor (op : Opcode) (o : Option Ordering) : Bool :=
  match op with
  | .slt | .ult | .blt | .bult => o == some .lt
  | .sle | .ule | .ble | .bule => o == some .lt || o == some .eq
  | .sgt | .ugt | .bgt | .bugt => o == some .gt
  | .sge | .uge | .bge | .buge => o == some .gt || o == some .eq
  | .sne | .bne => o != some .eq
  | _ => o == some .eq

theorem order?_swap (float unsigned : Bool) {n : Nat} (x y : BitVec (8 * n)) :
    order? float unsigned y x = (order? float unsigned x y).map Ordering.swap := by
  have hint : ∀ a b : Int, Ord.compare b a = (Ord.compare a b).swap := fun a b =>
    Std.OrientedCmp.eq_swap
  have hnat : ∀ a b : Nat, Ord.compare b a = (Ord.compare a b).swap := fun a b =>
    Std.OrientedCmp.eq_swap
  unfold order?
  cases float with
  | true =>
    cases hx : floatRank? x with
    | none => cases hy : floatRank? y <;> rfl
    | some a =>
      cases hy : floatRank? y with
      | none => rfl
      | some b => exact congrArg some (hint a b)
  | false =>
    cases unsigned with
    | true => exact congrArg some (hnat _ _)
    | false => exact congrArg some (hint _ _)

/-- A comparison with its operands swapped. -/
theorem holdsFor_swapped (op : Opcode) (o : Option Ordering) :
    holdsFor op.swapped (o.map Ordering.swap) = holdsFor op o := by
  rcases o with _ | o
  · cases op <;> rfl
  · cases o <;> cases op <;> rfl

theorem isUnsignedComparison_swapped (op : Opcode) :
    isUnsignedComparison op.swapped = isUnsignedComparison op := by
  cases op <;> rfl

/-! ## Operands -/

/-- Where symbols, variables, frame slots and the literals in the data are. -/
structure Scene extends Setting where
  imms : List (List UInt8 × String)

/-- What a place holds of an operand. -/
def held (s : Machine.State) (o : Operand) (p : Place) : Datum :=
  ⟨o.ty.isSigned, width o, s.get p (width o)⟩

/-- The bits of a float literal in memory. -/
def floatBits : FloatWidth → Float.Binary64 → BitVec 64
  | .w32, x => x.toBinary32.toBitVec.setWidth 64
  | .w64, x => x.bits.toBitVec

namespace Scene

variable (e : Scene) (s : Machine.State)

/-- The address that a symbol stands for. -/
def symbolAddress (y : Symbol) : BitVec 64 :=
  if y.isTls then e.link.thread y.name else e.link.symbol y.name

/-- The index of an address, and a base that is no symbol: the word that the operand is worth. -/
def index? : Option Operand → Option (BitVec 64)
  | none => some 0
  | some (.imm l) => l.int?.map Int64.toBitVec
  | some (.symbol y) => some ((held s (.symbol y) (.mem (e.symbolAddress y))).brought 8)
  | some o => (e.home? o).map fun p => (held s o p).brought 8

/-- The base of an address, where a symbol stands for its address. -/
def base? : Option Operand → Option (BitVec 64)
  | some (.symbol y) => some (e.symbolAddress y)
  | o => e.index? s o

/-- The address of a memory operand. -/
def address? (base index : Option Operand) (scale : UInt8) (disp : Int64) : Option (BitVec 64) := do
  let b ← e.base? s base
  let i ← e.index? s index
  some (b + i * BitVec.ofNat 64 (if scale == 0 then 1 else scale.toNat) + disp.toBitVec)

/-- The place of an operand. -/
def place? : Operand → Option Place
  | .indirect base index scale disp _ => (e.address? s base index scale disp).map .mem
  | .symbol y => some (.mem (e.symbolAddress y))
  | o => e.home? o

/-- What an operand is worth as a source. A string is the address of its place in the data. -/
def datum? : Operand → Option Datum
  | .imm (.string bytes) =>
    (e.imms.lookup (Literal.string bytes).key).map fun name => ⟨false, 8, e.link.symbol name⟩
  | .imm (.float w x) => some ⟨false, w.ty.size, (floatBits w x).setWidth _⟩
  | .imm (.int _ value) => some ⟨true, 8, value.toBitVec⟩
  | .imm (.bool word) => some ⟨true, 8, word.toBitVec⟩
  | o => (e.place? s o).map (held s o)

/-- What a source is worth that has to be there. -/
def source? (o : Option Operand) : Option Datum := o.bind (e.datum? s)

end Scene

/-! ## Instructions -/

/-- What an instruction does: it gives a place a value, or it jumps or not. -/
inductive Effect where
  | assign (p : Place) (n : Nat) (v : BitVec (8 * n))
  | jump (target : Option Operand) (taken : Bool)

/-- The number of bytes that a comparison led by the operand compares. -/
def comparedWidth : Operand → Nat
  | .imm l => registerWidth l.ty
  | o => width o

/-- The operand that says in which type a comparison is done: the first one, unless only that is a
literal. -/
def leading? (i : Instr) : Option Operand :=
  if isLiteral i.first && !isLiteral i.second then i.second else i.first

namespace Scene

variable (e : Scene) (s : Machine.State)

/-- An instruction that gives its output a value of its width. -/
def assign? (i : Instr) (f : (n : Nat) → Option (BitVec (8 * n))) : Option Effect := do
  let o ← i.output
  let p ← e.place? s o
  let v ← f (width o)
  some (.assign p (width o) v)

/-- The outcome of a comparison. -/
def compared? (i : Instr) : Option Bool := do
  let lead ← leading? i
  let x ← (← e.source? s i.first).low? (comparedWidth lead)
  let y ← (← e.source? s i.second).low? (comparedWidth lead)
  some (holdsFor i.op (order? lead.ty.isFloat (isUnsignedComparison i.op) x y))

/-- The value of a move, an address computation or integer arithmetic at the width of the output.
Sources with fewer bytes than the output have a meaning in a move only. -/
def computed? (i : Instr) (n : Nat) : Option (BitVec (8 * n)) :=
  match i.op, i.first with
  | .move, _ => (e.source? s i.first).map fun d => d.brought n
  | .lea, some (.symbol y) => some ((e.symbolAddress y).setWidth _)
  | .lea, some (.indirect base index scale disp _) =>
    (e.address? s base index scale disp).map fun a => a.setWidth _
  | op, _ =>
    match arithmetic? op, complement? op, shifted? op, i.second with
    | some f, _, _, _ =>
      do some (f _ (← (← e.source? s i.first).low? n) (← (← e.source? s i.second).low? n))
    | _, some f, _, _ => do some (f _ (← (← e.source? s i.first).low? n))
    | _, _, some f, some (.imm l) => do
      some (f _ (← (← e.source? s i.first).low? n) ((← l.int?).toBitVec.toNat % (8 * n)))
    | _, _, _, _ => none

/-- What an instruction does in a state, if it has a meaning here. Arithmetic is that of
integers. -/
def effect? (i : Instr) : Option Effect :=
  if i.op.isArithmetic && !((i.output.map fun o => o.ty.isInteger).getD false) then none
  else if i.op.isCondBranch then (e.compared? s i).map (.jump i.output)
  else if i.op.isCompare then
    e.assign? s i fun n => (e.compared? s i).map fun b => BitVec.ofNat (8 * n) b.toNat
  else e.assign? s i (e.computed? s i)

end Scene

/-! ## Runs -/

/-- The lines are assignments. They can be run from the state, and every run of them ends as `Q`
says. Selection may use r11 for any line. -/
def Ensures (e : Scene) : List Instr → Machine.State → (Machine.State → Prop) → Prop
  | [], s, Q => Q s
  | i :: rest, s, Q => ∃ p n v, n ≤ 8 ∧ e.effect? s i = some (.assign p n v) ∧
      ∀ s1, Assigns p v [Machine.r11] s s1 → Ensures e rest s1 Q

section Ensures

variable {e : Scene} {xs ys : List Instr} {s : Machine.State} {Q R : Machine.State → Prop}

theorem Ensures.mono (h : Ensures e xs s Q) (hq : ∀ s1, Q s1 → R s1) : Ensures e xs s R := by
  induction xs generalizing s with
  | nil => exact hq s h
  | cons i rest ih =>
    obtain ⟨p, n, v, hn, heff, hrest⟩ := h
    exact ⟨p, n, v, hn, heff, fun s1 h1 => ih (hrest s1 h1)⟩

theorem Ensures.append (h : Ensures e xs s Q) (hq : ∀ s1, Q s1 → Ensures e ys s1 R) :
    Ensures e (xs ++ ys) s R := by
  induction xs generalizing s with
  | nil => exact hq s h
  | cons i rest ih =>
    obtain ⟨p, n, v, hn, heff, hrest⟩ := h
    exact ⟨p, n, v, hn, heff, fun s1 h1 => ih (hrest s1 h1)⟩

/-- The lines can be run. -/
theorem Ensures.exists (h : Ensures e xs s Q) : ∃ s1, Q s1 := by
  induction xs generalizing s with
  | nil => exact ⟨s, h⟩
  | cons i rest ih =>
    obtain ⟨p, n, v, hn, heff, hrest⟩ := h
    obtain ⟨s1, h1⟩ := Machine.exists_assigns s p v hn
    exact ih (hrest s1 h1.weaken)

end Ensures

end Backend.Lowering
