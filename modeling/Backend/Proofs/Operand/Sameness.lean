-- Sameness of operands. Two operands are the same if they have one form, which keeps of an operand
-- what identifies it, and no NaN stands in them. So sameness is symmetric and transitive, and an
-- operand is the same as itself unless a NaN stands in it.
import Backend.Operand
import Mathlib.Tactic.Tauto

namespace Backend

/-! ## Numbers -/

namespace Float.Binary64

/-- The number, where both zeros are the positive one. -/
def oneZero (x : Binary64) : Binary64 := if x.magnitude = 0 then zero else x

theorem oneZero_eq_iff {x y : Binary64} :
    x.oneZero = y.oneZero ↔ x = y ∨ x.magnitude = 0 ∧ y.magnitude = 0 := by
  have hzero : zero.magnitude = 0 := rfl
  unfold oneZero
  by_cases hx : x.magnitude = 0 <;> by_cases hy : y.magnitude = 0 <;>
    simp only [hx, hy, if_true, if_false]
  all_goals grind

/-- Numbers compare equal if they differ at most in the sign of a zero and neither is a NaN. -/
theorem equal_iff {x y : Binary64} :
    x.equal y = true ↔ x.oneZero = y.oneZero ∧ x.isNaN = false ∧ y.isNaN = false := by
  have hbits : (x.bits == y.bits) = true ↔ x = y := by
    rw [beq_iff_eq]
    cases x
    cases y
    simp
  rw [equal, Bool.and_eq_true, Bool.and_eq_true, Bool.or_eq_true, Bool.and_eq_true, hbits,
    beq_iff_eq, beq_iff_eq, Bool.not_eq_true', Bool.not_eq_true', ← oneZero_eq_iff]
  exact and_comm

end Float.Binary64

/-! ## Parts of operands -/

namespace Operand

/-- An operand is a part of itself, of the addresses that it is base or index of, and of the lists
that it is an item of, at any depth. -/
inductive Part (p : Operand) : Operand → Prop
  | self : Part p p
  | base {b : Operand} {index : Option Operand} {scale : UInt8} {disp : Int64} {t : Ty}
      (h : Part p b) : Part p (.indirect (some b) index scale disp t)
  | index {i : Operand} {base : Option Operand} {scale : UInt8} {disp : Int64} {t : Ty}
      (h : Part p i) : Part p (.indirect base (some i) scale disp t)
  | item {o : Operand} {items : List Operand} (mem : o ∈ items) (h : Part p o) :
      Part p (.list items)

/-- No part of the operand is a NaN. -/
def NaNFree (o : Operand) : Prop :=
  ∀ (w : FloatWidth) (x : Float.Binary64), Part (.imm (.float w x)) o → x.isNaN = false

section NaNFree

variable {base index : Option Operand} {scale : UInt8} {disp : Int64} {t : Ty}

@[simp] theorem nanFree_reg (r : Reg) : NaNFree (.reg r) := fun _ _ h => nomatch h

@[simp] theorem nanFree_stack (offset : Int64) : NaNFree (.stack offset t) :=
  fun _ _ h => nomatch h

@[simp] theorem nanFree_var (v : Var) : NaNFree (.var v) := fun _ _ h => nomatch h

@[simp] theorem nanFree_symbol (s : Symbol) : NaNFree (.symbol s) := fun _ _ h => nomatch h

@[simp] theorem nanFree_label (l : Label) : NaNFree (.label l) := fun _ _ h => nomatch h

@[simp] theorem nanFree_imm {l : Literal} :
    NaNFree (.imm l) ↔ ∀ w x, l = .float w x → x.isNaN = false := by
  constructor
  · rintro h w x rfl
    exact h w x .self
  · intro h w x hpart
    cases hpart
    exact h w x rfl

@[simp] theorem nanFree_indirect : NaNFree (.indirect base index scale disp t) ↔
    (∀ b ∈ base, b.NaNFree) ∧ ∀ i ∈ index, i.NaNFree := by
  constructor
  · refine fun h => ⟨?_, ?_⟩
    · rintro b rfl w x hpart
      exact h w x (.base hpart)
    · rintro i rfl w x hpart
      exact h w x (.index hpart)
  · rintro ⟨hbase, hindex⟩ w x hpart
    cases hpart with
    | base hpart => exact hbase _ rfl w x hpart
    | index hpart => exact hindex _ rfl w x hpart

@[simp] theorem nanFree_list {items : List Operand} :
    NaNFree (.list items) ↔ ∀ o ∈ items, o.NaNFree := by
  constructor
  · intro h o ho w x hpart
    exact h w x (.item ho hpart)
  · intro h w x hpart
    cases hpart with
    | item mem hpart => exact h _ mem w x hpart

end NaNFree

end Operand

/-! ## Forms -/

/-- What identifies a literal. -/
def Literal.form : Literal → Literal
  | .float w x => .float w x.oneZero
  | l => l

theorem Literal.same_iff {a b : Literal} :
    a.same b = true ↔ a.form = b.form ∧ (Operand.imm a).NaNFree ∧ (Operand.imm b).NaNFree := by
  cases a <;> cases b <;> simp [same, form, Float.Binary64.equal_iff, and_assoc]

theorem Reg.is_iff {r s : Reg} : r.is s = true ↔ r.cls = s.cls ∧ r.index = s.index := by
  have hr := r.index.toNat_lt
  have hs := s.index.toNat_lt
  rw [← UInt8.toNat_inj]
  unfold Reg.is Reg.key
  cases r.cls <;> cases s.cls <;> simp <;> omega

namespace Operand

mutual

/-- What identifies an operand: no name of a register, no type and flag of a variable, no sign of a
zero, and of a symbol or label the name alone and whether it is thread-local. -/
def form : Operand → Operand
  | .reg r => .reg { r with name := "" }
  | .stack offset t => .stack offset t
  | .var v => .var ⟨v.ident, .void, false, false⟩
  | .imm l => .imm l.form
  | .indirect base index scale disp t => .indirect (slotForm base) (slotForm index) scale disp t
  | .symbol s => .symbol ⟨s.name, false, s.isTls, .void, none⟩
  | .label l => .label ⟨l.name, false⟩
  | .list items => .list (itemForms items)

def slotForm : Option Operand → Option Operand
  | some o => some o.form
  | none => none

def itemForms : List Operand → List Operand
  | [] => []
  | o :: rest => o.form :: itemForms rest

end

/-! ## Sameness -/

mutual

/-- Operands are the same if they have one form and no NaN stands in either. -/
theorem same_iff (a b : Operand) :
    a.same b = true ↔ a.form = b.form ∧ a.NaNFree ∧ b.NaNFree := by
  cases a with
  | reg r =>
    cases b with
    | reg s =>
      have hform : { r with name := "" } = { s with name := "" } ↔
          (r.cls = s.cls ∧ r.index = s.index) ∧ r.width = s.width := by
        simp only [Reg.mk.injEq, and_true]
        tauto
      simp [same, form, Reg.is_iff, hform]
    | _ => simp [same, form]
  | imm l => cases b <;> simp [same, form, Literal.same_iff]
  | indirect base index scale disp t =>
    cases b with
    | indirect base' index' scale' disp' t' =>
      rw [same, form, form, Bool.and_eq_true, Bool.and_eq_true, Bool.and_eq_true, Bool.and_eq_true,
        sameOption_iff base base', sameOption_iff index index', beq_iff_eq, beq_iff_eq, beq_iff_eq,
        indirect.injEq, nanFree_indirect, nanFree_indirect]
      tauto
    | _ => simp [same, form]
  | list items =>
    cases b with
    | list items' => simp [same, form, sameItems_iff items items']
    | _ => simp [same, form]
  | _ => cases b <;> simp [same, form]

theorem sameOption_iff (a b : Option Operand) :
    sameOption a b = true ↔
      slotForm a = slotForm b ∧ (∀ o ∈ a, o.NaNFree) ∧ ∀ o ∈ b, o.NaNFree := by
  cases a with
  | none => cases b <;> simp [sameOption, slotForm]
  | some a =>
    cases b with
    | none => simp [sameOption, slotForm]
    | some b => simp [sameOption, slotForm, same_iff a b]

theorem sameItems_iff (as bs : List Operand) :
    sameItems as bs = true ↔
      itemForms as = itemForms bs ∧ (∀ o ∈ as, o.NaNFree) ∧ ∀ o ∈ bs, o.NaNFree := by
  cases as with
  | nil => cases bs <;> simp [sameItems, itemForms]
  | cons a as =>
    cases bs with
    | nil => simp [sameItems, itemForms]
    | cons b bs =>
      rw [sameItems, itemForms, itemForms, Bool.and_eq_true, same_iff a b, sameItems_iff as bs,
        List.cons.injEq, List.forall_mem_cons, List.forall_mem_cons]
      tauto

end

/-- Sameness of operands, missing ones included, is symmetric and transitive, and the operands that
are the same as themselves are those in which no NaN stands at any depth. Symbols are told apart by
name, so the literal that one stands for does not count. -/
theorem sameness_is_partial_equivalence :
    (∀ a b : Option Operand, sameOption a b = sameOption b a) ∧
    (∀ a b c : Option Operand,
      sameOption a b = true → sameOption b c = true → sameOption a c = true) ∧
    ∀ a : Option Operand, sameOption a a = true ↔ ∀ o ∈ a, o.NaNFree := by
  refine ⟨fun a b => ?_, fun a b c hab hbc => ?_, fun a => ?_⟩
  · rw [Bool.eq_iff_iff, sameOption_iff, sameOption_iff, eq_comm, and_comm (a := ∀ o ∈ a, _)]
  · obtain ⟨hform, ha, -⟩ := (sameOption_iff a b).mp hab
    obtain ⟨hform', -, hc⟩ := (sameOption_iff b c).mp hbc
    exact (sameOption_iff a c).mpr ⟨hform.trans hform', ha, hc⟩
  · rw [sameOption_iff, and_self]
    exact and_iff_right rfl

/-- A register under some name in a list with a memory operand whose index is a number. -/
def namedBeside (name : String) (x : Float.Binary64) : Option Operand :=
  some (.list [.reg ⟨0, 8, .int, name⟩,
    .indirect none (some (.imm (.float .w64 x))) 8 0 .f64])

/-- A register by any name and zeros of either sign are the same, and a NaN makes a list unlike
itself. -/
theorem sameness_of_zeros_and_nan :
    sameOption (namedBeside "rax" .zero) (namedBeside "" (.neg .zero)) = true ∧
      sameOption (namedBeside "" (.neg .zero)) (namedBeside "r0" .zero) = true ∧
      sameOption (namedBeside "rax" .zero) (namedBeside "r0" .zero) = true ∧
      sameOption (namedBeside "rax" .nan) (namedBeside "rax" .nan) = false := by
  obtain ⟨-, trans, self⟩ := sameness_is_partial_equivalence
  have hfirst : sameOption (namedBeside "rax" .zero) (namedBeside "" (.neg .zero)) = true := by
    decide
  have hsecond : sameOption (namedBeside "" (.neg .zero)) (namedBeside "r0" .zero) = true := by
    decide
  refine ⟨hfirst, hsecond, trans _ _ _ hfirst hsecond, ?_⟩
  rw [← Bool.not_eq_true, self]
  intro hfree
  have hnum := hfree _ rfl .w64 .nan (.item (.tail _ (.head _)) (.index .self))
  exact absurd hnum (by decide)

end Operand

end Backend
