-- When a product that becomes a sum is that sum. The constant two is recognised by its literal
-- alone, but the product is computed at the type of the variable that the constant was moved into,
-- or at its own. The two are the same exactly when the literal is a two of that type.
import Backend.Proofs.Float.Arithmetic
import Backend.Proofs.Peephole.Run
import Backend.Proofs.Selection.ConstantMove

namespace Backend.Peephole

open Backend.Lowering (opType floatBits)
open Backend.Machine (Linkage runTo readBytes writeBytes convert)
open Backend.Selection (widthOf operand constantBits Holder IsConstant)

/-! ## Products and sums at a type -/

/-- The format of floats of a width in bytes. -/
def floatFormat (n : Nat) : Float.Format := if n = 4 then .binary32 else .binary64

/-- The bytes of a value of a type. -/
abbrev Bits (t : Ty) := BitVec (8 * (widthOf t).toNat)

/-- The product of two values: of integers modulo the width, of floats rounded once. -/
def product (t : Ty) (x y : Bits t) : Bits t :=
  if t.isFloat then BitVec.ofNat _ ((floatFormat (widthOf t).toNat).mul x.toNat y.toNat) else x * y

/-- The sum of two values, in the same way. -/
def sum (t : Ty) (x y : Bits t) : Bits t :=
  if t.isFloat then BitVec.ofNat _ ((floatFormat (widthOf t).toNat).add x.toNat y.toNat) else x + y

/-- Multiplying by the value doubles every value of the type, whatever the order of the factors. -/
def Doubles (t : Ty) (y : Bits t) : Prop :=
  ∀ x, product t x y = sum t x x ∧ product t y x = sum t x x

theorem doubles_int {t : Ty} (ht : t.isFloat = false) : Doubles t 2 := by
  intro x
  simp only [product, sum, ht, Bool.false_eq_true, if_false]
  exact ⟨mul_two x, two_mul x⟩

theorem doubles_float (w : FloatWidth) :
    Doubles w.ty (BitVec.ofNat _ (floatFormat (widthOf w.ty).toNat).two) := by
  intro x
  have hx := x.isLt
  cases w with
  | w32 =>
    obtain ⟨h1, h2⟩ := Float.Format.mul_two (.inl rfl : Float.Format.binary32.Standard)
      (x := x.toNat) hx
    exact ⟨congrArg (BitVec.ofNat 32) h1, congrArg (BitVec.ofNat 32) h2⟩
  | w64 =>
    obtain ⟨h1, h2⟩ := Float.Format.mul_two (.inr rfl : Float.Format.binary64.Standard)
      (x := x.toNat) hx
    exact ⟨congrArg (BitVec.ofNat 64) h1, congrArg (BitVec.ofNat 64) h2⟩

/-- One, as a value of a type. -/
def oneAt (t : Ty) : Bits t :=
  if t.isFloat then BitVec.ofNat _ (if t = .f32 then 0x3f800000 else 0x3ff0000000000000) else 1

/-! ## Constants -/

/-- The literal of a constant. -/
def literalOf? : Operand → Option Literal
  | .imm l => some l
  | .symbol y => y.const
  | _ => none

/-- A constant as lowered code has it: a float literal stands for its place in the data. -/
def placed (c : Closure) : Operand → Operand
  | .imm (.float w x) => .symbol (c.materialize (.float w x)).1
  | o => o

/-- A symbol that carries a literal is the place of a float literal, with the type of the
literal. -/
def Materialized (o : Operand) : Prop :=
  ∀ y l, o = .symbol y → y.const = some l → ∃ w x, l = .float w x ∧ y.ty = w.ty

/-- The bits of a float literal are in memory where its symbol points. -/
def InData (l : Linkage) (s : Machine.State) : Operand → Prop
  | .symbol y => ∀ w x, y.const = some (.float w x) →
      s.get (.mem (if y.isTls then l.thread y.name else l.symbol y.name)) w.ty.size =
      (floatBits w x).setWidth _
  | _ => True

/-- The literal is of the type: a float of its own type, an integer of any type but the floats. -/
def Fits (l : Literal) (t : Ty) : Prop := if l.isFloat then t = l.ty else t.isFloat = false

/-- A placed constant doubles the values of a type exactly if its literal is of that type. -/
structure Two (c : Closure) (o : Operand) (lit : Literal) (a : Machine.Operand) : Prop where
  form : operand c o = .ok a
  constant : IsConstant a
  doubles : ∀ t raw, (∀ l s, InData l s o →
    Doubles t (constantBits l s raw o.ty.isSigned a (widthOf t))) ↔
    Fits lit t

theorem two_int (c : Closure) (w : IntWidth) : Two c (.imm (.int w 2)) (.int w 2) (.imm 2) := by
  refine ⟨rfl, show (2 : Int64) ≠ 0 by decide, fun t raw => ?_⟩
  have hbits : ∀ l s, constantBits l s raw (Operand.imm (.int w 2)).ty.isSigned (.imm 2)
      (widthOf t) = 2 := by
    intro l s
    cases raw <;> cases w <;> cases t <;> rfl
  have hfits : Fits (.int w 2) t ↔ t.isFloat = false := Iff.rfl
  simp only [hbits, hfits]
  constructor
  · intro h
    have hone := (h ⟨fun _ => 0, fun _ => 0⟩ ⟨fun _ => 0, fun _ => 0, fun _ => 0⟩ trivial
      (oneAt t)).1
    revert hone
    cases t <;> decide +kernel
  · exact fun ht _ _ _ => doubles_int ht

/-- Two as a float. -/
def floatTwo : Float.Binary64 := ⟨0x4000000000000000⟩

/-- Memory with a float two at its start and zeros after it. -/
def twoInMemory (w : FloatWidth) : Machine.State :=
  ⟨fun _ => 0, fun _ => 0, writeBytes (fun _ => 0) 0 (n := 8) (floatBits w floatTwo)⟩

/-- The bits of a constant in memory, by its address. -/
theorem constantBits_mem (l : Linkage) (s : Machine.State) (raw signed : Bool) (m : Machine.Memory)
    (w : UInt8) :
    constantBits l s raw signed (.mem m) w =
      if raw then s.get (.mem (m.addr.eval l s)) w.toNat
      else convert signed w.toNat (s.get (.mem (m.addr.eval l s)) m.width.toNat) := rfl

/-- A linkage that puts every symbol at address zero. -/
def atZero : Linkage := ⟨fun _ => 0, fun _ => 0⟩

theorem two_float (c : Closure) {y : Symbol} {w : FloatWidth}
    (hconst : y.const = some (.float w floatTwo)) (hty : y.ty = w.ty) :
    ∃ a, Two c (.symbol y) (.float w floatTwo) a := by
  let m : Machine.Memory :=
    if y.isTls then .ofTls y.name (widthOf w.ty) else .ofRip y.name (widthOf w.ty)
  have haddr : ∀ l s, m.addr.eval l s = if y.isTls then l.thread y.name else l.symbol y.name := by
    intro l s
    unfold m
    cases y.isTls <;> rfl
  have hwidth : m.width = widthOf w.ty := by
    unfold m
    cases y.isTls <;> rfl
  have hunsigned : (Operand.symbol y).ty.isSigned = false := by
    show y.ty.isSigned = false
    rw [hty]
    cases w <;> rfl
  refine ⟨.mem m, ?_, ?_, fun t raw => ?_⟩
  · unfold m
    rw [operand, hty]
  · show Selection.IsWidth m.width
    rw [hwidth]
    cases w <;> simp [Selection.IsWidth, widthOf, FloatWidth.ty, registerWidth, Ty.size]
  · rw [hunsigned]
    have hfits : Fits (.float w floatTwo) t ↔ t = w.ty := Iff.rfl
    rw [hfits]
    constructor
    · intro h
      by_contra hne
      have hzero : (if y.isTls then atZero.thread y.name else atZero.symbol y.name) = 0 := by
        cases y.isTls <;> rfl
      have hdata : InData atZero (twoInMemory w) (.symbol y) := by
        intro w' x hx
        rw [hconst] at hx
        cases hx
        rw [hzero]
        cases w <;> decide +kernel
      have hone := (h _ _ hdata (oneAt t)).1
      rw [constantBits_mem, haddr, hzero, hwidth] at hone
      revert hone hne
      cases w <;> cases t <;> cases raw <;> decide +kernel
    · rintro rfl l s hdata
      have hread := hdata w floatTwo hconst
      rw [← haddr l s] at hread
      have hbits : constantBits l s raw false (.mem m) (widthOf w.ty) =
          BitVec.ofNat _ (floatFormat (widthOf w.ty).toNat).two := by
        rw [constantBits_mem, hwidth]
        cases w with
        | w32 =>
          rw [show (widthOf FloatWidth.w32.ty).toNat = FloatWidth.w32.ty.size from rfl, hread]
          cases raw <;> decide +kernel
        | w64 =>
          rw [show (widthOf FloatWidth.w64.ty).toNat = FloatWidth.w64.ty.size from rfl, hread]
          cases raw <;> decide +kernel
      rw [hbits]
      exact doubles_float w

theorem eq_floatTwo {x : Float.Binary64} (h : x.equal floatTwo = true) : x = floatTwo := by
  have hmagnitude : (floatTwo.magnitude == 0) = false := by decide
  simp only [Float.Binary64.equal, hmagnitude, Bool.and_false, Bool.or_false, Bool.and_eq_true,
    beq_iff_eq] at h
  exact congrArg Float.Binary64.mk h.2

/-- Every constant that the rule takes for a two has a machine form, and it is a two of its own
type. -/
theorem exists_two (c : Closure) {o : Operand} (h : isTwo (some o) = true) (ho : Materialized o) :
    ∃ lit a, literalOf? o = some lit ∧ Two c (placed c o) lit a := by
  cases o with
  | imm lit =>
    cases lit with
    | int w v =>
      obtain rfl : v = 2 := by simpa [isTwo, literalIsTwo] using h
      exact ⟨_, _, rfl, two_int c w⟩
    | float w x =>
      obtain rfl : x = floatTwo := eq_floatTwo h
      have hform : ∀ lit : Literal, (c.materialize lit).1.const = some lit ∧
          (c.materialize lit).1.ty = lit.ty := by
        intro lit
        unfold Closure.materialize
        dsimp only
        split <;> exact ⟨rfl, rfl⟩
      obtain ⟨hconst, hty⟩ := hform (.float w floatTwo)
      obtain ⟨a, ha⟩ := two_float c hconst hty
      exact ⟨_, a, rfl, ha⟩
    | string bytes => cases h
    | bool word => cases h
  | symbol y =>
    cases hconst : y.const with
    | none => simp [isTwo, hconst] at h
    | some lit =>
      obtain ⟨w, x, rfl, hty⟩ := ho y lit rfl hconst
      have hx : x.equal floatTwo = true := by simpa [isTwo, hconst, literalIsTwo, floatTwo] using h
      obtain rfl : x = floatTwo := eq_floatTwo hx
      obtain ⟨a, ha⟩ := two_float c hconst hty
      exact ⟨_, a, hconst, ha⟩
  | _ => cases h

/-! ## The rule -/

/-- A variable is held by its register or its slot. -/
theorem holder_of_var {c : Closure} {t : Var} {d : Machine.Operand} (h : operand c (.var t) = .ok d)
    (hwide : ∀ x, d = .xmm x → 4 ≤ x.width) : Holder (widthOf t.ty) d := by
  obtain ⟨loc, -, ⟨r, -, rfl⟩ | hslot⟩ := Selection.operand_var h
  · unfold Selection.machineReg at hwide ⊢
    cases hcls : r.cls with
    | int => rfl
    | float =>
      have hle : 4 ≤ widthOf t.ty := hwide ⟨r.index, widthOf t.ty⟩ (by rw [hcls])
      refine ⟨rfl, ?_⟩
      revert hle
      cases t.ty <;> decide
  · unfold Selection.frameSlot at hslot
    split at hslot
    · cases hslot
      exact ⟨rfl, rfl⟩
    · cases hslot

/-- After the code the variable of a type is worth a value that doubles, if the literals are in
place. -/
def LeavesDoubling (o : Operand) (t : Ty) (d : Machine.Operand) (code : List Machine.Inst) : Prop :=
  ∀ l s f, InData l s o → ∃ m p, d.place? l s = some p ∧ runTo l code ⟨s, f⟩ = some (m, none) ∧
    Doubles t (m.state.get p (widthOf t).toNat)

/-- A two that is moved into a variable doubles the values of the type of the variable, once it is
there, exactly if its literal is of that type. -/
theorem Two.moved {c : Closure} {o : Operand} {lit : Literal} {a d : Machine.Operand} {t : Var}
    (htwo : Two c o lit a) (hd : operand c (.var t) = .ok d)
    (hwide : ∀ x, d = .xmm x → 4 ≤ x.width) :
    ∃ code, Selection.move (some d) (some a) o.ty.isSigned = .ok code ∧
      (LeavesDoubling o t.ty d code ↔ Fits lit t.ty) := by
  have hw : Selection.IsWidth (widthOf t.ty) := by
    cases t.ty <;> simp [Selection.IsWidth, widthOf, registerWidth, Ty.size]
  have hmove := fun l => Selection.runTo_constant l hw
    (holder_of_var hd hwide) htwo.constant o.ty.isSigned
  obtain ⟨code, hcode, -⟩ := hmove atZero
  have hruns : ∀ l s f, ∃ s' f' p, d.place? l s = some p ∧
      runTo l code ⟨s, f⟩ = some (⟨s', f'⟩, none) ∧
      s'.get p (widthOf t.ty).toNat =
        constantBits l s (Selection.isXmm (some d)) o.ty.isSigned a (widthOf t.ty) := by
    intro l s f
    obtain ⟨code', hcode', hrun⟩ := hmove l
    cases hcode.symm.trans hcode'
    obtain ⟨s', f', p, hp, hrun, hassigns⟩ := hrun s f
    exact ⟨s', f', p, hp, hrun, hassigns.value⟩
  refine ⟨code, hcode, ?_⟩
  rw [← htwo.doubles t.ty (Selection.isXmm (some d))]
  constructor
  · intro h l s hdata
    obtain ⟨m, p, hp, hrun, hdoubles⟩ := h l s none hdata
    obtain ⟨s', f', p', hp', hrun', hvalue⟩ := hruns l s none
    cases hp.symm.trans hp'
    cases hrun.symm.trans hrun'
    rwa [hvalue] at hdoubles
  · intro h l s f hdata
    obtain ⟨s', f', p, hp, hrun, hvalue⟩ := hruns l s f
    refine ⟨_, p, hp, hrun, ?_⟩
    rw [hvalue]
    exact h l s hdata

/-- A constant among the factors of a product doubles the values of the type of the product. -/
def DoublesInPlace (o : Operand) (t : Ty) (a : Machine.Operand) : Prop :=
  ∀ l s raw, InData l s o → Doubles t (constantBits l s raw o.ty.isSigned a (widthOf t))

theorem Two.inPlace {c : Closure} {o : Operand} {lit : Literal} {a : Machine.Operand}
    (htwo : Two c o lit a) (t : Ty) : DoublesInPlace o t a ↔ Fits lit t := by
  constructor
  · exact fun h => (htwo.doubles t true).mp fun l s => h l s true
  · exact fun h l s raw => (htwo.doubles t raw).mpr h l s

/-- Where the rule finds the constant of a multiplication: among its factors, or moved into a
variable that is one of them, in which case the other factor is of the type of the variable. -/
inductive TwoOf (c : Closure) (o : Operand) (lit : Literal) (a : Machine.Operand) (mul : Instr)
    (x : Option Operand) (rest : List Instr) : List Instr → Prop
  | factor (sources : Sources mul x (some o))
      (doubles : DoublesInPlace (placed c o) (opType mul) a ↔ Fits lit (opType mul)) :
      TwoOf c o lit a mul x rest (mul :: rest)
  | moved {mv : Instr} {t : Var} {y : Option Operand} (move : mv.op = .move)
      (first : mv.first = some o) (output : mv.output = some (.var t)) (sources : Sources mul y x)
      (named : isVar y t = true)
      (type : typeOf x = t.ty)
      (doubles : ∀ d, operand c (.var t) = .ok d → (∀ v, d = .xmm v → 4 ≤ v.width) →
        ∃ code, Selection.move (some d) (some a) (placed c o).ty.isSigned = .ok code ∧
          (LeavesDoubling (placed c o) t.ty d code ↔ Fits lit t.ty)) :
      TwoOf c o lit a mul x rest (mv :: mul :: rest)

/-- Whenever a multiplication becomes a sum, the other factor or what was moved into it is a
constant, which the first instruction reads. The product is the sum for every value, at the type of
the variable that the constant is moved into or else at the type of the multiplication, exactly if
the literal is of that type. -/
theorem doubling_is_product_iff_literal_fits {st : Setting} {b : Block} {ops ops' : List Instr}
    (h : reduceMul st b ops = some ops') (c : Closure)
    (hm : ∀ i o, ops.head? = some i → isTwo (some o) = true → some o = i.first ∨ some o = i.second →
      Materialized o) :
    ∃ mul x o lit a rest, mul.op = .mul ∧ ops' = doubled mul x :: rest ∧ isTwo (some o) = true ∧
      literalOf? o = some lit ∧ operand c (placed c o) = .ok a ∧
      TwoOf c o lit a mul x rest ops := by
  have hfound : ∀ {o : Option Operand}, isTwo o = true → ∃ o', o = some o' ∧
      isTwo (some o') = true := by
    intro o ho
    cases o with
    | none => cases ho
    | some o' => exact ⟨o', rfl, ho⟩
  cases reduceMul_eq_some h with
  | @second mul rest hop htwo =>
    obtain ⟨o, ho, htwo⟩ := hfound htwo
    obtain ⟨lit, a, hlit, ha⟩ := exists_two c htwo (hm mul o rfl htwo (.inr ho.symm))
    exact ⟨mul, _, o, lit, a, rest, hop, rfl, htwo, hlit, ha.form,
      .factor (.inl ⟨rfl, ho.symm⟩) (ha.inPlace _)⟩
  | @first mul rest hop htwo =>
    obtain ⟨o, ho, htwo⟩ := hfound htwo
    obtain ⟨lit, a, hlit, ha⟩ := exists_two c htwo (hm mul o rfl htwo (.inl ho.symm))
    exact ⟨mul, _, o, lit, a, rest, hop, rfl, htwo, hlit, ha.form,
      .factor (.inr ⟨rfl, ho.symm⟩) (ha.inPlace _)⟩
  | @moved mul mv rest t x hop hmove htwo htemp hfactors htype =>
    obtain ⟨o, ho, htwo⟩ := hfound htwo
    obtain ⟨lit, a, hlit, ha⟩ := exists_two c htwo (hm mv o rfl htwo (.inl ho.symm))
    obtain ⟨y, hsources, hnamed⟩ := hfactors
    exact ⟨mul, x, o, lit, a, rest, hop, rfl, htwo, hlit, ha.form,
      .moved hmove ho (temp?_eq_some.mp htemp).1 hsources hnamed htype fun d => ha.moved⟩

/-- `u = x * o`, by way of a variable `t` of the same type. -/
def movedProduct (o : Operand) (t : Ty) : List Instr :=
  [.make .move (some o) none (varOf "t" t), .make .mul (varOf "x" t) (varOf "t" t) (varOf "u" t)]

/-- The product with all variables in SSE registers. -/
def timesMoved (o : Operand) (t : Ty) : Closure :=
  { oneBlock [] (movedProduct o t) ["u"]
    with locations := ["u", "x", "t"].zipIdx.map fun (v, n) =>
      (v, ⟨some ⟨UInt8.ofNat n, 8, .float, ""⟩, none⟩) }

/-- The rule at the front of the only block. -/
def reduceFront (c : Closure) : Option (List Instr) :=
  c.blocks.head?.bind fun b => reduceMul ⟨c.locations, ⟨true, false, false⟩⟩ b b.ops

/-- A float two that is moved into a float variable doubles. -/
theorem float_two_doubles_floats :
    let two : Operand := .imm (.float .w64 floatTwo)
    let c := timesMoved two .f64
    reduceFront c = some [.make .add (varOf "x" .f64) (varOf "x" .f64) (varOf "u" .f64)] ∧
      ∃ a code, operand c (placed c two) = .ok a ∧
        Selection.move (some (.xmm ⟨2, 8⟩)) (some a) false = .ok code ∧
        LeavesDoubling (placed c two) .f64 (.xmm ⟨2, 8⟩) code := by
  intro two c
  refine ⟨rfl, ?_⟩
  subst two
  have hplaced : ∀ i o, (movedProduct (.imm (.float .w64 floatTwo)) .f64).head? = some i →
      isTwo (some o) = true → some o = i.first ∨ some o = i.second → Materialized o := by
    intro i o hi _ ho y l hy
    cases hi
    rcases ho with ho | ho
    · cases ho
      cases hy
    · cases ho
  have hrule : reduceMul ⟨c.locations, ⟨true, false, false⟩⟩ (c.blocks.head (by decide))
      (movedProduct (.imm (.float .w64 floatTwo)) .f64) =
    some [.make .add (varOf "x" .f64) (varOf "x" .f64) (varOf "u" .f64)] := rfl
  obtain ⟨mul, x, o, lit, a, rest, hop, -, -, hlit, ha, hof⟩ :=
    doubling_is_product_iff_literal_fits hrule c hplaced
  cases hof with
  | factor => cases hop
  | moved move first output sources named type doubles =>
    cases first
    cases output
    cases hlit
    obtain ⟨code, hcode, hiff⟩ := doubles (.xmm ⟨2, 8⟩) rfl (by rintro v ⟨⟩; decide)
    exact ⟨a, code, ha, hcode, hiff.mpr rfl⟩

/-- An integer two that is moved into a float variable is a number next to zero there: what becomes
the sum of `x` and `x` was no double of it. -/
theorem integer_two_does_not_double_floats :
    let two : Operand := .imm (.int .w64 2)
    let c := timesMoved two .f64
    reduceFront c = some [.make .add (varOf "x" .f64) (varOf "x" .f64) (varOf "u" .f64)] ∧
      ∃ code, Selection.move (some (.xmm ⟨2, 8⟩)) (some (.imm 2)) true = .ok code ∧
        ∀ l s f, ∃ m, runTo l code ⟨s, f⟩ = some (m, none) ∧
          product .f64 (oneAt .f64) (m.state.get (.xmm 2) 8) ≠
          sum .f64 (oneAt .f64) (oneAt .f64) := by
  refine ⟨rfl, _, rfl, fun l s f => ?_⟩
  have hx : (⟨2, 8⟩ : Machine.Xmm).width = 4 ∨ (⟨2, 8⟩ : Machine.Xmm).width = 8 := .inr rfl
  obtain ⟨code, hcode, hruns⟩ :=
    Selection.runTo_constant_xmm l hx (show IsConstant (.imm 2) from show (2 : Int64) ≠
      0 by decide) true
  cases hcode
  obtain ⟨s', f', hrun, hassigns⟩ := hruns s f
  refine ⟨_, hrun, ?_⟩
  rw [show s'.get (.xmm 2) 8 = 2 from hassigns.value]
  decide +kernel

end Backend.Peephole
