-- Optimised code on its way to selection: the rules keep operands at home and computations fit, and
-- bring in one form that selection refuses, the multiplication of bytes by a variable of the frame.
import Backend.Proofs.Peephole.Literals
import Backend.Proofs.Peephole.Run
import Backend.Proofs.Selection.Fitness
import Backend.Proofs.Selection.Footprint

namespace Backend.Peephole

open Backend.Lowering
open Backend.Selection (AtHome ByteProduct Fit HasAddress IsPlace IsValue Loads WellTyped combined
  operand optional)

/-! ## Exchanged operands -/

/-- An operand that may take the place of a variable: it is read directly, has the type and a
machine form. -/
structure StandsFor (types : String → Ty) (c : Closure) (o : Operand) (v : Var) : Prop where
  direct : isDirect (some o) = true
  ty : o.ty = v.ty
  home : AtHome c.locations o
  oneType : ∀ w, o = .var w → w.ty = types w.ident
  form : ∃ m, operand c o = .ok m

section Exchange

variable {types : String → Ty} {c : Closure} {i : Instr} {slot : Slot} {o : Operand} {v : Var}

theorem isPlace_of_isDirect {m : Machine.Operand} (h : isDirect (some o) = true)
    (hm : operand c o = .ok m) :
    IsPlace m ∧ IsValue m := by
  rcases Selection.kind_of_operand hm with ⟨r, w, -, rfl⟩ | ⟨a, rfl⟩ | ⟨l, value, rfl, -⟩ | ⟨l, rfl⟩
  · unfold Selection.machineReg
    split <;> exact ⟨trivial, fun t ht => by cases ht⟩
  · exact ⟨trivial, fun t ht => by cases ht⟩
  · cases h
  · cases h

theorem opType_set {o o' : Operand} (h : slot.get i = some o) (hty : o'.ty = o.ty) :
    opType (slot.set o' i) = opType i := by
  cases slot <;> simp only [Slot.get] at h <;> simp [opType, Slot.set, h, hty]

/-- Arithmetic computes in the type of its output. -/
theorem opType_of_output (hc : i.op.isCompare = false) (hb : i.op.isBranch = false)
    (h : typeOf i.output ≠ .void) :
    opType i = typeOf i.output := by
  unfold opType
  dsimp only
  exact if_pos (by simpa [hc, hb, typeOf] using h)

/-- Without a type of the output, the type is that of the sources. -/
theorem opType_of_void (h : typeOf i.output = .void) :
    opType i = if typeOf i.first = .void then typeOf i.second else typeOf i.first := by
  unfold opType
  dsimp only
  rw [if_neg (by simp [show (i.output.map Operand.ty).getD .void = .void from h])]
  unfold typeOf
  split <;> simp_all

theorem StandsFor.wellTyped (h : StandsFor types c o v) (ht : WellTyped types c.locations i)
    (hv : slot.get i = some (.var v)) : WellTyped types c.locations (slot.set o i) := by
  have hty : opType (slot.set o i) = opType i := opType_set hv h.ty
  constructor
  case home =>
    intro slot' p hp
    by_cases hs : slot = slot'
    · subst hs
      rw [Slot.get_set] at hp
      cases hp
      exact h.home
    · exact ht.home slot' p ((Slot.get_set_ne hs o i).symm.trans hp)
  case oneType =>
    intro slot' w hw
    by_cases hs : slot = slot'
    · subst hs
      rw [Slot.get_set] at hw
      cases hw
      exact h.oneType w rfl
    · exact ht.oneType slot' w ((Slot.get_set_ne hs o i).symm.trans hw)
  case sources =>
    intro slot' hslot'
    rw [Slot.op_set] at hslot'
    obtain ⟨p, hp, hl, hpty⟩ := ht.sources slot' hslot'
    rw [hty]
    by_cases hs : slot = slot'
    · subst hs
      obtain rfl : p = .var v := Option.some.inj (hp.symm.trans hv)
      refine ⟨o, Slot.get_set .., ?_, (congrArg Ty.isFloat h.ty).trans hpty⟩
      rintro l rfl
      cases h.direct
    · exact ⟨p, (Slot.get_set_ne hs o i).trans hp, hl, hpty⟩

/-- A computation stays fit when an operand stands for a variable: what has a part of its own is no
variable. -/
theorem StandsFor.fit (h : StandsFor types c o v) (hf : Fit c i) (hslot : slot ≠ .addend)
    (hv : slot.get i = some (.var v)) : Fit c (slot.set o i) := by
  obtain ⟨m, hm⟩ := h.form
  obtain ⟨hplace, hvalue⟩ := isPlace_of_isDirect h.direct hm
  have hop : (slot.set o i).op = i.op := Slot.op_set slot o i
  have hty : opType (slot.set o i) = opType i := opType_set hv h.ty
  have hdivides : Selection.DividesInts (slot.set o i) ↔ Selection.DividesInts i := by
    rw [Selection.DividesInts, hop, hty]
    rfl
  have hkept : ∀ slot' : Slot, (∀ w, slot'.get i ≠ some (.var w)) →
      slot'.get (slot.set o i) = slot'.get i := by
    intro slot' hno
    refine Slot.get_set_ne ?_ o i
    rintro rfl
    exact hno v hv
  have hform : ∀ slot' : Slot, (∃ a, optional c (slot'.get i) = .ok a) →
      ∃ a, optional c (slot'.get (slot.set o i)) = .ok a := by
    intro slot' ha
    by_cases hs : slot = slot'
    · subst hs
      rw [Slot.get_set]
      exact ⟨some m, Selection.optional_of_operand hm⟩
    · rw [Slot.get_set_ne hs]
      exact ha
  have hout : slot = .output ∨ (slot.set o i).output = i.output := by
    cases slot with
    | output => exact .inl rfl
    | first | second | addend => exact .inr rfl
  constructor
  case output =>
    rcases hout with rfl | hout
    · exact ⟨some m, Selection.outputOperand_of_operand hm⟩
    · rw [hout]
      exact hf.output
  case first => exact hform .first hf.first
  case second => exact hform .second hf.second
  case place =>
    intro hdiv
    rcases hout with rfl | hout
    · exact ⟨o, m, rfl, hm, hplace⟩
    · rw [hout]
      exact hf.place (mt hdivides.mpr hdiv)
  case address =>
    intro hlea
    have haddress := hf.address (hop.symm.trans hlea)
    rw [show (slot.set o i).first = i.first from hkept .first fun w (hw : i.first = _) => by
      rw [hw] at haddress
      exact haddress]
    exact haddress
  case dividend =>
    intro hdiv
    obtain ⟨r, hr, hrax⟩ := hf.dividend (hdivides.mp hdiv)
    exact ⟨r, (hkept .first fun w hw => by cases hr.symm.trans hw).trans hr, hrax⟩
  case count =>
    intro hs hint
    rw [hop] at hs
    rw [hty] at hint
    have hcount := hf.count hs hint
    rw [show (slot.set o i).second = i.second from hkept .second fun w (hw : i.second = _) => by
      rw [hw] at hcount
      rcases hcount with ⟨l, value, hl, -⟩ | ⟨r, hr, -⟩
      · cases hl
      · cases hr]
    exact hcount
  case converted =>
    intro hitof
    obtain ⟨p, n, hp, hn, hnv⟩ := hf.converted (hop.symm.trans hitof)
    by_cases hs : slot = .first
    · subst hs
      exact ⟨o, m, rfl, hm, hvalue⟩
    · exact ⟨p, n, (Slot.get_set_ne hs o i).trans hp, hn, hnv⟩
  case float =>
    rw [hop, hty]
    exact hf.float
  case fused =>
    rw [hop, hty, show (slot.set o i).addend = i.addend from Slot.get_set_ne hslot o i]
    exact hf.fused

end Exchange

/-! ## What optimised code is like -/

/-- An instruction between lowering and selection: a computation is fit, and all else has code. A
move is one of the lowered ones, and bytes are multiplied by memory only where a move of them
was. -/
structure Selectable (lowered : List Instr) (types : String → Ty) (c : Closure) (i : Instr) :
    Prop where
  typed : WellTyped types c.locations i
  fit : i.op.computes = true → Fit c i
  code : i.op.computes = false → ∃ code, Selection.instr c i = .ok code
  move : i.op = .move → i ∈ lowered
  byte : ByteProduct c i → ∃ mv ∈ lowered, mv.op = .move ∧ mv.first = i.second

section Rules

variable {lowered : List Instr} {types : String → Ty} {c : Closure} {features : Features}
  {b : Block} {i : Instr}

/-- A computation other than a product is selectable if it is typed and fit. -/
theorem selectable_of_fit (ht : WellTyped types c.locations i) (hf : Fit c i)
    (hc : i.op.computes = true) (hmul : i.op ≠ .mul) : Selectable lowered types c i where
  typed := ht
  fit _ := hf
  code h := by
    rw [hc] at h
    cases h
  move h := by
    rw [h] at hc
    cases hc
  byte h := absurd h.1 hmul

theorem computes_of_isFused {op : Opcode} (h : op.isFused = true) : op.computes = true := by
  simp [Opcode.computes, h]

/-- A selectable move has machine forms of both its operands. -/
theorem Selectable.forms {mv : Instr} (h : Selectable lowered types c mv) (hmv : mv.op = .move)
    {slot : Slot} (hslot : slot = .first ∨ slot = .output) {o : Operand} (ho : slot.get mv = some o)
    (hdirect : isDirect (some o) = true) : ∃ m, operand c o = .ok m := by
  obtain ⟨code, hcode⟩ := h.code (by rw [hmv]; rfl)
  obtain ⟨hfirst, -, houtput⟩ := Selection.operands_of_instr (by rw [hmv]; rfl) hcode
  rcases hslot with rfl | rfl
  · exact hfirst o ho
  · refine houtput o ho ?_
    rintro items rfl
    cases hdirect

/-- What a move reads or writes directly stands for a variable of its type. -/
theorem Selectable.standsFor {mv : Instr} (h : Selectable lowered types c mv) (hmv : mv.op = .move)
    {slot : Slot} (hslot : slot = .first ∨ slot = .output) (hdirect : isDirect (slot.get mv) = true)
    {v : Var}
    (hty : typeOf (slot.get mv) = v.ty) : ∃ o, slot.get mv = some o ∧ StandsFor types c o v := by
  cases ho : slot.get mv with
  | none =>
    rw [ho] at hdirect
    cases hdirect
  | some o =>
    rw [ho] at hdirect hty
    exact ⟨o, rfl, hdirect, hty, h.typed.home slot o ho,
      fun w hw => h.typed.oneType slot w (ho.trans (congrArg some hw)),
      h.forms hmv hslot ho hdirect⟩

/-- A variable that is the temporary has its type. -/
theorem Selectable.var_of_isVar (h : Selectable lowered types c i) {slot : Slot} {t : Var}
    (ht : t.ty = types t.ident) (hvar : isVar (slot.get i) t = true) :
    ∃ v, slot.get i = some (.var v) ∧ v.ty = t.ty := by
  obtain ⟨v, hv, hident⟩ := isVar_iff.mp hvar
  exact ⟨v, hv, by rw [h.typed.oneType slot v hv, ht, hident]⟩

theorem Selectable.temp {st : Setting} (h : Selectable lowered types c i) {t : Var}
    (ht : temp? st b i.output = some t) : t.ty = types t.ident :=
  h.typed.oneType .output t (temp?_eq_some.mp ht).1

/-! ## The rules -/

theorem retarget?_selectable {st : Setting} {op mv new : Instr}
    (hop : Selectable lowered types c op) (hmv : Selectable lowered types c mv)
    (h : retarget? st b op mv = some new) :
    Selectable lowered types c new := by
  obtain ⟨hcomputes, hmove, hdirect, rfl, t, ht, hfirst, hty⟩ := retarget?_eq_some h
  have hvar : Slot.output.get op = some (.var t) := (temp?_eq_some.mp ht).1
  obtain ⟨o, ho, hstands⟩ :=
    hmv.standsFor hmove (.inr rfl : Slot.output = .first ∨ Slot.output = .output) hdirect hty
  rw [show mv.output = some o from ho]
  have hset : { op with output := some o } = Slot.output.set o op := rfl
  rw [hset]
  constructor
  case typed => exact hstands.wellTyped hop.typed hvar
  case fit => exact fun hc => hstands.fit (hop.fit hcomputes) (by decide) hvar
  case code =>
    intro hc
    rw [Slot.op_set, hcomputes] at hc
    cases hc
  case move =>
    intro hm
    rw [Slot.op_set] at hm
    rw [hm] at hcomputes
    cases hcomputes
  case byte =>
    rintro ⟨hmul, ⟨p, hp, hwidth⟩, hsecond⟩
    cases hp
    exact hop.byte ⟨hmul, ⟨.var t, hvar, (congrArg registerWidth hstands.ty).symm.trans hwidth⟩,
      hsecond⟩

theorem substitute?_selectable {st : Setting} {mv op new : Instr}
    (hmv : Selectable lowered types c mv) (hop : Selectable lowered types c op)
    (h : substitute? st b mv op = some new) :
    Selectable lowered types c new := by
  obtain ⟨hmove, hcomputes, hdirect, t, ht, hty, hnew⟩ := substitute?_eq_some h
  have htype := hmv.temp ht
  have hset : ∃ (slot : Slot) (o : Operand), (slot = .first ∨ slot = .second) ∧
      isVar (slot.get op) t = true ∧
      mv.first = some o ∧ new = slot.set o op := by
    obtain ⟨o, ho, -⟩ := hmv.standsFor hmove (.inl rfl : Slot.first = .first ∨
      Slot.first = .output) hdirect hty
    have ho : mv.first = some o := ho
    rcases hnew with ⟨hvar, rfl⟩ | ⟨hvar, rfl⟩
    · exact ⟨.first, o, .inl rfl, hvar, ho, by rw [ho]; rfl⟩
    · exact ⟨.second, o, .inr rfl, hvar, ho, by rw [ho]; rfl⟩
  obtain ⟨slot, o, hslot, hisVar, ho, rfl⟩ := hset
  obtain ⟨v, hvar, hvty⟩ := hop.var_of_isVar htype hisVar
  obtain ⟨o', ho', hstands⟩ :=
    hmv.standsFor (v := v) hmove (.inl rfl : Slot.first = .first ∨ Slot.first = .output)
    hdirect (hty.trans hvty.symm)
  obtain rfl : o = o' := Option.some.inj (ho.symm.trans ho')
  constructor
  case typed => exact hstands.wellTyped hop.typed hvar
  case fit =>
    refine fun _ => hstands.fit (hop.fit hcomputes) ?_ hvar
    rintro rfl
    rcases hslot with hs | hs <;> cases hs
  case code =>
    intro hc
    rw [Slot.op_set, hcomputes] at hc
    cases hc
  case move =>
    intro hm
    rw [Slot.op_set] at hm
    rw [hm] at hcomputes
    cases hcomputes
  case byte =>
    rintro ⟨hmul, hout, hsecond⟩
    rcases hslot with rfl | rfl
    · exact hop.byte ⟨hmul, hout, hsecond⟩
    · exact ⟨mv, hmv.move hmove, hmove, ho⟩

/-- A product that is doubled: an integer or float sum of one of its factors with itself. -/
theorem doubled_selectable {mul : Instr} (h : Selectable lowered types c mul) (hop : mul.op = .mul)
    {x : Option Operand} (hx : x = mul.first ∨ x = mul.second) :
    Selectable lowered types c (doubled mul x) := by
  have hfit := h.fit (by rw [hop]; rfl)
  obtain ⟨slot, rfl, hslot⟩ : ∃ slot : Slot, slot.get mul = x ∧ slot ∈ combined mul.op := by
    rw [hop]
    rcases hx with rfl | rfl
    · exact ⟨.first, rfl, by decide⟩
    · exact ⟨.second, rfl, by decide⟩
  obtain ⟨o, ho, hl, hty⟩ := h.typed.sources slot hslot
  have hform : ∃ a, optional c (slot.get mul) = .ok a := by
    rcases hx with hx | hx
    · rw [hx]
      exact hfit.first
    · rw [hx]
      exact hfit.second
  have htype : (opType (doubled mul (slot.get mul))).isFloat = (opType mul).isFloat := by
    by_cases hout : typeOf mul.output = .void
    · rw [← hty, opType_of_void (i := doubled mul (slot.get mul)) hout]
      simp only [doubled, ho, typeOf, Option.map_some, Option.getD_some, ite_self]
    · rw [opType_of_output (i := doubled mul (slot.get mul)) rfl rfl hout,
        opType_of_output (i := mul) (by rw [hop]; rfl) (by rw [hop]; rfl) hout]
      rfl
  refine selectable_of_fit ?_ ?_ rfl (by rintro ⟨⟩)
  · constructor
    case home =>
      intro slot' p hp
      cases slot' with
      | first | second => exact h.typed.home slot p hp
      | addend => exact h.typed.home .addend p hp
      | output => exact h.typed.home .output p hp
    case oneType =>
      intro slot' v hv
      cases slot' with
      | first | second => exact h.typed.oneType slot v hv
      | addend => exact h.typed.oneType .addend v hv
      | output => exact h.typed.oneType .output v hv
    case sources =>
      intro slot' hslot'
      refine ⟨o, ?_, hl, hty.trans htype.symm⟩
      cases slot' with
      | first | second => exact ho
      | addend | output => cases hslot' with | tail _ h => cases h with | tail _ h => cases h
  · refine Selection.fit_of_unpinned rfl (by rintro ⟨⟩) (by rintro ⟨⟩) hfit.output hform hform ?_
      (fun _ _ => .inr rfl) fun hfused => by cases hfused
    exact hfit.place (Selection.not_dividesInts (by rw [hop]; rfl))

theorem doubling_selectable {st : Setting} {ops ops' : List Instr}
    (hops : ∀ i ∈ ops, Selectable lowered types c i) (h : Doubling st b ops ops') :
    ∀ i ∈ ops', Selectable lowered types c i := by
  cases h with
  | second op two =>
    obtain ⟨hmul, hrest⟩ := List.forall_mem_cons.mp hops
    exact List.forall_mem_cons.mpr ⟨doubled_selectable hmul op (.inl rfl), hrest⟩
  | first op two =>
    obtain ⟨hmul, hrest⟩ := List.forall_mem_cons.mp hops
    exact List.forall_mem_cons.mpr ⟨doubled_selectable hmul op (.inr rfl), hrest⟩
  | moved op move two temp factors type =>
    obtain ⟨-, hops⟩ := List.forall_mem_cons.mp hops
    obtain ⟨hmul, hrest⟩ := List.forall_mem_cons.mp hops
    refine List.forall_mem_cons.mpr ⟨doubled_selectable hmul op ?_, hrest⟩
    obtain ⟨y, ⟨-, hx⟩ | ⟨-, hx⟩, -⟩ := factors
    · exact .inr hx
    · exact .inl hx

/-- A float operand that is combined can be loaded, and is no literal. -/
theorem Selectable.loads (h : Selectable lowered types c i) (hc : i.op.computes = true)
    {slot : Slot} (hslot : slot = .first ∨ slot = .second) (hcombined : slot ∈ combined i.op)
    (hfloat : (opType i).isFloat = true) :
    Loads c (slot.get i) ∧ ∀ l, slot.get i ≠ some (.imm l) := by
  have hform : ∃ a, optional c (slot.get i) = .ok a := by
    rcases hslot with rfl | rfl
    · exact (h.fit hc).first
    · exact (h.fit hc).second
  obtain ⟨a, ha⟩ := hform
  obtain ⟨m, rfl, hvalue, hkind, -⟩ := h.typed.kind hcombined ha
  obtain ⟨o, ho, -⟩ := h.typed.sources slot hcombined
  rw [ho] at ha ⊢
  obtain ⟨m', hm', hm⟩ := Selection.eq_some_of_optional ha
  obtain rfl : m = m' := Option.some.inj hm'
  refine ⟨⟨m, hm, hvalue, ?_⟩, ?_⟩
  · intro hshort
    cases m with
    | reg r => exact hkind hfloat
    | xmm x | mem a | imm v | target t => exact hshort
  · rintro l ⟨⟩
    simp only [operand] at hm
    split at hm
    · cases hm
      exact hkind hfloat
    · cases hm

theorem class_of_isFused {op : Opcode} (h : op.isFused = true) :
    op.isCompare = false ∧ op.isBranch = false ∧ isPinned op = false ∧ op ≠ .lea ∧ op ≠ .itof ∧
      op.isArithmetic = false ∧ op ≠ .mul ∧ combined op = combined .mul := by
  cases op <;> simp [Opcode.isFused] at h <;> decide

/-- A float product and what is added to it fit into one instruction. -/
theorem fused_selectable {mul next : Instr} (hmul : Selectable lowered types c mul)
    (hop : mul.op = .mul) (hnext : Selectable lowered types c next) (hc : next.op.computes = true)
    (hdiv : isDivision next.op = false)
    {op : Opcode} (hfused : op.isFused = true) {slot : Slot} (hload : Loads c (slot.get next))
    {t : Ty}
    (hfloat : t.isFloat = true) (hmulType : opType mul = t) (hout : typeOf next.output = t) :
    Selectable lowered types c ⟨op, mul.first, mul.second, slot.get next, next.output,
      next.pos⟩ := by
  obtain ⟨hcompare, hbranch, hpin, hlea, hitof, harith, hneMul, hcombined⟩ :=
    class_of_isFused hfused
  have hmulFit := hmul.fit (by rw [hop]; rfl)
  have hnextFit := hnext.fit hc
  have htype : opType ⟨op, mul.first, mul.second, slot.get next, next.output, next.pos⟩ = t := by
    refine (opType_of_output (i := ⟨op, mul.first, mul.second, slot.get next, next.output,
      next.pos⟩) hcompare hbranch fun hvoid => ?_).trans hout
    rw [← hout, show typeOf next.output = .void from hvoid] at hfloat
    cases hfloat
  refine selectable_of_fit ?_ ?_ (computes_of_isFused hfused) hneMul
  · constructor
    case home =>
      intro slot' p hp
      cases slot' with
      | first => exact hmul.typed.home .first p hp
      | second => exact hmul.typed.home .second p hp
      | addend => exact hnext.typed.home slot p hp
      | output => exact hnext.typed.home .output p hp
    case oneType =>
      intro slot' v hv
      cases slot' with
      | first => exact hmul.typed.oneType .first v hv
      | second => exact hmul.typed.oneType .second v hv
      | addend => exact hnext.typed.oneType slot v hv
      | output => exact hnext.typed.oneType .output v hv
    case sources =>
      intro slot' hslot'
      have hmem : slot' ∈ combined .mul := hcombined ▸ hslot'
      obtain ⟨p, hp, hl, hpty⟩ := hmul.typed.sources slot' (hop ▸ hmem)
      refine ⟨p, ?_, hl, ?_⟩
      · cases slot' with
        | first | second => exact hp
        | addend | output => exact absurd hmem (by decide)
      · rw [hpty, htype, hmulType]
  · refine Selection.fit_of_unpinned hpin hlea hitof hnextFit.output hmulFit.first hmulFit.second
      (hnextFit.place (Selection.not_dividesInts hdiv)) (fun h => ?_) fun _ =>
        ⟨htype ▸ hfloat, hload⟩
    rw [harith] at h
    cases h

theorem mulAdd?_selectable {st : Setting} (hst : st.features.intMulAdd = false)
    {mul next new : Instr} (hmul : Selectable lowered types c mul)
    (hnext : Selectable lowered types c next)
    (h : mulAdd? st b mul next = some new) : Selectable lowered types c new := by
  obtain ⟨t, m⟩ := mulAdd?_eq_some h
  obtain ⟨op, addend, huse, hfuse, rfl⟩ := m.fused
  obtain ⟨hnextOp, hfused, o, ho, haddend⟩ := productUse?_eq_some huse
  -- The target has no fused multiplication of integers.
  have hfloat : t.ty.isFloat = true := by
    cases hf : t.ty.isFloat with
    | true => rfl
    | false => simp [canFuse, hf, hst] at hfuse
  have hvoid : t.ty ≠ .void := by
    intro hv
    rw [hv] at hfloat
    cases hfloat
  have hclass : next.op.computes = true ∧ isDivision next.op = false ∧ next.op.isCompare = false ∧
      next.op.isBranch = false ∧ Slot.first ∈ combined next.op ∧
        Slot.second ∈ combined next.op := by
    rcases hnextOp with hop | hop <;> rw [hop] <;> decide
  obtain ⟨hcomputes, hdiv, hcompare, hbranch, hfirst, hsecond⟩ := hclass
  have hnextFloat : (opType next).isFloat = true := by
    rw [opType_of_output hcompare hbranch (by rwa [m.outputTy]), m.outputTy]
    exact hfloat
  have hmulOutput : typeOf mul.output = t.ty := by
    rw [(temp?_eq_some.mp m.temp).1]
    rfl
  have hmulType : opType mul = t.ty := by
    rw [opType_of_output (by rw [m.op]; rfl) (by rw [m.op]; rfl) (by rwa [hmulOutput]), hmulOutput]
  have hslot : ∃ slot : Slot, (slot = .first ∨ slot = .second) ∧ o = slot.get next ∧
      slot ∈ combined next.op := by
    rcases ho with rfl | rfl
    · exact ⟨.first, .inl rfl, rfl, hfirst⟩
    · exact ⟨.second, .inr rfl, rfl, hsecond⟩
  obtain ⟨slot, hslot, rfl, hcombined⟩ := hslot
  obtain ⟨hload, hliteral⟩ := hnext.loads hcomputes hslot hcombined hnextFloat
  -- A literal has no machine form that float arithmetic takes, so the addend is the other source
  -- itself.
  obtain rfl : addend = slot.get next := by
    rcases haddend with h | ⟨l, hl, -⟩
    · exact h
    · exact absurd hl (hliteral l)
  exact fused_selectable hmul m.op hnext hcomputes hdiv hfused hload hfloat hmulType m.outputTy

/-- A register or variable in a general purpose register can be part of an address. -/
theorem addressReg_of_inRegister {st : Setting} (hst : st.locations = c.locations)
    {o : Option Operand} (h : inRegister st o = true) (hform : ∃ a, optional c o = .ok a) :
    ∃ r, Selection.addressReg c o = .ok (some r) := by
  obtain ⟨a, ha⟩ := hform
  unfold inRegister at h
  split at h
  · rename_i r
    exact ⟨⟨r.index, 8⟩, by simp only [Selection.addressReg, h, if_true]⟩
  · rename_i v
    obtain ⟨m, -, hm⟩ := Selection.eq_some_of_optional ha
    obtain ⟨l, hl, -⟩ := bind_eq_ok.mp hm
    rw [hst, Selection.reg?_of_locate hl] at h
    cases hr : l.reg with
    | none =>
      rw [hr] at h
      cases h
    | some r =>
      rw [hr] at h
      refine ⟨⟨r.index, 8⟩, ?_⟩
      have hcls : (r.cls == .int) = true := h
      simp only [Selection.addressReg, hl, hr, hcls, if_true, bind, Except.bind]
  · cases h

/-- A register and a constant make an address that exists on the machine. -/
theorem exists_memory {o : Option Operand} {r : Machine.Reg}
    (hr : Selection.addressReg c o = .ok (some r)) {disp : Int64}
    (hdisp : Machine.fitsInt32 disp = true) (scale : UInt8) (t : Ty) :
    (∃ m, Selection.memory c o none scale disp t = .ok m) ∧
      ∃ m, Selection.memory c none o scale disp t = .ok m := by
  have hnone : Selection.addressReg c none = .ok none := rfl
  constructor
  · refine ⟨.ofBase r (Selection.toDisp disp) (Selection.widthOf t), ?_⟩
    unfold Selection.memory
    rw [hr, hnone, hdisp]
    rfl
  · refine ⟨.ofScaled r (if scale == 0 then 1 else scale) (Selection.toDisp disp)
      (Selection.widthOf t), ?_⟩
    unfold Selection.memory
    rw [hr, hnone, hdisp]
    rfl

/-- The address of a fusion is an operand that selection takes. -/
theorem exists_address {f : LeaFusion} {r : Machine.Reg}
    (hr : Selection.addressReg c f.index = .ok (some r)) (hdisp : Machine.fitsInt32 f.disp = true) :
    ∃ base index scale,
      f.instr.first = some (.indirect base index scale f.disp (typeOf f.dst)) ∧
        ∃ m, Selection.memory c base index scale f.disp (typeOf f.dst) = .ok m := by
  by_cases hscale : f.scale == 1
  · refine ⟨f.index, none, 0, ?_, (exists_memory hr hdisp 0 _).1⟩
    simp [LeaFusion.instr, Instr.make, hscale]
  · refine ⟨none, f.index, f.scale.toUInt64.toUInt8, ?_, (exists_memory hr hdisp _ _).2⟩
    simp [LeaFusion.instr, Instr.make, hscale]

theorem leaFusion?_selectable {st : Setting} (hst : st.locations = c.locations) {ops : List Instr}
    (hops : ∀ i ∈ ops, Selectable lowered types c i) {f : LeaFusion}
    (hf : leaFusion? st b ops = some f) :
    ∀ i ∈ f.instr :: f.rest, Selectable lowered types c i := by
  obtain ⟨mul, add, between, t, cur, fu⟩ := leaFusion?_eq_some hf
  have hmem : mul ∈ ops ∧ add ∈ ops ∧ ∀ i ∈ f.rest, i ∈ ops := by
    rw [fu.ops]
    exact ⟨by simp, by simp, fun i hi => by simp [hi]⟩
  obtain ⟨hmul, hadd, hrest⟩ := hmem
  refine List.forall_mem_cons.mpr ⟨?_, fun i hi => hops i (hrest i hi)⟩
  have hmulFit := (hops mul hmul).fit (by rw [fu.product.op]; rfl)
  have haddOp : add.op.computes = true ∧ isDivision add.op = false := by
    rcases fu.op with hop | hop <;> rw [hop] <;> decide
  have haddFit := (hops add hadd).fit haddOp.1
  have hform : ∃ a, optional c f.index = .ok a := by
    rcases fu.product.factors with ⟨hv, -⟩ | ⟨hv, -⟩
    · rw [hv]
      exact hmulFit.first
    · rw [hv]
      exact hmulFit.second
  obtain ⟨r, hr⟩ := addressReg_of_inRegister hst fu.product.register hform
  obtain ⟨base, index, scale, hfirst, m, hm⟩ := exists_address hr fu.constant.fits
  have hop : f.instr.op = .lea := rfl
  have hout : f.instr.output = add.output := fu.dst
  refine selectable_of_fit ?_ ?_ rfl (by rintro ⟨⟩)
  · constructor
    case home =>
      intro slot o ho
      cases slot with
      | first =>
        obtain rfl := Option.some.inj (hfirst.symm.trans ho)
        exact ⟨fun _ hs => (by cases hs), fun _ hs => (by cases hs)⟩
      | second | addend => cases ho
      | output => exact (hops add hadd).typed.home .output o (hout.symm.trans ho)
    case oneType =>
      intro slot v hv
      cases slot with
      | first => cases hfirst.symm.trans hv
      | second | addend => cases hv
      | output => exact (hops add hadd).typed.oneType .output v (hout.symm.trans hv)
    case sources => exact fun slot hslot => by cases hslot
  · constructor
    case output =>
      rw [hout]
      exact haddFit.output
    case first =>
      rw [hfirst]
      exact ⟨some (.mem m), Selection.optional_of_operand
        (by simp only [operand, hm, bind, Except.bind])⟩
    case second => exact ⟨none, rfl⟩
    case place =>
      rw [hout]
      exact fun _ => haddFit.place (Selection.not_dividesInts haddOp.2)
    case address =>
      intro _
      rw [hfirst]
      exact ⟨m, hm⟩
    case dividend => exact fun hdiv => absurd hdiv (Selection.not_dividesInts rfl)
    case count => exact fun hs => by cases hs
    case converted => exact fun hitof => by cases hitof
    case float => exact fun harith => by cases harith
    case fused => exact fun hfused => by cases hfused

/-- No rule takes away that selection has code, but for multiplications of bytes by memory. -/
theorem keeps_selectable (t : Target) :
    Keeps ⟨c.locations, t.features⟩ (Selectable lowered types c) := by
  intro rule hrule b ops ops' h hops
  have hint : t.features.intMulAdd = false := rfl
  cases application_of_rule hrule h with
  | lea found => exact leaFusion?_selectable rfl hops found
  | double found => exact doubling_selectable hops found
  | mulAdd found =>
    obtain ⟨hmul, hops⟩ := List.forall_mem_cons.mp hops
    obtain ⟨hnext, hrest⟩ := List.forall_mem_cons.mp hops
    exact List.forall_mem_cons.mpr ⟨mulAdd?_selectable hint hmul hnext found, hrest⟩
  | retarget found =>
    obtain ⟨hop, hops⟩ := List.forall_mem_cons.mp hops
    obtain ⟨hmv, hrest⟩ := List.forall_mem_cons.mp hops
    exact List.forall_mem_cons.mpr ⟨retarget?_selectable hop hmv found, hrest⟩
  | substitute found =>
    obtain ⟨hmv, hops⟩ := List.forall_mem_cons.mp hops
    obtain ⟨hop, hrest⟩ := List.forall_mem_cons.mp hops
    exact List.forall_mem_cons.mpr ⟨substitute?_selectable hmv hop found, hrest⟩

end Rules

/-! ## Runs -/

theorem exists_instrs {c : Closure} {is : List Instr} :
    (∃ code, Selection.instrs c is = .ok code) ↔ ∀ i ∈ is, ∃ code,
      Selection.instr c i = .ok code := by
  induction is with
  | nil => exact ⟨fun _ i hi => (by cases hi), fun _ => ⟨[], rfl⟩⟩
  | cons i rest ih =>
    rw [List.forall_mem_cons, ← ih]
    constructor
    · rintro ⟨code, h⟩
      obtain ⟨first, more, hfirst, hmore, -⟩ := Selection.instrs_cons_eq_ok.mp h
      exact ⟨⟨first, hfirst⟩, more, hmore⟩
    · rintro ⟨⟨first, hfirst⟩, more, hmore⟩
      exact ⟨first ++ more, Selection.instrs_cons_eq_ok.mpr ⟨first, more, hfirst, hmore, rfl⟩⟩

/-- Optimised code is selected unless it multiplies bytes by memory. The only such products are
those whose second factor a move of the lowered code had loaded, and was taken back out of its
register. -/
theorem optimised_selects_iff_no_byte_product {t : Target} {c lowered : Closure}
    {code : List Machine.Inst} {types : String → Ty} (hlower : t.lower c = .ok lowered)
    (hselect : lowered.select = .ok code)
    (htyped : ∀ i ∈ lowered.blocks.flatMap Block.ops, WellTyped types lowered.locations i)
    (limit : Int) :
    let optimised := (run t.features limit lowered).1
    ((∃ code', optimised.select = .ok code') ↔
        ∀ i ∈ optimised.blocks.flatMap Block.ops, ¬ ByteProduct optimised i) ∧
      ∀ i ∈ optimised.blocks.flatMap Block.ops, ByteProduct optimised i →
        ∃ mv ∈ lowered.blocks.flatMap Block.ops, mv.op = .move ∧ mv.first = i.second := by
  intro optimised
  have hcode := exists_instrs.mp ⟨code, hselect⟩
  have hsettled : ∀ i ∈ lowered.blocks.flatMap Block.ops, Settled i := by
    intro i hi
    obtain ⟨b, hb, hi⟩ := List.mem_flatMap.mp hi
    exact settled_of_lower hlower b hb i hi
  have hlowered : ∀ i ∈ lowered.blocks.flatMap Block.ops,
      Selectable (lowered.blocks.flatMap Block.ops) types lowered i := by
    intro i hi
    obtain ⟨code, hi'⟩ := hcode i hi
    exact ⟨htyped i hi, fun hc => Selection.fit_of_ok (hsettled i hi) hc hi', fun _ => ⟨code, hi'⟩,
      fun _ => hi, fun hbyte => absurd hi' (hbyte.refused (htyped i hi))⟩
  have hoptimised : ∀ i ∈ optimised.blocks.flatMap Block.ops,
      Selectable (lowered.blocks.flatMap Block.ops) types lowered i :=
    (keeps_selectable t).sweeps _ hlowered
  refine ⟨?_, fun i hi => (hoptimised i hi).byte⟩
  refine exists_instrs.trans (forall₂_congr fun i hi => ?_)
  have hsame : Selection.instr optimised i = Selection.instr lowered i := rfl
  have hi := hoptimised i hi
  rw [hsame]
  constructor
  · rintro ⟨code', hcode'⟩ hbyte
    exact ByteProduct.refused hbyte hi.typed hcode'
  · intro hbyte
    cases hc : i.op.computes with
    | true => exact Selection.exists_code hi.typed (hi.fit hc) hc hbyte
    | false => exact hi.code hc

/-- The multiplication of `a` by a variable. -/
def timesVar (factor : String) (t : Ty) : Instr :=
  .make .mul (varOf "a" t) (varOf factor t) (varOf "d" t)

/-- `d = a * x` by way of `t`. The factor `x` is in the frame, all else in registers. -/
def framedFactor (offset : Int64) (t : Ty) : Closure :=
  { oneBlock [] [.make .move (varOf "x" t) none (varOf "t" t), timesVar "t" t] ["d"] with
    locations := [("x", ⟨none, some offset⟩), ("t", ⟨some regRcx, none⟩),
      ("a", ⟨some (gpr Machine.rbx 8), none⟩), ("d", ⟨some regRdx, none⟩)] }

/-- The product in lowered form, with a frame that keeps rbx. -/
def loweredFactor (offset : Int64) (t : Ty) : Closure :=
  { framedFactor offset t with frame := 32, saved := [⟨gpr Machine.rbx 8, -24⟩] }

/-- Words of four bytes are multiplied by the frame. -/
theorem optimised_word_product_selects :
    ∃ code, (run Selection.linux.features 10 (loweredFactor (-8) .i32)).1.select = .ok code := by
  have hlower : Selection.linux.lower (framedFactor (-8) .i32) =
      .ok (loweredFactor (-8) .i32) := rfl
  have hrun : (run Selection.linux.features 10 (loweredFactor (-8) .i32)).1.blocks.flatMap
      Block.ops =
      [timesVar "x" .i32] := rfl
  have htyped : ∀ i ∈ (loweredFactor (-8) .i32).blocks.flatMap Block.ops,
      WellTyped (fun _ => .i32) (loweredFactor (-8) .i32).locations i := by decide +kernel
  refine (optimised_selects_iff_no_byte_product hlower rfl htyped 10).1.mpr fun i hi => ?_
  rw [hrun] at hi
  obtain rfl := List.mem_singleton.mp hi
  rintro ⟨-, ⟨o, ho, hwidth⟩, -⟩
  cases ho
  cases hwidth

/-- A byte that was loaded from the frame for a multiplication is multiplied from there after
optimisation, and what selection had code for has none any more. -/
theorem optimised_byte_product_is_refused :
    Selection.linux.lower (framedFactor (-1) .i8) = .ok (loweredFactor (-1) .i8) ∧
      (∃ code, (loweredFactor (-1) .i8).select = .ok code) ∧
      (run Selection.linux.features 10 (loweredFactor (-1) .i8)).1.select =
        .error ⟨.select, "f", some (timesVar "x" .i8), .byteMultiply⟩ :=
  ⟨rfl, ⟨_, rfl⟩, rfl⟩

end Backend.Peephole
