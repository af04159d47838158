-- What the rules find: for each rule, the facts about the instructions it looks at that its proof
-- needs, and the arithmetic of words modulo the width of a type.
import Backend.Proofs.Peephole.Temporary

namespace Backend.Peephole

universe u

/-! ## Blocks the laws are about -/

/-- The types of an operand: its own, and that of the literal a symbol stands for. -/
def typesOf : Operand → List Ty
  | .symbol sym => sym.ty :: (sym.const.map Literal.ty).toList
  | o => [o.ty]

/-- The operands whose types have to agree: all of arithmetic, and both sides of a move. -/
def boundOperands (i : Instr) : List Operand :=
  if isArith i.op then
    i.first.toList ++ i.second.toList ++ i.addend.toList ++ i.output.toList
  else if i.op == .move then i.first.toList ++ i.output.toList
  else []

/-- Types of one width and register class. -/
def SameKind (t t' : Ty) : Prop := t.size = t'.size ∧ t.isFloat = t'.isFloat

theorem SameKind.symm {t t' : Ty} (h : SameKind t t') : SameKind t' t := ⟨h.1.symm, h.2.symm⟩

theorem SameKind.trans {t t' t'' : Ty} (h : SameKind t t') (h' : SameKind t' t'') :
    SameKind t t'' := ⟨h.1.trans h'.1, h.2.trans h'.2⟩

/-- All operands of arithmetic, and both sides of a move, have one width and register class. -/
def Uniform (i : Instr) : Prop :=
  ∀ o ∈ boundOperands i, ∀ o' ∈ boundOperands i, ∀ t ∈ typesOf o, ∀ t' ∈ typesOf o', SameKind t t'

/-- Addresses are made of registers and variables, and widths and classes agree. -/
structure Regular (i : Instr) : Prop where
  addresses : PlainAddresses i
  uniform : Uniform i

theorem ty_mem_typesOf (o : Operand) : o.ty ∈ typesOf o := by
  cases o <;> simp [typesOf, Operand.ty]

theorem boundOperands_of_arith {i : Instr} (h : isArith i.op = true) :
    boundOperands i = i.first.toList ++ i.second.toList ++ i.addend.toList ++ i.output.toList := by
  simp [boundOperands, h]

theorem boundOperands_of_move {i : Instr} (h : i.op = .move) :
    boundOperands i = i.first.toList ++ i.output.toList := by
  simp [boundOperands, h, isArith]

/-- Two operands that have to agree do so. -/
theorem Uniform.kind {i : Instr} (h : Uniform i) (o o' : Operand) (ho : o ∈ boundOperands i)
    (ho' : o' ∈ boundOperands i) : SameKind o.ty o'.ty :=
  h o ho o' ho' _ (ty_mem_typesOf o) _ (ty_mem_typesOf o')

/-- An instruction whose types are those of another one. -/
theorem Uniform.of_types {i j : Instr} (h : Uniform i)
    (hsub : ∀ o ∈ boundOperands j, ∀ t ∈ typesOf o, ∃ p ∈ boundOperands i, t ∈ typesOf p) :
    Uniform j := by
  intro o ho o' ho' t ht t' ht'
  obtain ⟨p, hp, hpt⟩ := hsub o ho t ht
  obtain ⟨p', hp', hpt'⟩ := hsub o' ho' t' ht'
  exact h p hp p' hp' t hpt t' hpt'

/-- If all operands that have to agree are of the kind of one type, they agree. -/
theorem uniform_of_kind {i : Instr} (t : Ty)
    (h : ∀ o ∈ boundOperands i, ∀ t' ∈ typesOf o, SameKind t' t) : Uniform i :=
  fun o ho o' ho' t ht t' ht' => (h o ho t ht).trans (h o' ho' t' ht').symm

/-- Reading the operand needs no other addresses than of registers and variables. -/
def PlainSource (o : Option Operand) : Prop := ∀ p ∈ Instr.readsOption o, AddressedDirectly p

theorem addressedDirectly_of_isDirect {o : Operand} (h : isDirect (some o) = true) :
    AddressedDirectly o := by
  cases o <;> simp_all [isDirect, AddressedDirectly]

theorem plainSource_of_isDirect {o : Option Operand} (h : isDirect o = true) : PlainSource o := by
  unfold isDirect at h
  split at h
  · simp [PlainSource, Instr.readsOption, Instr.reads, Instr.addressParts, AddressedDirectly]
  · simp [PlainSource, Instr.readsOption, Instr.reads, Instr.addressParts, AddressedDirectly]
  · simp at h

theorem addressedDirectly_part {o p : Operand} (h : AddressedDirectly o)
    (hp : p ∈ Instr.addressParts o) : AddressedDirectly p := by
  cases o with
  | indirect base index scale disp t =>
    obtain ⟨hb, hi⟩ := h
    simp only [Instr.addressParts, List.mem_append, Option.mem_toList] at hp
    rcases hp with rfl | rfl
    · exact addressedDirectly_of_isDirect (by simpa using hb)
    · exact addressedDirectly_of_isDirect (by simpa using hi)
  | _ => simp [Instr.addressParts] at hp

theorem plainAddresses_iff {i : Instr} (hs : isSilent i.op = false) :
    PlainAddresses i ↔ PlainSource i.first ∧ PlainSource i.second ∧ PlainSource i.addend ∧
      ∀ o ∈ i.output, AddressedDirectly o := by
  unfold PlainAddresses PlainSource
  rw [uses_eq hs]
  constructor
  · intro h
    refine ⟨fun p hp => h p ?_, fun p hp => h p ?_, fun p hp => h p ?_, fun o ho => h o ?_⟩
    all_goals simp_all
  · rintro ⟨h1, h2, h3, ho⟩ p hp
    simp only [List.mem_append, Option.mem_toList] at hp
    rcases hp with (((hp | hp) | hp) | hp) | hp
    · exact h1 p hp
    · exact h2 p hp
    · exact h3 p hp
    · split at hp
      · simp at hp
      · cases hout : i.output with
        | none => simp [outputParts, hout] at hp
        | some o =>
          simp only [outputParts, hout, Option.map_some, Option.getD_some] at hp
          exact addressedDirectly_part (ho o (by simp [hout])) hp
    · exact ho p hp

/-- The variables that a move or a computation names directly, as a source or as the output of the
move. -/
def namedVars (i : Instr) : List Var :=
  let operands :=
    if i.op == .move then i.first.toList ++ i.output.toList
    else if i.op.computes then i.first.toList ++ i.second.toList
    else []
  operands.filterMap Operand.var?

theorem op_of_computes {op : Opcode} (h : op.computes = true) :
    isSilent op = false ∧ (op.isBranch = false ∧ op ≠ .label) ∧ (op == .move) = false := by
  cases op <;> simp_all [Opcode.computes, Opcode.isArithmetic, Opcode.isCompare, Opcode.isFused,
    Opcode.isConversion, isSilent, Opcode.isBranch, Opcode.isCondBranch]

theorem mem_namedVars_of_computes {i : Instr} (h : i.op.computes = true) {v : Var} :
    v ∈ namedVars i ↔ i.first = some (.var v) ∨ i.second = some (.var v) := by
  simp [namedVars, h, (op_of_computes h).2.2, List.mem_filterMap, var?_eq_some]

theorem mem_namedVars_of_move {i : Instr} (h : i.op = .move) {v : Var} :
    v ∈ namedVars i ↔ i.first = some (.var v) ∨ i.output = some (.var v) := by
  simp [namedVars, h, List.mem_filterMap, var?_eq_some]

/-- Moves and computations name each variable at one type. -/
def OneType (ops : List Instr) : Prop :=
  ∀ i ∈ ops, ∀ j ∈ ops, ∀ v ∈ namedVars i, ∀ w ∈ namedVars j, v.ident = w.ident → v.ty = w.ty

/-! ## What the rules find -/

section Found

variable {st : Setting} {b : Block} {mul mv next i : Instr} {rest : List Instr} {t cur : Var}

theorem intLiteral?_eq_some {o : Option Operand} {d : Int64} (h : intLiteral? o = some d) :
    ∃ l : Literal, o = some (.imm l) ∧ l.int? = some d := by
  unfold intLiteral? literal? at h
  split at h
  · exact ⟨_, rfl, h⟩
  · simp at h

theorem isDirect_of_inRegister {o : Option Operand} (h : inRegister st o = true) :
    isDirect o = true := by
  unfold inRegister at h
  split at h <;> simp_all [isDirect]

/-- What a scaled product is: the operand and the scale are the factors in either order. -/
structure ScaledProduct (st : Setting) (b : Block) (mul : Instr) (v : Option Operand)
    (scale : Int64) (t : Var) : Prop where
  op : mul.op = .mul
  temp : temp? st b mul.output = some t
  int : t.ty.isFloat = false
  register : inRegister st v = true
  ty : typeOf v = t.ty
  allowed : scale = 1 ∨ scale = 2 ∨ scale = 4 ∨ scale = 8
  factors : (v = mul.first ∧ intLiteral? mul.second = some scale) ∨
    (v = mul.second ∧ intLiteral? mul.first = some scale)

theorem ScaledProduct.direct {v : Option Operand} {scale : Int64}
    (h : ScaledProduct st b mul v scale t) :
    isDirect v = true := isDirect_of_inRegister h.register

theorem scaledProduct?_eq_some {v : Option Operand} {scale : Int64}
    (h : scaledProduct? st b mul = some (v, scale, t)) : ScaledProduct st b mul v scale t := by
  have hscale : (¬ scale = 1 → ¬ scale = 2 → ¬ scale = 4 → scale = 8) →
      scale = 1 ∨ scale = 2 ∨ scale = 4 ∨ scale = 8 := by tauto
  unfold scaledProduct? at h
  cases hl : (literal? mul.first).isSome with
  | true =>
    simp only [hl, if_true] at h
    simp [Option.bind_eq_some_iff] at h
    obtain ⟨⟨-, hop⟩, ht, ⟨hint, -⟩, hlit, hs, ⟨hreg, hty⟩, rfl⟩ := h
    exact ⟨hop, ht, hint, hreg, hty, hscale hs, .inr ⟨rfl, hlit⟩⟩
  | false =>
    simp only [hl, Bool.false_eq_true, if_false] at h
    simp [Option.bind_eq_some_iff] at h
    obtain ⟨⟨-, hop⟩, ht, ⟨hint, -⟩, hlit, hs, ⟨hreg, hty⟩, rfl⟩ := h
    exact ⟨hop, ht, hint, hreg, hty, hscale hs, .inl ⟨rfl, hlit⟩⟩

theorem followMove?_eq_some {after : List Instr} (h : followMove? st b t rest = some (cur, after)) :
    (cur = t ∧ after = rest) ∨
      ∃ mv, rest = mv :: after ∧ mv.op = .move ∧ isVar mv.first t = true ∧
        temp? st b mv.output = some cur ∧ cur.ty = t.ty := by
  unfold followMove? at h
  split at h
  · rename_i mv after'
    split at h
    · rename_i hmv
      simp only [Bool.and_eq_true, beq_iff_eq] at hmv
      split at h
      · rename_i t2 ht2
        split at h
        · rename_i hty
          simp only [Option.some.injEq, Prod.mk.injEq] at h
          obtain ⟨rfl, rfl⟩ := h
          exact .inr ⟨mv, rfl, hmv.1, hmv.2, ht2, by simpa using hty⟩
        · simp at h
      · simp at h
    · simp only [Option.some.injEq, Prod.mk.injEq] at h
      exact .inl ⟨h.1.symm, h.2.symm⟩
  · simp only [Option.some.injEq, Prod.mk.injEq] at h
    exact .inl ⟨h.1.symm, h.2.symm⟩

/-- What the constant that is added to a temporary is. -/
structure AddedConstant (add : Instr) (t : Var) (disp : Int64) : Prop where
  operands : ∃ d, ((isVar add.first t = true ∧ intLiteral? add.second = some d) ∨
      (add.op = .add ∧ isVar add.second t = true ∧ intLiteral? add.first = some d)) ∧
    disp = if add.op == .sub then -d else d
  fits : Machine.fitsInt32 disp = true

theorem addedConstant?_eq_some {add : Instr} {disp : Int64}
    (h : addedConstant? add t = some disp) : AddedConstant add t disp := by
  unfold addedConstant? at h
  by_cases hfirst : isVar add.first t = true
  · simp only [hfirst, if_true] at h
    simp [Option.bind_eq_some_iff] at h
    obtain ⟨d, hd, ⟨hfits, hneg⟩, rfl⟩ := h
    refine ⟨⟨d, .inl ⟨hfirst, hd⟩, by simp⟩, ?_⟩
    split
    · exact hneg
    · exact hfits
  · simp only [hfirst, Bool.false_eq_true, if_false] at h
    by_cases hsecond : (add.op == .add && isVar add.second t) = true
    · simp only [hsecond, if_true] at h
      simp only [Bool.and_eq_true, beq_iff_eq] at hsecond
      simp [Option.bind_eq_some_iff] at h
      obtain ⟨d, hd, ⟨hfits, hneg⟩, rfl⟩ := h
      refine ⟨⟨d, .inr ⟨hsecond.1, hsecond.2, hd⟩, by simp⟩, ?_⟩
      split
      · exact hneg
      · exact hfits
    · simp [hsecond] at h

/-- What an address fusion is. -/
structure Fusion (st : Setting) (b : Block) (ops : List Instr) (f : LeaFusion) (mul add : Instr)
    (between : List Instr) (t cur : Var) : Prop where
  ops : ops = mul :: (between ++ add :: f.rest)
  product : ScaledProduct st b mul f.index f.scale t
  between : (cur = t ∧ between = []) ∨
    ∃ mv, between = [mv] ∧ mv.op = .move ∧ isVar mv.first t = true ∧
      temp? st b mv.output = some cur ∧ cur.ty = t.ty
  op : add.op = .add ∨ add.op = .sub
  constant : AddedConstant add cur f.disp
  dst : f.dst = add.output
  flat : isIndirect add.output = false
  some : add.output ≠ none
  ty : typeOf add.output = t.ty

theorem leaFusion?_eq_some {ops : List Instr} {f : LeaFusion} (h : leaFusion? st b ops = some f) :
    ∃ mul add between t cur, Fusion st b ops f mul add between t cur := by
  cases ops with
  | nil => simp [leaFusion?] at h
  | cons mul rest =>
    unfold leaFusion? at h
    simp only [Option.bind_eq_bind, Option.bind_eq_some_iff] at h
    obtain ⟨⟨v, scale, t⟩, hprod, ⟨cur, after⟩, hmove, h⟩ := h
    cases after with
    | nil => simp at h
    | cons add after =>
      simp [Option.bind_eq_some_iff] at h
      obtain ⟨hop, disp, hdisp, ⟨⟨hflat, hsome⟩, hty⟩, rfl⟩ := h
      have hprod := scaledProduct?_eq_some hprod
      have hop' : add.op = .add ∨ add.op = .sub := by
        by_cases h : add.op = .add
        · exact .inl h
        · exact .inr (hop h)
      have hadd := addedConstant?_eq_some hdisp
      rcases followMove?_eq_some hmove with ⟨rfl, rfl⟩ | ⟨mv, rfl, hmv⟩
      · exact ⟨mul, add, [], cur, cur, rfl, hprod, .inl ⟨rfl, rfl⟩, hop', hadd, rfl, hflat, hsome,
          hty⟩
      · exact ⟨mul, add, [mv], t, cur, rfl, hprod, .inr ⟨mv, rfl, hmv⟩, hop', hadd, rfl, hflat,
          hsome, hty⟩

/-- The addend of a fused multiplication is the other source of the next instruction, or its
negated literal. -/
theorem productUse?_eq_some {op : Opcode} {addend : Option Operand}
    (h : productUse? next t = some (op, addend)) :
    (next.op = .add ∨ next.op = .sub) ∧ op.isFused = true ∧
      ∃ o, (o = next.first ∨ o = next.second) ∧
        (addend = o ∨ ∃ l, o = some (.imm l) ∧ addend = some (.imm (negate l))) := by
  unfold productUse? at h
  split at h
  · rename_i hc
    simp only [Bool.and_eq_true, beq_iff_eq] at hc
    simp only [Option.some.injEq, Prod.mk.injEq] at h
    obtain ⟨rfl, rfl⟩ := h
    exact ⟨.inl hc.1, rfl, _, .inr rfl, .inl rfl⟩
  · split at h
    · rename_i hc
      simp only [Bool.and_eq_true, beq_iff_eq] at hc
      simp only [Option.some.injEq, Prod.mk.injEq] at h
      obtain ⟨rfl, rfl⟩ := h
      exact ⟨.inl hc.1, rfl, _, .inl rfl, .inl rfl⟩
    · split at h
      · rename_i hc
        simp only [Bool.and_eq_true, beq_iff_eq] at hc
        split at h
        all_goals
          simp only [Option.some.injEq, Prod.mk.injEq] at h
          obtain ⟨rfl, rfl⟩ := h
        · rename_i bytes hsecond
          exact ⟨.inr hc.1, rfl, _, .inr rfl, .inl hsecond.symm⟩
        · rename_i l _ hsecond
          exact ⟨.inr hc.1, rfl, _, .inr rfl, .inr ⟨l, hsecond, rfl⟩⟩
        · exact ⟨.inr hc.1, rfl, _, .inr rfl, .inl rfl⟩
      · split at h
        · rename_i hc
          simp only [Bool.and_eq_true, beq_iff_eq] at hc
          simp only [Option.some.injEq, Prod.mk.injEq] at h
          obtain ⟨rfl, rfl⟩ := h
          exact ⟨.inr hc.1, rfl, _, .inl rfl, .inl rfl⟩
        · simp at h

/-- How an integer product is used by the next instruction. -/
inductive ProductUse (next : Instr) (t : Var) : Opcode → Option Operand → Prop
  | addFirst (op : next.op = .add) (h : isVar next.first t = true) :
      ProductUse next t .fmadd next.second
  | addSecond (op : next.op = .add) (h : isVar next.second t = true) :
      ProductUse next t .fmadd next.first
  | subSecond (op : next.op = .sub) (h : isVar next.second t = true) :
      ProductUse next t .fmsub next.first

/-- Integers are fused only if the product is added or subtracted, and never with a literal. -/
theorem productUse_of_canFuse {op : Opcode} {addend : Option Operand}
    (h : productUse? next t = some (op, addend)) (hint : t.ty.isFloat = false)
    (hfuse : canFuse st.features t.ty op addend = true) : ProductUse next t op addend := by
  simp only [canFuse, hint, Bool.false_eq_true, if_false, Bool.and_eq_true, bne_iff_ne] at hfuse
  obtain ⟨⟨-, hop⟩, hlit⟩ := hfuse
  unfold productUse? at h
  split at h
  · rename_i hc
    simp only [Bool.and_eq_true, beq_iff_eq] at hc
    simp only [Option.some.injEq, Prod.mk.injEq] at h
    obtain ⟨rfl, rfl⟩ := h
    exact .addFirst hc.1 hc.2
  · split at h
    · rename_i hc
      simp only [Bool.and_eq_true, beq_iff_eq] at hc
      simp only [Option.some.injEq, Prod.mk.injEq] at h
      obtain ⟨rfl, rfl⟩ := h
      exact .addSecond hc.1 hc.2
    · split at h
      · exfalso
        split at h
        · simp only [Option.some.injEq, Prod.mk.injEq] at h
          exact hop h.1.symm
        · simp only [Option.some.injEq, Prod.mk.injEq] at h
          rw [← h.2] at hlit
          simp [literal?] at hlit
        · simp only [Option.some.injEq, Prod.mk.injEq] at h
          exact hop h.1.symm
      · split at h
        · rename_i hc
          simp only [Bool.and_eq_true, beq_iff_eq] at hc
          simp only [Option.some.injEq, Prod.mk.injEq] at h
          obtain ⟨rfl, rfl⟩ := h
          exact .subSecond hc.1 hc.2
        · simp at h

theorem retarget?_eq_some {op new : Instr} (h : retarget? st b op mv = some new) :
    op.op.computes = true ∧ mv.op = .move ∧ isDirect mv.output = true ∧
      new = { op with output := mv.output } ∧
      ∃ t, temp? st b op.output = some t ∧ isVar mv.first t = true ∧ typeOf mv.output = t.ty := by
  simp only [retarget?, Option.bind_eq_bind] at h
  simp [Option.bind_eq_some_iff] at h
  obtain ⟨⟨hop, hmv⟩, t, ht, ⟨⟨hfirst, hdir⟩, hty⟩, rfl⟩ := h
  exact ⟨hop, hmv, hdir, rfl, t, ht, hfirst, hty⟩

theorem substitute?_eq_some {op new : Instr} (h : substitute? st b mv op = some new) :
    mv.op = .move ∧ op.op.computes = true ∧ isDirect mv.first = true ∧
      ∃ t, temp? st b mv.output = some t ∧ typeOf mv.first = t.ty ∧
        ((isVar op.first t = true ∧ new = { op with first := mv.first }) ∨
          (isVar op.second t = true ∧ new = { op with second := mv.first })) := by
  simp only [substitute?, Option.bind_eq_bind] at h
  simp [Option.bind_eq_some_iff] at h
  obtain ⟨⟨hmv, hop⟩, t, ht, ⟨hdir, hty⟩, h⟩ := h
  refine ⟨hmv, hop, hdir, t, ht, hty, ?_⟩
  split at h
  · rename_i hf
    exact .inl ⟨hf, by simpa using h.symm⟩
  · split at h
    · rename_i hf
      exact .inr ⟨hf, by simpa using h.symm⟩
    · simp at h

/-- What a multiply-add fusion is. -/
structure MulAdd (st : Setting) (b : Block) (mul next new : Instr) (t : Var) : Prop where
  op : mul.op = .mul
  temp : temp? st b mul.output = some t
  firstDirect : isDirect mul.first = true
  secondDirect : isDirect mul.second = true
  firstTy : typeOf mul.first = t.ty
  secondTy : typeOf mul.second = t.ty
  outputTy : typeOf next.output = t.ty
  outputSome : next.output ≠ none
  fused : ∃ op addend, productUse? next t = some (op, addend) ∧
    canFuse st.features t.ty op addend = true ∧
    new = ⟨op, mul.first, mul.second, addend, next.output, next.pos⟩

theorem mulAdd?_eq_some {new : Instr} (h : mulAdd? st b mul next = some new) :
    ∃ t, MulAdd st b mul next new t := by
  simp only [mulAdd?, Option.bind_eq_bind] at h
  simp [Option.bind_eq_some_iff] at h
  obtain ⟨hop, t, ht, ⟨hd1, hd2⟩, ⟨ht1, ht2⟩, ⟨hout, houtTy⟩, op, addend, huse, -, hfuse, rfl⟩ := h
  exact ⟨t, hop, ht, hd1, hd2, ht1, ht2, houtTy, hout, op, addend, huse, hfuse, rfl⟩

/-- The two sources of an instruction in either order. -/
def Sources (i : Instr) (x y : Option Operand) : Prop :=
  (x = i.first ∧ y = i.second) ∨ (x = i.second ∧ y = i.first)

theorem otherFactor?_eq_some {x : Option Operand} (h : otherFactor? mul t = some x) :
    ∃ y, Sources mul y x ∧ isVar y t = true := by
  unfold otherFactor? at h
  split at h
  · rename_i hv
    exact ⟨_, .inr ⟨rfl, by simpa using h.symm⟩, hv⟩
  · split at h
    · rename_i hv
      exact ⟨_, .inl ⟨rfl, by simpa using h.symm⟩, hv⟩
    · simp at h

/-- Where a multiplication by two is found. -/
inductive Doubling (st : Setting) (b : Block) : List Instr → List Instr → Prop
  | second {mul : Instr} {rest : List Instr} (op : mul.op = .mul) (two : isTwo mul.second = true) :
      Doubling st b (mul :: rest) (doubled mul mul.first :: rest)
  | first {mul : Instr} {rest : List Instr} (op : mul.op = .mul) (two : isTwo mul.first = true) :
      Doubling st b (mul :: rest) (doubled mul mul.second :: rest)
  | moved {mul mv : Instr} {rest : List Instr} {t : Var} {x : Option Operand}
      (op : mul.op = .mul) (move : mv.op = .move)
      (two : isTwo mv.first = true) (temp : temp? st b mv.output = some t)
      (factors : ∃ y, Sources mul y x ∧ isVar y t = true) (type : typeOf x = t.ty) :
      Doubling st b (mv :: mul :: rest) (doubled mul x :: rest)

theorem reduceMul_eq_some {ops ops' : List Instr} (h : reduceMul st b ops = some ops') :
    Doubling st b ops ops' := by
  cases ops with
  | nil => simp [reduceMul] at h
  | cons i rest =>
    simp only [reduceMul] at h
    split at h
    · rename_i hop
      rw [beq_iff_eq] at hop
      split at h
      · rename_i htwo
        simp only [Bool.and_eq_true] at htwo
        simp only [Option.some.injEq] at h
        subst h
        exact .second hop htwo.1
      · split at h
        · rename_i htwo
          simp only [Bool.and_eq_true] at htwo
          simp only [Option.some.injEq] at h
          subst h
          exact .first hop htwo.1.2
        · simp at h
    · split at h
      · rename_i hmv
        simp only [Bool.and_eq_true, beq_iff_eq] at hmv
        cases rest with
        | nil => simp at h
        | cons mul after =>
          simp only [Option.bind_eq_bind] at h
          simp [Option.bind_eq_some_iff] at h
          obtain ⟨t, ht, ⟨hop, -⟩, x, hx, ⟨htype, -⟩, rfl⟩ := h
          exact .moved hop hmv.1 hmv.2 ht (otherFactor?_eq_some hx) htype
      · simp at h

theorem fuseMulAdd_eq_some {ops ops' : List Instr} (h : fuseMulAdd st b ops = some ops') :
    ∃ mul next new rest, ops = mul :: next :: rest ∧ ops' = new :: rest ∧
      mulAdd? st b mul next = some new := by
  unfold fuseMulAdd at h
  split at h
  · obtain ⟨new, hnew, rfl⟩ := Option.map_eq_some_iff.mp h
    exact ⟨_, _, new, _, rfl, rfl, hnew⟩
  · cases h

theorem eliminateMove_eq_some {ops ops' : List Instr} (h : eliminateMove st b ops = some ops') :
    ∃ first second new rest, ops = first :: second :: rest ∧ ops' = new :: rest ∧
      (retarget? st b first second = some new ∨ substitute? st b first second = some new) := by
  unfold eliminateMove at h
  split at h
  · obtain ⟨new, hnew, rfl⟩ := Option.map_eq_some_iff.mp h
    exact ⟨_, _, new, _, rfl, rfl, (Option.or_eq_some_iff.mp hnew).imp_right And.right⟩
  · cases h

theorem mem_defaultRules {rule : Rule} : rule ∈ defaultRules ↔
    rule = fuseLea ∨ rule = fuseMulAdd ∨ rule = reduceMul ∨ rule = eliminateMove := by
  simp [defaultRules]

/-- What a rule does where it applies: the first instructions are an address fusion, a multiply-add
fusion, a doubling or a computation next to a move out of or into its temporary. -/
inductive Application (st : Setting) (b : Block) : List Instr → List Instr → Prop
  | lea {ops : List Instr} {f : LeaFusion} (found : leaFusion? st b ops = some f) :
      Application st b ops (f.instr :: f.rest)
  | mulAdd {mul next new : Instr} {rest : List Instr} (found : mulAdd? st b mul next = some new) :
      Application st b (mul :: next :: rest) (new :: rest)
  | double {ops ops' : List Instr} (found : Doubling st b ops ops') : Application st b ops ops'
  | retarget {op mv new : Instr} {rest : List Instr} (found : retarget? st b op mv = some new) :
      Application st b (op :: mv :: rest) (new :: rest)
  | substitute {mv op new : Instr} {rest : List Instr}
      (found : substitute? st b mv op = some new) :
      Application st b (mv :: op :: rest) (new :: rest)

theorem application_of_rule {rule : Rule} (hrule : rule ∈ defaultRules) {ops ops' : List Instr}
    (h : rule st b ops = some ops') : Application st b ops ops' := by
  rcases mem_defaultRules.mp hrule with rfl | rfl | rfl | rfl
  · obtain ⟨f, hf, rfl⟩ := Option.map_eq_some_iff.mp h
    exact .lea hf
  · obtain ⟨mul, next, new, rest, rfl, rfl, hnew⟩ := fuseMulAdd_eq_some h
    exact .mulAdd hnew
  · exact .double (reduceMul_eq_some h)
  · obtain ⟨first, second, new, rest, rfl, rfl, hnew | hnew⟩ := eliminateMove_eq_some h
    · exact .retarget hnew
    · exact .substitute hnew

end Found

/-! ## Words modulo a width -/

theorem size_le_eight (t : Ty) : t.size ≤ 8 := by
  cases t <;> decide

theorem trunc_congr {w : Nat} {x y : BitVec 64} (h : x.setWidth (8 * w) = y.setWidth (8 * w)) :
    trunc w x = trunc w y := by
  simp [trunc, h]

theorem setWidth_trunc {w : Nat} (hw : w ≤ 8) (x : BitVec 64) :
    (trunc w x).setWidth (8 * w) = x.setWidth (8 * w) := by
  unfold trunc
  rw [BitVec.setWidth_setWidth_of_le _ (by omega), BitVec.setWidth_setWidth_of_le _ (Nat.le_refl _)]

theorem setWidth_sub {w : Nat} (hw : w ≤ 8) (x y : BitVec 64) :
    (x - y).setWidth (8 * w) = x.setWidth (8 * w) - y.setWidth (8 * w) := by
  have h := BitVec.setWidth_add (i := 8 * w) (x - y) y (by omega)
  rw [BitVec.sub_add_cancel] at h
  rw [h, BitVec.add_sub_cancel]

theorem trunc_zero (x : BitVec 64) : trunc 0 x = 0 := by
  have h : x.setWidth (8 * 0) = 0 := BitVec.of_length_zero
  simp [trunc, h]

section Values

variable {μ : Type u} {M : Meaning μ} (locs : Locations) (s : State μ)

theorem bits_of_int {l : Literal} {d : Int64} (h : l.int? = some d) : M.bits l = d.toBitVec := by
  cases l <;> simp_all [Literal.int?, Meaning.bits]

theorem bitsOf_literal {o : Option Operand} {d : Int64} (h : intLiteral? o = some d) :
    ∃ l : Literal, o = some (.imm l) ∧
      bitsOf (o.map (reading M locs s)) = trunc l.ty.size d.toBitVec := by
  obtain ⟨l, rfl, hl⟩ := intLiteral?_eq_some h
  exact ⟨l, rfl, by simp [bitsOf, reading, Reading.bits, bits_of_int hl]⟩

theorem bitsOf_var (v : Var) :
    bitsOf ((some (Operand.var v)).map (reading M locs s)) =
      trunc v.ty.size (s.cells (varCell locs v.ident)) := by
  simp [bitsOf, reading, Reading.bits]

theorem result_arith {op : Opcode} (h : isArith op = true) (t : Ty) (r : Readings) :
    result? M op t r =
      some (M.value op t (bitsOf r.first) (bitsOf r.second) (bitsOf r.addend)) := by
  unfold result?
  rw [if_neg, if_neg, if_pos h]
  · cases op <;> simp_all [isArith]
  · cases op <;> simp_all [isArith]

theorem result_move (t : Ty) (r : Readings) :
    result? M .move t r = some (trunc t.size (bitsOf r.first)) := rfl

theorem readings_sources {i : Instr} (h : isSilent i.op = false) :
    (readings M locs s i).first = i.first.map (reading M locs s) ∧
      (readings M locs s i).second = i.second.map (reading M locs s) ∧
      (readings M locs s i).addend = i.addend.map (reading M locs s) := by
  simp [readings, h]

theorem not_silent_of_arith {op : Opcode} (h : isArith op = true) : isSilent op = false := by
  cases op <;> simp_all [isArith, isSilent]

/-- An operand that is the constant two shows a literal two. -/
theorem bits_of_isTwo {o : Option Operand} (h : isTwo o = true) :
    ∃ p l, o = some p ∧ literalIsTwo l = true ∧ l.ty ∈ typesOf p ∧
      bitsOf (o.map (reading M locs s)) = trunc p.ty.size (M.bits l) := by
  unfold isTwo at h
  split at h
  · rename_i l
    exact ⟨_, l, rfl, h, by simp [typesOf, Operand.ty],
      by simp [bitsOf, reading, Reading.bits, Operand.ty]⟩
  · rename_i sym
    cases hc : sym.const with
    | none => simp [hc] at h
    | some l =>
      refine ⟨_, l, rfl, by simpa [hc] using h, by simp [typesOf, hc], ?_⟩
      simp [bitsOf, reading, Reading.bits, Operand.ty, hc]
  · simp at h

theorem value_void (op : Opcode) (a b c : BitVec 64) : M.value op .void a b c = 0 :=
  trunc_zero _

/-- Multiplying by two is doubling. -/
theorem value_double (law : M.Lawful) {t : Ty} {l : Literal} (two : literalIsTwo l = true)
    (hkind : SameKind l.ty t) (x c : BitVec 64) :
    M.value .mul t x (trunc t.size (M.bits l)) c = M.value .add t x x c ∧
      M.value .mul t (trunc t.size (M.bits l)) x c = M.value .add t x x c := by
  obtain ⟨hsize, hfloat⟩ := hkind
  cases l with
  | int w v =>
    have hv : v = 2 := by simpa [literalIsTwo] using two
    have ht : t.isFloat = false := by rw [← hfloat]; cases w <;> rfl
    have hbits : M.bits (.int w v) = 2 := by rw [hv]; rfl
    simp only [Meaning.value, ht, Bool.false_eq_true, if_false, arithmetic, hbits]
    have hw := size_le_eight t
    constructor
    · rw [← mul_two]
      apply trunc_congr
      rw [BitVec.setWidth_mul _ _ (by omega), BitVec.setWidth_mul _ _ (by omega), setWidth_trunc hw]
    · rw [← two_mul]
      apply trunc_congr
      rw [BitVec.setWidth_mul _ _ (by omega), BitVec.setWidth_mul _ _ (by omega), setWidth_trunc hw]
  | float w v =>
    have hty : (Literal.float w v).ty = t := by
      cases w <;> cases t <;> simp_all [Literal.ty, FloatWidth.ty, Ty.size, Ty.isFloat]
    have ht : t.isFloat = true := by rw [← hty]; cases w <;> rfl
    obtain ⟨h1, h2⟩ := law.doubled t (.float w v) x c two rfl hty
    have hbits : M.bits (.float w v) = M.constant (.float w v) := rfl
    simp only [Meaning.value, ht, if_true, hbits, h1, h2, and_self]
  | string bytes => simp [literalIsTwo] at two
  | bool word => simp [literalIsTwo] at two

/-- Multiplying by an operand that holds a two is doubling, whatever the output is. -/
theorem value_mul_two (law : M.Lawful) (out : Option Operand) {l : Literal}
    (two : literalIsTwo l = true) {f : BitVec 64}
    (hf : ∀ o, out = some o → SameKind l.ty o.ty ∧ f = trunc o.ty.size (M.bits l))
    (x c : BitVec 64) :
    M.value .mul (typeOf out) x f c = M.value .add (typeOf out) x x c ∧
      M.value .mul (typeOf out) f x c = M.value .add (typeOf out) x x c := by
  cases out with
  | none =>
    simp only [show typeOf none = .void from rfl, value_void, and_self]
  | some o =>
    obtain ⟨hkind, rfl⟩ := hf o rfl
    exact value_double law two hkind x c

/-- An integer product that is added or subtracted is a fused one. -/
theorem value_fused {t : Ty} (hint : t.isFloat = false) (a b c d e : BitVec 64) :
    M.value .add t (M.value .mul t a b d) c e = M.value .fmadd t a b c ∧
      M.value .add t c (M.value .mul t a b d) e = M.value .fmadd t a b c ∧
      M.value .sub t c (M.value .mul t a b d) e = M.value .fmsub t a b c := by
  have hw := size_le_eight t
  simp only [Meaning.value, hint, Bool.false_eq_true, if_false, arithmetic]
  refine ⟨trunc_congr ?_, trunc_congr ?_, trunc_congr ?_⟩
  · rw [BitVec.setWidth_add _ _ (by omega), BitVec.setWidth_add _ _ (by omega), setWidth_trunc hw,
      BitVec.add_comm]
  · rw [BitVec.setWidth_add _ _ (by omega), BitVec.setWidth_add _ _ (by omega), setWidth_trunc hw]
  · rw [setWidth_sub hw, setWidth_sub hw, setWidth_trunc hw]

/-- A scaled product and a constant make an address. -/
theorem value_address {t : Ty} (hint : t.isFloat = false) (v k d c e : BitVec 64) :
    M.value .add t (M.value .mul t v (trunc t.size k) c) (trunc t.size d) e =
        trunc t.size (v * k + d) ∧
      M.value .sub t (M.value .mul t v (trunc t.size k) c) (trunc t.size d) e =
        trunc t.size (v * k - d) := by
  have hw := size_le_eight t
  simp only [Meaning.value, hint, Bool.false_eq_true, if_false, arithmetic]
  refine ⟨trunc_congr ?_, trunc_congr ?_⟩
  · rw [BitVec.setWidth_add _ _ (by omega), BitVec.setWidth_add _ _ (by omega), setWidth_trunc hw,
      setWidth_trunc hw, BitVec.setWidth_mul _ _ (by omega), BitVec.setWidth_mul _ _ (by omega),
      setWidth_trunc hw]
  · rw [setWidth_sub hw, setWidth_sub hw, setWidth_trunc hw, setWidth_trunc hw,
      BitVec.setWidth_mul _ _ (by omega), BitVec.setWidth_mul _ _ (by omega), setWidth_trunc hw]

theorem value_mul_comm {t : Ty} (hint : t.isFloat = false) (a b c : BitVec 64) :
    M.value .mul t a b c = M.value .mul t b a c := by
  simp only [Meaning.value, hint, Bool.false_eq_true, if_false, arithmetic, BitVec.mul_comm a b]

theorem value_add_comm {t : Ty} (hint : t.isFloat = false) (a b c : BitVec 64) :
    M.value .add t a b c = M.value .add t b a c := by
  simp only [Meaning.value, hint, Bool.false_eq_true, if_false, arithmetic, BitVec.add_comm a b]

/-- The address that a fusion computes is the scaled operand plus the displacement. -/
theorem addressValue?_fusion {f : LeaFusion} {o : Operand} (hf : f.index = some o)
    (hty : o.ty.size = (typeOf f.dst).size)
    (hs : f.scale = 1 ∨ f.scale = 2 ∨ f.scale = 4 ∨ f.scale = 8) :
    addressValue? (typeOf f.dst) (f.instr.first.map (reading M locs s)) =
      some ((reading M locs s o).bits * f.scale.toBitVec + f.disp.toBitVec) := by
  rcases hs with h | h | h | h <;>
    simp [LeaFusion.instr, Instr.make, h, reading, fetch, addressValue?, hf, readingPart, partFits,
      partBits, hty]
  · rfl
  · rfl
  · rfl

end Values

end Backend.Peephole
