-- Where two rules apply at one place. A fusion excludes every rule but the elimination of the move
-- it follows, and strength reduction meets only the elimination of the move behind its product.
-- Both ways round the same instruction is left, unless the product is moved on once more.
import Backend.Proofs.Peephole.Windows

namespace Backend.Peephole

/-! ## Rules that exclude each other -/

section Excluded

variable {st : Setting} {b : Block} {i : Instr} {ops rest : List Instr} {f : LeaFusion}

theorem not_isDirect_of_literal {o : Option Operand} {d : Int64} (h : intLiteral? o = some d) :
    isDirect o = false := by
  obtain ⟨l, rfl, -⟩ := intLiteral?_eq_some h
  rfl

theorem not_isDirect_of_isTwo {o : Option Operand} (h : isTwo o = true) : isDirect o = false := by
  unfold isTwo at h
  split at h
  · rfl
  · rfl
  · cases h

/-- The front of an address fusion is a multiplication with one literal factor. -/
theorem front_of_lea (h : leaFusion? st b (i :: rest) = some f) :
    i.op = .mul ∧ (isDirect i.first = false ∨ isDirect i.second = false) := by
  obtain ⟨mul, add, between, t, cur, fu⟩ := leaFusion?_eq_some h
  obtain ⟨rfl, -⟩ := List.cons.inj fu.ops
  refine ⟨fu.product.op, ?_⟩
  rcases fu.product.factors with ⟨-, hlit⟩ | ⟨-, hlit⟩
  · exact .inr (not_isDirect_of_literal hlit)
  · exact .inl (not_isDirect_of_literal hlit)

/-- The front of a multiply-add fusion is a multiplication of two variables or registers, which is
added or subtracted next. -/
theorem front_of_mulAdd {ops' : List Instr} (h : fuseMulAdd st b (i :: rest) = some ops') :
    i.op = .mul ∧ isDirect i.first = true ∧ isDirect i.second = true ∧
      ∃ next after, rest = next :: after ∧ (next.op = .add ∨ next.op = .sub) := by
  obtain ⟨mul, next, new, after, heq, -, hnew⟩ := fuseMulAdd_eq_some h
  obtain ⟨rfl, rfl⟩ := List.cons.inj heq
  obtain ⟨t, m⟩ := mulAdd?_eq_some hnew
  obtain ⟨op, addend, huse, -⟩ := m.fused
  exact ⟨m.op, m.firstDirect, m.secondDirect, next, after, rfl, (productUse?_eq_some huse).1⟩

theorem not_fuseLea_of_not_mul (h : i.op ≠ .mul) : fuseLea st b (i :: rest) = none := by
  apply Option.eq_none_iff_forall_ne_some.mpr
  intro ops' hops'
  obtain ⟨f, hf, -⟩ := Option.map_eq_some_iff.mp hops'
  exact h (front_of_lea hf).1

theorem not_fuseMulAdd_of_not_mul (h : i.op ≠ .mul) : fuseMulAdd st b (i :: rest) = none := by
  apply Option.eq_none_iff_forall_ne_some.mpr
  intro ops' hops'
  exact h (front_of_mulAdd hops').1

theorem not_mulAdd_of_lea (h : leaFusion? st b ops = some f) : fuseMulAdd st b ops = none := by
  cases ops with
  | nil => rfl
  | cons i rest =>
    apply Option.eq_none_iff_forall_ne_some.mpr
    intro ops' hops'
    obtain ⟨-, h1, h2, -⟩ := front_of_mulAdd hops'
    rcases (front_of_lea h).2 with hd | hd
    · rw [h1] at hd
      cases hd
    · rw [h2] at hd
      cases hd

/-- Strength reduction leaves every multiplication to a fusion that takes it. -/
theorem not_reduce_of_fusible (h : isFusible st b (i :: rest) = true) (hop : i.op = .mul) :
    reduceMul st b (i :: rest) = none := by
  simp [reduceMul, hop, h]

/-- What follows a multiply-add fusion's multiplication is no move. -/
theorem not_eliminate_of_mulAdd {ops' : List Instr} (h : fuseMulAdd st b ops = some ops') :
    eliminateMove st b ops = none := by
  cases ops with
  | nil => simp [fuseMulAdd] at h
  | cons i rest =>
    obtain ⟨hop, -, -, next, after, rfl, hnext⟩ := front_of_mulAdd h
    have hmove : next.op ≠ .move := by
      rintro hm
      rw [hm] at hnext
      rcases hnext with h | h <;> cases h
    simp [eliminateMove, retarget?, substitute?, hop, hmove]

/-- Strength reduction and move elimination meet at a multiplication only: the move of a two has
nothing to eliminate. -/
theorem mul_of_reduce_eliminate {reduced eliminated : List Instr}
    (hreduce : reduceMul st b (i :: rest) = some reduced)
    (helim : eliminateMove st b (i :: rest) = some eliminated) : i.op = .mul := by
  cases reduceMul_eq_some hreduce with
  | second op two => exact op
  | first op two => exact op
  | moved op move two temp factors =>
    obtain ⟨new, hnew, -⟩ := Option.map_eq_some_iff.mp helim
    rcases Option.or_eq_some_iff.mp hnew with hnew | ⟨-, hnew⟩
    · have hcomputes := (retarget?_eq_some hnew).1
      rw [move] at hcomputes
      cases hcomputes
    · have hdirect := (substitute?_eq_some hnew).2.2.1
      rw [not_isDirect_of_isTwo two] at hdirect
      cases hdirect

end Excluded

/-! ## What a rewrite does to use counts -/

/-- A definition that may be dropped may still be dropped where no other registers are read and the
variable is read at most once. -/
theorem canRemove_of_uses {locs : Locations} {b b' : Block} {ident : String}
    (h : b.canRemove locs ident = true) (hlive : b'.liveOut = b.liveOut)
    (hregs : ∀ r, Operand.reg r ∈ b'.ops.flatMap Instr.uses →
      Operand.reg r ∈ b.ops.flatMap Instr.uses)
    (hcount : varCount ident (b'.ops.flatMap Instr.uses) ≤ 1) :
    b'.canRemove locs ident = true := by
  have hreads : ∀ key, b'.readsReg key = true → b.readsReg key = true := by
    intro key hkey
    simp only [Block.readsReg, List.any_eq_true] at hkey ⊢
    obtain ⟨i, hi, o, ho, hr⟩ := hkey
    cases o with
    | reg r =>
      obtain ⟨j, hj, hjr⟩ := List.mem_flatMap.mp (hregs r (List.mem_flatMap.mpr ⟨i, hi, ho⟩))
      exact ⟨j, hj, .reg r, hjr, hr⟩
    | _ => simp at hr
  simp only [Block.canRemove, Bool.and_eq_true, Bool.not_eq_true', decide_eq_true_eq] at h ⊢
  obtain ⟨⟨hl, hp⟩, -⟩ := h
  refine ⟨⟨by rw [hlive]; exact hl, ?_⟩, by rw [useCount_eq]; exact hcount⟩
  by_contra hpin
  rw [Bool.not_eq_false] at hpin
  unfold Block.isPinned at hp hpin
  cases hreg : locs.reg? ident with
  | none => simp [hreg] at hpin
  | some r =>
    simp only [hreg, Option.map_some, Option.getD_some] at hp hpin
    rw [hreads _ hpin] at hp
    cases hp

section Uses

variable {st : Setting} {b : Block} {done after : List Instr} {mul mv : Instr} {t : Var}

theorem outputParts_of_isDirect {i : Instr} (h : isDirect i.output = true) :
    outputParts i = [] := by
  unfold isDirect at h
  split at h
  · rename_i v hv
    simp [outputParts, hv, Instr.addressParts]
  · rename_i r hr
    simp [outputParts, hr, Instr.addressParts]
  · cases h

theorem isDirect_of_temp (h : temp? st b mul.output = some t) : isDirect mul.output = true := by
  rw [(temp?_eq_some.mp h).1]
  rfl

/-- What a multiplication into a variable or register reads. -/
theorem uses_of_mul (hop : mul.op = .mul) (hout : isDirect mul.output = true) :
    mul.uses = Instr.readsOption mul.first ++ Instr.readsOption mul.second ++
      Instr.readsOption mul.addend := by
  rw [uses_eq (by simp [hop, isSilent]), outputParts_of_isDirect hout]
  simp

/-- A move of a variable to a variable or register reads the variable first. -/
theorem uses_of_move (hop : mv.op = .move) (hfirst : isVar mv.first t = true)
    (hout : isDirect mv.output = true) :
    ∃ v, v.ident = t.ident ∧ mv.uses =
      .var v :: (Instr.readsOption mv.second ++ Instr.readsOption mv.addend) := by
  obtain ⟨v, hv, hid⟩ := isVar_iff.mp hfirst
  refine ⟨v, hid, ?_⟩
  rw [uses_eq (by simp [hop, isSilent]), outputParts_of_isDirect hout, hv]
  simp [Instr.readsOption, Instr.reads, Instr.addressParts]

theorem uses_of_retargeted {out : Option Operand} (hop : mul.op = .mul)
    (hmul : isDirect mul.output = true) (hout : isDirect out = true) :
    ({ mul with output := out } : Instr).uses = mul.uses := by
  have hnew : isDirect ({ mul with output := out } : Instr).output = true := hout
  rw [uses_of_mul hop hmul]
  exact uses_of_mul hop hnew

/-- Where the product is retargeted nothing more is read. -/
theorem uses_retarget (hop : mul.op = .mul) (hmul : isDirect mul.output = true)
    (hmv : isDirect mv.output = true) :
    ((done ++ { mul with output := mv.output } :: after).flatMap Instr.uses).Sublist
      ((done ++ mul :: mv :: after).flatMap Instr.uses) := by
  simp only [List.flatMap_append, List.flatMap_cons, uses_of_retargeted hop hmul hmv]
  apply List.Sublist.append_left
  apply List.Sublist.append_left
  exact List.sublist_append_right ..

theorem varCount_le_of_sublist {os os' : List Operand} (h : os.Sublist os') (ident : String) :
    varCount ident os ≤ varCount ident os' := by
  unfold varCount
  exact (h.filterMap _).countP_le

end Uses

/-! ## A product whose output is retargeted -/

/-- A multiplication by the integer literal two. -/
def doubles (i : Instr) : Bool :=
  i.op == .mul && (intLiteral? i.first == some 2 || intLiteral? i.second == some 2)

/-- A move of the variable in an operand. -/
def movesFrom (o : Option Operand) (mv : Instr) : Bool :=
  mv.op == .move &&
    match o with
    | some (.var t) => isVar mv.first t
    | _ => false

/-- The first of the instructions moves the variable in an operand. -/
def movedNext (o : Option Operand) (ops : List Instr) : Bool :=
  (ops.head?.map (movesFrom o)).getD false

/-- A product by two goes through two moves in a row, or through a move that reads more than the
product. -/
def carries (mul : Instr) : List Instr → Bool
  | [] => false
  | mv :: rest =>
    doubles mul && movesFrom mul.output mv &&
      (mv.second.isSome || mv.addend.isSome || movedNext mv.output rest)

/-- Somewhere in the instructions a product by two is carried on. -/
def carriesDouble : List Instr → Bool
  | [] => false
  | i :: rest => carries i rest || carriesDouble rest

section Retargeted

variable {st : Setting} {b b' : Block} {mul mv : Instr} {rest : List Instr} {t t' : Var}

/-- A scaled product with another temporary of the same type. -/
theorem scaledProduct?_retarget {out : Option Operand} (ht : temp? st b mul.output = some t)
    (ht' : temp? st b' out = some t') (hty : t'.ty = t.ty) :
    scaledProduct? st b' { mul with output := out } =
      (scaledProduct? st b mul).map fun (v, scale, _) => (v, scale, t') := by
  ext ⟨v, scale, u⟩
  unfold scaledProduct?
  cases hl : (literal? mul.first).isSome with
  | true =>
    simp [Option.bind_eq_some_iff, ht, ht', hty, and_assoc]
  | false =>
    simp [Option.bind_eq_some_iff, ht, ht', hty, and_assoc]

theorem followMove?_of_not_moved (h : movedNext (some (.var t)) rest = false) :
    followMove? st b t rest = some (t, rest) := by
  cases rest with
  | nil => rfl
  | cons i after =>
    have hno : (i.op == .move && isVar i.first t) = false := h
    simp [followMove?, hno]

/-- An address fusion over a move is the fusion of the product that goes straight to where it is
moved. -/
theorem leaFusion?_retarget (hmv : mv.op = .move) (hfirst : isVar mv.first t = true)
    (ht : temp? st b mul.output = some t) (hu : temp? st b mv.output = some t')
    (hu' : temp? st b' mv.output = some t') (hty : t'.ty = t.ty)
    (hnext : movedNext mv.output rest = false) :
    leaFusion? st b' ({ mul with output := mv.output } :: rest) =
      leaFusion? st b (mul :: mv :: rest) := by
  have hout := (temp?_eq_some.mp hu').1
  have hfollow : followMove? st b t (mv :: rest) = some (t', rest) := by
    simp [followMove?, hmv, hfirst, hu, hty]
  simp only [leaFusion?]
  rw [scaledProduct?_retarget ht hu' hty]
  cases hprod : scaledProduct? st b mul with
  | none => rfl
  | some p =>
    obtain ⟨v, scale, cur⟩ := p
    have hcur : cur = t := by
      have htemp := (scaledProduct?_eq_some hprod).temp
      rw [ht] at htemp
      exact (Option.some.inj htemp).symm
    subst hcur
    rw [hout] at hnext
    simp only [Option.map_some, Option.bind_eq_bind, Option.bind_some,
      followMove?_of_not_moved hnext, hfollow, hty]

end Retargeted

/-! ## Two rules at one place -/

/-- A product that is moved out of its temporary. -/
structure Retargets (st : Setting) (b : Block) (mul mv : Instr) (t : Var) : Prop where
  move : mv.op = .move
  temp : temp? st b mul.output = some t
  first : isVar mv.first t = true
  direct : isDirect mv.output = true
  ty : typeOf mv.output = t.ty

section Joins

variable {st : Setting} {b : Block} {done after ops ops' : List Instr} {i mul mv : Instr} {t : Var}

/-- Eliminating a move behind a multiplication retargets the product. -/
theorem retargets_of_eliminate {rest : List Instr} (hop : i.op = .mul)
    (h : eliminateMove st b (i :: rest) = some ops') :
    ∃ mv after t, rest = mv :: after ∧ Retargets st b i mv t ∧
      ops' = { i with output := mv.output } :: after := by
  obtain ⟨first, mv, new, after, heq, rfl, hnew | hnew⟩ := eliminateMove_eq_some h
  · obtain ⟨rfl, rfl⟩ := List.cons.inj heq
    obtain ⟨-, hmv, hdir, rfl, t, ht, hfirst, hty⟩ := retarget?_eq_some hnew
    exact ⟨mv, after, t, rfl, ⟨hmv, ht, hfirst, hdir, hty⟩, rfl⟩
  · obtain ⟨rfl, -⟩ := List.cons.inj heq
    have hmv := (substitute?_eq_some hnew).1
    rw [hop] at hmv
    cases hmv

/-- Where an address fusion follows a move, eliminating the move first leaves the same fusion. -/
theorem lea_after_eliminate {f : LeaFusion}
    (hlea : leaFusion? st { b with ops := done ++ ops } ops = some f)
    (helim : eliminateMove st { b with ops := done ++ ops } ops = some ops') :
    leaFusion? st { b with ops := done ++ ops' } ops' = some f := by
  obtain ⟨mul, add, between, t, cur, fu⟩ := leaFusion?_eq_some hlea
  have hops := fu.ops
  subst hops
  obtain ⟨mv, after, t', hrest, re, rfl⟩ := retargets_of_eliminate fu.product.op helim
  obtain rfl : t' = t := by
    have htemp := fu.product.temp
    rw [re.temp] at htemp
    exact Option.some.inj htemp
  have hadd : add.op ≠ .move := by
    intro hm
    have hop := fu.op
    rw [hm] at hop
    rcases hop with h | h <;> cases h
  rcases fu.between with ⟨-, rfl⟩ | ⟨mv', rfl, hmv, hfirst, hcur, hty⟩
  · obtain ⟨rfl, -⟩ := List.cons.inj hrest
    exact absurd re.move hadd
  · obtain ⟨rfl, rfl⟩ := List.cons.inj hrest
    have hsub : ((done ++ { mul with output := mv'.output } :: add :: f.rest).flatMap
        Instr.uses).Sublist ((done ++ mul :: mv' :: add :: f.rest).flatMap Instr.uses) :=
      uses_retarget fu.product.op (isDirect_of_temp re.temp) re.direct
    obtain ⟨hout, hconst, hrem⟩ := temp?_eq_some.mp hcur
    rw [leaFusion?_retarget hmv hfirst re.temp hcur ?_ hty ?_]
    · exact hlea
    · refine temp?_eq_some.mpr ⟨hout, hconst, canRemove_of_uses hrem rfl ?_ ?_⟩
      · exact fun r hr => hsub.subset hr
      · exact (varCount_le_of_sublist hsub _).trans (count_of_canRemove hrem)
    · simp [movedNext, movesFrom, hadd]

theorem not_lea_of_feature (h : st.features.lea = false) : leaFusion? st b ops = none := by
  cases ops with
  | nil => rfl
  | cons i rest => simp [leaFusion?, scaledProduct?, h]

/-- The sum that a multiplication by two becomes. -/
def doubled? (mul : Instr) : Option Instr :=
  if isTwo mul.second then some (doubled mul mul.first)
  else if isTwo mul.first then some (doubled mul mul.second)
  else none

theorem doubled?_eq_some {new : Instr} (h : doubled? mul = some new) :
    ∃ x two, Sources mul x two ∧ isTwo two = true ∧ new = doubled mul x := by
  unfold doubled? at h
  split at h
  · rename_i htwo
    exact ⟨_, _, .inl ⟨rfl, rfl⟩, htwo, (Option.some.inj h).symm⟩
  · split at h
    · rename_i htwo
      exact ⟨_, _, .inr ⟨rfl, rfl⟩, htwo, (Option.some.inj h).symm⟩
    · cases h

/-- Strength reduction of a multiplication that no fusion takes. -/
theorem reduceMul_of_mul {rest : List Instr} (hop : i.op = .mul) :
    reduceMul st b (i :: rest) =
      if isFusible st b (i :: rest) then none else (doubled? i).map (· :: rest) := by
  cases hf : isFusible st b (i :: rest) with
  | true => simp [not_reduce_of_fusible hf hop]
  | false =>
    simp only [reduceMul, hop, beq_self_eq_true, if_true, hf, doubled?, Bool.not_false,
      Bool.and_true, Bool.false_eq_true, if_false]
    split_ifs <;> simp_all

theorem eq_two_of_isTwo {o : Option Operand} {d : Int64} (htwo : isTwo o = true)
    (h : intLiteral? o = some d) : d = 2 := by
  obtain ⟨l, rfl, hl⟩ := intLiteral?_eq_some h
  cases l with
  | int w v =>
    obtain rfl : v = d := by simpa [Literal.int?] using hl
    simpa [isTwo, literalIsTwo] using htwo
  | _ => simp_all [Literal.int?, isTwo, literalIsTwo]

/-- If an address fusion takes a product by two, the two is an integer literal. -/
theorem doubles_of_lea {x two v : Option Operand} {scale : Int64}
    (h : ScaledProduct st b mul v scale t) (hs : Sources mul x two) (htwo : isTwo two = true) :
    doubles mul = true := by
  have hv : v ≠ two := by
    rintro rfl
    have hdirect := h.direct
    rw [not_isDirect_of_isTwo htwo] at hdirect
    cases hdirect
  unfold doubles
  rw [h.op]
  rcases hs with ⟨rfl, rfl⟩ | ⟨rfl, rfl⟩
  · rcases h.factors with ⟨-, hlit⟩ | ⟨rfl, -⟩
    · simp [hlit, eq_two_of_isTwo htwo hlit]
    · exact absurd rfl hv
  · rcases h.factors with ⟨rfl, -⟩ | ⟨-, hlit⟩
    · exact absurd rfl hv
    · simp [hlit, eq_two_of_isTwo htwo hlit]

/-- A product by two that is not carried on is no part of an address fusion after the elimination
of the move behind it if it was not before. -/
theorem not_lea_after_eliminate {x two : Option Operand} (hop : mul.op = .mul)
    (hs : Sources mul x two) (htwo : isTwo two = true)
    (re : Retargets st { b with ops := done ++ mul :: mv :: after } mul mv t)
    (hcarry : st.features.lea = false ∨ carries mul (mv :: after) = false)
    (hno : leaFusion? st { b with ops := done ++ mul :: mv :: after } (mul :: mv :: after) = none) :
    leaFusion? st { b with ops := done ++ { mul with output := mv.output } :: after }
      ({ mul with output := mv.output } :: after) = none := by
  apply Option.eq_none_iff_forall_ne_some.mpr
  intro f hf
  have hlea : st.features.lea ≠ false := by
    intro hl
    rw [not_lea_of_feature hl] at hf
    cases hf
  obtain ⟨mul', add, between, u, cur, fu⟩ := leaFusion?_eq_some hf
  obtain ⟨rfl, -⟩ := List.cons.inj fu.ops
  -- The move reads the product only, and nothing moves it on.
  have hplain : (mv.second.isSome || mv.addend.isSome || movedNext mv.output after) = false := by
    have hsources : Sources { mul with output := mv.output } x two := hs
    have hretargeted : doubles { mul with output := mv.output } = true :=
      doubles_of_lea fu.product hsources htwo
    have hdouble : doubles mul = true := hretargeted
    have hmoves : movesFrom mul.output mv = true := by
      simp [movesFrom, re.move, (temp?_eq_some.mp re.temp).1, re.first]
    simpa [carries, hdouble, hmoves] using hcarry.resolve_left hlea
  simp only [Bool.or_eq_false_iff, Option.isSome_eq_false_iff, Option.isNone_iff_eq_none] at hplain
  obtain ⟨⟨hsecond, haddend⟩, hnext⟩ := hplain
  have hu' := fu.product.temp
  obtain ⟨hout, hconst, hrem⟩ := temp?_eq_some.mp hu'
  have hty : u.ty = t.ty := by
    have h := re.ty
    rwa [show mv.output = some (.var u) from hout] at h
  -- The old block reads the temporary once more, and nothing else.
  obtain ⟨v, hid, huses⟩ := uses_of_move re.move re.first re.direct
  rw [hsecond, haddend] at huses
  have hmul := uses_of_retargeted hop (isDirect_of_temp re.temp) re.direct
  have hu : temp? st { b with ops := done ++ mul :: mv :: after } mv.output = some u := by
    refine temp?_eq_some.mpr ⟨hout, hconst, ?_⟩
    by_cases hsame : u.ident = t.ident
    · rw [hsame]
      exact (temp?_eq_some.mp re.temp).2.2
    · have hcount := count_of_canRemove hrem
      simp only [List.flatMap_append, List.flatMap_cons, hmul, varCount_append] at hcount
      refine canRemove_of_uses hrem rfl ?_ ?_
      · intro r hr
        simp only [List.flatMap_append, List.flatMap_cons, huses, hmul] at hr ⊢
        simpa [Instr.readsOption] using hr
      · have hv : varCount u.ident [Operand.var v] = 0 := by
          rw [varCount_eq_zero]
          rintro w hw hwu
          obtain rfl : w = v := by simpa using hw
          exact hsame (hwu.symm.trans hid)
        simp only [List.flatMap_append, List.flatMap_cons, huses, varCount_append,
          Instr.readsOption, List.append_nil, hv]
        omega
  rw [leaFusion?_retarget re.move re.first re.temp hu hu' hty hnext, hno] at hf
  cases hf

/-- The move behind a doubled product can still be eliminated. -/
theorem eliminate_after_double {x two : Option Operand} (hop : mul.op = .mul)
    (hs : Sources mul x two) (htwo : isTwo two = true)
    (re : Retargets st { b with ops := done ++ mul :: mv :: after } mul mv t) :
    eliminateMove st { b with ops := done ++ doubled mul x :: mv :: after }
        (doubled mul x :: mv :: after) =
      some ({ doubled mul x with output := mv.output } :: after) := by
  obtain ⟨hout, hconst, hrem⟩ := temp?_eq_some.mp re.temp
  have hcount := count_of_canRemove hrem
  obtain ⟨v, hid, huses⟩ := uses_of_move re.move re.first re.direct
  have hv := varCount_cons_var v (Instr.readsOption mv.second ++ Instr.readsOption mv.addend)
  have hmul := uses_of_mul hop (isDirect_of_temp re.temp)
  have hdouble : (doubled mul x).uses =
      Instr.readsOption x ++ Instr.readsOption x ++ Instr.readsOption mul.addend := by
    rw [uses_eq (by simp [doubled, isSilent]),
      outputParts_of_isDirect (i := doubled mul x) (isDirect_of_temp re.temp)]
    simp [doubled, Opcode.isBranch, Opcode.isCondBranch]
  have htemp : temp? st { b with ops := done ++ doubled mul x :: mv :: after } mul.output =
      some t := by
    refine temp?_eq_some.mpr ⟨hout, hconst, canRemove_of_uses hrem rfl ?_ ?_⟩
    · intro r hr
      simp only [List.flatMap_append, List.flatMap_cons, hdouble, hmul, List.mem_append] at hr ⊢
      rcases hs with ⟨rfl, rfl⟩ | ⟨rfl, rfl⟩ <;> tauto
    · rw [hid] at hv
      simp only [List.flatMap_append, List.flatMap_cons, hdouble, hmul, huses,
        varCount_append, hv] at hcount ⊢
      rcases hs with ⟨rfl, rfl⟩ | ⟨rfl, rfl⟩ <;> omega
  have hretarget : retarget? st { b with ops := done ++ doubled mul x :: mv :: after }
      (doubled mul x) mv = some { doubled mul x with output := mv.output } := by
    have hcomputes : (doubled mul x).op.computes = true := rfl
    have houtput : (doubled mul x).output = mul.output := rfl
    simp [retarget?, hcomputes, re.move, houtput, htemp, re.first, re.direct, re.ty]
  simp [eliminateMove, hretarget]

/-- Where strength reduction and move elimination both apply, each still applies after the other and
both ways end alike, unless the product is carried on. -/
theorem reduce_eliminate_join {rest reduced eliminated : List Instr}
    (hop : i.op = .mul)
    (hreduce : reduceMul st { b with ops := done ++ i :: rest } (i :: rest) = some reduced)
    (helim : eliminateMove st { b with ops := done ++ i :: rest } (i :: rest) = some eliminated)
    (hcarry : st.features.lea = false ∨ carries i rest = false) :
    (∃ sum, reduced = sum :: rest ∧ sum.op = .add) ∧ ∃ joined,
      eliminateMove st { b with ops := done ++ reduced } reduced = some joined ∧
      reduceMul st { b with ops := done ++ eliminated } eliminated = some joined ∧
      isFusible st { b with ops := done ++ eliminated } eliminated = false := by
  obtain ⟨mv, after, t, rfl, re, rfl⟩ := retargets_of_eliminate hop helim
  rw [reduceMul_of_mul hop] at hreduce
  split at hreduce
  · cases hreduce
  · rename_i hfusible
    obtain ⟨new, hnew, rfl⟩ := Option.map_eq_some_iff.mp hreduce
    obtain ⟨x, two, hs, htwo, rfl⟩ := doubled?_eq_some hnew
    have hno : leaFusion? st { b with ops := done ++ i :: mv :: after } (i :: mv :: after) =
        none := by
      by_contra hsome
      exact hfusible (by simp [isFusible, Option.isSome_iff_ne_none.mpr hsome])
    have hlea := not_lea_after_eliminate hop hs htwo re hcarry hno
    have hmulAdd : fuseMulAdd st { b with ops := done ++ { i with output := mv.output } :: after }
        ({ i with output := mv.output } :: after) = none := by
      apply Option.eq_none_iff_forall_ne_some.mpr
      intro ops' hops'
      obtain ⟨-, h1, h2, -⟩ := front_of_mulAdd hops'
      have hdirect := not_isDirect_of_isTwo htwo
      rcases hs with ⟨-, rfl⟩ | ⟨-, rfl⟩
      · exact absurd (hdirect.symm.trans h2) (by decide)
      · exact absurd (hdirect.symm.trans h1) (by decide)
    have hfusible' : isFusible st { b with ops := done ++ { i with output := mv.output } :: after }
        ({ i with output := mv.output } :: after) = false := by
      simp [isFusible, hlea, hmulAdd]
    refine ⟨⟨_, rfl, rfl⟩, _, eliminate_after_double hop hs htwo re, ?_, hfusible'⟩
    have hnew' : doubled? { i with output := mv.output } =
        some { doubled i x with output := mv.output } := by
      unfold doubled? at hnew ⊢
      split at hnew
      · rename_i h2
        rw [if_pos h2, ← Option.some.inj hnew]
        rfl
      · rename_i h2
        split at hnew
        · rename_i h1
          rw [if_neg h2, if_pos h1, ← Option.some.inj hnew]
          rfl
        · cases hnew
    rw [reduceMul_of_mul (i := { i with output := mv.output }) hop, hfusible', hnew']
    simp

end Joins

end Backend.Peephole
