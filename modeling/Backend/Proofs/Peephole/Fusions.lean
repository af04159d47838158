-- The two fusions: a product that is added or subtracted next becomes a fused multiplication, and a
-- scaled product with a constant added becomes an address computation.
import Backend.Proofs.Peephole.Windows

namespace Backend.Peephole

universe u

variable {st : Setting} {b : Block} {done rest : List Instr} {new mul : Instr} {t : Var}

/-! ## Fused multiplications -/

theorem negate_ty (l : Literal) : (negate l).ty = l.ty := by
  cases l <;> rfl

theorem isArith_of_fused {op : Opcode} (h : op.isFused = true) :
    isArith op = true ∧ op.computes = true ∧ isSilent op = false := by
  cases op <;> simp_all [Opcode.isFused, isArith, Opcode.computes, isSilent]

/-- A fused multiplication is as regular as the instructions it is made of. -/
theorem mulAdd_regular {next : Instr} (m : MulAdd st b mul next new t) (hreg : Regular mul)
    (hregNext : Regular next) : Regular new := by
  obtain ⟨op, addend, huse, -, rfl⟩ := m.fused
  obtain ⟨hnext, hfused, o, ho, haddend⟩ := productUse?_eq_some huse
  obtain ⟨harith, -, hs⟩ := isArith_of_fused hfused
  obtain ⟨hout, -, -⟩ := temp?_eq_some.mp m.temp
  have hopArith : isArith mul.op = true := by simp [m.op, isArith]
  have hnextArith : isArith next.op = true := by rcases hnext with h | h <;> simp [h, isArith]
  have hnextSilent := not_silent_of_arith hnextArith
  obtain ⟨h1, h2, -, h4⟩ := (plainAddresses_iff hnextSilent).mp hregNext.addresses
  have hbound := boundOperands_of_arith hopArith
  have hboundNext := boundOperands_of_arith hnextArith
  obtain ⟨d, hd⟩ := Option.ne_none_iff_exists'.mp m.outputSome
  have hdty : d.ty = t.ty := by simpa [typeOf, hd] using m.outputTy
  have hkindMul : ∀ p ∈ boundOperands mul, ∀ ty ∈ typesOf p, SameKind ty t.ty :=
    fun p hp ty hty => hreg.uniform p hp (.var t) (by rw [hbound]; simp [hout]) ty hty _
      (by simp [typesOf, Operand.ty])
  have hkindNext : ∀ p ∈ boundOperands next, ∀ ty ∈ typesOf p, SameKind ty t.ty := by
    intro p hp ty hty
    rw [← hdty]
    exact hregNext.uniform p hp d (by rw [hboundNext]; simp [hd]) ty hty _ (ty_mem_typesOf d)
  constructor
  · refine (plainAddresses_iff hs).mpr ⟨plainSource_of_isDirect m.firstDirect,
      plainSource_of_isDirect m.secondDirect, ?_, h4⟩
    rcases haddend with rfl | ⟨l, -, rfl⟩
    · rcases ho with rfl | rfl
      · exact h1
      · exact h2
    · simp [PlainSource, Instr.readsOption, Instr.reads, Instr.addressParts, AddressedDirectly]
  · refine uniform_of_kind t.ty fun p hp ty hty => ?_
    rw [boundOperands_of_arith harith] at hp
    simp only [List.mem_append] at hp
    rcases hp with ((hp | hp) | hp) | hp
    · exact hkindMul p (by rw [hbound]; simp [Option.mem_toList.mp hp]) ty hty
    · exact hkindMul p (by rw [hbound]; simp [Option.mem_toList.mp hp]) ty hty
    · have hob : ∀ q, o = some q → q ∈ boundOperands next := by
        intro q hq
        rw [hboundNext]
        rcases ho with rfl | rfl <;> simp [hq]
      rcases haddend with rfl | ⟨l, rfl, rfl⟩
      · exact hkindNext p (hob p (by simpa using hp)) ty hty
      · refine hkindNext (.imm l) (hob _ rfl) ty ?_
        obtain rfl : p = .imm (negate l) := by simpa [eq_comm] using hp
        simpa [typesOf, Operand.ty, negate_ty] using hty
    · exact hkindNext p (by rw [hboundNext]; simp [Option.mem_toList.mp hp]) ty hty

theorem ProductUse.isFused {next : Instr} {op : Opcode} {addend : Option Operand}
    (h : ProductUse next t op addend) : op.isFused = true := by
  cases h <;> rfl

/-- What the next instruction gives for a product is what the fused one gives for its factors. -/
theorem ProductUse.value {next : Instr} {op : Opcode} {addend : Option Operand}
    (h : ProductUse next t op addend) (hint : t.ty.isFloat = false) :
    ∃ x, Sources next x addend ∧ isVar x t = true ∧ isArith next.op = true ∧
      ∀ {μ : Type u} (M : Meaning μ) (f : Option Operand → BitVec 64) (a b c d : BitVec 64),
        f x = M.value .mul t.ty a b c →
          M.value next.op t.ty (f next.first) (f next.second) d =
            M.value op t.ty a b (f addend) := by
  cases h with
  | addFirst hop hv =>
    refine ⟨_, .inl ⟨rfl, rfl⟩, hv, by simp [hop, isArith], fun M f a b c d hx => ?_⟩
    rw [hop, hx, (value_fused hint a b _ c d).1]
  | addSecond hop hv =>
    refine ⟨_, .inr ⟨rfl, rfl⟩, hv, by simp [hop, isArith], fun M f a b c d hx => ?_⟩
    rw [hop, hx, (value_fused hint a b _ c d).2.1]
  | subSecond hop hv =>
    refine ⟨_, .inr ⟨rfl, rfl⟩, hv, by simp [hop, isArith], fun M f a b c d hx => ?_⟩
    rw [hop, hx, (value_fused hint a b _ c d).2.2]

/-- The value of a temporary that holds a product. -/
theorem bits_of_product {μ : Type u} {M : Meaning μ} (law : M.Lawful) (locs : Locations)
    (hop : mul.op = .mul) (hout : mul.output = some (.var t)) {t' : Var}
    (hid : t'.ident = t.ident) (hsize : t'.ty.size = t.ty.size) (s : State μ) :
    AgreeOff (cellsOf locs [t.ident]) (exec M locs mul s) s ∧
      bitsOf ((some (Operand.var t')).map (reading M locs (exec M locs mul s))) =
        M.value .mul t.ty (bitsOf (mul.first.map (reading M locs s)))
          (bitsOf (mul.second.map (reading M locs s)))
          (bitsOf (mul.addend.map (reading M locs s))) := by
  have hs : isSilent mul.op = false := by simp [hop, isSilent]
  obtain ⟨hagree, hval⟩ := exec_temp law locs s hout
    (by rw [hop]; exact result_arith rfl _ _)
  obtain ⟨h1, h2, h3⟩ := readings_sources (M := M) locs s hs
  rw [h1, h2, h3] at hval
  exact ⟨hagree, by rw [bitsOf_var, hid, hsize, hval]⟩

/-- Multiplying into a temporary and adding or subtracting it is the fused multiplication. -/
theorem exec_mulAdd {μ : Type u} {M : Meaning μ} {locs : Locations} {next : Instr} {op : Opcode}
    {addend : Option Operand} {pos : Position} (law : M.Lawful) (hop : mul.op = .mul)
    (hout : mul.output = some (.var t)) (hint : t.ty.isFloat = false)
    (hty : typeOf next.output = t.ty) (huse : ProductUse next t op addend)
    (hregNext : Regular next) (once : ReadsOnce locs next t addend)
    (hsome : next.output ≠ none) (s : State μ) :
    AgreeOff (cellsOf locs [t.ident]) (exec M locs next (exec M locs mul s))
      (exec M locs ⟨op, mul.first, mul.second, addend, next.output, pos⟩ s) := by
  obtain ⟨x, hxy, hx, hnext, hvalue⟩ := huse.value hint
  have hs := not_silent_of_arith hnext
  obtain ⟨h1, h2, -, h4⟩ := (plainAddresses_iff hs).mp hregNext.addresses
  obtain ⟨t', rfl, hid⟩ := isVar_iff.mp hx
  obtain ⟨d, hd⟩ := Option.ne_none_iff_exists'.mp hsome
  have hdty : d.ty = t.ty := by simpa [typeOf, hd] using hty
  have hsize : t'.ty.size = t.ty.size := by
    have hbound := boundOperands_of_arith hnext
    have hkind := hregNext.uniform.kind (.var t') d
      (by rw [hbound]; rcases hxy with ⟨h, -⟩ | ⟨h, -⟩ <;> simp [← h])
      (by rw [hbound]; simp [hd])
    rw [← hdty]
    exact hkind.1
  obtain ⟨hagree, hproduct⟩ := bits_of_product law locs hop hout hid hsize s
  have haddend := reading_option_congr (M := M) hagree addend
    (by rcases hxy with ⟨-, rfl⟩ | ⟨-, rfl⟩ <;> assumption) once.other
  obtain ⟨hr1, hr2, hr3⟩ :=
    readings_sources (M := M) locs (exec M locs mul s) hs
  have hfused := isArith_of_fused huse.isFused
  refine exec_congr_of_result hagree rfl (v := M.value op t.ty
    (bitsOf (mul.first.map (reading M locs s))) (bitsOf (mul.second.map (reading M locs s)))
    (bitsOf (addend.map (reading M locs s)))) ?_ ?_ (fun o ho => h4 o ho) once.output
  · rw [result_arith hnext, hr1, hr2, hr3, hty, hvalue M
      (fun o => bitsOf (o.map (reading M locs (exec M locs mul s)))) _ _ _ _ hproduct, haddend]
  · rw [result_arith hfused.1]
    simp only [readings, hfused.2.2, Bool.false_eq_true, if_false, hty]

/-- A product that is added or subtracted next is a fused multiplication. -/
theorem mulAdd_window {next : Instr} (suit : Suitable st.locations b.ops)
    (hops : b.ops = done ++ ([mul, next] ++ rest)) (h : mulAdd? st b mul next = some new) :
    Window.{u} st.locations b.liveOut [mul, next] new rest := by
  obtain ⟨t, m⟩ := mulAdd?_eq_some h
  have hreg := suit.regular mul (by simp [hops])
  have hregNext := suit.regular next (by simp [hops])
  refine ⟨mulAdd_regular m hreg hregNext, fun v hv => ⟨mul, by simp, ?_⟩, ?_, fun hfusions => ?_⟩
  all_goals
    obtain ⟨op, addend, huse, hfuse, rfl⟩ := m.fused
    obtain ⟨hnext, hfused, -⟩ := productUse?_eq_some huse
  · rw [mem_namedVars_of_computes (isArith_of_fused hfused).2.1] at hv
    exact (mem_namedVars_of_computes (by rw [m.op]; rfl)).mpr hv
  · rcases hnext with hn | hn <;> simp [isFloatFusion, m.op, hn, Opcode.isFused]
  have hint : t.ty.isFloat = false := by
    have hzero : floatFusions [mul, next] = 0 := by
      rcases hnext with hn | hn <;> simp [isFloatFusion, m.op, hn, Opcode.isFused]
    rw [hzero] at hfusions
    simpa [isFloatFusion, hfused, m.outputTy] using hfusions
  obtain ⟨hout, -, hrem⟩ := temp?_eq_some.mp m.temp
  have huse := productUse_of_canFuse huse hint hfuse
  obtain ⟨x, hxy, hx, hnextArith, -⟩ := huse.value.{u} hint
  have once := readsOnce_of_isVar suit hops (by simp) hrem (not_silent_of_arith hnextArith)
    (by rcases hnext with hn | hn <;> simp [hn, Opcode.isBranch, Opcode.isCondBranch]) hxy hx
  refine replaces_of_temps [t.ident] suit hops ?_ fun μ M law s => ?_
  · have hused := once.used
    simp only [List.mem_singleton, forall_eq, List.flatMap_cons, varCount_append]
    exact ⟨hrem, by omega⟩
  · exact exec_mulAdd law m.op hout hint m.outputTy huse hregNext once m.outputSome s

/-! ## Address computations -/

section Address

variable {f : LeaFusion} {add : Instr} {between : List Instr} {cur : Var} {ops : List Instr}

theorem fusion_regular (fu : Fusion st b ops f mul add between t cur) (hreg : Regular add) :
    Regular f.instr := by
  have hs : isSilent add.op = false := by rcases fu.op with h | h <;> simp [h, isSilent]
  obtain ⟨-, -, -, h4⟩ := (plainAddresses_iff hs).mp hreg.addresses
  have hdirect := fu.product.direct
  constructor
  · refine (plainAddresses_iff rfl).mpr ⟨?_, ?_, ?_, by rw [← fu.dst] at h4; exact h4⟩
    · obtain ⟨o, ho, hod, -⟩ := exists_of_isDirect hdirect
      intro p hp
      have hparts := addressedDirectly_of_isDirect hod
      simp only [LeaFusion.instr, Instr.make, Instr.readsOption, ho] at hp
      split at hp
      all_goals
        simp only [Instr.reads, Instr.addressParts, Option.toList, List.append_nil, List.nil_append,
          List.mem_cons, List.not_mem_nil, or_false] at hp
        rcases hp with rfl | rfl
        · simp [AddressedDirectly, hod]
        · exact hparts
    · simp [PlainSource, LeaFusion.instr, Instr.make, Instr.readsOption]
    · simp [PlainSource, LeaFusion.instr, Instr.make, Instr.readsOption]
  · intro o ho
    simp [boundOperands, LeaFusion.instr, Instr.make, isArith] at ho

theorem fusion_named (f : LeaFusion) : namedVars f.instr = [] := by
  rw [List.eq_nil_iff_forall_not_mem]
  intro v hv
  rw [mem_namedVars_of_computes rfl] at hv
  simp only [LeaFusion.instr, Instr.make, reduceCtorEq, or_false] at hv
  split at hv <;> simp at hv

/-- The product of a fusion as it is computed in the temporary. -/
theorem value_product {μ : Type u} {M : Meaning μ} {locs : Locations} {v : Option Operand}
    {scale : Int64} (p : ScaledProduct st b mul v scale t) (hreg : Regular mul) (s : State μ) :
    M.value .mul t.ty (bitsOf (mul.first.map (reading M locs s)))
        (bitsOf (mul.second.map (reading M locs s))) (bitsOf (mul.addend.map (reading M locs s))) =
      M.value .mul t.ty (bitsOf (v.map (reading M locs s))) (trunc t.ty.size scale.toBitVec)
        (bitsOf (mul.addend.map (reading M locs s))) := by
  have hbound := boundOperands_of_arith (i := mul) (by simp [p.op, isArith])
  obtain ⟨hout, -, -⟩ := temp?_eq_some.mp p.temp
  have hlit : ∀ l : Literal, some (Operand.imm l) = mul.first ∨ some (Operand.imm l) = mul.second →
      l.ty.size = t.ty.size := fun l hl =>
    (hreg.uniform.kind (.imm l) (.var t)
      (by rw [hbound]; rcases hl with h | h <;> simp [← h]) (by rw [hbound]; simp [hout])).1
  rcases p.factors with ⟨rfl, h⟩ | ⟨rfl, h⟩
  · obtain ⟨l, hl, hbits⟩ := bitsOf_literal (M := M) locs s h
    rw [hbits, hlit l (.inr hl.symm)]
  · obtain ⟨l, hl, hbits⟩ := bitsOf_literal (M := M) locs s h
    rw [hbits, hlit l (.inl hl.symm), value_mul_comm p.int]

/-- The state before the addition: the last temporary holds the product, and only temporaries
have changed. -/
theorem exec_product {μ : Type u} {M : Meaning μ} (law : M.Lawful) (locs : Locations)
    (fu : Fusion st b ops f mul add between t cur) (hreg : ∀ i ∈ ops, Regular i) (s : State μ) :
    AgreeOff (cellsOf locs [t.ident, cur.ident]) (runBlock M locs (mul :: between) s) s ∧
      ∃ c, trunc t.ty.size
          ((runBlock M locs (mul :: between) s).cells (varCell locs cur.ident)) =
        M.value .mul t.ty (bitsOf (f.index.map (reading M locs s)))
          (trunc t.ty.size f.scale.toBitVec) c := by
  obtain ⟨hout, -, -⟩ := temp?_eq_some.mp fu.product.temp
  obtain ⟨hagree, hval⟩ := bits_of_product law locs fu.product.op hout rfl rfl s
  rw [value_product fu.product (hreg mul (by simp [fu.ops])), bitsOf_var] at hval
  have hmono : ∀ ident ∈ [t.ident, cur.ident], ∀ c, cellsOf locs [ident] c →
      cellsOf locs [t.ident, cur.ident] c := fun ident hid c hc =>
    ⟨ident, hid, cellsOf_singleton.mp hc⟩
  rcases fu.between with ⟨rfl, rfl⟩ | ⟨mv, rfl, hmv, hfirst, htemp, hty⟩
  · exact ⟨hagree.mono (hmono _ (by simp)), _, hval⟩
  · obtain ⟨hmvOut, -, -⟩ := temp?_eq_some.mp htemp
    obtain ⟨t', hfirst, hid⟩ := isVar_iff.mp hfirst
    have hboundMv := boundOperands_of_move hmv
    have hkind : SameKind t'.ty cur.ty := (hreg mv (by simp [fu.ops])).uniform.kind
      (.var t') (.var cur) (by simp [hboundMv, hfirst]) (by simp [hboundMv, hmvOut])
    obtain ⟨hagreeMv, hvalMv⟩ := exec_temp law locs (exec M locs mul s) hmvOut
      (by rw [hmv]; exact result_move _ _)
    rw [(readings_sources locs (exec M locs mul s) (move_plain hmv).1).1, hfirst, bitsOf_var, hid,
      hkind.1, hty, trunc_trunc, hval] at hvalMv
    exact ⟨(hagreeMv.mono (hmono _ (by simp))).trans (hagree.mono (hmono _ (by simp))), _, hvalMv⟩

/-- What the addition of a fusion gives when its temporary holds a product. -/
theorem value_added {μ : Type u} {M : Meaning μ} {locs : Locations}
    (fu : Fusion st b ops f mul add between t cur) (hreg : Regular add) {s : State μ}
    {x c : BitVec 64} (hcur : trunc t.ty.size (s.cells (varCell locs cur.ident)) =
      M.value .mul t.ty x (trunc t.ty.size f.scale.toBitVec) c) :
    M.value add.op t.ty (bitsOf (add.first.map (reading M locs s)))
        (bitsOf (add.second.map (reading M locs s))) (bitsOf (add.addend.map (reading M locs s))) =
      trunc t.ty.size (x * f.scale.toBitVec + f.disp.toBitVec) := by
  have hbound := boundOperands_of_arith (i := add)
    (by rcases fu.op with h | h <;> simp [h, isArith])
  obtain ⟨o, ho⟩ := Option.ne_none_iff_exists'.mp fu.some
  have hoty : o.ty = t.ty := by simpa [typeOf, ho] using fu.ty
  have hsize : ∀ p : Operand, some p = add.first ∨ some p = add.second → p.ty.size = t.ty.size := by
    intro p hp
    rw [← hoty]
    exact (hreg.uniform.kind p o
      (by rw [hbound]; rcases hp with h | h <;> simp [← h]) (by rw [hbound]; simp [ho])).1
  have hvar : ∀ y : Option Operand, y = add.first ∨ y = add.second → isVar y cur = true →
      bitsOf (y.map (reading M locs s)) =
        M.value .mul t.ty x (trunc t.ty.size f.scale.toBitVec) c := by
    intro y hy hv
    obtain ⟨v, rfl, hid⟩ := isVar_iff.mp hv
    rw [bitsOf_var, hid, show v.ty.size = t.ty.size from hsize (.var v) hy, hcur]
  have hlit : ∀ (y : Option Operand) (d : Int64), y = add.first ∨ y = add.second →
      intLiteral? y = some d → bitsOf (y.map (reading M locs s)) = trunc t.ty.size d.toBitVec := by
    intro y d hy hd
    obtain ⟨l, rfl, hbits⟩ := bitsOf_literal (M := M) locs s hd
    rw [hbits, show l.ty.size = t.ty.size from hsize (.imm l) hy]
  have hint := fu.product.int
  obtain ⟨d, hcase, hdisp⟩ := fu.constant.operands
  rcases hcase with ⟨hv, hd⟩ | ⟨hop, hv, hd⟩
  · rw [hvar _ (.inl rfl) hv, hlit _ d (.inr rfl) hd]
    rcases fu.op with hop | hop
    · rw [hop, (value_address hint ..).1, hdisp, hop]
      rfl
    · rw [hop, (value_address hint ..).2, hdisp, hop]
      simp [sub_eq_add_neg]
  · rw [hop, hvar _ (.inr rfl) hv, hlit _ d (.inl rfl) hd, value_add_comm hint,
      (value_address hint ..).1, hdisp, hop]
    rfl

/-- Multiplying and adding a constant is the address computation. -/
theorem exec_fusion {μ : Type u} {M : Meaning μ} {locs : Locations} (law : M.Lawful)
    (fu : Fusion st b ops f mul add between t cur) (hreg : ∀ i ∈ ops, Regular i) (s : State μ) :
    AgreeOff (cellsOf locs [t.ident, cur.ident])
      (runBlock M locs (mul :: (between ++ [add])) s) (exec M locs f.instr s) := by
  obtain ⟨hagree, c, hcur⟩ := exec_product law locs fu hreg s
  rw [← List.cons_append, runBlock_append]
  have hadd : isArith add.op = true := by rcases fu.op with h | h <;> simp [h, isArith]
  have hs := not_silent_of_arith hadd
  have hregAdd := hreg add (by simp [fu.ops])
  obtain ⟨-, -, -, h4⟩ := (plainAddresses_iff hs).mp hregAdd.addresses
  obtain ⟨o, ho, -, -⟩ := exists_of_isDirect fu.product.direct
  have hoty : o.ty.size = (typeOf f.dst).size := by
    rw [fu.dst, fu.ty, ← fu.product.ty, ho]
    rfl
  have hparts : outputParts add = [] := by
    have hflat := fu.flat
    cases hout : add.output with
    | none => simp [outputParts, hout]
    | some p => cases p <;> simp_all [outputParts, Instr.addressParts, isIndirect]
  obtain ⟨hr1, hr2, hr3⟩ := readings_sources (M := M) locs
    (runBlock M locs (mul :: between) s) hs
  refine exec_congr_of_result hagree fu.dst.symm
    (v := trunc t.ty.size ((reading M locs s o).bits * f.scale.toBitVec + f.disp.toBitVec))
    ?_ ?_ (fun p hp => h4 p hp) (by simp [hparts])
  · rw [result_arith hadd, hr1, hr2, hr3, fu.ty, value_added fu hregAdd hcur, ho]
    rfl
  · have haddr := addressValue?_fusion (M := M) locs s ho hoty fu.product.allowed
    show (addressValue? (typeOf f.dst) (f.instr.first.map (reading M locs s))).map
      (trunc (typeOf f.dst).size) = _
    rw [haddr, fu.dst, fu.ty]
    rfl

/-- A scaled product and an added constant become one address computation. -/
theorem lea_window (suit : Suitable st.locations b.ops)
    (fu : Fusion st b ops f mul add between t cur) (hops : b.ops = done ++ ops) :
    Window.{u} st.locations b.liveOut (mul :: (between ++ [add])) f.instr f.rest := by
  have hreg : ∀ i ∈ ops, Regular i := fun i hi => suit.regular i (by simp [hops, hi])
  have hwindow : b.ops = done ++ ((mul :: (between ++ [add])) ++ f.rest) := by
    rw [hops, fu.ops]
    simp
  refine ⟨fusion_regular fu (hreg add (by simp [fu.ops])), by simp [fusion_named], ?_, fun _ => ?_⟩
  · have hbetween : floatFusions between = 0 := by
      rcases fu.between with ⟨-, rfl⟩ | ⟨mv, rfl, hmv, -⟩
      · rfl
      · simp [(move_plain hmv).2.2]
    rcases fu.op with h | h <;>
      simp [hbetween, isFloatFusion, fu.product.op, h, Opcode.isFused]
  · refine replaces_of_temps [t.ident, cur.ident] suit hwindow ?_ fun μ M law s =>
      exec_fusion law fu hreg s
    have hremT := (temp?_eq_some.mp fu.product.temp).2.2
    have hcurRead : 1 ≤ varCount cur.ident add.uses := by
      have hs : isSilent add.op = false := by rcases fu.op with h | h <;> simp [h, isSilent]
      have hb : add.op.isBranch = false := by
        rcases fu.op with h | h <;> simp [h, Opcode.isBranch, Opcode.isCondBranch]
      have huses := varCount_uses hs hb cur.ident
      obtain ⟨d, hcase, -⟩ := fu.constant.operands
      rcases hcase with ⟨hv, -⟩ | ⟨-, hv, -⟩ <;> have hone := varCount_isVar hv <;> omega
    simp only [List.mem_cons, List.not_mem_nil, or_false, forall_eq_or_imp, forall_eq,
      List.flatMap_cons, List.flatMap_append, List.flatMap_nil, varCount_append, varCount_nil]
    rcases fu.between with ⟨rfl, rfl⟩ | ⟨mv, rfl, hmv, hfirst, htemp, -⟩
    · exact ⟨⟨hremT, by omega⟩, hremT, by omega⟩
    · have hone := varCount_isVar hfirst
      have huses := varCount_uses (move_plain hmv).1 (move_plain hmv).2.1 t.ident
      simp only [List.flatMap_cons, List.flatMap_nil, varCount_append, varCount_nil]
      exact ⟨⟨hremT, by omega⟩, (temp?_eq_some.mp htemp).2.2, by omega⟩

end Address

end Backend.Peephole
