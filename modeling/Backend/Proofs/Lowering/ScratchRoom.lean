-- What moves, generic instructions and comparisons do before the instruction itself, and why that
-- never runs out of scratch slots: an instruction without a third source spills twice at most, and
-- if the frame has no scratch slots, no operand of the closure needs the temporary register on its
-- own.
import Backend.Proofs.Lowering.Refined
import Backend.Proofs.Lowering.TempRegister

namespace Backend.Lowering

/-! ## Drafts of instructions -/

/-- Loads the factor of a multiplication of bytes or the integer of a conversion, where that is
needed. -/
def loadFactor (cx : Context) (i : Instr) (d : Draft) : LowerM Draft := do
  let t := opType d.instr
  if i.op == .itof then intImmediateIntoTemp cx .first d
  else if i.op == .mul && t.size == 1 && !t.isFloat &&
      memoryResident (← get).closure.locations d.instr.second then intoTemp cx .second d
  else pure d

/-- What a generic instruction is lowered to. -/
def genericDraft (cx : Context) (i : Instr) : LowerM Draft := do
  let d ← source cx .first (i.op == .push) (.of i)
  let d ← source cx .second true d
  let d ← source cx .addend true d
  let d ← loadFactor cx i d
  dest cx .output d

theorem generic_eq (cx : Context) (i : Instr) :
    generic cx i = genericDraft cx i >>= fun d => keep d.instr := by
  unfold generic genericDraft loadFactor
  simp only [bind_assoc]
  congr
  funext d
  congr
  funext d
  congr
  funext d
  split
  · rfl
  · simp only [bind_assoc]
    congr
    funext st
    split <;> simp

/-- The move itself, or the address computation for a string, with an integer loaded that no store
can hold. -/
def moveStart (cx : Context) (i : Instr) : LowerM Draft :=
  match i.first with
  | some (.imm l) =>
    match l with
    | .string _ => do
      let symbol ← materialize l
      pure (Draft.of { i with op := .lea, first := some (.symbol symbol) })
    | .int _ value =>
      if Machine.fitsInt32 value then pure (Draft.of i)
      else do
        let direct ← match i.output with
          | some o => inRegister cx o
          | none => pure false
        if direct then pure (Draft.of i) else intoTemp cx .first (.of i)
    | _ => pure (Draft.of i)
  | _ => pure (Draft.of i)

/-- What a move is lowered to. -/
def moveDraft (cx : Context) (i : Instr) : LowerM Draft := do
  let d ← moveStart cx i
  let d ← source cx .first false d
  dest cx .output d

theorem move_eq (cx : Context) (i : Instr) :
    move cx i = moveDraft cx i >>= fun d => keep d.instr := by
  unfold move moveDraft moveStart
  cases hfirst : i.first with
  | none => simp only [bind_assoc, pure_bind]
  | some o =>
    cases o with
    | imm l =>
      cases l with
      | int w v =>
        by_cases hfit : Machine.fitsInt32 v = true
        · simp only [hfit, if_true, bind_assoc, pure_bind]
        · cases i.output with
          | none => simp [hfit]
          | some o =>
            simp only [hfit, Bool.false_eq_true, if_false, bind_assoc]
            congr
            funext direct
            cases direct <;> simp
      | _ => simp only [bind_assoc, pure_bind]
    | _ => simp only [bind_assoc, pure_bind]

/-- What a comparison or a conditional branch without a lone first literal is lowered to. -/
def compareDraft (cx : Context) (i : Instr) : LowerM Draft := do
  let d ← source cx .first false (.of i)
  let d ← source cx .second true d
  let d ← intImmediateIntoTemp cx .first d
  if i.op.isCompare then dest cx .output d else pure d

theorem compare_eq (cx : Context) (i : Instr) :
    compare cx i = compareDraft cx (literalSecond i) >>= fun d => keep d.instr := by
  unfold compare compareDraft
  simp only [bind_assoc]
  congr
  funext d
  congr
  funext d
  congr
  funext d
  split <;> rfl

section Extends

variable (cx : Context)

theorem extends_intImmediateIntoTemp (slot : Slot) (d : Draft) :
    Extends (intImmediateIntoTemp cx slot d) := by
  unfold intImmediateIntoTemp
  split
  · split
    · exact extends_intoTemp cx slot d
    · exact extends_pure _
  · exact extends_pure _

theorem extends_loadFactor (i : Instr) (d : Draft) : Extends (loadFactor cx i d) := by
  unfold loadFactor
  dsimp only
  split
  · exact extends_intImmediateIntoTemp cx _ d
  · refine extends_bind extends_get fun st => ?_
    split
    · exact extends_intoTemp cx _ d
    · exact extends_pure _

theorem extends_genericDraft (i : Instr) : Extends (genericDraft cx i) := by
  unfold genericDraft
  refine extends_bind (extends_source cx _ _ _) fun d1 => ?_
  refine extends_bind (extends_source cx _ _ d1) fun d2 => ?_
  refine extends_bind (extends_source cx _ _ d2) fun d3 => ?_
  exact extends_bind (extends_loadFactor cx i d3) fun d4 => extends_dest cx _ d4

theorem extends_moveStart (i : Instr) : Extends (moveStart cx i) := by
  have hboth : ∀ direct : Bool, Extends (if direct = true then pure (Draft.of i)
      else intoTemp cx .first (.of i)) := by
    intro direct
    cases direct
    · exact extends_intoTemp cx _ _
    · exact extends_pure _
  unfold moveStart
  split
  · split
    · exact extends_bind (extends_materialize _) fun _ => extends_pure _
    · split
      · exact extends_pure _
      · cases i.output with
        | none => exact hboth false
        | some o => exact extends_bind (extends_addressable cx (some o)) hboth
    · exact extends_pure _
  · exact extends_pure _

theorem extends_moveDraft (i : Instr) : Extends (moveDraft cx i) := by
  unfold moveDraft
  refine extends_bind (extends_moveStart cx i) fun d1 => ?_
  exact extends_bind (extends_source cx _ _ d1) fun d2 => extends_dest cx _ d2

theorem extends_compareDraft (i : Instr) : Extends (compareDraft cx i) := by
  unfold compareDraft
  refine extends_bind (extends_source cx _ _ _) fun d1 => ?_
  refine extends_bind (extends_source cx _ _ d1) fun d2 => ?_
  refine extends_bind (extends_intImmediateIntoTemp cx _ d2) fun d3 => ?_
  split
  · exact extends_dest cx _ d3
  · exact extends_pure _

end Extends

/-! ## Steps that do not run out -/

/-- The step never stops for want of a scratch slot, and when it ends, its result satisfies `Q`. -/
def HasRoom {α : Type} (m : LowerM α) (Q : α → Prop) : Prop :=
  ∀ st, (∀ a st', m st = .ok (a, st') → Q a) ∧ ∀ err, m st = .error err → ∀ o,
    err.defect ≠ .noScratch o

section HasRoom

variable {α β : Type} {m : LowerM α} {f : α → LowerM β} {Q Q' : α → Prop} {R : β → Prop}

theorem hasRoom_pure {a : α} (h : Q a) : HasRoom (pure a) Q := by
  intro st
  refine ⟨fun b st' hok => ?_, fun err herr => ?_⟩
  · cases hok
    exact h
  · cases herr

theorem hasRoom_bind (hm : HasRoom m Q) (hf : ∀ a, Q a → HasRoom (f a) R) :
    HasRoom (m >>= f) R := by
  intro st
  obtain ⟨hok, herr⟩ := hm st
  have hrun : (m >>= f) st = (m st >>= fun p => f p.1 p.2) := rfl
  rw [hrun]
  cases h : m st with
  | ok p => exact hf p.1 (hok p.1 p.2 h) p.2
  | error err =>
    refine ⟨fun b st' hb => (by cases hb), fun err' h' => ?_⟩
    cases h'
    exact herr err h

theorem HasRoom.mono (h : HasRoom m Q) (hq : ∀ a, Q a → Q' a) : HasRoom m Q' := by
  intro st
  exact ⟨fun a st' hok => hq a ((h st).1 a st' hok), (h st).2⟩

theorem hasRoom_fail (cx : Context) {d : Defect} (h : ∀ o, d ≠ .noScratch o) :
    HasRoom (fail cx d) Q := by
  intro st
  refine ⟨fun a st' hok => (by cases hok), fun err herr => ?_⟩
  cases herr
  exact h

theorem hasRoom_get : HasRoom get fun _ => True := by
  intro st
  exact ⟨fun _ _ _ => trivial, fun err herr => by cases herr⟩

theorem hasRoom_keep (i : Instr) : HasRoom (keep i) fun _ => True := by
  intro st
  exact ⟨fun _ _ _ => trivial, fun err herr => by cases herr⟩

theorem hasRoom_materialize (l : Literal) : HasRoom (materialize l) fun _ => True := by
  intro st
  exact ⟨fun _ _ _ => trivial, fun err herr => by cases herr⟩

theorem hasRoom_locate (cx : Context) (v : Var) : HasRoom (locate cx v) fun _ => True := by
  unfold locate
  refine hasRoom_bind hasRoom_get fun st _ => ?_
  split
  · exact hasRoom_pure trivial
  · exact hasRoom_fail cx fun o h => by cases h

end HasRoom

/-! ## Claims -/

/-- How often operands of the draft have taken the temporary register at most. -/
def Draft.claims (d : Draft) : Nat := d.spilled + d.holder.toList.length

/-- The frame has scratch slots if an operand of the draft may need the temporary register. -/
def Foreseen (cx : Context) (d : Draft) : Prop :=
  ∀ (slot : Slot) (o : Operand), slot.get d.instr = some o → mayNeedTemp o = true →
    cx.scratch.isSome = true

/-- What takes the temporary register for a slot finds it free or can move what holds it. -/
def HasPlace (cx : Context) (slot : Slot) (d : Draft) : Prop :=
  d.holder = none ∨ d.holder = some slot ∨ cx.scratch.isSome = true ∧ d.claims ≤ 2

/-- The number of claims after the temporary register was taken for a slot. -/
def Draft.claimsFor (d : Draft) (slot : Slot) : Nat :=
  if d.holder = some slot then d.claims else d.claims + 1

theorem Draft.claimsFor_le (d : Draft) (slot : Slot) : d.claimsFor slot ≤ d.claims + 1 := by
  unfold claimsFor
  split
  · exact Nat.le_succ _
  · exact Nat.le_refl _

/-- What becomes of a draft when a slot is made encodable: literals only go away, and the temporary
register is taken once at most, for an operand that is no literal then. -/
structure Claimed (cx : Context) (slot : Slot) (d d' : Draft) : Prop where
  op : d'.instr.op = d.instr.op
  foreseen : Foreseen cx d → Foreseen cx d'
  empty : ∀ other : Slot, other ≠ slot → other.get d.instr = none → other.get d'.instr = none
  literal : ∀ (other : Slot) (l : Literal), other.get d'.instr = some (.imm l) →
    other.get d.instr = some (.imm l)
  output : slot ≠ .output → d.holder ≠ some .output →
    d'.instr.output = d.instr.output ∧ d'.holder ≠ some .output
  cost : d'.holder = d.holder ∧ d'.spilled = d.spilled ∨
    d'.holder = some slot ∧ d'.claims ≤ d.claimsFor slot ∧ ∀ l, slot.get d'.instr ≠ some (.imm l)

section Claims

variable {cx : Context} {slot : Slot} {d d1 : Draft}

theorem Claimed.refl (cx : Context) (slot : Slot) (d : Draft) : Claimed cx slot d d :=
  ⟨rfl, id, fun _ _ h => h, fun _ _ h => h, fun _ h => ⟨rfl, h⟩, .inl ⟨rfl, rfl⟩⟩

/-- Another operand in a slot that did not take the temporary register. -/
theorem claimed_put {o : Operand} (hneed : mayNeedTemp o = true → cx.scratch.isSome = true)
    (hplain : ∀ l, o ≠ .imm l) : Claimed cx slot d (d.put slot o) where
  op := Draft.op_put d slot o
  foreseen h other o' ho' hn := by
    by_cases he : slot = other
    · subst he
      obtain rfl := Option.some.inj ((Slot.get_set ..).symm.trans ho')
      exact hneed hn
    · exact h other o' ((Slot.get_set_ne he o d.instr).symm.trans ho') hn
  empty other hne ho' := (Slot.get_set_ne hne.symm o d.instr).trans ho'
  literal other l hl := by
    by_cases he : slot = other
    · subst he
      exact absurd (Option.some.inj ((Slot.get_set ..).symm.trans hl)) (hplain l)
    · exact (Slot.get_set_ne he o d.instr).symm.trans hl
  output hslot hh := ⟨Slot.get_set_ne hslot o d.instr, hh⟩
  cost := .inl ⟨rfl, rfl⟩

/-- The temporary register was taken for the slot, whose operand is still the one it was. -/
structure TakenFor (cx : Context) (slot : Slot) (d d1 : Draft) : Prop where
  op : d1.instr.op = d.instr.op
  foreseen : Foreseen cx d → Foreseen cx d1
  empty : ∀ other : Slot, other.get d.instr = none → other.get d1.instr = none
  literal : ∀ (other : Slot) (l : Literal), other.get d1.instr = some (.imm l) →
    other.get d.instr = some (.imm l)
  output : d.holder ≠ some .output → d1.instr.output = d.instr.output
  holder : d1.holder = some slot
  claims : d1.claims ≤ d.claimsFor slot
  own : slot.get d1.instr = slot.get d.instr

/-- Another operand in the slot that took the temporary register. -/
theorem TakenFor.put {o : Operand} (h : TakenFor cx slot d d1)
    (hneed : mayNeedTemp o = true → cx.scratch.isSome = true) (hplain : ∀ l, o ≠ .imm l) :
    Claimed cx slot d (d1.put slot o) where
  op := (Draft.op_put d1 slot o).trans h.op
  foreseen hd := (claimed_put hneed hplain).foreseen (h.foreseen hd)
  empty other hne ho' := (Slot.get_set_ne hne.symm o d1.instr).trans (h.empty other ho')
  literal other l hl := h.literal other l ((claimed_put hneed hplain).literal other l hl)
  output hslot hh := by
    refine ⟨(Slot.get_set_ne hslot o d1.instr).trans (h.output hh), fun h' => hslot ?_⟩
    exact Option.some.inj (h.holder.symm.trans h')
  cost := by
    refine .inr ⟨h.holder, h.claims, fun l hl => ?_⟩
    exact hplain l (Option.some.inj ((Slot.get_set ..).symm.trans hl))

theorem hasRoom_reserve (h : HasPlace cx slot d) :
    HasRoom (reserveTemp cx slot d) (TakenFor cx slot d) := by
  have hself : ∀ hc : d.holder = none ∨ d.holder = some slot,
      TakenFor cx slot d { d with holder := some slot } := by
    intro hc
    refine ⟨rfl, id, fun _ h => h, fun _ _ h => h, fun _ => rfl, rfl, ?_, rfl⟩
    rcases hc with hc | hc <;> simp [Draft.claims, Draft.claimsFor, hc]
  unfold reserveTemp
  cases hh : d.holder with
  | none => exact hasRoom_pure (hself (.inl hh))
  | some other =>
    dsimp only
    by_cases heq : other = slot
    · rw [if_pos (beq_iff_eq.mpr heq), pure_bind]
      exact hasRoom_pure (hself (.inr (heq ▸ hh)))
    · rw [if_neg (by simpa using heq)]
      unfold spill
      simp only [hh]
      cases ho : other.get d.instr with
      | none =>
        refine hasRoom_bind (hasRoom_pure rfl) fun d1 h1 => hasRoom_pure ?_
        subst h1
        refine ⟨rfl, id, fun _ h => h, fun _ _ h => h, fun _ => rfl, rfl, ?_, rfl⟩
        simp [Draft.claims, Draft.claimsFor, hh, heq]
      | some o =>
        -- The slot is held by another one, so there are scratch slots, and one of them is free.
        obtain ⟨hscratch, hclaims⟩ : cx.scratch.isSome = true ∧ d.claims ≤ 2 := by
          rcases h with h | h | h
          · rw [hh] at h
            cases h
          · rw [hh] at h
            exact absurd (Option.some.inj h) heq
          · exact h
        obtain ⟨b, hb⟩ := Option.isSome_iff_exists.mp hscratch
        have hroom : ¬ d.spilled ≥ 2 := by
          simp only [Draft.claims, hh, Option.toList_some, List.length_singleton] at hclaims
          omega
        simp only [hb, if_neg hroom]
        refine hasRoom_bind (hasRoom_bind (hasRoom_keep _) fun _ _ => hasRoom_pure rfl) fun d1 h1 =>
          hasRoom_pure ?_
        subst h1
        have hput : Claimed cx other d (d.put other (scratchSlot b d.spilled (keptType o.ty))) :=
          claimed_put (fun h => by cases h) fun l h => by cases h
        refine ⟨hput.op, hput.foreseen, fun other' hnone => ?_, hput.literal, fun hout => ?_,
          rfl, ?_, Slot.get_set_ne heq _ _⟩
        · refine hput.empty other' (fun he => ?_) hnone
          rw [he, ho] at hnone
          cases hnone
        · exact (hput.output (fun he => hout (he ▸ hh)) hout).1
        · simp [Draft.claims, Draft.claimsFor, hh, heq]

theorem hasRoom_intoTemp (h : HasPlace cx slot d) :
    HasRoom (intoTemp cx slot d) (Claimed cx slot d) := by
  unfold intoTemp
  refine hasRoom_bind (hasRoom_reserve h) fun d1 h1 => ?_
  refine hasRoom_bind (hasRoom_keep _) fun _ _ => hasRoom_pure ?_
  exact h1.put (fun h => by cases h) fun l h => by cases h

/-! ## Sources and outputs have room -/

theorem hasRoom_addressable (o : Option Operand) : HasRoom (addressable cx o) fun _ => True := by
  unfold addressable inRegister
  split
  · exact hasRoom_pure trivial
  · split
    · exact hasRoom_pure trivial
    · exact hasRoom_bind (hasRoom_locate cx _) fun _ _ => hasRoom_pure trivial
    · exact hasRoom_pure trivial

/-- A memory operand takes the temporary register in a frame with scratch slots. -/
theorem hasRoom_address {base index : Option Operand} {scale : UInt8} {disp : Int64} {t : Ty}
    (hplace : HasPlace cx slot d) (hscratch : cx.scratch.isSome = true) :
    HasRoom (address cx slot base index scale disp t d) (Claimed cx slot d) :=
  address_lines_rule (R := fun m => HasRoom m (Claimed cx slot d)) (fun e he => hasRoom_fail cx he)
    (fun o _ h => hasRoom_bind (hasRoom_addressable (some o)) fun ok _ => h ok)
    (fun _ h => hasRoom_bind (hasRoom_reserve hplace) h)
    (fun i _ _ h => hasRoom_bind (hasRoom_keep i) fun _ _ => h)
    (fun _ _ _ _ _ => hasRoom_pure (claimed_put (fun _ => hscratch) fun l h => by cases h))
    fun _ _ _ _ _ h1 => hasRoom_pure (h1.put (fun _ => hscratch) fun l h => by cases h)

/-- A draft that has claimed the temporary register twice at most has place in a frame with scratch
slots. -/
theorem hasPlace_of_claims (hscratch : cx.scratch.isSome = true) (h : d.claims ≤ 2) :
    HasPlace cx slot d := .inr (.inr ⟨hscratch, h⟩)

/-- A source takes the temporary register only in a frame with scratch slots. -/
theorem hasRoom_source {narrow : Bool} (hd : Foreseen cx d) (h : d.claims ≤ 2) :
    HasRoom (source cx slot narrow d) fun d' => Claimed cx slot d d' ∧
      (d'.holder = d.holder ∨ cx.scratch.isSome = true) := by
  have hself : Claimed cx slot d d ∧ (d.holder = d.holder ∨ cx.scratch.isSome = true) :=
    ⟨.refl cx slot d, .inl rfl⟩
  have hplace : ∀ o, slot.get d.instr = some o → mayNeedTemp o = true → HasPlace cx slot d :=
    fun o ho hn => hasPlace_of_claims (hd slot o ho hn) h
  unfold source
  split
  · exact hasRoom_bind (hasRoom_locate cx _) fun _ _ => hasRoom_pure hself
  · rename_i l ho
    split
    · refine hasRoom_bind (hasRoom_materialize _) fun y _ => hasRoom_pure ⟨?_, .inl rfl⟩
      exact claimed_put (fun h => by cases h) fun l h => by cases h
    · refine hasRoom_bind (hasRoom_materialize _) fun y _ => ?_
      refine hasRoom_bind (hasRoom_reserve (hplace _ ho rfl)) fun d1 h1 => ?_
      refine hasRoom_bind (hasRoom_keep _) fun _ _ => hasRoom_pure ⟨?_, .inr (hd slot _ ho rfl)⟩
      exact h1.put (fun h => by cases h) fun l h => by cases h
    · rename_i w v
      split
      · rename_i hbig
        have hneed : mayNeedTemp (.imm (.int w v)) = true := by
          simp only [Bool.and_eq_true, Bool.not_eq_true'] at hbig
          simp [mayNeedTemp, hbig.2]
        exact (hasRoom_intoTemp (hplace _ ho hneed)).mono fun _ h' =>
          ⟨h', .inr (hd slot _ ho hneed)⟩
      · exact hasRoom_pure hself
    · exact hasRoom_pure hself
  · rename_i ho
    have hscratch := hd slot _ ho rfl
    exact (hasRoom_address (hplace _ ho rfl) hscratch).mono fun _ h' => ⟨h', .inr hscratch⟩
  · exact hasRoom_pure hself

theorem hasRoom_dest (hd : Foreseen cx d) (h : d.claims ≤ 2) :
    HasRoom (dest cx .output d) fun _ => True := by
  unfold dest
  split
  · exact hasRoom_bind (hasRoom_locate cx _) fun _ _ => hasRoom_pure trivial
  · split
    · exact hasRoom_fail cx fun o h => by cases h
    · exact hasRoom_pure trivial
  · rename_i ho
    have hscratch := hd .output _ ho rfl
    exact (hasRoom_address (hasPlace_of_claims hscratch h) hscratch).mono fun _ _ => trivial
  · exact hasRoom_fail cx fun o h => by cases h
  · exact hasRoom_pure trivial

/-- Making a slot encodable is one claim more at most. -/
theorem Claimed.claims {d' : Draft} (h : Claimed cx slot d d') : d'.claims ≤ d.claims + 1 := by
  rcases h.cost with ⟨hh, hs⟩ | ⟨-, hc, -⟩
  · simp only [Draft.claims, hh, hs]
    omega
  · exact hc.trans (d.claimsFor_le slot)

/-! ## Instructions have room -/

theorem source_none {narrow : Bool} (h : slot.get d.instr = none) :
    source cx slot narrow d = pure d := by
  unfold source
  rw [h]

theorem source_reg {narrow : Bool} {r : Reg} (h : slot.get d.instr = some (.reg r)) :
    source cx slot narrow d = pure d := by
  unfold source
  rw [h]

theorem source_symbol {narrow : Bool} {y : Symbol} (h : slot.get d.instr = some (.symbol y)) :
    source cx slot narrow d = pure d := by
  unfold source
  rw [h]

/-- After the first source has been made encodable, the draft has claimed the temporary register
once at most. -/
structure FirstDone (cx : Context) (i : Instr) (d : Draft) : Prop where
  claimed : Claimed cx .first (.of i) d
  backed : d.holder = none ∨ cx.scratch.isSome = true

theorem hasRoom_first {narrow : Bool} {i : Instr} (hd : Foreseen cx (.of i)) :
    HasRoom (source cx .first narrow (.of i)) (FirstDone cx i) :=
  (hasRoom_source hd (Nat.zero_le 2)).mono fun _ h => ⟨h.1, h.2⟩

theorem FirstDone.claims {i : Instr} (h : FirstDone cx i d) : d.claims ≤ 1 := h.claimed.claims

/-- After both sources have been made encodable. -/
structure BothDone (cx : Context) (i : Instr) (d : Draft) : Prop where
  op : d.instr.op = i.op
  foreseen : Foreseen cx d
  addend : i.addend = none → d.instr.addend = none
  backed : d.holder = none ∨ cx.scratch.isSome = true
  claims : d.claims ≤ 2
  second : d.holder = some .second ∨ d.claims ≤ 1
  first : ∀ l, d.instr.first = some (.imm l) → d.claims ≤ 1

theorem hasRoom_second {i : Instr} (hd : Foreseen cx (.of i)) (h : FirstDone cx i d) :
    HasRoom (source cx .second true d) (BothDone cx i) := by
  have hc := h.claims
  refine (hasRoom_source (h.claimed.foreseen hd) (by omega)).mono fun d' h' => ?_
  obtain ⟨h', hback⟩ := h'
  have hc' := h'.claims
  refine ⟨h'.op.trans h.claimed.op, h'.foreseen (h.claimed.foreseen hd), fun ha => ?_,
    ?_, by omega, ?_, ?_⟩
  · exact h'.empty .addend (by decide) (h.claimed.empty .addend (by decide) ha)
  · rcases hback with hback | hback
    · rw [hback]
      exact h.backed
    · exact .inr hback
  · rcases h'.cost with ⟨hh, hs⟩ | ⟨hh, -, -⟩
    · refine .inr ?_
      rw [Draft.claims, hh, hs]
      exact hc
    · exact .inl hh
  · intro l hl
    -- A literal is still there, so it has not claimed the temporary register.
    rcases h.claimed.cost with ⟨hh, hs⟩ | ⟨-, -, hno⟩
    · have hzero : d.claims = 0 := by
        rw [Draft.claims, hh, hs]
        rfl
      omega
    · exact absurd (h'.literal .first l hl) (hno l)

theorem BothDone.hasPlace {i : Instr} (h : BothDone cx i d) : HasPlace cx slot d := by
  rcases h.backed with hh | hscratch
  · exact .inl hh
  · exact hasPlace_of_claims hscratch h.claims

theorem hasRoom_genericDraft {i : Instr} (hd : Foreseen cx (.of i)) (hadd : i.addend = none)
    (hitof : i.op ≠ .itof) : HasRoom (genericDraft cx i) fun _ => True := by
  unfold genericDraft loadFactor
  refine hasRoom_bind (hasRoom_first hd) fun d1 h1 => ?_
  refine hasRoom_bind (hasRoom_second hd h1) fun d2 h2 => ?_
  have hnone : Slot.addend.get d2.instr = none := h2.addend hadd
  rw [source_none hnone, pure_bind]
  dsimp only
  rw [if_neg (by simpa using hitof), bind_assoc]
  refine hasRoom_bind hasRoom_get fun st _ => ?_
  split
  · refine hasRoom_bind (hasRoom_intoTemp h2.hasPlace) fun d3 h3 => ?_
    refine hasRoom_dest (h3.foreseen h2.foreseen) ?_
    have hc := h2.claims
    rcases h2.second with hh | hc1
    · rcases h3.cost with ⟨hh', hs'⟩ | ⟨-, hc3, -⟩
      · rw [Draft.claims, hh', hs']
        exact hc
      · rw [Draft.claimsFor, if_pos hh] at hc3
        omega
    · have hc3 := h3.claims
      omega
  · rw [pure_bind]
    exact hasRoom_dest h2.foreseen h2.claims

theorem hasRoom_compareDraft {i : Instr} (hd : Foreseen cx (.of i)) :
    HasRoom (compareDraft cx i) fun _ => True := by
  unfold compareDraft
  refine hasRoom_bind (hasRoom_first hd) fun d1 h1 => ?_
  refine hasRoom_bind (hasRoom_second hd h1) fun d2 h2 => ?_
  refine hasRoom_bind (Q := fun d3 => Foreseen cx d3 ∧ d3.claims ≤ 2) ?_ fun d3 h3 => ?_
  · have hself := hasRoom_pure (a := d2) (Q := fun d3 => Foreseen cx d3 ∧ d3.claims ≤ 2)
      ⟨h2.foreseen, h2.claims⟩
    unfold intImmediateIntoTemp
    split
    · rename_i l hl
      split
      · refine (hasRoom_intoTemp h2.hasPlace).mono fun d3 h3 => ⟨h3.foreseen h2.foreseen, ?_⟩
        have hc := h2.first l hl
        have hc3 := h3.claims
        omega
      · exact hself
    · exact hself
  · split
    · exact hasRoom_dest h3.1 h3.2
    · exact hasRoom_pure trivial

theorem hasRoom_moveDraft {i : Instr} (hd : Foreseen cx (.of i)) :
    HasRoom (moveDraft cx i) fun _ => True := by
  have hplain : HasRoom (source cx .first false (.of i) >>= fun d => dest cx .output d)
      fun _ => True :=
    hasRoom_bind (hasRoom_first hd) fun d1 h1 => by
      have hc := h1.claims
      exact hasRoom_dest (h1.claimed.foreseen hd) (by omega)
  have hload : HasRoom (intoTemp cx .first (.of i) >>= fun d => source cx .first false d >>=
      fun d =>
      dest cx .output d) fun _ => True := by
    refine hasRoom_bind (hasRoom_intoTemp (.inl rfl)) fun d1 h1 => ?_
    have hc1 : d1.claims ≤ 1 := h1.claims
    refine hasRoom_bind (hasRoom_source (h1.foreseen hd) (by omega)) fun d2 h2 => ?_
    have hc2 := h2.1.claims
    exact hasRoom_dest (h2.1.foreseen (h1.foreseen hd)) (by omega)
  unfold moveDraft moveStart
  split
  · rename_i l hl
    split
    · rename_i bytes
      rw [bind_assoc]
      refine hasRoom_bind (hasRoom_materialize _) fun y _ => ?_
      rw [pure_bind, source_symbol rfl, pure_bind]
      refine hasRoom_dest ?_ (Nat.zero_le 2)
      intro slot o ho hn
      cases slot with
      | first =>
        cases ho
        cases hn
      | second => exact hd .second o ho hn
      | addend => exact hd .addend o ho hn
      | output => exact hd .output o ho hn
    · split
      · exact hplain
      · have hboth : ∀ direct : Bool, HasRoom ((if direct = true then pure (Draft.of i)
            else intoTemp cx .first (.of i)) >>= fun d => source cx .first false d >>= fun d =>
              dest cx .output d) fun _ => True := by
          intro direct
          cases direct
          · exact hload
          · exact hplain
        cases i.output with
        | none => exact hload
        | some o =>
          dsimp only
          rw [bind_assoc]
          exact hasRoom_bind (hasRoom_addressable (some o)) fun direct _ => hboth direct
    · exact hplain
  · exact hplain

end Claims

/-! ## Closures -/

/-- The operation computes its output from one or two integers. -/
def isIntegerOperation : Opcode → Bool
  | .add | .sub | .mul | .and | .or | .xor | .neg | .not => true
  | _ => false

/-- A move, an integer operation, a comparison or a conditional branch, without a third source. -/
def isShared (i : Instr) : Bool :=
  (i.op == .move || isIntegerOperation i.op || i.op.isCompare || i.op.isCondBranch) &&
    i.addend.isNone

/-- What an instruction is lowered to whose operands share the temporary register. -/
def sharedDraft (cx : Context) (i : Instr) : LowerM Draft :=
  if i.op == .move then moveDraft cx i
  else if isIntegerOperation i.op then genericDraft cx i
  else compareDraft cx (literalSecond i)

theorem instr_integer {cx : Context} (h : isIntegerOperation cx.instr.op = true) :
    instr cx = generic cx cx.instr := by
  unfold instr
  dsimp only
  cases hop : cx.instr.op <;> rw [hop] at h <;> first | rfl | cases h

theorem instr_comparison {cx : Context}
    (h : (cx.instr.op.isCompare || cx.instr.op.isCondBranch) = true) :
    instr cx = compare cx cx.instr := by
  unfold instr
  dsimp only
  cases hop : cx.instr.op <;> rw [hop] at h <;> first | rfl | cases h

theorem instr_eq (cx : Context) (h : isShared cx.instr = true) :
    instr cx = sharedDraft cx cx.instr >>= fun d => keep d.instr := by
  obtain ⟨hop, -⟩ := Bool.and_eq_true_iff.mp h
  unfold sharedDraft
  by_cases hmove : cx.instr.op = .move
  · rw [if_pos (by simpa using hmove), ← move_eq]
    unfold instr
    dsimp only
    rw [hmove]
  rw [if_neg (by simpa using hmove)]
  by_cases hint : isIntegerOperation cx.instr.op = true
  · rw [if_pos hint, ← generic_eq, instr_integer hint]
  · rw [if_neg hint, ← compare_eq, instr_comparison]
    simpa [hmove, hint] using hop

theorem foreseen_literalSecond {cx : Context} {i : Instr} (h : Foreseen cx (.of i)) :
    Foreseen cx (.of (literalSecond i)) := by
  unfold literalSecond
  split
  · intro slot o ho hn
    cases slot with
    | first => exact h .second o ho hn
    | second => exact h .first o ho hn
    | addend => exact h .addend o ho hn
    | output => exact h .output o ho hn
  · exact h

theorem hasRoom_sharedDraft {cx : Context} {i : Instr} (hi : isShared i = true)
    (hd : Foreseen cx (.of i)) : HasRoom (sharedDraft cx i) fun _ => True := by
  obtain ⟨-, hadd⟩ := Bool.and_eq_true_iff.mp hi
  unfold sharedDraft
  split
  · exact hasRoom_moveDraft hd
  · split
    · rename_i hop
      refine hasRoom_genericDraft hd (Option.isNone_iff_eq_none.mp hadd) fun hitof => ?_
      rw [hitof] at hop
      cases hop
    · exact hasRoom_compareDraft (foreseen_literalSecond hd)

theorem extends_sharedDraft (cx : Context) (i : Instr) : Extends (sharedDraft cx i) := by
  unfold sharedDraft
  split
  · exact extends_moveDraft cx i
  · split
    · exact extends_genericDraft cx i
    · exact extends_compareDraft cx _

/-- The frame of a closure has scratch slots if an operand of one of its instructions may need the
temporary register. -/
theorem foreseen_of_layout {c : Closure} {b : Block} {i : Instr} (hb : b ∈ c.blocks)
    (hi : i ∈ b.ops) (variadic : List String) (j : Instr) :
    Foreseen ⟨variadic, (layout c).2, j⟩ (.of i) := by
  intro slot o ho hn
  have hany : [i.first, i.second, i.addend, i.output].any
      (fun o => (o.map mayNeedTemp).getD false) =
      true := by
    refine List.any_eq_true.mpr ⟨slot.get i, ?_, ?_⟩
    · cases slot <;> simp [Slot.get]
    · have ho' : slot.get i = some o := ho
      rw [ho']
      exact hn
  have hmay : mayNeedScratch i = true := by
    unfold mayNeedScratch
    split <;> first | rfl | exact hany
  have hneeds : needsScratch c = true :=
    List.any_eq_true.mpr ⟨b, hb, List.any_eq_true.mpr ⟨i, hi, hmay⟩⟩
  unfold layout
  simp only [hneeds, if_true]
  rfl

/-- Lowering never runs out of scratch slots for an instruction of the closure that the frame was
laid out for. -/
theorem hasRoom_instr {c : Closure} {b : Block} {i : Instr} (hb : b ∈ c.blocks) (hi : i ∈ b.ops)
    (hshared : isShared i = true) (variadic : List String) :
    HasRoom (instr ⟨variadic, (layout c).2, i⟩) fun _ => True := by
  rw [instr_eq _ hshared]
  refine hasRoom_bind (hasRoom_sharedDraft hshared (foreseen_of_layout hb hi variadic i))
    fun d _ => ?_
  exact hasRoom_keep _

end Backend.Lowering
