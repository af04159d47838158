-- Making an address encodable is exact: when it succeeds, its base and its index are general
-- purpose registers, its displacement fits its field, and after the lines that were emitted it is
-- the address that was meant, wherever the parts of that live.
import Backend.Proofs.Lowering.Drafts
import Backend.Proofs.Lowering.TempRegister

namespace Backend.Lowering

open Backend.Machine (Place Assigns)

/-! ## Folding -/

/-- A literal base goes to the displacement. -/
def foldBase (base : Option Operand) (disp : Int64) : Option Operand × Int64 :=
  match base with
  | some (.imm l) => (none, disp + literalWord l)
  | b => (b, disp)

/-- A literal index goes to the displacement. -/
def foldIndex (index : Option Operand) (scale : UInt8) (disp : Int64) :
    Option Operand × UInt8 × Int64 :=
  match index with
  | some (.imm l) => (none, 1, disp + literalWord l * Int64.ofNat scale.toNat)
  | i => (i, scale, disp)

/-- An unscaled index without base is the base. -/
def foldLone (base index : Option Operand) (scale : UInt8) : Option Operand × Option Operand :=
  match base, index with
  | none, some i => if scale == 1 then (some i, none) else (none, some i)
  | b, i => (b, i)

theorem foldAddress_eq (base index : Option Operand) (scale : UInt8) (disp : Int64) :
    foldAddress base index scale disp =
      (let (b, k) := foldBase base disp
      let (i, f, k) := foldIndex index (if scale == 0 then 1 else scale) k
      let (b, i) := foldLone b i f
      (b, i, f, k)) := by
  unfold foldAddress foldBase foldIndex foldLone
  dsimp only
  generalize (if (scale == 0) = true then (1 : UInt8) else scale) = f
  split <;> split <;> grind

section Fold

variable {e : Scene} {s : Machine.State} {base index : Option Operand} {scale : UInt8}
  {disp : Int64} {w : BitVec 64}

theorem literalWord_of_int {l : Literal} {v : Int64} (h : l.int? = some v) : literalWord l = v := by
  unfold literalWord
  rw [h]
  rfl

theorem foldBase_spec (h : e.base? s base = some w) (disp : Int64) :
    NoLiteral (foldBase base disp).1 ∧
      ∃ w', e.base? s (foldBase base disp).1 = some w' ∧
        w' + (foldBase base disp).2.toBitVec = w + disp.toBitVec := by
  unfold foldBase
  split
  · rename_i l
    refine ⟨(fun l hl => by cases hl), 0#64, rfl, ?_⟩
    obtain ⟨v, hv, rfl⟩ := Option.map_eq_some_iff.mp h
    rw [literalWord_of_int hv, Int64.toBitVec_add, BitVec.zero_add, BitVec.add_comm]
  · rename_i hlit
    exact ⟨fun l hl => hlit l hl, w, h, rfl⟩

theorem foldIndex_spec (h : e.index? s index = some w) (scale : UInt8) (disp : Int64) :
    NoLiteral (foldIndex index scale disp).1 ∧
      ∃ w', e.index? s (foldIndex index scale disp).1 = some w' ∧
        w' * BitVec.ofNat 64 (foldIndex index scale disp).2.1.toNat +
          (foldIndex index scale disp).2.2.toBitVec =
          w * BitVec.ofNat 64 scale.toNat + disp.toBitVec := by
  unfold foldIndex
  split
  · rename_i l
    refine ⟨(fun l hl => by cases hl), 0#64, rfl, ?_⟩
    obtain ⟨v, hv, rfl⟩ := Option.map_eq_some_iff.mp h
    have hscale : (Int64.ofNat scale.toNat).toBitVec = BitVec.ofNat 64 scale.toNat := rfl
    dsimp only
    rw [literalWord_of_int hv, Int64.toBitVec_add, Int64.toBitVec_mul, hscale, BitVec.zero_mul,
      BitVec.zero_add, BitVec.add_comm]
  · rename_i hlit
    exact ⟨fun l hl => hlit l hl, w, h, rfl⟩

/-- A lone index that is no symbol is worth the same as a base. -/
theorem foldLone_spec {wb wi : BitVec 64} (hb : e.base? s base = some wb)
    (hi : e.index? s index = some wi)
    (hlone : ∀ y, base = none → index = some (.symbol y) → scale ≠ 1) :
    ∃ wb' wi', e.base? s (foldLone base index scale).1 = some wb' ∧
      e.index? s (foldLone base index scale).2 = some wi' ∧
      wb' + wi' * BitVec.ofNat 64 scale.toNat = wb + wi * BitVec.ofNat 64 scale.toNat := by
  unfold foldLone
  split
  · rename_i i
    have hwb : wb = 0#64 := (Option.some.inj hb).symm
    by_cases h1 : scale = 1
    · subst h1
      have hbase : e.base? s (some i) = some wi := by
        cases i with
        | symbol y => exact absurd rfl (hlone y rfl rfl)
        | _ => exact hi
      refine ⟨wi, 0#64, hbase, rfl, ?_⟩
      rw [hwb, BitVec.zero_mul, BitVec.zero_add, BitVec.add_zero]
      exact (BitVec.mul_one wi).symm
    · simp only [beq_iff_eq, h1, if_false]
      exact ⟨0#64, wi, rfl, hi, by rw [hwb]⟩
  · exact ⟨wb, wi, hb, hi, rfl⟩

theorem noLiteral_foldLone (hb : NoLiteral base) (hi : NoLiteral index) (scale : UInt8) :
    NoLiteral (foldLone base index scale).1 ∧ NoLiteral (foldLone base index scale).2 := by
  unfold foldLone
  split
  · split
    · exact ⟨hi, hb⟩
    · exact ⟨hb, hi⟩
  · exact ⟨hb, hi⟩

/-- The parts that are loaded: both if neither is a literal, with the factor of the index. -/
theorem foldAddress_both {b i : Operand} {f : UInt8} {k : Int64}
    (h : foldAddress base index scale disp = (some b, some i, f, k)) :
    base = some b ∧ index = some i ∧ f = if scale == 0 then 1 else scale := by
  unfold foldAddress at h
  dsimp only at h
  generalize (if (scale == 0) = true then (1 : UInt8) else scale) = g at h
  split at h <;> grind

/-- A symbol is no lone unscaled index. -/
def NoLoneSymbol (base index : Option Operand) (scale : UInt8) : Prop :=
  ∀ y, index = some (.symbol y) → scale.toNat ≤ 1 → ∃ b, base = some b ∧ ∀ l, b ≠ .imm l

/-- Folding keeps the address. -/
theorem address?_folded {a : BitVec 64} (ha : e.address? s base index scale disp = some a)
    (hlone : NoLoneSymbol base index scale) {b i : Option Operand} {f : UInt8} {k : Int64}
    (h : foldAddress base index scale disp = (b, i, f, k)) :
    NoLiteral b ∧ NoLiteral i ∧ e.address? s b i f k = some a := by
  unfold Scene.address? at ha
  simp only [bind, Option.bind_eq_some_iff, Option.some.injEq] at ha
  obtain ⟨wb, hwb, wi, hwi, rfl⟩ := ha
  generalize hg : (if (scale == 0) = true then (1 : UInt8) else scale) = g
  have hgnat : (if (scale == 0) = true then 1 else scale.toNat) = g.toNat := by
    rw [← hg]
    split <;> rfl
  have hg0 : g ≠ 0 := by
    rw [← hg]
    split
    · decide
    · rename_i hne
      simpa using hne
  rw [hgnat]
  rw [foldAddress_eq, hg] at h
  obtain ⟨hnb, wb1, hwb1, hbase⟩ := foldBase_spec hwb disp
  obtain ⟨hni, wi1, hwi1, hindex⟩ := foldIndex_spec hwi g (foldBase base disp).2
  have hsymbol : ∀ y, (foldBase base disp).1 = none →
      (foldIndex index g (foldBase base disp).2).1 = some (.symbol y) →
      (foldIndex index g (foldBase base disp).2).2.1 ≠ 1 := by
    intro y hb hi hone
    have hkept : index = some (.symbol y) ∧ (foldIndex index g (foldBase base disp).2).2.1 = g := by
      unfold foldIndex at hi ⊢
      split at hi
      · cases hi
      · exact ⟨hi, rfl⟩
    obtain ⟨hi, hscale⟩ := hkept
    rw [hscale] at hone
    have hle : scale.toNat ≤ 1 := by
      by_cases h0 : scale = 0
      · simp [h0]
      · simp only [beq_iff_eq, h0, if_false] at hg
        rw [hg, hone]
        decide
    obtain ⟨part, hpart, hlit⟩ := hlone y hi hle
    unfold foldBase at hb
    rw [hpart] at hb
    split at hb
    · rename_i l heq
      exact hlit l (Option.some.inj heq)
    · cases hb
  obtain ⟨wb2, wi2, hwb2, hwi2, hsum⟩ := foldLone_spec hwb1 hwi1 hsymbol
  obtain ⟨hlb, hli⟩ := noLiteral_foldLone hnb hni (foldIndex index g (foldBase base disp).2).2.1
  have hf0 : (foldIndex index g (foldBase base disp).2).2.1 ≠ 0 := by
    unfold foldIndex
    split
    · exact (by decide : (1 : UInt8) ≠ 0)
    · exact hg0
  simp only [Prod.mk.injEq] at h
  obtain ⟨rfl, rfl, rfl, rfl⟩ := h
  refine ⟨hlb, hli, ?_⟩
  unfold Scene.address?
  simp only [hwb2, hwi2, bind, Option.bind_some, beq_iff_eq, hf0, if_false, Option.some.injEq]
  calc wb2 + wi2 * BitVec.ofNat 64 (foldIndex index g (foldBase base disp).2).2.1.toNat +
        (foldIndex index g (foldBase base disp).2).2.2.toBitVec
      = wb1 + (wi1 * BitVec.ofNat 64 (foldIndex index g (foldBase base disp).2).2.1.toNat +
        (foldIndex index g (foldBase base disp).2).2.2.toBitVec) := by rw [hsum, BitVec.add_assoc]
    _ = wb1 + (foldBase base disp).2.toBitVec + wi * BitVec.ofNat 64 g.toNat := by
        rw [hindex, BitVec.add_comm (wi * _), ← BitVec.add_assoc]
    _ = wb + wi * BitVec.ofNat 64 g.toNat + disp.toBitVec := by
        rw [hbase, BitVec.add_assoc, BitVec.add_comm disp.toBitVec, ← BitVec.add_assoc]

end Fold

/-! ## Parts in registers -/

/-- The operand is a general purpose register or lives in one. -/
def inGpr (locs : Locations) (o : Operand) : Bool := (regOf? locs o).any fun r => r.cls == .int

/-- The part of an address needs no register or is in one. -/
def isResident (locs : Locations) : Option Operand → Bool
  | none => true
  | some o => inGpr locs o

theorem works_addressable {e : Scene} {cx : Context} {P : Machine.State → Prop}
    (o : Option Operand) : Works e (addressable cx o) P fun ok s =>
      P s ∧ ok = isResident e.locs o := by
  cases o with
  | none => exact works_pure fun s hs => ⟨hs, rfl⟩
  | some o =>
    cases o with
    | var v =>
      refine works_bind (works_locate cx v) fun l => works_pure fun s hs => ?_
      obtain ⟨hs, hl⟩ := hs
      refine ⟨hs, ?_⟩
      have hlook := (Option.filter_eq_some_iff.mp hl).1
      cases hr : l.reg <;> simp [isResident, inGpr, regOf?, Locations.reg?, hlook, hr]
    | _ => exact works_pure fun s hs => ⟨hs, rfl⟩

/-! ## Addresses -/

/-- An address whose parts can be loaded. If both are in the frame, the index is scaled by a shift
and the base added as a whole word. -/
structure Loadable (locs : Locations) (base index : Option Operand) (scale : UInt8) : Prop where
  lone : NoLoneSymbol base index scale
  scaled : ∀ b i, base = some b → index = some i → NoLiteral base → NoLiteral index →
    inGpr locs b = false → inGpr locs i = false → (∀ y, b ≠ .symbol y) →
      width b = 8 ∧ (scale = 0 ∨ PowerOfTwo scale)

/-- The operand of a slot is encodable: a memory operand at the address, with parts in registers. -/
structure LegalAt (e : Scene) (slot : Slot) (base index : Option Operand) (t : Ty) (a : BitVec 64)
    (d' : Draft) (s' : Machine.State) : Prop where
  operand : ∃ b i f k, slot.get d'.instr = some (.indirect b i f k t) ∧
    Machine.fitsInt32 k = true ∧ (b.isSome ∨ i.isSome) ∧ isResident e.locs b = true ∧
    isResident e.locs i = true ∧ e.address? s' b i f k = some a ∧
    ∀ part, b = some part ∨ i = some part →
      part = .reg (tempReg .i64) ∨ base = some part ∨ index = some part

/-- The operand was only folded, or the temporary register was taken for it. -/
inductive Readdressed (e : Scene) (cx : Context) (slot : Slot) (d : Draft) (s : Machine.State)
    (whole : Operand) : Draft → Machine.State → Prop
  | folded : Readdressed e cx slot d s whole (d.put slot whole) s
  | loaded {d1 : Draft} {s1 s' : Machine.State} (o : Operand)
      (reserved : Reserved e cx slot d s d1 s1) (rest : Untouched none 0 s1 s') :
      Readdressed e cx slot d s whole (d1.put slot o) s'

section Address

variable {e : Scene} {cx : Context} {s : Machine.State} {d : Draft} {slot : Slot}

theorem Outside.none {scratch : Option (BitVec 64)} {k j : Nat} {p : Place} {n : Nat}
    (h : Outside scratch k p n) : Outside none j p n := by
  cases p with
  | mem a =>
    intro x hx b hb
    cases hb
  | _ => exact h

/-- The word in the temporary register as a part of an address. -/
theorem base?_temp {w : BitVec 64} {s1 s2 : Machine.State} (h : InTemp w s1 s2) :
    e.base? s2 (some (.reg (tempReg .i64))) = some w ∧
      e.index? s2 (some (.reg (tempReg .i64))) = some w := by
  have hget : (held s2 (.reg (tempReg .i64)) (.reg Machine.r10)).brought 8 = w := by
    have hself := Datum.brought_self ⟨true, 8, s2.get (.reg Machine.r10) 8⟩
    refine hself.trans ?_
    simp [Machine.State.get, h.word]
  exact ⟨congrArg some hget, congrArg some hget⟩

/-- What the parts of an address are worth in every state that satisfies `P`. They are not in r10 or
r11. -/
structure Worth (e : Scene) (P : Machine.State → Prop) (b i : Option Operand) (wb wi : BitVec 64) :
    Prop where
  base : ∀ s, P s → e.base? s b = some wb
  index : ∀ s, P s → e.index? s i = some wi
  outside : ∀ s, P s → ∀ part, b = some part ∨ i = some part →
    ∀ p, e.place? s part = some p → Outside none 0 p (width part)

/-- The memory operand in the slot of the draft is at the address, and made of parts that are in
registers. -/
def Loaded (e : Scene) (P : Machine.State → Prop) (slot : Slot) (b i : Option Operand) (k : Int64)
    (t : Ty) (a : BitVec 64) (d d' : Draft) (s' : Machine.State) : Prop :=
  ∃ b' i' f' w, d' = d.put slot (.indirect b' i' f' k t) ∧ After P w s' ∧
    (b'.isSome ∨ i'.isSome) ∧ isResident e.locs b' = true ∧ isResident e.locs i' = true ∧
    (∀ part, b' = some part ∨ i' = some part →
      part = .reg (tempReg .i64) ∨ b = some part ∨ i = some part) ∧
    e.address? s' b' i' f' k = some a

section Loads

variable {P : Machine.State → Prop} {wb wi a : BitVec 64} {f : UInt8} {k : Int64} {t : Ty}

/-- A load leaves the other part as it was. -/
theorem Worth.after {b i : Option Operand} {w : BitVec 64} {s' : Machine.State}
    (h : Worth e P b i wb wi) (h' : After P w s') :
    e.base? s' b = some wb ∧ e.index? s' i = some wi ∧
      e.base? s' (some (.reg (tempReg .i64))) = some w ∧
      e.index? s' (some (.reg (tempReg .i64))) = some w := by
  obtain ⟨s1, h1, hin⟩ := h'
  refine ⟨?_, ?_, base?_temp hin⟩
  · rw [base?_of_untouched hin.rest fun part hp => h.outside s1 h1 part (.inl hp), h.base s1 h1]
  · rw [index?_of_untouched hin.rest fun part hp => h.outside s1 h1 part (.inr hp), h.index s1 h1]

/-- The base is loaded, and the index is in a register or missing. -/
theorem works_loadedBase {b : Operand} {i : Option Operand} (h : Worth e P (some b) i wb wi)
    (hi : ∀ s, P s → isResident e.locs i = true)
    (ha : wb + wi * BitVec.ofNat 64 (if f == 0 then 1 else f.toNat) + k.toBitVec = a) :
    Works e (loadBase cx b (tempReg .i64) >>= fun _ =>
        pure (d.put slot (.indirect (some (.reg (tempReg .i64))) i f k t))) P
      (Loaded e P slot (some b) i k t a d) := by
  refine works_bind (works_loadBase h.base) fun _ => works_pure fun s' h' => ?_
  obtain ⟨-, hindex, htemp, -⟩ := h.after h'
  refine ⟨_, i, f, wb, rfl, h', .inl rfl, rfl, ?_, ?_, ?_⟩
  · obtain ⟨s1, h1, -⟩ := h'
    exact hi s1 h1
  · rintro part (hp | hp)
    · exact .inl (Option.some.inj hp).symm
    · exact .inr (.inr hp)
  · rw [← ha]
    simp [Scene.address?, htemp, hindex]

/-- The index is loaded, and the base is in a register or missing. -/
theorem works_loadedIndex {b : Option Operand} {i : Operand} (h : Worth e P b (some i) wb wi)
    (hlit : NoLiteral (some i)) (hb : ∀ s, P s → isResident e.locs b = true)
    (ha : wb + wi * BitVec.ofNat 64 (if f == 0 then 1 else f.toNat) + k.toBitVec = a) :
    Works e (emit cx .move (some i) none (some (.reg (tempReg .i64))) >>= fun _ =>
        pure (d.put slot (.indirect b (some (.reg (tempReg .i64))) f k t))) P
      (Loaded e P slot b (some i) k t a d) := by
  refine works_bind (works_loadPart h.index hlit) fun _ => works_pure fun s' h' => ?_
  obtain ⟨hbase, -, -, htemp⟩ := h.after h'
  refine ⟨b, _, f, wi, rfl, h', .inr rfl, ?_, rfl, ?_, ?_⟩
  · obtain ⟨s1, h1, -⟩ := h'
    exact hb s1 h1
  · rintro part (hp | hp)
    · exact .inr (.inl hp)
    · exact .inl (Option.some.inj hp).symm
  · rw [← ha]
    simp [Scene.address?, hbase, htemp]

/-- The base is added to the scaled index in the temporary register. -/
theorem works_addedBase {b i : Operand} {w : BitVec 64} (h : Worth e P (some b) (some i) wb wi)
    (hlit : NoLiteral (some b)) (hsymbol : ∀ y, b ≠ .symbol y) (hwide : ∀ s, P s → width b = 8)
    (ha : ∀ s, P s → w + wb + k.toBitVec = a) :
    Works e (emit cx .add (some (.reg (tempReg .i64))) (some b) (some (.reg (tempReg .i64))) >>=
        fun _ => pure (d.put slot (.indirect (some (.reg (tempReg .i64))) none 1 k t))) (After P w)
      (Loaded e P slot (some b) (some i) k t a d) := by
  have hword : ∀ s1, P s1 → e.index? s1 (some b) = some wb := by
    intro s1 h1
    have hb := h.base s1 h1
    cases b with
    | symbol y => exact absurd rfl (hsymbol y)
    | _ => exact hb
  refine works_bind (works_addTemp hword hlit hwide fun s1 h1 => h.outside s1 h1 b (.inl rfl))
    fun _ => works_pure fun s' h' => ?_
  refine ⟨_, none, 1, w + wb, rfl, h', .inl rfl, rfl, rfl, ?_, ?_⟩
  · rintro part (hp | hp)
    · exact .inl (Option.some.inj hp).symm
    · cases hp
  · have htemp := (h.after h').2.2.1
    obtain ⟨s1, h1, -⟩ := h'
    simp [Scene.address?, htemp, Scene.index?, ha s1 h1]

/-- The index is scaled in the temporary register and the base added to it. -/
theorem works_loadedBoth {b i : Operand} (h : Worth e P (some b) (some i) wb wi)
    (hlb : NoLiteral (some b)) (hli : NoLiteral (some i)) (hsymbol : ∀ y, b ≠ .symbol y)
    (hframe : ∀ s, P s → width b = 8 ∧ PowerOfTwo f)
    (ha : wb + wi * BitVec.ofNat 64 (if f == 0 then 1 else f.toNat) + k.toBitVec = a) :
    Works e (do
      emit cx .move (some i) none (some (.reg (tempReg .i64)))
      if f > 1 then
        emit cx .shl (some (.reg (tempReg .i64)))
          (some (.imm (.ofInt .i8 (Int64.ofNat (trailingZeros f))))) (some (.reg (tempReg .i64)))
      emit cx .add (some (.reg (tempReg .i64))) (some b) (some (.reg (tempReg .i64)))
      pure (d.put slot (.indirect (some (.reg (tempReg .i64))) none 1 k t))) P
      (Loaded e P slot (some b) (some i) k t a d) := by
  have hwide : ∀ s, P s → width b = 8 := fun s1 h1 => (hframe s1 h1).1
  have hfactor : ∀ s1, P s1 → f.toNat ≠ 0 := by
    intro s1 h1
    obtain ⟨j, hj⟩ := (hframe s1 h1).2
    rw [hj]
    exact Nat.ne_of_gt (Nat.two_pow_pos j)
  have hsum : ∀ s1, P s1 → wi * BitVec.ofNat 64 f.toNat + wb + k.toBitVec = a := by
    intro s1 h1
    have hne : f ≠ 0 := fun h0 => hfactor s1 h1 (by rw [h0]; rfl)
    rw [← ha, BitVec.add_comm _ wb]
    simp [hne]
  refine works_bind (works_loadPart h.index hli) fun _ =>
    works_when (Q := fun _ => After P (wi * BitVec.ofNat 64 f.toNat))
      (fun _ => works_shlTemp fun s1 h1 => (hframe s1 h1).2)
      (works_addedBase h hlb hsymbol hwide hsum) ?_
  intro hle
  refine works_addedBase h hlb hsymbol hwide fun s1 h1 => ?_
  have hone : f.toNat = 1 := by
    have hne := hfactor s1 h1
    simp only [gt_iff_lt, UInt8.not_lt, UInt8.le_iff_toNat_le] at hle
    have h1 : (1 : UInt8).toNat = 1 := rfl
    omega
  rw [← hsum s1 h1, hone]
  simp

end Loads

/-- What holds of the parts of an address in a state holds after the temporary register is taken. -/
theorem worth_of_reserved {b i : Option Operand} {wb wi : BitVec 64} {d1 : Draft} {S : Prop}
    (hwb : e.base? s b = some wb) (hwi : e.index? s i = some wi)
    (hclear : ∀ part, b = some part ∨ i = some part → ∀ p, e.place? s part = some p →
      Outside (e.scratch cx) d.spilled p (width part)) :
    Worth e (fun s1 => Reserved e cx slot d s d1 s1 ∧ S) b i wb wi where
  base s1 h1 := by
    rw [base?_of_untouched h1.1.untouched fun part hp => hclear part (.inl hp), hwb]
  index s1 h1 := by
    rw [index?_of_untouched h1.1.untouched fun part hp => hclear part (.inr hp), hwi]
  outside s1 h1 part hp p hplace := by
    have hsame : e.place? s1 part = e.place? s part := by
      have hword : e.base? s (some part) ≠ none ∨ e.index? s (some part) ≠ none := by
        rcases hp with rfl | rfl
        · exact .inl (by rw [hwb]; exact Option.some_ne_none _)
        · exact .inr (by rw [hwi]; exact Option.some_ne_none _)
      cases part with
      | indirect => rcases hword with h | h <;> exact absurd rfl h
      | _ => rfl
    exact (hclear part hp p (hsame ▸ hplace)).none

/-- Making an address encodable: what is in the slot afterwards is the address that was there. -/
theorem works_address {base index : Option Operand} {scale : UInt8} {disp : Int64} {t : Ty}
    {a : BitVec 64} (ha : e.address? s base index scale disp = some a)
    (hload : Loadable e.locs base index scale)
    (hclear : ∀ part, base = some part ∨ index = some part → ∀ p, e.place? s part = some p →
      Outside (e.scratch cx) d.spilled p (width part))
    (hv : ∀ other o, d.holder = some other → other ≠ slot → other.get d.instr = some o →
      ∃ v, e.datum? s o = some v) :
    Works e (address cx slot base index scale disp t d) (fun s1 => s1 = s) fun d' s' =>
      LegalAt e slot base index t a d' s' ∧
        Readdressed e cx slot d s (folded base index scale disp t) d' s' := by
  unfold address folded
  rcases hfold : foldAddress base index scale disp with ⟨b, i, f, k⟩
  dsimp only
  obtain ⟨hlb, hli, hbi⟩ := address?_folded ha hload.lone hfold
  obtain ⟨hfromb, hfromi, -⟩ := foldAddress_parts hfold
  have hfrom : ∀ part, b = some part ∨ i = some part → base = some part ∨ index = some part := by
    rintro part (hp | hp)
    · exact (hfromb part hp).1
    · exact .inr (hfromi part hp)
  refine works_guard fun hfit => works_guard fun hsome => ?_
  simp only [Bool.not_eq_true, Bool.not_eq_false', Bool.and_eq_true, Option.isNone_iff_eq_none,
    not_and] at hfit hsome
  have hpart : b.isSome ∨ i.isSome := by
    cases b with
    | some b => exact .inl rfl
    | none => exact .inr (Option.ne_none_iff_isSome.mp (hsome rfl))
  refine works_bind (works_addressable b) fun baseOk => ?_
  refine works_bind (works_addressable i) fun indexOk => ?_
  split
  · rename_i hboth
    refine works_pure ?_
    rintro s1 ⟨⟨rfl, rfl⟩, rfl⟩
    obtain ⟨hrb, hri⟩ := Bool.and_eq_true_iff.mp hboth
    refine ⟨⟨b, i, f, k, Slot.get_set .., hfit, hpart, hrb, hri, hbi, ?_⟩, .folded⟩
    exact fun part hp => .inr (hfrom part hp)
  · -- From here on the temporary register is taken. What the parts are worth is as it was before.
    rename_i hboth
    let S : Prop := baseOk = isResident e.locs b ∧ indexOk = isResident e.locs i
    have hP : ∀ s1, ((s1 = s ∧ baseOk = isResident e.locs b) ∧ indexOk = isResident e.locs i) →
        s1 = s ∧ S := fun s1 h => ⟨h.1.1, h.1.2, h.2⟩
    refine works_bind (((works_reserveTemp slot hv).and_static S).mono hP fun _ _ h => h)
      fun d1 => ?_
    obtain ⟨wb, hwb, wi, hwi, hsum⟩ : ∃ wb, e.base? s b = some wb ∧ ∃ wi, e.index? s i = some wi ∧
        wb + wi * BitVec.ofNat 64 (if f == 0 then 1 else f.toNat) + k.toBitVec = a := by
      unfold Scene.address? at hbi
      simpa only [bind, Option.bind_eq_some_iff, Option.some.injEq] using hbi
    let P : Machine.State → Prop := fun s1 => Reserved e cx slot d s d1 s1 ∧ S
    have hworth : Worth e P b i wb wi :=
      worth_of_reserved hwb hwi fun part hp => hclear part (hfrom part hp)
    have hfinish : ∀ d' s', Loaded e P slot b i k t a d1 d' s' →
        LegalAt e slot base index t a d' s' ∧
          Readdressed e cx slot d s (.indirect b i f k t) d' s' := by
      rintro d' s' ⟨b', i', f', w, rfl, ⟨s1, h1, hin⟩, hsome', hrb, hri, hparts, haddr⟩
      refine ⟨⟨b', i', f', k, Slot.get_set .., hfit, hsome', hrb, hri, haddr, ?_⟩,
        .loaded _ h1.1 hin.rest⟩
      exact fun part hp => (hparts part hp).imp id (hfrom part)
    refine Works.mono (Q := Loaded e P slot b i k t a d1) ?_ (fun _ h => h) hfinish
    split
    · rename_i b i
      obtain ⟨hb0, hi0, hf0⟩ := foldAddress_both hfold
      split
      · rename_i hneither
        split
        · exact works_fail cx _
        · rename_i hsymbol
          refine works_loadedBoth hworth hlb hli (fun y hy => hsymbol y hy) ?_ hsum
          rintro s1 ⟨-, rfl, rfl⟩
          simp only [Bool.and_eq_true, Bool.not_eq_true', isResident] at hneither
          obtain ⟨hw, hpow⟩ := hload.scaled b i hb0 hi0 (hb0 ▸ hlb)
            (hi0 ▸ hli) hneither.1 hneither.2 fun y hy => hsymbol y hy
          refine ⟨hw, ?_⟩
          rw [hf0]
          split
          · exact ⟨0, rfl⟩
          · rename_i hne
            exact hpow.resolve_left (by simpa using hne)
      · split
        · refine works_loadedBase hworth ?_ hsum
          rintro s1 ⟨-, rfl, rfl⟩
          simp_all
        · refine works_loadedIndex hworth hli ?_ hsum
          rintro s1 ⟨-, rfl, rfl⟩
          simp_all
    · exact works_loadedBase hworth (fun _ _ => rfl) hsum
    · obtain ⟨i, rfl⟩ : ∃ o, i = some o := Option.isSome_iff_exists.mp (by simpa using hpart)
      exact works_loadedIndex hworth hli (fun _ _ => rfl) hsum

end Address

/-! ## The machine form -/

section Machine

variable {e : Scene} {s : Machine.State}

/-- The low half of a displacement that fits a field of 32 bits says all of it. -/
theorem signExtend_toDisp {k : Int64} (h : Machine.fitsInt32 k = true) :
    (Selection.toDisp k).toBitVec.signExtend 64 = k.toBitVec := by
  obtain ⟨hlow, hhigh⟩ := (Selection.fitsInt32_iff k).mp h
  apply BitVec.eq_of_toInt_eq
  rw [BitVec.toInt_signExtend_of_le (by omega)]
  have hsmall : (Selection.toDisp k).toBitVec.toInt = k.toInt.bmod (2 ^ 32) := Int64.toInt_toInt32 k
  rw [hsmall]
  apply Int.bmod_eq_of_le <;> omega

/-- The operand is a register, or a variable in one, that holds all of the word that the operand is
worth as a part of an address. -/
def Holds (e : Scene) (s : Machine.State) (o : Operand) : Prop :=
  ∀ r, regOf? e.locs o = some r → r.cls = .int →
    (held s o (.reg r.index)).brought 8 = s.regs r.index

/-- What is in a general purpose register is there in every state. -/
theorem place?_of_regOf {o : Operand} {r : Reg} (h : regOf? e.locs o = some r) (hint : r.cls = .int)
    (s : Machine.State) : e.place? s o = some (.reg r.index) := by
  have hhome := home?_of_regOf (g := e.toSetting) h
  have hreg : r.place = .reg r.index := by
    unfold Reg.place
    rw [hint]
  rw [← hreg, ← hhome]
  cases o <;> first | rfl | cases h

/-- A part in a register is that register for the machine. -/
theorem addressReg_of_resident {c : Closure} {o : Operand} (hlocs : c.locations = e.locs)
    (h : inGpr e.locs o = true) (hholds : Holds e s o) :
    ∃ r : Machine.Reg, Selection.addressReg c (some o) = .ok (some r) ∧
      e.base? s (some o) = some (s.regs r.id) ∧ e.index? s (some o) = some (s.regs r.id) := by
  obtain ⟨r, hr, hint⟩ : ∃ r, regOf? e.locs o = some r ∧ r.cls = .int := by
    unfold inGpr at h
    cases hr : regOf? e.locs o with
    | none =>
      rw [hr] at h
      cases h
    | some r =>
      rw [hr] at h
      exact ⟨r, rfl, by simpa using h⟩
  have hplace : r.place = .reg r.index := by
    unfold Reg.place
    rw [hint]
  have hhome := home?_of_regOf (g := e.toSetting) hr
  rw [hplace] at hhome
  have hword := hholds r hr hint
  cases o with
  | reg t =>
    cases hr
    refine ⟨⟨r.index, 8⟩, by simp [Selection.addressReg, hint], ?_, ?_⟩ <;>
      simp [Scene.base?, Scene.index?, hhome, hword]
  | var v =>
    refine ⟨⟨r.index, 8⟩, ?_, ?_, ?_⟩
    · simp only [regOf?, Locations.reg?, Option.bind_eq_some_iff] at hr
      obtain ⟨l, hl, hlr⟩ := hr
      have hlocate : c.locate? v = some l := by
        rw [Closure.locate?, hlocs]
        exact Option.filter_eq_some_iff.mpr ⟨hl, by simp [Location.isPlaced, hlr]⟩
      simp [Selection.addressReg, Selection.locate, hlocate, hlr, hint, bind, Except.bind]
    · simp [Scene.base?, Scene.index?, hhome, hword]
    · simp [Scene.index?, hhome, hword]
  | _ => cases hr

/-- The parts of an address that are in registers, for the machine. -/
theorem addressReg_of_isResident {c : Closure} {o : Option Operand} (hlocs : c.locations = e.locs)
    (h : isResident e.locs o = true) (hholds : ∀ part, o = some part → Holds e s part) :
    ∃ r : Option Machine.Reg, Selection.addressReg c o = .ok r ∧ r.isSome = o.isSome ∧
      e.base? s o = some ((r.map fun r => s.regs r.id).getD 0) ∧
      e.index? s o = some ((r.map fun r => s.regs r.id).getD 0) := by
  cases o with
  | none => exact ⟨none, rfl, rfl, rfl, rfl⟩
  | some part =>
    obtain ⟨r, hr, hbase, hindex⟩ := addressReg_of_resident hlocs h (hholds part rfl)
    exact ⟨some r, hr, rfl, hbase, hindex⟩

/-- The machine form of a memory operand whose parts are in registers is at its address. -/
theorem exists_memory {c : Closure} {b i : Option Operand} {f : UInt8} {k : Int64} {t : Ty}
    {a : BitVec 64} (hlocs : c.locations = e.locs) (hfit : Machine.fitsInt32 k = true)
    (hsome : b.isSome ∨ i.isSome) (hb : isResident e.locs b = true)
    (hi : isResident e.locs i = true)
    (hholds : ∀ part, b = some part ∨ i = some part → Holds e s part)
    (ha : e.address? s b i f k = some a) :
    ∃ m, Selection.operand c (.indirect b i f k t) = .ok (.mem m) ∧ m.addr.eval e.link s = a := by
  obtain ⟨rb, hrb, hsb, hbase, -⟩ :=
    addressReg_of_isResident hlocs hb fun o ho => hholds o (.inl ho)
  obtain ⟨ri, hri, hsi, -, hindex⟩ :=
    addressReg_of_isResident hlocs hi fun o ho => hholds o (.inr ho)
  obtain ⟨m, hm⟩ : ∃ m, Selection.memory c b i f k t = .ok m := by
    rw [← hsb, ← hsi] at hsome
    unfold Selection.memory
    rw [hrb, hri, hfit]
    cases rb <;> cases ri <;> first | exact ⟨_, rfl⟩ | simp at hsome
  refine ⟨m, by rw [Selection.operand, hm]; rfl, ?_⟩
  obtain ⟨rb', ri', hrb', hri', -, rfl⟩ := Selection.memory_eq hm
  obtain rfl := Except.ok.inj (hrb.symm.trans hrb')
  obtain rfl := Except.ok.inj (hri.symm.trans hri')
  have hscaled : ((ri.map fun r => (r, if f = 0 then (1 : UInt8) else f)).map
      fun p => s.regs p.1.id * BitVec.ofNat 64 p.2.toNat).getD 0 =
      (ri.map fun r => s.regs r.id).getD 0 * BitVec.ofNat 64 (if f == 0 then 1 else f.toNat) := by
    cases ri with
    | none => exact BitVec.zero_mul.symm
    | some r => by_cases h0 : f = 0 <;> simp [h0]
  have hmeant : (rb.map fun r => s.regs r.id).getD 0 +
      (ri.map fun r => s.regs r.id).getD 0 * BitVec.ofNat 64 (if f == 0 then 1 else f.toNat) +
        k.toBitVec = a := by simpa [Scene.address?, hbase, hindex] using ha
  rw [← hmeant]
  dsimp only [Machine.Address.eval]
  rw [hscaled, signExtend_toDisp hfit]

end Machine

/-! ## Placed parts -/

/-- The operand can stand for a word in an address: it is a register, a variable, a symbol, a frame
slot or an integer. -/
def isPart : Operand → Bool
  | .reg _ | .var _ | .symbol _ | .stack _ _ => true
  | .imm l => l.int?.isSome
  | _ => false

/-- Folding keeps the variables. -/
theorem foldAddress_var {base index b i : Option Operand} {scale f : UInt8} {disp k : Int64}
    {v : Var} (h : foldAddress base index scale disp = (b, i, f, k))
    (hv : base = some (.var v) ∨ index = some (.var v)) :
    b = some (.var v) ∨ i = some (.var v) := by
  unfold foldAddress at h
  dsimp only at h
  generalize (if (scale == 0) = true then (1 : UInt8) else scale) = g at h
  split at h <;> grind

/-- A variable that was looked at has been placed. -/
theorem locate_of_addressable {cx : Context} {o : Option Operand} {st st' : State} {ok : Bool}
    (h : addressable cx o st = .ok (ok, st')) :
    st' = st ∧ ∀ v, o = some (.var v) → ∃ l, st.closure.locate? v = some l := by
  cases o with
  | none =>
    cases h
    exact ⟨rfl, fun v hv => by cases hv⟩
  | some o =>
    cases o with
    | var v =>
      obtain ⟨l, st1, hloc, hpure⟩ := run_bind.mp h
      cases hpure
      obtain ⟨rfl, hl⟩ := locate?_of_locate hloc
      refine ⟨rfl, fun u hu => ?_⟩
      cases hu
      exact ⟨_, hl⟩
    | _ =>
      cases h
      exact ⟨rfl, fun v hv => by cases hv⟩

section Placed

variable {e : Scene} {cx : Context} {slot : Slot} {base index : Option Operand} {scale : UInt8}
  {disp : Int64} {t : Ty} {d d' : Draft} {st st' : State}

/-- An address that was made encodable has its variables placed. -/
theorem placed_of_address (h : address cx slot base index scale disp t d st = .ok (d', st'))
    {v : Var} (hv : base = some (.var v) ∨ index = some (.var v)) :
    ∃ l, st.closure.locate? v = some l := by
  refine address_rule (K := fun o _ => ∀ v, o = .var v → ∃ l, st.closure.locate? v = some l)
    (R := fun m => ∀ d' st', m st = .ok (d', st') → ∃ l, st.closure.locate? v = some l)
    (S := fun _ m => ∀ st1 d' st', m st1 = .ok (d', st') → ∃ l, st.closure.locate? v = some l)
    (fun _ _ _ _ hfail => by cases hfail) (fun _ _ _ _ _ _ hfail => by cases hfail)
    (fun o f hf d' st' hok => ?_) (fun f hf d' st' hok => ?_)
    (fun b i f k hfold _ _ hlooked _ _ _ => hlooked _ (foldAddress_var hfold hv) v rfl)
    (fun b i f k hfold _ _ _ _ _ hload _ _ _ _ _ => ?_) d' st' h
  · obtain ⟨ok, st1, hin, hrest⟩ := run_bind.mp hok
    obtain ⟨rfl, hlooked⟩ := locate_of_addressable (o := some o) hin
    exact hf ok (fun v hv => hlooked v (congrArg some hv)) d' st' hrest
  · obtain ⟨d1, st1, -, hok⟩ := run_bind.mp hok
    exact hf d1 st1 d' st' hok
  · obtain ⟨_, hlooked⟩ := hload.looked (foldAddress_var hfold hv)
    exact hlooked v rfl

/-- A part whose variable is placed is worth a word. -/
theorem exists_word (s : Machine.State) {o : Option Operand}
    (hpart : ∀ part, o = some part → isPart part = true)
    (hvar : ∀ v, o = some (.var v) → ∃ l, (e.locs.lookup v.ident).filter Location.isPlaced =
      some l) :
    (∃ w, e.base? s o = some w) ∧ ∃ w, e.index? s o = some w := by
  cases o with
  | none => exact ⟨⟨_, rfl⟩, _, rfl⟩
  | some o =>
    have hp := hpart o rfl
    cases o with
    | reg r => exact ⟨⟨_, rfl⟩, _, rfl⟩
    | symbol y => exact ⟨⟨_, rfl⟩, _, rfl⟩
    | stack offset t => exact ⟨⟨_, rfl⟩, _, rfl⟩
    | imm l =>
      obtain ⟨v, hv⟩ := Option.isSome_iff_exists.mp hp
      have hword : e.index? s (some (.imm l)) = some v.toBitVec := by simp [Scene.index?, hv]
      exact ⟨⟨_, hword⟩, _, hword⟩
    | var v =>
      obtain ⟨⟨reg, stack⟩, hl⟩ := hvar v rfl
      obtain ⟨hlook, hplaced⟩ := Option.filter_eq_some_iff.mp hl
      obtain ⟨p, hhome⟩ : ∃ p, e.home? (.var v) = some p := by
        cases reg with
        | some r => exact ⟨r.place, by simp only [Setting.home?, hlook]⟩
        | none =>
          cases stack with
          | some offset =>
            exact ⟨.mem (e.base + offset.toBitVec), by simp only [Setting.home?, hlook]⟩
          | none => cases hplaced
      have hword : e.index? s (some (.var v)) = some ((held s (.var v) p).brought 8) := by
        simp only [Scene.index?, hhome, Option.map_some]
      exact ⟨⟨_, hword⟩, _, hword⟩
    | label l => cases hp
    | indirect => cases hp
    | list items => cases hp

/-! ## Exactness -/

theorem Readdressed.untouched {s s' : Machine.State} {whole : Operand}
    (h : Readdressed e cx slot d s whole d' s') : Untouched (e.scratch cx) d.spilled s s' := by
  cases h with
  | folded => exact .refl s
  | loaded o reserved rest => exact reserved.untouched.trans rest.of_none

/-- What a register holds of an operand, it holds while the register is left alone. -/
theorem Holds.of_untouched {scratch : Option (BitVec 64)} {n : Nat} {s s' : Machine.State}
    {part : Operand} (h : Holds e s part) (hs : Untouched scratch n s s')
    (hout : ∀ p, e.place? s part = some p → Outside scratch n p (width part)) :
    Holds e s' part := by
  intro r hr hint
  obtain ⟨h10, h11⟩ := hout _ (place?_of_regOf hr hint s)
  have hsame := hs.regs r.index h10 h11
  have hout' : Outside scratch n (.reg r.index) (width part) := ⟨h10, h11⟩
  rw [hsame, ← h r hr hint, held_of_untouched hs hout']

theorem holds_temp (s : Machine.State) : Holds e s (.reg (tempReg .i64)) := by
  intro r hr hint
  cases hr
  have hself := Datum.brought_self ⟨true, 8, s.get (.reg Machine.r10) 8⟩
  refine hself.trans ?_
  simp [Machine.State.get, tempReg, gpr]

/-- A memory operand that is made encodable is at the address that was meant, after the lines that
are emitted for it: its parts are general purpose registers, its displacement fits a field of 32
bits, and the machine computes that address. A part in a register has to fill the register as its
type says; what is in the frame may be narrower. -/
theorem address_is_exact {s : Machine.State}
    (hok : address cx slot base index scale disp t d st = .ok (d', st'))
    (hlocs : st.closure.locations = e.locs) (hplaces : e.Places st'.closure)
    (hparts : ∀ part, base = some part ∨ index = some part → isPart part = true ∧ Holds e s part ∧
      ∀ p, e.place? s part = some p → Outside (e.scratch cx) d.spilled p (width part))
    (hload : Loadable e.locs base index scale)
    (hholder : ∀ other o, d.holder = some other → other ≠ slot → other.get d.instr = some o →
      ∃ v, e.datum? s o = some v) :
    ∃ a code b i f k, e.address? s base index scale disp = some a ∧ st'.out = st.out ++ code ∧
      slot.get d'.instr = some (.indirect b i f k t) ∧ Machine.fitsInt32 k = true ∧
      (∀ part, b = some part ∨ i = some part → inGpr e.locs part = true) ∧
      Ensures e code s fun s' => ∃ m,
        Selection.operand st'.closure (.indirect b i f k t) = .ok (.mem m) ∧
          m.addr.eval e.link s' = a := by
  have hplaced : ∀ v, base = some (.var v) ∨ index = some (.var v) →
      ∃ l, (e.locs.lookup v.ident).filter Location.isPlaced = some l := by
    intro v hv
    rw [← hlocs]
    exact placed_of_address hok hv
  obtain ⟨⟨wb, hwb⟩, -⟩ := exists_word s (e := e) (o := base) (fun p hp => (hparts p (.inl hp)).1)
    fun v hv => hplaced v (.inl hv)
  obtain ⟨-, wi, hwi⟩ := exists_word s (e := e) (o := index) (fun p hp => (hparts p (.inr hp)).1)
    fun v hv => hplaced v (.inr hv)
  obtain ⟨a, ha⟩ : ∃ a, e.address? s base index scale disp = some a := by
    simp only [Scene.address?, hwb, hwi]
    exact ⟨_, rfl⟩
  have hworks := works_address (d := d) (t := t) ha hload
    (fun part hp => (hparts part hp).2.2) hholder
  obtain ⟨⟨code, hcode⟩, hlocs', -⟩ := hworks.extension st d' st' hok
  have hrun := hworks.ensures s st d' st' code rfl hok hlocs hplaces hcode
  -- The operand is the same after every run, so one run says what it is made of.
  obtain ⟨s1, ⟨⟨b, i, f, k, hget, hfit, hsome, hrb, hri, -, hfrom⟩⟩, -⟩ := hrun.exists
  refine ⟨a, code, b, i, f, k, ha, hcode, hget, hfit, ?_, hrun.mono ?_⟩
  · rintro part (rfl | rfl)
    · exact hrb
    · exact hri
  · rintro s' ⟨⟨b', i', f', k', hget', -, -, -, -, haddr, -⟩, hre⟩
    obtain ⟨rfl, rfl, rfl, rfl, -⟩ := Operand.indirect.inj (Option.some.inj (hget'.symm.trans hget))
    refine exists_memory (hlocs'.trans hlocs) hfit hsome hrb hri (fun part hp => ?_) haddr
    rcases hfrom part hp with rfl | hp
    · exact holds_temp s'
    · exact (hparts part hp).2.1.of_untouched hre.untouched (hparts part hp).2.2

end Placed

/-- `%p:ptr` is in rdi, `%i:i32` in rcx and `%j:i32` in the frame. -/
def indexedScene : Scene :=
  ⟨⟨⟨fun _ => 0, fun _ => 0⟩, [("p", ⟨some (gpr Machine.rdi 8), none⟩),
    ("i", ⟨some (gpr Machine.rcx 8), none⟩), ("j", ⟨none, some (-8)⟩)], 0⟩, []⟩

/-- The half of rcx that is no part of `%i:i32` is not zero, and `%j:i32` is minus one. -/
def indexedState : Machine.State :=
  ⟨fun id => if id = Machine.rdi then 0x1000 else 0x100000000, fun _ => 0, fun _ => 0xff⟩

def indexedStart : State := ⟨⟨"f", "f", true, .void, [], [], indexedScene.locs, [], [], 0, []⟩, []⟩

def indexedContext : Context := ⟨[], none, .make .move none none none⟩

def pointer : Operand := .var ⟨"p", .ptr, false, false⟩

def registerIndex : Operand := .var ⟨"i", .i32, false, false⟩

def frameIndex : Operand := .var ⟨"j", .i32, false, false⟩

/-- A narrow index in the frame counts as the number that it is. -/
theorem address_is_exact_frame_index :
    ∃ d' st' code b i f k, address indexedContext .first (some pointer) (some frameIndex) 4 12 .i32
        (.of indexedContext.instr) indexedStart = .ok (d', st') ∧ st'.out = code ∧
      Slot.first.get d'.instr = some (.indirect b i f k .i32) ∧ Machine.fitsInt32 k = true ∧
      Ensures indexedScene code indexedState fun s' => ∃ m,
        Selection.operand st'.closure (.indirect b i f k .i32) = .ok (.mem m) ∧
          m.addr.eval indexedScene.link s' = 0x1008 := by
  obtain ⟨d', st', hok⟩ : ∃ d' st',
      address indexedContext .first (some pointer) (some frameIndex) 4 12
      .i32 (.of indexedContext.instr) indexedStart = .ok (d', st') := ⟨_, _, rfl⟩
  have hp : Holds indexedScene indexedState pointer := by
    intro r hr _
    cases hr
    rfl
  have hj : Holds indexedScene indexedState frameIndex := fun r hr => by cases hr
  have hplaces : indexedScene.Places st'.closure := by
    cases hok
    exact fun key name h => h
  have hparts : ∀ part, some pointer = some part ∨ some frameIndex = some part →
      isPart part = true ∧ Holds indexedScene indexedState part ∧ ∀ p,
        indexedScene.place? indexedState part = some p →
          Outside (indexedScene.scratch indexedContext) 0 p (width part) := by
    rintro part (hpart | hpart) <;> cases hpart
    · refine ⟨rfl, hp, fun p h => ?_⟩
      cases h
      exact ⟨by decide, by decide⟩
    · refine ⟨rfl, hj, fun p h => ?_⟩
      cases h
      exact fun x hx b hb => by cases hb
  have hload : Loadable indexedScene.locs (some pointer) (some frameIndex) 4 := by
    refine ⟨fun y hy => ?_, fun b i hb _ _ _ hframe _ _ => ?_⟩
    · cases hy
    · cases hb
      cases hframe
  obtain ⟨a, code, b, i, f, k, ha, hcode, hget, hfit, -, hrun⟩ :=
    address_is_exact (s := indexedState) (e := indexedScene) hok rfl hplaces hparts hload
      fun other o h => by cases h
  have hmeant : a = 0x1008 := by
    have hword : indexedScene.address? indexedState (some pointer) (some frameIndex) 4 12 =
        some 0x1008 := by decide
    exact Option.some.inj (ha.symm.trans hword)
  subst hmeant
  exact ⟨d', st', code, b, i, f, k, hok, hcode, hget, hfit, hrun⟩

/-- A narrow index in a register is taken with the rest of the register: nothing is emitted, and the
address is not the one that was meant. -/
theorem narrow_register_index_not_extended :
    ∃ d' a m, address indexedContext .first (some pointer) (some registerIndex) 4 0 .i32
        (.of indexedContext.instr) indexedStart = .ok (d', indexedStart) ∧
      d'.instr.first = some (.indirect (some pointer) (some registerIndex) 4 0 .i32) ∧
      indexedScene.address? indexedState (some pointer) (some registerIndex) 4 0 = some a ∧
      Selection.operand indexedStart.closure
      (.indirect (some pointer) (some registerIndex) 4 0 .i32) =
        .ok (.mem m) ∧
      m.addr.eval indexedScene.link indexedState ≠ a := by
  refine ⟨_, _, _, rfl, rfl, rfl, rfl, ?_⟩
  decide

end Backend.Lowering
