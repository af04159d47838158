-- The slots of a frame: where laying out a closure puts its variables, the registers to preserve
-- and scratch values, and that no two of them share a byte.
import Mathlib.Data.List.Pairwise
import Mathlib.Tactic.Linarith
import Backend.Lowering.Frame

namespace Backend.Lowering

/-! ## Sizes of frames -/

theorem toInt_add_of_fits {a b : Int64} (hlow : 0 ≤ a.toInt + b.toInt)
    (hhigh : a.toInt + b.toInt < 2 ^ 63) : (a + b).toInt = a.toInt + b.toInt := by
  rw [Int64.toInt_add]
  apply Int.bmod_eq_of_le <;> omega

theorem toInt_neg_of_nonneg {a : Int64} (h : 0 ≤ a.toInt) : (-a).toInt = -a.toInt := by
  have hmax := a.toInt_lt
  rw [Int64.toInt_neg]
  apply Int.bmod_eq_of_le <;> omega

/-- Rounding up gives the first multiple that is not below the size. -/
theorem alignFrame_spec (size align : Int64) (hsize : 0 ≤ size.toInt) (halign : 0 < align.toInt)
    (hroom : size.toInt + align.toInt < 2 ^ 63) :
    align.toInt ∣ (alignFrame size align).toInt ∧ size.toInt ≤ (alignFrame size align).toInt ∧
      (alignFrame size align).toInt < size.toInt + align.toInt := by
  have hone : (1 : Int64).toInt = 1 := by decide
  unfold alignFrame
  by_cases hle : align ≤ 1
  · have hle' := Int64.le_iff_toInt_le.mp hle
    rw [hone] at hle'
    have heq : align.toInt = 1 := by omega
    rw [if_pos hle, heq]
    exact ⟨one_dvd _, le_refl _, by omega⟩
  · rw [if_neg hle]
    have hsum : (size + align - 1).toInt = size.toInt + align.toInt - 1 := by
      rw [Int64.toInt_sub, toInt_add_of_fits (by omega) hroom, hone]
      apply Int.bmod_eq_of_le <;> omega
    let q := (size.toInt + align.toInt - 1) / align.toInt
    have hmul : align.toInt * q ≤ size.toInt + align.toInt - 1 := Int.mul_ediv_self_le (by omega)
    have hlt : size.toInt + align.toInt - 1 < align.toInt * q + align.toInt :=
      Int.lt_mul_ediv_self_add halign
    have hq0 : 0 ≤ q := Int.ediv_nonneg (by omega) (by omega)
    have hq : q ≤ align.toInt * q := by nlinarith
    have hdiv : ((size + align - 1) / align).toInt = q := by
      rw [Int64.toInt_div, hsum, Int.tdiv_eq_ediv_of_nonneg (by omega)]
      apply Int.bmod_eq_of_le
      · have : (0 : Int) ≤ q := hq0
        simp only [q] at this
        omega
      · simp only [q] at hq hmul
        omega
    have hprod : ((size + align - 1) / align * align).toInt = align.toInt * q := by
      rw [Int64.toInt_mul, hdiv, mul_comm]
      apply Int.bmod_eq_of_le <;> omega
    rw [hprod]
    exact ⟨Dvd.intro _ rfl, by omega, by omega⟩

/-! ## Slots -/

/-- What a slot of the frame is for. -/
inductive SlotOwner where
  | var (v : Var)
  | saved (r : Reg)
  | scratch
  deriving DecidableEq

/-- A part of the frame: `size` bytes from an offset to the frame pointer. -/
structure FrameSlot where
  owner : SlotOwner
  offset : Int64
  size : Nat
  deriving DecidableEq

namespace FrameSlot

/-- The end of the slot, which does not belong to it. -/
def stop (s : FrameSlot) : Int := s.offset.toInt + s.size

/-- The slots have no byte in common. -/
def Disjoint (s t : FrameSlot) : Prop := t.stop ≤ s.offset.toInt ∨ s.stop ≤ t.offset.toInt

def Aligned (s : FrameSlot) : Prop := (s.size : Int) ∣ s.offset.toInt

/-- The slot lies in a frame of a size. -/
def Within (s : FrameSlot) (frame : Int64) : Prop := -frame.toInt ≤ s.offset.toInt ∧ s.stop ≤ 0

end FrameSlot

/-- The slots lie one below the other, all of them at least `top` and at most `bottom` bytes below
the frame pointer. -/
def Descend : Int → List FrameSlot → Int → Prop
  | top, [], bottom => top ≤ bottom
  | top, s :: rest, bottom => s.stop ≤ -top ∧ Descend (-s.offset.toInt) rest bottom

theorem Descend.le {top bottom : Int} {slots : List FrameSlot} (h : Descend top slots bottom) :
    top ≤ bottom := by
  induction slots generalizing top with
  | nil => exact h
  | cons s rest ih =>
    have hrest := ih h.2
    have hs := h.1
    unfold FrameSlot.stop at hs
    omega

theorem Descend.append {top middle bottom : Int} {slots lower : List FrameSlot}
    (h : Descend top slots middle) (h' : Descend middle lower bottom) :
    Descend top (slots ++ lower) bottom := by
  induction slots generalizing top with
  | nil =>
    cases lower with
    | nil => exact le_trans h h'
    | cons s rest =>
      have hle : top ≤ middle := h
      exact ⟨le_trans h'.1 (by omega), h'.2⟩
  | cons s rest ih => exact ⟨h.1, ih h.2⟩

theorem Descend.mono {top middle bottom : Int} {slots : List FrameSlot}
    (h : Descend top slots middle) (hle : middle ≤ bottom) : Descend top slots bottom := by
  have hnil : Descend middle [] bottom := hle
  have happend := h.append hnil
  rwa [List.append_nil] at happend

theorem Descend.within {top bottom : Int} {slots : List FrameSlot} (h : Descend top slots bottom) :
    ∀ s ∈ slots, -bottom ≤ s.offset.toInt ∧ s.stop ≤ -top := by
  induction slots generalizing top with
  | nil =>
    intro s hs
    cases hs
  | cons t rest ih =>
    intro s hs
    have hle := h.2.le
    cases hs with
    | head => exact ⟨by omega, h.1⟩
    | tail _ hmem =>
      obtain ⟨hlow, hstop⟩ := ih h.2 s hmem
      have ht := h.1
      unfold FrameSlot.stop at ht
      exact ⟨hlow, by omega⟩

theorem Descend.pairwise {top bottom : Int} {slots : List FrameSlot}
    (h : Descend top slots bottom) : slots.Pairwise FrameSlot.Disjoint := by
  induction slots generalizing top with
  | nil => exact List.Pairwise.nil
  | cons s rest ih =>
    refine List.Pairwise.cons ?_ (ih h.2)
    intro t ht
    have hstop := (h.2.within t ht).2
    exact Or.inl (by omega)

instance : Std.Symm FrameSlot.Disjoint where
  symm _ _ h := Or.symm h

theorem Descend.disjoint {top bottom : Int} {slots : List FrameSlot} {s t : FrameSlot}
    (h : Descend top slots bottom) (hs : s ∈ slots) (ht : t ∈ slots) (hne : s ≠ t) :
    s.Disjoint t :=
  h.pairwise.forall hs ht hne

/-! ## Variables -/

/-- The variable has no register and no slot yet. -/
def Unplaced (locs : Locations) (ident : String) : Prop :=
  (locs.lookup ident).filter Location.isPlaced = none

theorem placed_or_unplaced (locs : Locations) (ident : String) :
    (∃ l, locs.lookup ident = some l ∧ l.isPlaced) ∨ Unplaced locs ident := by
  unfold Unplaced
  cases h : locs.lookup ident with
  | none => exact Or.inr rfl
  | some l =>
    by_cases hl : l.isPlaced
    · exact Or.inl ⟨l, rfl, hl⟩
    · exact Or.inr (by simp [Option.filter, hl])

/-- A placed variable is passed over; any other gets an aligned slot below the frame. -/
theorem placeLocal_cases {size : Int64} (locs : Locations) (v : Var) (hsize : 0 ≤ size.toInt)
    (hroom : size.toInt + 16 < 2 ^ 63) :
    ((∃ l, locs.lookup v.ident = some l ∧ l.isPlaced) ∧ placeLocal (size, locs) v = (size, locs)) ∨
    (Unplaced locs v.ident ∧ ∃ size' : Int64,
      placeLocal (size, locs) v = (size', assocInsert v.ident ⟨none, some (-size')⟩ locs) ∧
      (registerWidth v.ty : Int) ∣ size'.toInt ∧ size.toInt + registerWidth v.ty ≤ size'.toInt ∧
      size'.toInt < size.toInt + 16) := by
  rcases placed_or_unplaced locs v.ident with ⟨l, hl, hplaced⟩ | h
  · refine Or.inl ⟨⟨l, hl, hplaced⟩, ?_⟩
    have hfilter : (locs.lookup v.ident).filter Location.isPlaced = some l := by
      rw [hl]
      exact Option.filter_some_pos hplaced
    unfold placeLocal
    simp only [hfilter]
  · refine Or.inr ⟨h, alignFrame (size + Int64.ofNat (registerWidth v.ty))
      (Int64.ofNat (registerWidth v.ty)), ?_, ?_⟩
    · unfold Unplaced at h
      simp [placeLocal, h]
    · have hwidth : 0 < registerWidth v.ty ∧ registerWidth v.ty ≤ 8 := by cases v.ty <;> decide
      have hn : (Int64.ofNat (registerWidth v.ty)).toInt = registerWidth v.ty :=
        Int64.toInt_ofNat_of_lt (by omega)
      have hsum : (size + Int64.ofNat (registerWidth v.ty)).toInt =
          size.toInt + registerWidth v.ty := by
        rw [toInt_add_of_fits (by omega) (by omega), hn]
      obtain ⟨hdvd, hle, hlt⟩ := alignFrame_spec (size + Int64.ofNat (registerWidth v.ty))
        (Int64.ofNat (registerWidth v.ty)) (by omega) (by omega) (by omega)
      rw [hn] at hdvd hlt
      exact ⟨hdvd, by omega, by omega⟩

/-- What placing some variables in turn does to the frame. The variables that had no place have the
slots, each for its first occurrence in the list. -/
structure Placement (vs : List Var) (st : Int64 × Locations) (slots : List FrameSlot)
    (st' : Int64 × Locations) : Prop where
  descend : Descend st.1.toInt slots st'.1.toInt
  room : st'.1.toInt ≤ st.1.toInt + 16 * vs.length
  aligned : ∀ s ∈ slots, s.Aligned
  kept : ∀ ident l, st.2.lookup ident = some l → l.isPlaced → st'.2.lookup ident = some l
  given : ∀ v, vs.find? (fun w => w.ident == v.ident) = some v → Unplaced st.2 v.ident →
    ∃ off, st'.2.lookup v.ident = some ⟨none, some off⟩ ∧ ⟨.var v, off, registerWidth v.ty⟩ ∈ slots
  only : ∀ ident l, st'.2.lookup ident = some l →
    st.2.lookup ident = some l ∨ ∃ v off, vs.find? (fun w => w.ident == ident) = some v ∧
      v.ident = ident ∧ Unplaced st.2 ident ∧ l = ⟨none, some off⟩

theorem Placement.nil (st : Int64 × Locations) : Placement [] st [] st where
  descend := le_refl _
  room := by simp
  aligned := by
    intro s hs
    cases hs
  kept := fun _ _ h _ => h
  given := by
    intro v hv
    cases hv
  only := fun _ _ h => Or.inl h

theorem Unplaced.not_placed {locs : Locations} {ident : String} {l : Location}
    (h : Unplaced locs ident) (hl : locs.lookup ident = some l) : ¬ l.isPlaced := by
  intro hp
  unfold Unplaced at h
  simp [hl, hp] at h

theorem Placement.cons_placed {v : Var} {vs : List Var} {st st' : Int64 × Locations}
    {slots : List FrameSlot} {l : Location} (hl : st.2.lookup v.ident = some l) (hp : l.isPlaced)
    (h : Placement vs st slots st') : Placement (v :: vs) st slots st' where
  descend := h.descend
  room := by
    have := h.room
    rw [List.length_cons]
    push_cast
    omega
  aligned := h.aligned
  kept := h.kept
  given := by
    intro w hw hun
    have hne : (v.ident == w.ident) = false := by
      by_contra heq
      have heq : v.ident = w.ident := by simpa using heq
      exact hun.not_placed (heq ▸ hl) hp
    rw [List.find?_cons, hne] at hw
    exact h.given w hw hun
  only := by
    intro ident k hk
    rcases h.only ident k hk with hold | ⟨w, off, hfind, hid, hun, hkl⟩
    · exact Or.inl hold
    · have hne : (v.ident == ident) = false := by
        by_contra heq
        have heq : v.ident = ident := by simpa using heq
        exact hun.not_placed (heq ▸ hl) hp
      exact Or.inr ⟨w, off, by rw [List.find?_cons, hne]; exact hfind, hid, hun, hkl⟩

theorem Unplaced.insert_ne {locs : Locations} {ident other : String} (l : Location)
    (hne : ident ≠ other) : Unplaced (assocInsert other l locs) ident ↔ Unplaced locs ident := by
  unfold Unplaced
  rw [lookup_assocInsert_ne hne]

theorem Placement.cons_unplaced {v : Var} {vs : List Var} {size size' : Int64} {locs : Locations}
    {st' : Int64 × Locations} {slots : List FrameSlot} (hun : Unplaced locs v.ident)
    (hsize : 0 ≤ size.toInt) (hdvd : (registerWidth v.ty : Int) ∣ size'.toInt)
    (hle : size.toInt + registerWidth v.ty ≤ size'.toInt) (hlt : size'.toInt < size.toInt + 16)
    (h : Placement vs (size', assocInsert v.ident ⟨none, some (-size')⟩ locs) slots st') :
    Placement (v :: vs) (size, locs) (⟨.var v, -size', registerWidth v.ty⟩ :: slots) st' := by
  have hneg : (-size').toInt = -size'.toInt := toInt_neg_of_nonneg (by omega)
  have hself : st'.2.lookup v.ident = some ⟨none, some (-size')⟩ :=
    h.kept _ _ (lookup_assocInsert_self ..) rfl
  constructor
  case descend =>
    refine ⟨?_, ?_⟩
    · unfold FrameSlot.stop
      simp only [hneg]
      omega
    · simp only [hneg, neg_neg]
      exact h.descend
  case room =>
    have := h.room
    simp only [List.length_cons] at this ⊢
    push_cast
    omega
  case aligned =>
    intro s hs
    cases hs with
    | head =>
      unfold FrameSlot.Aligned
      simp only [hneg]
      exact (Int.dvd_neg).mpr hdvd
    | tail _ hmem => exact h.aligned s hmem
  case kept =>
    intro ident l hl hp
    have hne : ident ≠ v.ident := by
      intro heq
      exact hun.not_placed (heq ▸ hl) hp
    exact h.kept ident l (by rw [lookup_assocInsert_ne hne]; exact hl) hp
  case given =>
    intro w hw hunw
    rw [List.find?_cons] at hw
    by_cases heq : v.ident = w.ident
    · simp only [heq, beq_self_eq_true, Option.some.injEq] at hw
      subst hw
      exact ⟨-size', hself, List.mem_cons_self⟩
    · rw [beq_eq_false_iff_ne.mpr heq] at hw
      obtain ⟨off, hoff, hmem⟩ := h.given w hw ((Unplaced.insert_ne _ (Ne.symm heq)).mpr hunw)
      exact ⟨off, hoff, List.mem_cons_of_mem _ hmem⟩
  case only =>
    intro ident l hl
    by_cases heq : ident = v.ident
    · subst heq
      rw [hself] at hl
      cases hl
      exact Or.inr ⟨v, -size', by simp, rfl, hun, rfl⟩
    · rcases h.only ident l hl with hold | ⟨w, off, hfind, hid, hunw, hll⟩
      · rw [lookup_assocInsert_ne heq] at hold
        exact Or.inl hold
      · refine Or.inr ⟨w, off, ?_, hid, (Unplaced.insert_ne _ heq).mp hunw, hll⟩
        rw [List.find?_cons, beq_eq_false_iff_ne.mpr (Ne.symm heq)]
        exact hfind

/-- Placing variables in turn gives each that needs one a slot of its own. -/
theorem placement_foldl (vs : List Var) (size : Int64) (locs : Locations) (hsize : 0 ≤ size.toInt)
    (hroom : size.toInt + 16 * vs.length < 2 ^ 63) :
    ∃ slots, Placement vs (size, locs) slots (vs.foldl placeLocal (size, locs)) := by
  induction vs generalizing size locs with
  | nil => exact ⟨[], .nil _⟩
  | cons v vs ih =>
    rw [List.length_cons] at hroom
    push_cast at hroom
    rw [List.foldl_cons]
    rcases placeLocal_cases locs v hsize (by omega) with
      ⟨⟨l, hl, hp⟩, hstep⟩ | ⟨hun, size', hstep, hdvd, hle, hlt⟩
    · rw [hstep]
      obtain ⟨slots, hslots⟩ := ih size locs hsize (by omega)
      exact ⟨slots, hslots.cons_placed hl hp⟩
    · rw [hstep]
      obtain ⟨slots, hslots⟩ := ih size' _ (by omega) (by omega)
      exact ⟨_, hslots.cons_unplaced hun hsize hdvd hle hlt⟩

/-! ## Slots given beforehand -/

/-- The slots that were given beforehand to variables without a register start less than `2 ^ 62`
bytes from the frame pointer. -/
def Near (locs : Locations) : Prop :=
  ∀ p ∈ locs, p.2.reg = none → ∀ off, p.2.stack = some off → off.toInt.natAbs < 2 ^ 62

/-- One entry of `placedExtent`. -/
def extend (size : Int64) (p : String × Location) : Int64 :=
  match p.2.reg, p.2.stack with
  | none, some offset => if -offset > size then -offset else size
  | _, _ => size

theorem placedExtent_eq (locs : Locations) : placedExtent locs = locs.foldl extend 0 := rfl

theorem le_extend (size : Int64) (p : String × Location) : size.toInt ≤ (extend size p).toInt := by
  unfold extend
  split
  · split
    · rename_i hgt
      have hlt := Int64.lt_iff_toInt_lt.mp hgt
      omega
    · exact le_refl _
  · exact le_refl _

theorem placedExtent_nonneg (locs : Locations) : 0 ≤ (placedExtent locs).toInt := by
  have hfold : ∀ size : Int64, size.toInt ≤ (locs.foldl extend size).toInt := by
    induction locs with
    | nil => exact fun _ => le_refl _
    | cons p rest ih => exact fun size => (le_extend size p).trans (ih _)
  exact hfold 0

theorem extend_spec {size : Int64} {p : String × Location} (hsize : size.toInt < 2 ^ 62)
    (hp : p.2.reg = none → ∀ off, p.2.stack = some off → off.toInt.natAbs < 2 ^ 62) :
    size.toInt ≤ (extend size p).toInt ∧ (extend size p).toInt < 2 ^ 62 ∧
      (p.2.reg = none → ∀ off, p.2.stack = some off → -(extend size p).toInt ≤ off.toInt) := by
  obtain ⟨ident, reg, stack⟩ := p
  unfold extend
  cases reg with
  | some r => exact ⟨le_refl _, hsize, fun h => by cases h⟩
  | none =>
    cases stack with
    | none => exact ⟨le_refl _, hsize, fun _ off h => by cases h⟩
    | some offset =>
      have hoff := hp rfl offset rfl
      have hneg : (-offset).toInt = -offset.toInt := by
        rw [Int64.toInt_neg]
        apply Int.bmod_eq_of_le <;> omega
      by_cases hgt : -offset > size
      · have hlt := Int64.lt_iff_toInt_lt.mp hgt
        simp only [if_pos hgt]
        refine ⟨by omega, by omega, fun _ off h => ?_⟩
        cases h
        omega
      · have hle := mt Int64.lt_iff_toInt_lt.mpr hgt
        simp only [if_neg hgt]
        refine ⟨le_refl _, hsize, fun _ off h => ?_⟩
        cases h
        omega

theorem extend_foldl (locs : Locations) (size : Int64) (hsize : size.toInt < 2 ^ 62)
    (hnear : Near locs) : size.toInt ≤ (locs.foldl extend size).toInt ∧
      (locs.foldl extend size).toInt < 2 ^ 62 ∧ ∀ p ∈ locs, p.2.reg = none →
        ∀ off, p.2.stack = some off → -(locs.foldl extend size).toInt ≤ off.toInt := by
  induction locs generalizing size with
  | nil =>
    refine ⟨le_refl _, hsize, ?_⟩
    intro p hp
    cases hp
  | cons q rest ih =>
    obtain ⟨hle, hlt, hq⟩ := extend_spec hsize (hnear q List.mem_cons_self)
    obtain ⟨hle', hlt', hrest⟩ := ih (extend size q) hlt fun p hp => hnear p (.tail _ hp)
    rw [List.foldl_cons]
    refine ⟨by omega, hlt', ?_⟩
    intro p hp hreg off hoff
    cases hp with
    | head =>
      have := hq hreg off hoff
      omega
    | tail _ hmem => exact hrest p hmem hreg off hoff

/-! ## Preserved registers -/

/-- The slot of a preserved register. -/
def savedSlot (s : SavedReg) : FrameSlot := ⟨.saved s.reg, s.offset, 8⟩

/-- The registers that variables live in get slots of eight bytes in turn. -/
theorem placeSaved_foldl (locs : Locations) (ids : List Machine.RegId) (size : Int64)
    (before : List SavedReg) (hsize : 0 ≤ size.toInt)
    (hroom : size.toInt + 8 * ids.length < 2 ^ 63) :
    ∃ (size' : Int64) (saved : List SavedReg),
      ids.foldl (placeSaved locs) (size, before) = (size', before ++ saved) ∧
      Descend size.toInt (saved.map savedSlot) size'.toInt ∧
      size'.toInt ≤ size.toInt + 8 * ids.length ∧
      saved.map SavedReg.reg = (ids.map fun id => gpr id 8).filter locs.occupies := by
  induction ids generalizing size before with
  | nil => exact ⟨size, [], by simp, le_refl _, by simp, rfl⟩
  | cons id ids ih =>
    rw [List.length_cons] at hroom
    push_cast at hroom
    rw [List.foldl_cons]
    by_cases hocc : locs.occupies (gpr id 8)
    · have height : (8 : Int64).toInt = 8 := by decide
      have hsum : (size + 8).toInt = size.toInt + 8 := by
        rw [toInt_add_of_fits (by omega) (by omega), height]
      have hneg : (-(size + 8)).toInt = -(size.toInt + 8) := by
        rw [toInt_neg_of_nonneg (by omega), hsum]
      have hstep : placeSaved locs (size, before) id =
          (size + 8, before ++ [⟨gpr id 8, -(size + 8)⟩]) := by
        simp [placeSaved, hocc]
      obtain ⟨size', saved, hfold, hdesc, hle, hregs⟩ := ih (size + 8)
        (before ++ [⟨gpr id 8, -(size + 8)⟩]) (by omega) (by omega)
      refine ⟨size', ⟨gpr id 8, -(size + 8)⟩ :: saved, ?_, ⟨?_, ?_⟩, ?_, ?_⟩
      · rw [hstep, hfold]
        simp
      · unfold FrameSlot.stop savedSlot
        simp only [hneg]
        omega
      · unfold savedSlot
        simp only [hneg, neg_neg]
        rw [← hsum]
        exact hdesc
      · rw [List.length_cons]
        push_cast
        omega
      · rw [List.map_cons, List.map_cons, List.filter_cons_of_pos hocc, hregs]
    · have hstep : placeSaved locs (size, before) id = (size, before) := by
        simp [placeSaved, hocc]
      obtain ⟨size', saved, hfold, hdesc, hle, hregs⟩ := ih size before hsize (by omega)
      refine ⟨size', saved, by rw [hstep, hfold], hdesc, ?_, ?_⟩
      · rw [List.length_cons]
        push_cast
        omega
      · rw [List.map_cons, List.filter_cons_of_neg hocc, hregs]

/-! ## The layout -/

/-- The layout saves the preserved registers that variables live in. -/
theorem saved_of_layout (c : Closure) : (layout c).1.saved.map SavedReg.reg =
    (calleeSaved.map fun id => gpr id 8).filter (layout c).1.locations.occupies := by
  have hfold : ∀ (locs : Locations) (ids : List Machine.RegId) (st : Int64 × List SavedReg),
      (ids.foldl (placeSaved locs) st).2.map SavedReg.reg =
        st.2.map SavedReg.reg ++ (ids.map fun id => gpr id 8).filter locs.occupies := by
    intro locs ids
    induction ids with
    | nil => simp
    | cons id ids ih =>
      intro st
      rw [List.foldl_cons, ih, List.map_cons]
      unfold placeSaved
      dsimp only
      split
      · rename_i hocc
        rw [List.filter_cons_of_pos hocc, List.map_append, List.append_assoc]
        rfl
      · rename_i hocc
        rw [List.filter_cons_of_neg hocc]
  unfold layout
  dsimp only
  split <;> exact hfold _ _ (_, [])

/-- Laying out the closure assigns the slot. A variable that is declared several times has one slot,
of the type of its last declaration. -/
inductive GivenSlot (c : Closure) : FrameSlot → Prop
  | var {v : Var} {off : Int64}
      (last : c.locals.reverse.find? (fun w => w.ident == v.ident) = some v)
      (unplaced : Unplaced c.locations v.ident)
      (placed : (layout c).1.locations.lookup v.ident = some ⟨none, some off⟩) :
      GivenSlot c ⟨.var v, off, registerWidth v.ty⟩
  | saved {s : SavedReg} (mem : s ∈ (layout c).1.saved) : GivenSlot c (savedSlot s)
  | scratch {off : Int64} (given : (layout c).2 = some off) : GivenSlot c ⟨.scratch, off, 16⟩

/-- The declarations do not fill the address space: no more of them than would fit in memory. -/
def FewLocals (c : Closure) : Prop := c.locals.length ≤ 2 ^ 57

/-- The slots of a layout: those of variables, of preserved registers and of scratch values, one
below the other between what was placed beforehand and the end of the frame. -/
structure Laid (c : Closure) (size : Int64) (vars : List FrameSlot) : Prop where
  placement : Placement c.locals.reverse (placedExtent c.locations, c.locations) vars
    (size, (layout c).1.locations)
  saved : (layout c).1.saved.map SavedReg.reg =
    (calleeSaved.map fun id => gpr id 8).filter (layout c).1.locations.occupies
  scratch : (layout c).2.isSome = needsScratch c
  descend : Descend (placedExtent c.locations).toInt
    (vars ++ (layout c).1.saved.map savedSlot ++
      (layout c).2.toList.map fun off => ⟨.scratch, off, 16⟩) (layout c).1.frame.toInt
  aligned : (16 : Int) ∣ (layout c).1.frame.toInt

theorem layout_laid_of_extent {c : Closure} (hext' : (placedExtent c.locations).toInt < 2 ^ 62)
    (hfew : FewLocals c) : ∃ size vars, Laid c size vars := by
  unfold FewLocals at hfew
  have hsixteen : (16 : Int64).toInt = 16 := by decide
  have hext := placedExtent_nonneg c.locations
  obtain ⟨vars, hvars⟩ := placement_foldl c.locals.reverse _ c.locations hext
    (by rw [List.length_reverse]; omega)
  generalize hst : c.locals.reverse.foldl placeLocal (placedExtent c.locations, c.locations) = st
    at hvars
  obtain ⟨size, locs⟩ := st
  have hgrown := hvars.descend.le
  have hroom := hvars.room
  simp only [List.length_reverse] at hgrown hroom
  obtain ⟨-, hup, hup'⟩ := alignFrame_spec size 16 (by omega) (by decide)
    (by omega)
  rw [hsixteen] at hup'
  obtain ⟨size', saved, hfold, hdesc, hle, hregs⟩ := placeSaved_foldl locs calleeSaved
    (alignFrame size 16) [] (by omega)
    (by simp only [calleeSaved, List.length_cons, List.length_nil]; omega)
  rw [List.nil_append] at hfold
  simp only [calleeSaved, List.length_cons, List.length_nil] at hle
  have hlow := hdesc.le
  have habove := (hvars.descend.mono hup).append hdesc
  refine ⟨size, vars, ?_⟩
  by_cases hneeds : needsScratch c
  · have hsum : (size' + 16).toInt = size'.toInt + 16 := by
      rw [toInt_add_of_fits (by omega) (by omega), hsixteen]
    have hneg : (-(size' + 16)).toInt = -(size'.toInt + 16) := by
      rw [toInt_neg_of_nonneg (by omega), hsum]
    obtain ⟨hdvd, hend, -⟩ := alignFrame_spec (size' + 16) 16 (by omega)
      (by decide) (by omega)
    have hlayout : layout c =
        ({ c with locations := locs, saved := saved, frame := alignFrame (size' + 16) 16 },
          some (-(size' + 16))) := by
      unfold layout
      simp only [hst, hfold, if_pos hneeds]
    have hscratch : Descend size'.toInt [⟨.scratch, -(size' + 16), 16⟩]
        (alignFrame (size' + 16) 16).toInt := by
      refine ⟨?_, ?_⟩
      · unfold FrameSlot.stop
        simp only [hneg]
        omega
      · unfold Descend
        simp only [hneg]
        omega
    constructor <;> rw [hlayout]
    · exact hvars
    · exact hregs
    · exact hneeds.symm
    · exact habove.append hscratch
    · exact hdvd
  · obtain ⟨hdvd, hend, -⟩ := alignFrame_spec size' 16 (by omega)
      (by decide) (by omega)
    have hlayout : layout c =
        ({ c with locations := locs, saved := saved, frame := alignFrame size' 16 }, none) := by
      unfold layout
      simp only [hst, hfold, if_neg hneeds]
    constructor <;> rw [hlayout]
    · exact hvars
    · exact hregs
    · simp [hneeds]
    · simpa using habove.mono hend
    · exact hdvd

theorem layout_laid {c : Closure} (hnear : Near c.locations) (hfew : FewLocals c) :
    ∃ size vars, Laid c size vars := by
  obtain ⟨-, hext, -⟩ := extend_foldl c.locations 0 (by decide) hnear
  rw [← placedExtent_eq] at hext
  exact layout_laid_of_extent hext hfew

section

variable {c : Closure} {size : Int64} {vars : List FrameSlot}

theorem Laid.mem_vars (h : Laid c size vars) {v : Var} {off : Int64}
    (last : c.locals.reverse.find? (fun w => w.ident == v.ident) = some v)
    (unplaced : Unplaced c.locations v.ident)
    (placed : (layout c).1.locations.lookup v.ident = some ⟨none, some off⟩) :
    ⟨.var v, off, registerWidth v.ty⟩ ∈ vars := by
  obtain ⟨off', hlookup, hmem⟩ := h.placement.given v last unplaced
  have heq := placed.symm.trans hlookup
  simp only [Option.some.injEq, Location.mk.injEq, true_and] at heq
  exact heq ▸ hmem

theorem Laid.mem_of_assigned (h : Laid c size vars) {s : FrameSlot} (hs : GivenSlot c s) :
    s ∈ vars ++ (layout c).1.saved.map savedSlot ++
      (layout c).2.toList.map fun off => ⟨.scratch, off, 16⟩ := by
  cases hs with
  | var last unplaced placed =>
    exact List.mem_append_left _ (List.mem_append_left _ (h.mem_vars last unplaced placed))
  | saved mem => exact List.mem_append_left _ (List.mem_append_right _ (List.mem_map_of_mem mem))
  | scratch given =>
    refine List.mem_append_right _ ?_
    rw [given]
    exact List.mem_cons_self

theorem Laid.disjoint (h : Laid c size vars) {s t : FrameSlot} (hs : GivenSlot c s)
    (ht : GivenSlot c t) (hne : s ≠ t) : s.Disjoint t :=
  h.descend.disjoint (h.mem_of_assigned hs) (h.mem_of_assigned ht) hne

theorem Laid.aligned_of_var (h : Laid c size vars) {s : FrameSlot} (hs : GivenSlot c s) {v : Var}
    (hv : s.owner = .var v) : s.Aligned := by
  cases hs with
  | var last unplaced placed => exact h.placement.aligned _ (h.mem_vars last unplaced placed)
  | saved mem => cases hv
  | scratch given => cases hv

/-- A slot lies in the frame, below everything that was placed there before. -/
theorem Laid.within (h : Laid c size vars) (hnear : Near c.locations) {s : FrameSlot}
    (hs : GivenSlot c s) : s.Within (layout c).1.frame ∧
      ∀ p ∈ c.locations, p.2.reg = none → ∀ off, p.2.stack = some off → s.stop ≤ off.toInt := by
  obtain ⟨hext, -, hbelow⟩ := extend_foldl c.locations 0 (by decide) hnear
  rw [← placedExtent_eq, show (0 : Int64).toInt = 0 by decide] at hext
  rw [← placedExtent_eq] at hbelow
  obtain ⟨hlow, hstop⟩ := h.descend.within s (h.mem_of_assigned hs)
  refine ⟨⟨hlow, by omega⟩, ?_⟩
  intro p hp hreg off hoff
  have := hbelow p hp hreg off hoff
  omega

theorem Laid.locate_kept (h : Laid c size vars) {v : Var} {l : Location}
    (hl : c.locate? v = some l) : (layout c).1.locate? v = some l := by
  obtain ⟨hlookup, hplaced⟩ := Option.filter_eq_some_iff.mp hl
  exact Option.filter_eq_some_iff.mpr ⟨h.placement.kept _ _ hlookup hplaced, hplaced⟩

/-- A variable that had no place has one of the slots. -/
theorem Laid.locate_assigned (h : Laid c size vars) {v : Var} {l : Location}
    (hl : (layout c).1.locate? v = some l) (hnone : c.locate? v = none) :
    ∃ w off, GivenSlot c ⟨.var w, off, registerWidth w.ty⟩ ∧ w.ident = v.ident ∧
      l = ⟨none, some off⟩ := by
  obtain ⟨hlookup, hplaced⟩ := Option.filter_eq_some_iff.mp hl
  rcases h.placement.only v.ident l hlookup with hold | ⟨w, off, hfind, hid, hun, rfl⟩
  · exact absurd hplaced (Unplaced.not_placed hnone hold)
  · refine ⟨w, off, .var ?_ ?_ ?_, hid, rfl⟩ <;> rw [hid]
    · exact hfind
    · exact hun
    · exact hlookup

theorem Laid.locate_declared (h : Laid c size vars) {v : Var} (hv : v ∈ c.locals) :
    ((layout c).1.locate? v).isSome := by
  rcases placed_or_unplaced c.locations v.ident with ⟨l, hl, hplaced⟩ | hun
  · have hkept := h.placement.kept v.ident l hl hplaced
    exact Option.isSome_iff_exists.mpr ⟨l, Option.filter_eq_some_iff.mpr ⟨hkept, hplaced⟩⟩
  · obtain ⟨w, hfind⟩ : ∃ w, c.locals.reverse.find? (fun w => w.ident == v.ident) = some w := by
      refine Option.isSome_iff_exists.mp (List.find?_isSome.mpr ⟨v, ?_, beq_self_eq_true _⟩)
      exact List.mem_reverse.mpr hv
    have hid : w.ident = v.ident := by simpa using List.find?_some hfind
    obtain ⟨off, hoff, -⟩ := h.placement.given w (by rw [hid]; exact hfind) (hid ▸ hun)
    rw [hid] at hoff
    exact Option.isSome_iff_exists.mpr ⟨_, Option.filter_eq_some_iff.mpr ⟨hoff, rfl⟩⟩

theorem Laid.saved_assigned (h : Laid c size vars) {id : Machine.RegId} (hid : id ∈ calleeSaved)
    (hocc : (layout c).1.locations.occupies (gpr id 8)) :
    ∃ off, GivenSlot c ⟨.saved (gpr id 8), off, 8⟩ := by
  have hmem : gpr id 8 ∈ (layout c).1.saved.map SavedReg.reg := by
    rw [h.saved]
    exact List.mem_filter.mpr ⟨List.mem_map_of_mem hid, hocc⟩
  obtain ⟨s, hs, hreg⟩ := List.mem_map.mp hmem
  exact ⟨s.offset, hreg ▸ .saved hs⟩

theorem Laid.scratch_assigned (h : Laid c size vars) (hneeds : needsScratch c) :
    ∃ off, GivenSlot c ⟨.scratch, off, 16⟩ := by
  have hsome := h.scratch
  rw [hneeds] at hsome
  obtain ⟨off, hoff⟩ := Option.isSome_iff_exists.mp hsome
  exact ⟨off, .scratch hoff⟩

end

/-! ## Frames of any size -/

/-- The size of a frame as the number of bytes below the frame pointer, on a stack that wraps. -/
def frameDepth (size : Int64) : Int := size.toInt % 2 ^ 64

theorem frameDepth_of_bmod {size : Int64} {n : Int} (h : size.toInt = n.bmod (2 ^ 64)) :
    frameDepth size = n % 2 ^ 64 := by
  rw [frameDepth, h]
  exact Int.bmod_emod

theorem frameDepth_add (size : Int64) {n : Int64} (hn : 0 ≤ n.toInt)
    (hroom : frameDepth size + n.toInt < 2 ^ 64) :
    frameDepth (size + n) = frameDepth size + n.toInt := by
  rw [frameDepth_of_bmod (Int64.toInt_add ..)]
  unfold frameDepth at *
  omega

/-- Division toward zero and back stays within the divisor. -/
theorem tdiv_mul_near (y : Int) {a : Int} (ha : 0 < a) :
    (0 ≤ y → y - a < y.tdiv a * a ∧ y.tdiv a * a ≤ y) ∧
      (y < 0 → y ≤ y.tdiv a * a ∧ y.tdiv a * a < y + a) := by
  constructor
  · intro hy
    have hle := Int.mul_ediv_self_le (x := y) (k := a) (by omega)
    have hlt := Int.lt_mul_ediv_self_add (x := y) ha
    rw [Int.tdiv_eq_ediv_of_nonneg hy, mul_comm]
    omega
  · intro hy
    have hle := Int.mul_ediv_self_le (x := -y) (k := a) (by omega)
    have hlt := Int.lt_mul_ediv_self_add (x := -y) ha
    have hneg : y.tdiv a * a = -(a * (-y / a)) := by
      rw [← Int.tdiv_eq_ediv_of_nonneg (by omega), Int.neg_tdiv, mul_neg, neg_neg, mul_comm]
    rw [hneg]
    omega

/-- Rounding up adds less than twice the multiple, also where the sum overflows. -/
theorem frameDepth_alignFrame (size : Int64) {align : Int64} (halign : 0 < align.toInt)
    (hsmall : align.toInt ≤ 16) (hroom : frameDepth size + 32 < 2 ^ 64) :
    frameDepth size ≤ frameDepth (alignFrame size align) ∧
      frameDepth (alignFrame size align) < frameDepth size + 32 := by
  have hone : (1 : Int64).toInt = 1 := by decide
  unfold alignFrame
  split
  · omega
  rename_i hgt
  have hgt := mt Int64.le_iff_toInt_le.mpr hgt
  rw [hone] at hgt
  have hy : frameDepth (size + align - 1) = frameDepth size + align.toInt - 1 := by
    have hsum := frameDepth_add size (n := align) (by omega) (by omega)
    rw [frameDepth_of_bmod (Int64.toInt_sub ..), hone]
    unfold frameDepth at *
    omega
  generalize size + align - 1 = y at hy ⊢
  have hylow := y.le_toInt
  have hyhigh := y.toInt_lt
  obtain ⟨hpos, hneg⟩ := tdiv_mul_near y.toInt halign
  have hquot : (y / align).toInt = y.toInt.tdiv align.toInt := by
    have habs : (y.toInt.tdiv align.toInt).natAbs ≤ y.toInt.natAbs / 2 := by
      rw [Int.natAbs_tdiv]
      exact Nat.div_le_div_left (by omega) (by decide)
    rw [Int64.toInt_div]
    apply Int.bmod_eq_of_le <;> omega
  have hprod : (y / align * align).toInt = y.toInt.tdiv align.toInt * align.toInt := by
    rw [Int64.toInt_mul, hquot]
    apply Int.bmod_eq_of_le <;> omega
  unfold frameDepth at *
  rw [hprod]
  generalize y.toInt.tdiv align.toInt * align.toInt = r at *
  omega

theorem frameDepth_placeLocal (size : Int64) (locs : Locations) (v : Var)
    (hroom : frameDepth size + 40 < 2 ^ 64) :
    frameDepth size ≤ frameDepth (placeLocal (size, locs) v).1 ∧
      frameDepth (placeLocal (size, locs) v).1 ≤ frameDepth size + 40 := by
  unfold placeLocal
  dsimp only
  split
  · dsimp only
    omega
  · have hwidth : 0 < registerWidth v.ty ∧ registerWidth v.ty ≤ 8 := by cases v.ty <;> decide
    have hn : (Int64.ofNat (registerWidth v.ty)).toInt = registerWidth v.ty :=
      Int64.toInt_ofNat_of_lt (by omega)
    have hsum := frameDepth_add size (n := Int64.ofNat (registerWidth v.ty)) (by omega)
      (by omega)
    have hpos : 0 < (Int64.ofNat (registerWidth v.ty)).toInt := by omega
    have hup := frameDepth_alignFrame (size + Int64.ofNat (registerWidth v.ty)) hpos (by omega)
      (by omega)
    dsimp only
    omega

theorem frameDepth_foldl_placeLocal (vs : List Var) (size : Int64) (locs : Locations)
    (hroom : frameDepth size + 40 * vs.length < 2 ^ 64) :
    frameDepth size ≤ frameDepth (vs.foldl placeLocal (size, locs)).1 ∧
      frameDepth (vs.foldl placeLocal (size, locs)).1 ≤ frameDepth size + 40 * vs.length := by
  induction vs generalizing size locs with
  | nil => simp
  | cons v vs ih =>
    rw [List.length_cons] at hroom ⊢
    push_cast at hroom ⊢
    obtain ⟨hlow, hhigh⟩ := frameDepth_placeLocal size locs v (by omega)
    rw [List.foldl_cons]
    generalize placeLocal (size, locs) v = st at hlow hhigh ⊢
    obtain ⟨size', locs'⟩ := st
    dsimp only at hlow hhigh
    obtain ⟨hlow', hhigh'⟩ := ih size' locs' (by omega)
    omega

/-- The slots of preserved registers are below the frame as it was before them. -/
theorem frameDepth_foldl_placeSaved (locs : Locations) (ids : List Machine.RegId) (size : Int64)
    {before : List SavedReg} (low : Int) (hlow : low ≤ frameDepth size)
    (hroom : frameDepth size + 8 * ids.length < 2 ^ 64)
    (hbefore : ∀ s ∈ before, low ≤ frameDepth (-s.offset) ∧
      frameDepth (-s.offset) ≤ frameDepth size) :
    ∀ s ∈ (ids.foldl (placeSaved locs) (size, before)).2,
      low ≤ frameDepth (-s.offset) ∧ frameDepth (-s.offset) ≤ frameDepth size + 8 * ids.length := by
  induction ids generalizing size before with
  | nil => simpa using hbefore
  | cons id ids ih =>
    rw [List.length_cons] at hroom ⊢
    push_cast at hroom ⊢
    rw [List.foldl_cons]
    unfold placeSaved
    dsimp only
    intro s hs
    split at hs
    · have height : (8 : Int64).toInt = 8 := by decide
      have hsum := frameDepth_add size (n := 8) (by omega) (by omega)
      have hnext : ∀ s ∈ before ++ [⟨gpr id 8, -(size + 8)⟩],
          low ≤ frameDepth (-s.offset) ∧ frameDepth (-s.offset) ≤ frameDepth (size + 8) := by
        intro s hs
        rcases List.mem_append.mp hs with hs | hs
        · have := hbefore s hs
          omega
        · cases List.mem_singleton.mp hs
          rw [Int64.neg_neg]
          omega
      have := ih (size + 8) (by omega) (by omega) hnext s hs
      omega
    · have := ih size hlow (by omega) hbefore s hs
      omega

/-- If the slot of a preserved register is less than 2 GiB away, the slots that were given
beforehand are near too. -/
theorem placedExtent_of_near {c : Closure} (hfew : FewLocals c) {s : SavedReg}
    (hs : s ∈ (layout c).1.saved) (hlow : -2 ^ 31 ≤ s.offset.toInt)
    (hhigh : s.offset.toInt < 2 ^ 31) :
    (placedExtent c.locations).toInt < 2 ^ 62 := by
  by_contra hfar
  have hnonneg := placedExtent_nonneg c.locations
  have hmax := (placedExtent c.locations).toInt_lt
  have hext : frameDepth (placedExtent c.locations) = (placedExtent c.locations).toInt := by
    unfold frameDepth
    omega
  unfold FewLocals at hfew
  obtain ⟨hgrown, hgrown'⟩ :=
    frameDepth_foldl_placeLocal c.locals.reverse (placedExtent c.locations)
    c.locations (by rw [List.length_reverse]; omega)
  rw [List.length_reverse] at hgrown'
  have hsaved : (layout c).1.saved = (calleeSaved.foldl
      (placeSaved (c.locals.reverse.foldl placeLocal (placedExtent c.locations, c.locations)).2)
      (alignFrame (c.locals.reverse.foldl placeLocal (placedExtent c.locations, c.locations)).1 16,
        [])).2 := by
    unfold layout
    dsimp only
    split <;> rfl
  rw [hsaved] at hs
  generalize c.locals.reverse.foldl placeLocal (placedExtent c.locations, c.locations) = st at *
  have hsixteen : (16 : Int64).toInt = 16 := by decide
  have hpos : 0 < (16 : Int64).toInt := by decide
  obtain ⟨hup, hup'⟩ := frameDepth_alignFrame st.1 hpos (by decide) (by omega)
  have hfive : calleeSaved.length = 5 := rfl
  have hslot := frameDepth_foldl_placeSaved st.2 calleeSaved (alignFrame st.1 16) (2 ^ 62)
    (by omega) (by omega) (fun s hs => by cases hs) s hs
  rw [frameDepth_of_bmod (Int64.toInt_neg ..)] at hslot
  omega

/-! ## Slots of a frame -/

/-- Every slot of the frame is inside it, variables at a multiple of their size, and below whatever
had been placed there before; no two slots share a byte; what was placed before stays; and each
variable, register and scratch value that needs a slot has one. -/
theorem layout_slots_disjoint (c : Closure) (hnear : Near c.locations) (hfew : FewLocals c) :
    let laid := (layout c).1
    (16 : Int) ∣ laid.frame.toInt ∧
    (∀ s, GivenSlot c s → s.Within laid.frame ∧ (∀ v, s.owner = .var v → s.Aligned) ∧
      ∀ p ∈ c.locations, p.2.reg = none → ∀ off, p.2.stack = some off → s.stop ≤ off.toInt) ∧
    (∀ s t, GivenSlot c s → GivenSlot c t → s ≠ t → s.Disjoint t) ∧
    (∀ v l, c.locate? v = some l → laid.locate? v = some l) ∧
    (∀ v l, laid.locate? v = some l → c.locate? v = none →
      ∃ w off, GivenSlot c ⟨.var w, off, registerWidth w.ty⟩ ∧ w.ident = v.ident ∧
        l = ⟨none, some off⟩) ∧
    (∀ v ∈ c.locals, (laid.locate? v).isSome) ∧
    (∀ id ∈ calleeSaved, laid.locations.occupies (gpr id 8) →
      ∃ off, GivenSlot c ⟨.saved (gpr id 8), off, 8⟩) ∧
    (needsScratch c → ∃ off, GivenSlot c ⟨.scratch, off, 16⟩) := by
  obtain ⟨size, vars, h⟩ := layout_laid hnear hfew
  refine ⟨h.aligned, ?_, fun s t => h.disjoint, fun v l => h.locate_kept,
    fun v l => h.locate_assigned, fun v => h.locate_declared, fun id => h.saved_assigned,
    h.scratch_assigned⟩
  intro s hs
  obtain ⟨hwithin, hbelow⟩ := h.within hnear hs
  exact ⟨hwithin, fun v => h.aligned_of_var hs, hbelow⟩

/-- A function with a variable in rbx, one at `[rbp-12]`, one that is declared twice and a shift. -/
def crowded : Closure :=
  let var (name : String) (t : Ty) : Var := ⟨name, t, false, false⟩
  let shift : Instr := .make .shl (some (.var (var "p" .i64))) (some (.var (var "b" .i8)))
    (some (.var (var "p" .i64)))
  ⟨"f", "f", true, .void, [var "a" .i64, var "p" .i64, var "b" .i8, var "q" .i32, var "a" .i16],
    [⟨"entry", [shift], [], [], [], []⟩],
    [("p", ⟨some (gpr Machine.rbx 8), none⟩), ("q", ⟨none, some (-12)⟩)], [], [], 0, []⟩

/-- Its variable of two bytes is at `[rbp-14]`, the one of a byte below, then rbx and scratch. -/
theorem layout_slots_disjoint_crowded :
    (layout crowded).1.frame = 48 ∧ (layout crowded).2 = some (-40) ∧
      (layout crowded).1.locations.lookup "a" = some ⟨none, some (-14)⟩ ∧
      (layout crowded).1.locations.lookup "b" = some ⟨none, some (-15)⟩ ∧
      (layout crowded).1.saved = [⟨gpr Machine.rbx 8, -24⟩] ∧
      ∀ s t, GivenSlot crowded s → GivenSlot crowded t → s ≠ t → s.Disjoint t := by
  have hnear : Near crowded.locations := by
    intro p hp hreg off hoff
    simp only [crowded, List.mem_cons, List.not_mem_nil, or_false] at hp
    rcases hp with rfl | rfl
    · cases hreg
    · cases hoff
      decide
  refine ⟨by decide, by decide, by decide, by decide, by decide, ?_⟩
  have hfew : FewLocals crowded := by
    unfold FewLocals
    decide
  exact (layout_slots_disjoint crowded hnear hfew).2.2.1

end Backend.Lowering
