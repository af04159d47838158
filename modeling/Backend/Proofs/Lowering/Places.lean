-- Integers at places: in a general purpose register, in the frame or in memory. Lowering can make
-- them usable, and what leaves the place and its address alone leaves the integer where it is.
import Backend.Proofs.Lowering.Preparation
import Backend.Proofs.Lowering.Sharing
import Backend.Proofs.Machine.Stack

namespace Backend.Lowering

open Backend.Machine (Place Assigns ChangesOnly Pushed Restored)
open Backend.Selection (IsWidth usesReg)

/-! ## Integers at places -/

/-- A general purpose register, a slot of the frame, the memory at a symbol, or a variable in one of
these. -/
def IsPlain (locs : Locations) : Operand → Prop
  | .reg r => r.cls = .int ∧ IsWidth r.width
  | .var v => ∀ r, locs.reg? v.ident = some r → r.cls = .int
  | .stack _ _ | .symbol _ => True
  | _ => False

/-- The operand is plain, or memory at an address of literals and plain parts. A part in a register
has to fill the register. -/
def IsAddressed (e : Scene) (s : Machine.State) : Operand → Prop
  | .indirect base index _ _ _ => ∀ part, base = some part ∨ index = some part →
      (∃ l, part = .imm l) ∨ IsPlain e.locs part ∧ Holds e s part
  | o => IsPlain e.locs o

/-- An integer in a general purpose register, in the frame or in memory, outside the temporary
registers and the scratch slots. -/
structure IntegerPlace (e : Scene) (cx : Context) (s : Machine.State) (o : Operand) : Prop extends
    Suited e cx s o where
  integer : o.ty.isInteger = true
  addressed : IsAddressed e s o

section IntegerPlace

variable {e : Scene} {cx : Context} {scratch r : Option (BitVec 64)} {k n : Nat}
  {s s' : Machine.State} {o : Operand} {ids : List Machine.RegId}

theorem IsPlain.free (h : IsPlain e.locs o)
    (hout : ∀ p, e.place? s o = some p → Outside scratch 0 p n) :
    readsKey e.locs Machine.r11.toNat o = false := by
  cases o with
  | reg r => exact readsKey_of_outside rfl h.1 hout
  | var v =>
    cases hr : regOf? e.locs (.var v) with
    | some r => exact readsKey_of_outside hr (h r hr) hout
    | none => simp [readsKey, regKey?_eq_map, hr]
  | stack offset t => rfl
  | symbol y => rfl
  | imm l => exact h.elim
  | indirect => exact h.elim
  | label l => exact h.elim
  | list items => exact h.elim

theorem IsPlain.usable (h : IsPlain e.locs o)
    (hout : ∀ p, e.place? s o = some p → Outside scratch 0 p n) : Usable e scratch s o where
  shaped := by
    cases o with
    | reg r => exact .reg h.1 h.2
    | var v => exact .var h
    | stack offset t => exact .stack offset t
    | symbol y => exact .symbol y
    | imm l => exact h.elim
    | indirect => exact h.elim
    | label l => exact h.elim
    | list items => exact h.elim
  free := h.free hout

/-- The registers that the parts of an address fill stay outside the temporary ones, and the other
parts can be loaded. -/
theorem IntegerPlace.fitParts {base index : Option Operand} {scale : UInt8} {disp : Int64} {t : Ty}
    (h : IntegerPlace e cx s (.indirect base index scale disp t)) :
    FitParts e (e.scratch cx) s base index where
  stays part hp hgpr := by
    have hout := h.clear.parts base index scale disp t rfl part hp
    rcases h.addressed part hp with ⟨l, rfl⟩ | ⟨-, hholds⟩
    · cases hgpr
    · exact .inr ⟨hgpr, hholds, hout⟩
  loads part hp _ hlit := by
    have hout := h.clear.parts base index scale disp t rfl part hp
    rcases h.addressed part hp with ⟨l, rfl⟩ | ⟨hplain, -⟩
    · exact absurd rfl (hlit l)
    · exact hplain.usable hout

theorem IntegerPlace.proper (h : IntegerPlace e cx s o)
    (hids : ∀ id ∈ ids, readsKey e.locs id.toNat o = false) : Proper e (e.scratch cx) s ids o := by
  have hadmits : IsPlain e.locs o → Admits e (e.scratch cx) s ids o := fun hplain =>
    ⟨hplain.usable h.clear.place, hids⟩
  have haddressed := h.addressed
  cases o with
  | indirect base index scale disp t =>
    exact ⟨h.fitParts, h.loadable base index scale disp t rfl, hids⟩
  | _ => exact hadmits haddressed

theorem registerWidth_of_isInteger {t : Ty} (h : t.isInteger = true) :
    registerWidth t = t.size := by
  cases t <;> first | rfl | cases h

/-- The width of an integer is that of a register for its type. -/
theorem IntegerPlace.width_eq (h : IntegerPlace e cx s o) : width o = registerWidth o.ty := by
  have haddressed := h.addressed
  cases o with
  | reg r =>
    obtain ⟨hint, hw⟩ := haddressed
    rw [registerWidth_of_isInteger h.integer]
    change min r.width.toNat 8 = r.ty.size
    unfold Reg.ty
    rw [hint]
    rcases hw with hw | hw | hw | hw <;> rw [hw] <;> decide
  | imm l => exact haddressed.elim
  | label l => exact haddressed.elim
  | list items => exact haddressed.elim
  | _ => rfl

theorem IntegerPlace.width_pos (h : IntegerPlace e cx s o) : 1 ≤ width o := by
  rw [h.width_eq]
  cases o.ty <;> decide

theorem IntegerPlace.isFloat_eq (h : IntegerPlace e cx s o) : o.ty.isFloat = false := by
  have hint := h.integer
  unfold Ty.isInteger at hint
  simpa using (Bool.and_eq_true_iff.mp hint).2

theorem IntegerPlace.ne_imm (h : IntegerPlace e cx s o) (l : Literal) : o ≠ .imm l := by
  rintro rfl
  exact h.addressed.elim

/-- An integer at a place has a place, whose bytes it is worth. -/
theorem IntegerPlace.exists_place (h : IntegerPlace e cx s o) : ∃ p, e.place? s o = some p := by
  obtain ⟨v, hv⟩ := h.meaning
  cases hp : e.place? s o with
  | some p => exact ⟨p, rfl⟩
  | none =>
    cases o with
    | imm l => exact absurd rfl (h.ne_imm l)
    | _ =>
      simp only [Scene.datum?, hp] at hv
      cases hv

/-- An operand whose literals were folded is where it was. -/
theorem IntegerPlace.place?_settled (h : IntegerPlace e cx s o)
    (hs : Untouched (e.scratch cx) 0 s s') :
    e.place? s' (settled o) = e.place? s o := by
  cases o with
  | indirect base index scale disp t =>
    obtain ⟨a, ha⟩ := h.exists_address
    have ha' := (h.address?_eq hs).trans ha
    rcases hfold : foldAddress base index scale disp with ⟨b, x, f, k⟩
    obtain ⟨-, -, hfolded⟩ :=
      address?_folded ha' (h.loadable base index scale disp t rfl).lone hfold
    simp only [settled, folded, hfold, Scene.place?, hfolded, ha]
  | _ => exact (h.clear.stable s' hs).1

end IntegerPlace

/-! ## What stays where it is -/

section Moved

variable {e : Scene} {cx : Context} {r r' : Option (BitVec 64)} {k k' : Nat} {s s' : Machine.State}
  {o : Operand}

/-- The parts of an address that has a meaning are where they were. -/
theorem place?_parts (h : Suited e cx s o) (s' : Machine.State) : ∀ base index scale disp t,
    o = .indirect base index scale disp t → ∀ part, base = some part ∨ index = some part →
      e.place? s' part = e.place? s part := by
  rintro base index scale disp t rfl part hp
  obtain ⟨a, ha⟩ := h.exists_address
  exact place?_part ha hp s'

/-- An operand at a place and with parts that are where they were is outside what it was outside. -/
theorem Clear.moved (h : Clear e r' k' s o) (hsuit : Suited e cx s o)
    (hplace : e.place? s' o = e.place? s o) : Clear e r' k' s' o where
  place p hp := h.place p (hplace ▸ hp)
  parts base index scale disp t ho part hpart p hp := by
    rw [place?_parts hsuit s' base index scale disp t ho part hpart] at hp
    exact h.parts base index scale disp t ho part hpart p hp

/-- What neither the integer nor a part of its address is in can change. -/
theorem IntegerPlace.moved (h : IntegerPlace e cx s o) (hclear : Clear e r k s o)
    (hs : Untouched r k s s') : IntegerPlace e cx s' o := by
  obtain ⟨hplace, hdatum⟩ := hclear.stable s' hs
  obtain ⟨v, hv⟩ := h.meaning
  refine ⟨⟨⟨v, hdatum.trans hv⟩, h.clear.moved h.toSuited hplace, h.loadable, h.data, ?_⟩,
    h.integer, ?_⟩
  · rintro w x name rfl
    exact absurd rfl (h.ne_imm _)
  · have haddressed := h.addressed
    cases o with
    | indirect base index scale disp t =>
      intro part hp
      rcases haddressed part hp with hlit | ⟨hplain, hholds⟩
      · exact .inl hlit
      · exact .inr ⟨hplain, hholds.of_untouched hs
          (hclear.parts base index scale disp t rfl part hp)⟩
    | _ => exact haddressed

end Moved

/-! ## The pushed word -/

/-- The words below the stack pointer. The second one is what a push writes. -/
def stackWords (s : Machine.State) : Option (BitVec 64) := some (s.regs Machine.rsp - 16)

section Pushed

variable {s s' t : Machine.State} {n : Nat} {a : BitVec 64}

theorem not_covers_of_outside {x : BitVec 64}
    (hx : ∀ a, stackWords s = some a → 8 * 1 ≤ (x - a).toNat → 16 ≤ (x - a).toNat) :
    ¬ (Place.mem (s.below 1)).covers (8 * 1) x := by
  intro hcovers
  have hbelow : s.below 1 = s.regs Machine.rsp - 8 := rfl
  have hlt : (x - (s.regs Machine.rsp - 8)).toNat < 8 := by
    rw [← hbelow]
    exact hcovers
  have hsplit : x - (s.regs Machine.rsp - 16) = (x - (s.regs Machine.rsp - 8)) + 8 := by
    bv_omega
  have hsum : (x - (s.regs Machine.rsp - 16)).toNat = (x - (s.regs Machine.rsp - 8)).toNat + 8 := by
    rw [hsplit, BitVec.toNat_add]
    have height : (8 : BitVec 64).toNat = 8 := rfl
    omega
  have := hx _ rfl
  omega

/-- A register that was pushed and popped is as it was, and all but the temporary registers and the
pushed word is. -/
theorem untouched_of_restored {id : Machine.RegId}
    (h : Restored [id] [Machine.r10, id, Machine.r11] s t s') :
    Untouched (stackWords s) 1 s s' where
  regs r h10 h11 := by
    by_cases hr : r = id
    · subst hr
      exact h.saved r List.mem_cons_self
    · exact h.kept r (by simp [h10, h11, hr])
  xmms r := congrFun h.xmms r
  mem x hx := h.mem x (not_covers_of_outside hx)

/-- A pushed word leaves what is outside of it as it was. -/
theorem value_of_pushedWord {l : Machine.Linkage} {a : Machine.Operand} (h : Pushed 1 s t)
    (hu : usesReg Machine.rsp a = false) (hn : n ≤ 8)
    (hout : ∀ p, a.place? l s = some p → Outside (stackWords s) 1 p n) :
    a.value l t n = a.value l s n := by
  refine Selection.value_of_regs a hn (fun r hr => h.regs r ?_) (fun r => congrFun h.xmms r) ?_
  · rintro rfl
    rw [hu] at hr
    cases hr
  · intro b hb x hx
    exact h.mem x (not_covers_of_outside (hout _ hb x hx))

end Pushed

end Backend.Lowering
