-- Registers that are pushed before some code and popped after it keep their values, whatever the
-- code does with them, and nothing but the words below the stack pointer is overwritten.
import Backend.Proofs.Machine.Implicit

namespace Backend.Machine

/-! ## Pushed words -/

/-- The words that will be pushed are below the stack pointer. -/
def State.below (s : State) (k : Nat) : BitVec 64 := s.regs rsp - BitVec.ofNat 64 (8 * k)

/-- The second state is the first after some words were pushed. -/
structure Pushed (k : Nat) (s t : State) : Prop where
  rsp : t.regs Machine.rsp = s.below k
  regs : ∀ r, r ≠ Machine.rsp → t.regs r = s.regs r
  xmms : t.xmms = s.xmms
  mem : ∀ x, ¬ (Place.mem (s.below k)).covers (8 * k) x → t.mem x = s.mem x

/-- Nothing changed but some registers. -/
structure ChangesOnly (ids : List RegId) (s s' : State) : Prop where
  regs : ∀ r, r ∉ ids → s'.regs r = s.regs r
  xmms : s'.xmms = s.xmms
  mem : s'.mem = s.mem

namespace ChangesOnly

variable {ids ids' : List RegId} {s s1 s2 : State}

theorem refl (ids : List RegId) (s : State) : ChangesOnly ids s s :=
  ⟨fun _ _ => rfl, rfl, rfl⟩

theorem trans (h : ChangesOnly ids s s1) (h' : ChangesOnly ids s1 s2) : ChangesOnly ids s s2 :=
  ⟨fun r hr => (h'.regs r hr).trans (h.regs r hr), h'.xmms.trans h.xmms, h'.mem.trans h.mem⟩

theorem mono (h : ChangesOnly ids s s1) (hsub : ids ⊆ ids') : ChangesOnly ids' s s1 :=
  ⟨fun r hr => h.regs r fun hin => hr (hsub hin), h.xmms, h.mem⟩

end ChangesOnly

theorem changesOnly_of_assigns {id : RegId} {n : Nat} {v : BitVec (8 * n)} {scratch : List RegId}
    {s s' : State} (h : Assigns (.reg id) v scratch s s') : ChangesOnly (id :: scratch) s s' where
  regs r hr := by
    obtain ⟨hne, hscratch⟩ := not_or.mp (mt List.mem_cons.mpr hr)
    exact h.regs r (fun e => hne (Place.reg.inj e).symm) hscratch
  xmms := funext fun r => h.xmms r (by simp)
  mem := funext fun x => h.mem x (by simp [Place.covers])

theorem changesOnly_of_divided {n : Nat} {quotient remainder : Int} {s s' : State}
    (h : Divided n quotient remainder s s') : ChangesOnly [rax, rdx] s s' where
  regs r hr := h.regs r (fun e => hr (e ▸ List.mem_cons_self))
    (fun e => hr (e ▸ List.mem_cons_of_mem _ List.mem_cons_self))
  xmms := h.xmms
  mem := h.mem

theorem pushed_zero (s : State) : Pushed 0 s s :=
  ⟨by simp [State.below], fun _ _ => rfl, rfl, fun _ _ => rfl⟩

theorem regs_setReg_whole (s : State) (id : RegId) (v : BitVec (8 * 8)) :
    (s.setReg id v).regs = Function.update s.regs id v := by
  simp [State.setReg, insertLow]

theorem pushed_push (s : State) (v : BitVec (8 * 8)) : Pushed 1 s (s.push v) where
  rsp := by simp [State.push, State.below, regs_setReg_whole]
  regs r hr := by simp [State.push, regs_setReg_whole, hr]
  xmms := rfl
  mem x hx := by
    have hone : s.below 1 = s.regs Machine.rsp - 8 := rfl
    rw [hone] at hx
    exact if_neg hx

theorem get_push (s : State) (v : BitVec (8 * 8)) : (s.push v).get (.mem (s.below 1)) 8 = v :=
  readBytes_writeBytes s.mem (s.regs rsp - 8) v (Nat.le_refl 8)

theorem below_of_pushed {s t : State} {m : Nat} (h : Pushed m s t) (k : Nat) :
    t.below k = s.below (k + m) := by
  rw [State.below, h.rsp, State.below, State.below, Nat.mul_add, BitVec.ofNat_add]
  abel

/-- A byte of the first word that is pushed lies above those that are pushed after it. -/
theorem offset_below {s : State} {k : Nat} (hk : k < 2 ^ 32) {x : BitVec 64}
    (hx : (Place.mem (s.below 1)).covers (8 * 1) x) :
    (x - s.below (k + 1)).toNat = (x - s.below 1).toNat + 8 * k := by
  have hshift : x - s.below (k + 1) = (x - s.below 1) + BitVec.ofNat 64 (8 * k) := by
    rw [State.below, State.below, Nat.mul_add, BitVec.ofNat_add]
    abel
  simp only [Place.covers] at hx
  rw [hshift, BitVec.toNat_add, BitVec.toNat_ofNat]
  omega

/-- The words that are pushed are among any larger number of them. -/
theorem covers_below_mono {s : State} {k m : Nat} (h : k ≤ m) (hm : m < 2 ^ 32) {x : BitVec 64}
    (hx : (Place.mem (s.below k)).covers (8 * k) x) : (Place.mem (s.below m)).covers (8 * m) x := by
  obtain ⟨j, rfl⟩ := Nat.exists_eq_add_of_le h
  have hshift : x - s.below (k + j) = (x - s.below k) + BitVec.ofNat 64 (8 * j) := by
    rw [State.below, State.below, Nat.mul_add, BitVec.ofNat_add]
    abel
  simp only [Place.covers] at hx ⊢
  rw [hshift, BitVec.toNat_add, BitVec.toNat_ofNat]
  omega

/-- The words that are pushed are the first and those after it. -/
theorem not_covers_below {s t : State} (h : Pushed 1 s t) {k : Nat} (hk : k < 2 ^ 32)
    {x : BitVec 64} (hx : ¬ (Place.mem (s.below (k + 1))).covers (8 * (k + 1)) x) :
    ¬ (Place.mem (t.below k)).covers (8 * k) x ∧ ¬ (Place.mem (s.below 1)).covers (8 * 1) x := by
  rw [below_of_pushed h]
  constructor
  · simp only [Place.covers] at hx ⊢
    omega
  · intro hfirst
    have := offset_below hk hfirst
    simp only [Place.covers] at hx hfirst
    omega

theorem Pushed.succ {k : Nat} {s s1 t : State} (hone : Pushed 1 s s1) (h : Pushed k s1 t)
    (hk : k < 2 ^ 32) : Pushed (k + 1) s t where
  rsp := h.rsp.trans (below_of_pushed hone k)
  regs r hr := (h.regs r hr).trans (hone.regs r hr)
  xmms := h.xmms.trans hone.xmms
  mem x hx :=
    have hout := not_covers_below hone hk hx
    (h.mem x hout.1).trans (hone.mem x hout.2)

/-! ## Saving registers around code -/

def pushReg (r : RegId) : Inst := .unary .push (.reg ⟨r, 8⟩)

def popReg (r : RegId) : Inst := .unary .pop (.reg ⟨r, 8⟩)

/-- The state after code that was run between saving and restoring registers, where the code itself
ended in the state `t`. -/
structure Restored (save ids : List RegId) (s t s' : State) : Prop where
  saved : ∀ r ∈ save, s'.regs r = s.regs r
  kept : ∀ r, r ∉ ids → s'.regs r = s.regs r
  given : ∀ r, r ∉ save → r ≠ rsp → s'.regs r = t.regs r
  xmms : s'.xmms = s.xmms
  mem : ∀ x, ¬ (Place.mem (s.below save.length)).covers (8 * save.length) x → s'.mem x = s.mem x

theorem steps_saved {l : Linkage} {save ids : List RegId} {core : List Inst} {Q : State → Prop}
    {s : State} (hsp : rsp ∉ ids) (hsave : rsp ∉ save) (hlen : save.length < 2 ^ 32)
    (hcore : ∀ t, Pushed save.length s t →
      ∃ t', steps l core t = some t' ∧ ChangesOnly ids t t' ∧ Q t') :
    ∃ t' s', Q t' ∧ Restored save ids s t' s' ∧
      steps l (save.map pushReg ++ core ++ save.reverse.map popReg) s = some s' := by
  induction save generalizing s with
  | nil =>
    obtain ⟨t', hrun, hchanges, hq⟩ := hcore s (pushed_zero s)
    refine ⟨t', t', hq, ⟨fun _ h => (nomatch h), hchanges.regs, fun _ _ _ => rfl, hchanges.xmms,
      fun x _ => congrFun hchanges.mem x⟩, by simpa using hrun⟩
  | cons r rest ih =>
    let s1 := s.push (s.get (.reg r) 8)
    have hone : Pushed 1 s s1 := pushed_push s _
    have hlen' : rest.length < 2 ^ 32 := by
      rw [List.length_cons] at hlen
      omega
    have hsp' : rsp ≠ r := fun h => hsave (h ▸ List.mem_cons_self)
    obtain ⟨t', s2, hq, hrest, hrun⟩ :=
      ih (s := s1) (fun h => hsave (List.mem_cons_of_mem r h)) hlen'
      fun t ht => hcore t (hone.succ ht hlen')
    have htop : s2.regs rsp = s.below 1 := (hrest.kept rsp hsp).trans hone.rsp
    have hword : s2.get (.mem (s2.regs rsp)) 8 = s.get (.reg r) 8 := by
      rw [htop, ← get_push s (s.get (.reg r) 8)]
      refine readBytes_congr _ _ _ 8 (by decide) fun x hx => hrest.mem x fun hlow => ?_
      have hoff := offset_below (s := s) hlen' hx
      rw [below_of_pushed hone] at hlow
      simp only [Place.covers] at hlow
      omega
    have hpop : (s2.pop r).regs =
        Function.update (Function.update s2.regs rsp (s.regs rsp)) r (s.regs r) := by
      have hback : s2.regs rsp + 8 = s.regs rsp := by
        rw [htop]
        simp [State.below]
      have hvalue : s.get (.reg r) 8 = s.regs r := BitVec.setWidth_eq _
      rw [State.pop, regs_setReg_whole, regs_setReg_whole, hword, hback, hvalue]
    have hs1 : ∀ x, x ≠ rsp → s1.regs x = s.regs x := hone.regs
    refine ⟨t', s2.pop r, hq, ⟨fun x hx => ?_, fun x hx => ?_, fun x hx hxsp => ?_, ?_,
      fun x hx => ?_⟩, ?_⟩
    · by_cases hxr : x = r
      · rw [hpop, hxr, Function.update_self]
      · have hxrest := (List.mem_cons.mp hx).resolve_left hxr
        have hxsp : x ≠ rsp := fun h => hsave (h ▸ hx)
        rw [hpop, Function.update_of_ne hxr, Function.update_of_ne hxsp, hrest.saved x hxrest,
          hs1 x hxsp]
    · by_cases hxr : x = r
      · rw [hpop, hxr, Function.update_self]
      · by_cases hxsp : x = rsp
        · rw [hpop, hxsp, Function.update_of_ne hsp', Function.update_self]
        · rw [hpop, Function.update_of_ne hxr, Function.update_of_ne hxsp, hrest.kept x hx,
            hs1 x hxsp]
    · obtain ⟨hxr, hxrest⟩ := not_or.mp (mt List.mem_cons.mpr hx)
      rw [hpop, Function.update_of_ne hxr, Function.update_of_ne hxsp, hrest.given x hxrest hxsp]
    · exact hrest.xmms.trans hone.xmms
    · have hout := not_covers_below hone hlen' hx
      exact (hrest.mem x hout.1).trans (hone.mem x hout.2)
    · have hcode : (r :: rest).map pushReg ++ core ++ (r :: rest).reverse.map popReg =
          [pushReg r] ++ ((rest.map pushReg ++ core ++ rest.reverse.map popReg) ++ [popReg r]) := by
        simp
      have hpush : steps l [pushReg r] s = some s1 := rfl
      rw [hcode, steps_append_of_some hpush, steps_append_of_some hrun]
      rfl

end Backend.Machine
