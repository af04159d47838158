-- The start of a function. It takes every parameter from the place that the convention gives to it:
-- what was there on entry is in the register or the frame slot of the parameter then.
import Backend.Proofs.Lowering.MoveLines
import Backend.Proofs.Lowering.Passing

namespace Backend.Lowering

open Backend.Machine (Place Assigns)

/-! ## Where a function takes its parameters from -/

/-- The frame slot of a parameter on the stack. -/
def slotOffset (slot : Nat) : Int64 := 16 + 8 * Int64.ofNat slot

/-- The operand from which a parameter in a place is moved. -/
def ArgPlace.source (t : Ty) : ArgPlace → Operand
  | .reg r => .reg r
  | .stack k => .stack (slotOffset k) t

/-- The location of a parameter that stays in its place. -/
def ArgPlace.home : ArgPlace → Location
  | .reg r => ⟨some r, none⟩
  | .stack k => ⟨none, some (slotOffset k)⟩

theorem ArgPlace.isPlaced_home (place : ArgPlace) : place.home.isPlaced = true := by
  cases place <;> rfl

/-- A parameter and the place of its argument. -/
structure Param where
  var : Var
  place : ArgPlace

/-- Parameters with the places of the convention, after earlier ones. -/
def paramsFrom (earlier : List Ty) : List Var → List Param
  | [] => []
  | v :: rest => ⟨v, argPlace earlier v.ty⟩ :: paramsFrom (earlier ++ [v.ty]) rest

/-- The parameters of a function with their places. -/
def paramsOf (vars : List Var) : List Param := paramsFrom [] vars

theorem map_place_paramsFrom (earlier : List Ty) (vars : List Var) :
    (paramsFrom earlier vars).map Param.place = argPlacesFrom earlier (vars.map Var.ty) := by
  induction vars generalizing earlier with
  | nil => rfl
  | cons v rest ih =>
    rw [paramsFrom, List.map_cons, ih]
    rfl

theorem getElem?_paramsFrom (earlier : List Ty) (vars : List Var) (i : Nat) :
    (paramsFrom earlier vars)[i]? =
      vars[i]?.map fun v => ⟨v, argPlace (earlier ++ (vars.take i).map Var.ty) v.ty⟩ := by
  induction vars generalizing earlier i with
  | nil => rfl
  | cons v rest ih =>
    cases i with
    | zero => simp [paramsFrom]
    | succ i => simp [paramsFrom, ih]

theorem mem_paramsFrom {earlier : List Ty} {vars : List Var} {p : Param}
    (h : p ∈ paramsFrom earlier vars) :
    p.var ∈ vars ∧ ∃ before : List Ty, p.place = argPlace before p.var.ty := by
  obtain ⟨i, hi⟩ := List.mem_iff_getElem?.mp h
  rw [getElem?_paramsFrom] at hi
  obtain ⟨v, hv, rfl⟩ := Option.map_eq_some_iff.mp hi
  exact ⟨List.mem_of_getElem? hv, _, rfl⟩

/-- The move of a parameter that has a location of its own. -/
def Param.move (p : Param) : Move := ⟨.var p.var, p.place.source p.var.ty, false⟩

/-- The step lemma for parameters: one without a location stays in its place, another one is moved
from there. -/
theorem takeParam_var {cx : Context} {earlier : List Ty} {st : ParamState} {p : Var} (s : State)
    (hargs : st.args = argCount earlier) (hstack : st.stack = overflow earlier) :
    takeParam cx st (.var p) s =
      let place := argPlace earlier p.ty
      let args := argCount (earlier ++ [p.ty])
      let stack := overflow (earlier ++ [p.ty])
      match s.closure.locate? p with
      | none => .ok (⟨args, stack, st.moves⟩, { s with closure := { s.closure with
          locations := assocInsert p.ident place.home s.closure.locations } })
      | some _ => .ok (⟨args, stack, st.moves ++ [⟨.var p, place.source p.ty, false⟩]⟩, s) := by
  have hnext := next_argCount earlier p.ty
  cases hp : argPlace earlier p.ty with
  | reg r =>
    rw [hp] at hnext
    have hslots : st.stack = overflow (earlier ++ [p.ty]) := hstack.trans (overflow_of_reg hp).symm
    simp only [takeParam, hargs, hnext, ArgPlace.reg?, hslots]
    rw [run_get]
    cases hl : s.closure.locate? p with
    | none => rfl
    | some l => rfl
  | stack k =>
    rw [hp] at hnext
    obtain ⟨hk, hover⟩ := overflow_of_stack hp
    have hslots : st.stack = k := hstack.trans hk
    simp only [takeParam, hargs, hnext, ArgPlace.reg?, hslots, hover]
    rw [run_get]
    cases hl : s.closure.locate? p with
    | none => rfl
    | some l => rfl

/-- Placed variables stay where they are. -/
def KeepsPlaced (locs locs' : Locations) : Prop :=
  ∀ ident l, locs.lookup ident = some l → l.isPlaced = true → locs'.lookup ident = some l

theorem KeepsPlaced.refl (locs : Locations) : KeepsPlaced locs locs := fun _ _ h _ => h

theorem KeepsPlaced.trans {locs locs1 locs' : Locations} (h : KeepsPlaced locs locs1)
    (h' : KeepsPlaced locs1 locs') : KeepsPlaced locs locs' :=
  fun ident l hl hplaced => h' ident l (h ident l hl hplaced) hplaced

/-- Some parameters without a location are given the place of their argument, and nothing else of a
closure changes. -/
structure GivesHomes (params : List Param) (c c' : Closure) : Prop where
  rest : c' = { c with locations := c'.locations }
  placed : KeepsPlaced c.locations c'.locations
  homes : ∀ ident, c'.locations.lookup ident = c.locations.lookup ident ∨
    ∃ p ∈ params, c'.locations.lookup ident = some p.place.home

/-- A parameter that is nowhere comes first. -/
theorem GivesHomes.cons {p : Param} {params : List Param} {c c' : Closure}
    (hnone : c.locate? p.var = none)
    (h : GivesHomes params
      { c with locations := assocInsert p.var.ident p.place.home c.locations } c') :
    GivesHomes (p :: params) c c' where
  rest := h.rest
  placed ident l hlook hplaced := by
    refine h.placed ident l ?_ hplaced
    by_cases hsame : ident = p.var.ident
    · subst hsame
      simp [Closure.locate?, hlook, hplaced] at hnone
    · exact (lookup_assocInsert_ne hsame _ _).trans hlook
  homes ident := by
    rcases h.homes ident with hlook | ⟨q, hq, hlook⟩
    · by_cases hsame : ident = p.var.ident
      · subst hsame
        exact .inr ⟨p, List.mem_cons_self, hlook.trans (lookup_assocInsert_self _ _ _)⟩
      · exact .inl (hlook.trans (lookup_assocInsert_ne hsame _ _))
    · exact .inr ⟨q, List.mem_cons_of_mem _ hq, hlook⟩

/-- Some parameters are moved, and the others stay. -/
structure TakesParams (vars : List Var) (earlier : List Ty) (s' : State) (moved : List Param) :
    Prop where
  among : moved.Sublist (paramsFrom earlier vars)
  kept : ∀ p ∈ paramsFrom earlier vars,
    p ∈ moved ∨ s'.closure.locations.lookup p.var.ident = some p.place.home

/-- The run lemma for parameters, by induction on those that are left. -/
theorem takeParams_spec {cx : Context} {items : List Operand} {earlier : List Ty}
    {st st' : ParamState} {s s' : State}
    (h : items.foldlM (takeParam cx) st s = .ok (st', s')) (hargs : st.args = argCount earlier)
    (hstack : st.stack = overflow earlier) :
    s'.out = s.out ∧ ∃ vars moved, items = vars.map Operand.var ∧
      GivesHomes (paramsFrom earlier vars) s.closure s'.closure ∧
      st'.moves = st.moves ++ moved.map Param.move ∧ TakesParams vars earlier s' moved := by
  induction items generalizing earlier st s with
  | nil =>
    cases h
    exact ⟨rfl, [], [], rfl, ⟨rfl, .refl _,
      fun _ => .inl rfl⟩, by simp, .slnil, by simp [paramsFrom]⟩
  | cons item rest ih =>
    rw [List.foldlM_cons] at h
    obtain ⟨st1, s1, h1, hleft⟩ := run_bind.mp h
    cases item with
    | var p =>
      rw [takeParam_var s hargs hstack] at h1
      cases hl : s.closure.locate? p with
      | none =>
        simp only [hl] at h1
        cases h1
        obtain ⟨hout, vars, moved, rfl, hgives, hmoves, htakes⟩ := ih hleft rfl rfl
        have hhome := lookup_assocInsert_self p.ident
          (argPlace earlier p.ty).home s.closure.locations
        refine ⟨hout, p :: vars, moved, rfl,
          hgives.cons (p := ⟨p, argPlace earlier p.ty⟩) hl, hmoves, htakes.among.cons _,
          List.forall_mem_cons.mpr ⟨.inr ?_, htakes.kept⟩⟩
        exact hgives.placed _ _ hhome (ArgPlace.isPlaced_home _)
      | some l =>
        simp only [hl] at h1
        cases h1
        obtain ⟨hout, vars, moved, rfl, hgives, hmoves, htakes⟩ := ih hleft rfl rfl
        refine ⟨hout, p :: vars, ⟨p, argPlace earlier p.ty⟩ :: moved, rfl,
          ⟨hgives.rest, hgives.placed, fun ident => ?_⟩, ?_, htakes.among.cons_cons _, ?_⟩
        · exact (hgives.homes ident).imp_right fun ⟨q, hq, hlook⟩ =>
            ⟨q, List.mem_cons_of_mem _ hq, hlook⟩
        · rw [hmoves, List.append_assoc]
          rfl
        · refine List.forall_mem_cons.mpr ⟨.inl List.mem_cons_self, fun q hq => ?_⟩
          exact (htakes.kept q hq).imp_left (List.mem_cons_of_mem _)
    | _ => cases h1

/-! ## The code of the start of a function -/

/-- What the start of a function does below the pushed frame pointer: it saves registers and takes
the parameters. -/
def saveAndTake (cx : Context) (saved : List SavedReg) : LowerM Unit := do
  each (fun r : SavedReg => emit cx .move (some (.reg r.reg)) none
    (some (.stack r.offset .i64))) saved
  match cx.instr.output with
  | some (.list items) =>
    let st ← items.foldlM (takeParam cx) ⟨⟨0, 0⟩, 0, []⟩
    parallel cx st.moves
  | _ => pure ()

theorem prologue_eq (cx : Context) : prologue cx = (do
    let c := (← get).closure
    keep cx.instr
    keep ⟨.push, some (.reg regRbp), none, none, none, cx.instr.pos⟩
    keep ⟨.move, some (.reg regRsp), none, none, some (.reg regRbp), cx.instr.pos⟩
    if c.frame > 0 then
      adjustStack cx .sub c.frame
      saveAndTake cx c.saved
    else saveAndTake cx c.saved) := rfl

/-- The instruction that makes room for a frame, if it has any size. -/
def roomOps (frame : Int64) (pos : Position) : List Instr :=
  if frame > 0 then
    [⟨.sub, some (.reg regRsp), some (.imm (.ofInt .i64 frame)), none, some (.reg regRsp), pos⟩]
  else []

/-- What comes before a function's saves: its first instruction, the pushed frame pointer, and the
room of its frame. -/
def openingOps (frame : Int64) (i : Instr) : List Instr :=
  [i, ⟨.push, some (.reg regRbp), none, none, none, i.pos⟩,
    ⟨.move, some (.reg regRsp), none, none, some (.reg regRbp), i.pos⟩] ++ roomOps frame i.pos

/-- A function that starts has its opening out, and goes on with what it saves and takes. -/
theorem prologue_opening {cx : Context} {s s' : State} (h : prologue cx s = .ok ((), s')) :
    saveAndTake cx s.closure.saved
      { s with out := s.out ++ openingOps s.closure.frame cx.instr } = .ok ((), s') := by
  rw [prologue_eq, run_get] at h
  obtain ⟨u1, s1, h1, h⟩ := run_bind.mp h
  cases h1
  obtain ⟨u2, s2, h2, h⟩ := run_bind.mp h
  cases h2
  obtain ⟨u3, s3, h3, h⟩ := run_bind.mp h
  cases h3
  unfold openingOps roomOps
  split_ifs at h ⊢
  · obtain ⟨u4, s4, h4, h⟩ := run_bind.mp h
    cases h4
    simpa using h
  · simpa using h

/-- The lowered form of saving a register. -/
def saveLine (pos : Position) (s : SavedReg) : Instr :=
  ⟨.move, some (.reg s.reg), none, none, some (.stack s.offset .i64), pos⟩

theorem each_keep {α : Type} (f : α → Instr) (xs : List α) (s : State) :
    each (fun x => keep (f x)) xs s = .ok (PUnit.unit, { s with out := s.out ++ xs.map f }) := by
  induction xs generalizing s with
  | nil =>
    rw [List.map_nil, List.append_nil]
    rfl
  | cons x xs ih =>
    have hstep : each (fun x => keep (f x)) (x :: xs) s =
        each (fun x => keep (f x)) xs { s with out := s.out ++ [f x] } := by
      unfold each
      rw [List.forIn_cons]
      rfl
    rw [hstep, ih, List.map_cons, List.append_assoc, List.singleton_append]

/-- Registers are saved before the parameters are taken, all at once. -/
theorem saveAndTake_cases {cx : Context} {saved : List SavedReg} {s s' : State}
    (h : saveAndTake cx saved s = .ok ((), s')) :
    let kept : State := { s with out := s.out ++ saved.map (saveLine cx.instr.pos) }
    ((∀ items, cx.instr.output ≠ some (.list items)) ∧ s' = kept) ∨
      ∃ items st taken, cx.instr.output = some (.list items) ∧
        items.foldlM (takeParam cx) ⟨⟨0, 0⟩, 0, []⟩ kept = .ok (st, taken) ∧
        parallel cx st.moves taken = .ok ((), s') := by
  obtain ⟨u, kept, h1, h⟩ := run_bind.mp h
  cases h1.symm.trans (each_keep (saveLine cx.instr.pos) saved s)
  cases ho : cx.instr.output with
  | none =>
    rw [ho] at h
    cases h
    exact .inl ⟨by simp, rfl⟩
  | some o =>
    rw [ho] at h
    cases o with
    | list items =>
      obtain ⟨st, taken, h2, h⟩ := run_bind.mp h
      exact .inr ⟨items, st, taken, rfl, h2, h⟩
    | _ =>
      cases h
      exact .inl ⟨by simp, rfl⟩

/-! ## What the parameters are then -/

/-- Where the argument for a parameter is on entry, below the return address. -/
def Param.incoming (m : Machine.State) (p : Param) : Place := p.place.place (m.regs Machine.rsp + 8)

/-- A value for the first parameter leaves the second one and its word on the stack alone. -/
def Param.Clear (e : Scene) (m : Machine.State) (p q : Param) : Prop :=
  ∀ h, e.toSetting.home? (.var p.var) = some h →
    (∀ h', e.toSetting.home? (.var q.var) = some h' →
      h.Separate (registerWidth p.var.ty) h' (registerWidth q.var.ty)) ∧
    ∀ k, q.place = .stack k →
      h.Separate (registerWidth p.var.ty) (q.incoming m) (registerWidth q.var.ty)

/-- The registers that are never given to variables, apart from those of selection for floats. -/
def reservedPlaces : List Place :=
  [regRsp.place, regRbp.place, regR10.place, regR11.place, regXmm13.place]

/-- A function can take its parameters: the frame pointer will point below the return address, every
parameter is somewhere, in no reserved register, the parameters are apart from each other and from
the words of the others on the stack, and so are the slots of the saved registers from those
words. -/
structure Receives (e : Scene) (m : Machine.State) (saved : List SavedReg) (params : List Param) :
    Prop where
  base : e.base = m.regs Machine.rsp - 8
  home : ∀ p ∈ params, ∃ h, e.toSetting.home? (.var p.var) = some h ∧ h ∉ reservedPlaces
  clear : params.Pairwise fun p q => p.Clear e m q ∧ q.Clear e m p
  saves : ∀ r ∈ saved, ∀ p ∈ params, ∀ k, p.place = .stack k →
    (Place.mem (e.base + r.offset.toBitVec)).Separate 8 (p.incoming m) (registerWidth p.var.ty)

section Entry

variable {e : Scene} {cx : Context} {m m1 m2 m' : Machine.State} {saved : List SavedReg}
  {params moved : List Param} {p : Param} {n : Nat} {t t' taken : State} {vars : List Var}
  {frame : Int64} {pos : Position} {assign : List Instr}

/-- The slot of a parameter on the stack is its word above the return address. -/
theorem slot_address_of_base (hbase : e.base = m.regs Machine.rsp - 8) (k : Nat) :
    e.base + (slotOffset k).toBitVec = m.regs Machine.rsp + 8 + BitVec.ofNat 64 (8 * k) := by
  have hoffset : (slotOffset k).toBitVec = 16 + BitVec.ofNat 64 (8 * k) := by
    rw [slotOffset, Int64.toBitVec_add, Int64.toBitVec_mul, BitVec.ofNat_mul]
    rfl
  rw [hoffset, hbase]
  ring

/-- A parameter is moved from where its argument is. -/
theorem home?_source (hbase : e.base = m.regs Machine.rsp - 8) (p : Param) :
    e.toSetting.home? (p.place.source p.var.ty) = some (p.incoming m) := by
  unfold Param.incoming
  cases p.place with
  | reg r => rfl
  | stack k =>
    rw [ArgPlace.place, ← slot_address_of_base hbase k]
    rfl

/-- A parameter that stays in its place is where its argument is. -/
theorem home?_kept (hbase : e.base = m.regs Machine.rsp - 8)
    (hkept : e.locs.lookup p.var.ident = some p.place.home) :
    e.toSetting.home? (.var p.var) = some (p.incoming m) := by
  have hhome : e.toSetting.locs.lookup p.var.ident = some p.place.home := hkept
  unfold Param.incoming
  simp only [Setting.home?, hhome]
  cases p.place with
  | reg r => rfl
  | stack k =>
    rw [ArgPlace.place, ← slot_address_of_base hbase k]
    rfl

/-- A parameter is in the place of the convention, and there are not too many of them. -/
def Param.Placed (p : Param) : Prop :=
  ∃ earlier : List Ty, earlier.length < 2 ^ 59 ∧ p.place = argPlace earlier p.var.ty

theorem placed_of_mem (hfew : vars.length < 2 ^ 59) (hp : p ∈ paramsOf vars) :
    p.Placed := by
  obtain ⟨i, hi⟩ := List.mem_iff_getElem?.mp hp
  rw [paramsOf, getElem?_paramsFrom] at hi
  obtain ⟨v, -, rfl⟩ := Option.map_eq_some_iff.mp hi
  refine ⟨_, ?_, rfl⟩
  simp only [List.nil_append, List.length_map, List.length_take]
  omega

/-- No other register is that of an argument. -/
theorem Param.Placed.ne (h : p.Placed) {r : Reg} (hr : r.key ∉ argKeys) (slots : BitVec 64) :
    p.place.place slots ≠ r.place := by
  obtain ⟨earlier, -, hplace⟩ := h
  cases hp : p.place with
  | reg t =>
    rw [hp] at hplace
    intro he
    rw [← (Reg.place_eq_iff t r).mp he] at hr
    exact hr (mem_argKeys hplace.symm)
  | stack k =>
    unfold Reg.place
    cases r.cls <;> simp [ArgPlace.place]

theorem separate_incoming (h : p.Placed) {r : Reg} (hr : r.key ∉ argKeys) (n k : Nat) :
    r.place.Separate n (p.incoming m) k :=
  (separate_place (h.ne hr _) k n).symm

/-- The words of the arguments are above one that is pushed. -/
theorem Param.Placed.spared (h : p.Placed) {above : Nat} (habove : above ≤ 8) (hn : n ≤ 8) :
    Spared [] 8 m (p.place.place (m.regs Machine.rsp + BitVec.ofNat 64 above)) n := by
  refine ⟨h.ne (r := regR10) (by decide) _, h.ne (r := regR11) (by decide) _,
    fun he => absurd he (h.ne (r := regRsp) (by decide) _), by simp, ?_⟩
  obtain ⟨earlier, hfew, hplace⟩ := h
  cases hp : p.place with
  | reg r => exact separate_place (place_ne_mem r _).symm _ _
  | stack k =>
    rw [hp] at hplace
    have hslots := (overflow_of_stack hplace.symm).1 ▸ overflow_le earlier
    intro x hx hslot
    have hshift : x - roomBelow m 8 =
        x - (m.regs Machine.rsp + BitVec.ofNat 64 above + BitVec.ofNat 64 (8 * k)) +
          BitVec.ofNat 64 (8 + (above + 8 * k)) := by
      rw [roomBelow, BitVec.ofNat_add, BitVec.ofNat_add]
      abel
    simp only [Place.covers] at hx hslot
    rw [hshift, BitVec.toNat_add, BitVec.toNat_ofNat] at hx
    omega

/-- Different places of arguments are apart. -/
theorem separate_of_apart {q : Param} (hp : p.Placed) (hq : q.Placed) (h : p.place.Apart q.place)
    (slots : BitVec 64) {n' : Nat} (hn : n ≤ 8) (hn' : n' ≤ 8) :
    (p.place.place slots).Separate n (q.place.place slots) n' := by
  -- The later one of two words is not below the end of the other one.
  have hslots : ∀ {k k' n n' : Nat}, k < k' → k' < 2 ^ 59 → n ≤ 8 → n' ≤ 8 →
      (Place.mem (slots + BitVec.ofNat 64 (8 * k))).Separate n
        (.mem (slots + BitVec.ofNat 64 (8 * k'))) n' := by
    intro k k' n n' hlt hfew hn hn' x hx hx'
    have hshift : x - (slots + BitVec.ofNat 64 (8 * k)) =
        x - (slots + BitVec.ofNat 64 (8 * k')) + BitVec.ofNat 64 (8 * (k' - k)) := by
      have hsum : BitVec.ofNat 64 (8 * k') =
          BitVec.ofNat 64 (8 * k) + BitVec.ofNat 64 (8 * (k' - k)) := by
        rw [← BitVec.ofNat_add]
        congr 1
        omega
      rw [hsum]
      abel
    simp only [Place.covers] at hx hx'
    rw [hshift, BitVec.toNat_add, BitVec.toNat_ofNat] at hx
    omega
  obtain ⟨earlier, hfew, hplace⟩ := hp
  obtain ⟨earlier', hfew', hplace'⟩ := hq
  cases hat : p.place with
  | reg r =>
    cases hat' : q.place with
    | reg r' =>
      rw [hat, hat'] at h
      exact separate_place (fun he => h ((Reg.place_eq_iff r r').mp he)) _ _
    | stack k' => exact (separate_place (place_ne_mem r _).symm _ _).symm
  | stack k =>
    cases hat' : q.place with
    | reg r' => exact separate_place (place_ne_mem r' _).symm _ _
    | stack k' =>
      rw [hat] at hplace
      rw [hat'] at hplace'
      have hk := (overflow_of_stack hplace.symm).1 ▸ overflow_le earlier
      have hk' := (overflow_of_stack hplace'.symm).1 ▸ overflow_le earlier'
      rw [hat, hat'] at h
      rcases Nat.lt_or_gt_of_ne h with hlt | hlt
      · exact hslots hlt (by omega) hn hn'
      · exact (hslots hlt (by omega) hn' hn).symm

/-- A function whose parameters all stay can take them. -/
theorem receives_of_kept (hbase : e.base = m.regs Machine.rsp - 8) (hfew : vars.length < 2 ^ 59)
    (hkept : ∀ p ∈ paramsOf vars, e.locs.lookup p.var.ident = some p.place.home) :
    Receives e m [] (paramsOf vars) where
  base := hbase
  home p hp := by
    refine ⟨_, home?_kept hbase (hkept p hp), ?_⟩
    have hne : ∀ r : Reg, r.key ∉ argKeys → p.incoming m ≠ r.place := fun r hr =>
      (placed_of_mem hfew hp).ne hr _
    simp only [reservedPlaces, List.mem_cons, List.not_mem_nil, or_false, not_or]
    exact ⟨hne _ (by decide), hne _ (by decide), hne _ (by decide), hne _ (by decide),
      hne _ (by decide)⟩
  clear := by
    have hclear : ∀ p ∈ paramsOf vars, ∀ q ∈ paramsOf vars, p.place.Apart q.place →
        p.Clear e m q := by
      intro p hp q hq hapart home hhome
      obtain rfl := Option.some.inj ((home?_kept hbase (hkept p hp)).symm.trans hhome)
      have hsep := separate_of_apart (placed_of_mem hfew hp) (placed_of_mem hfew hq) hapart
        (m.regs Machine.rsp + 8) (registerWidth_le_eight p.var.ty) (registerWidth_le_eight q.var.ty)
      refine ⟨fun home' hhome' => ?_, fun k _ => hsep⟩
      obtain rfl := Option.some.inj ((home?_kept hbase (hkept q hq)).symm.trans hhome')
      exact hsep
    have hapart : ((paramsOf vars).map Param.place).Pairwise ArgPlace.Apart := by
      rw [paramsOf, map_place_paramsFrom]
      exact argPlacesFrom_pairwise [] _
    refine (List.pairwise_map.mp hapart).imp_of_mem fun {p q} hp hq h => ?_
    exact ⟨hclear p hp q hq h, hclear q hq p hp h.symm⟩
  saves r hr := by cases hr

/-- The end of the start of a function, where it takes its parameters. -/
structure Taking (cx : Context) (vars : List Var) (taken t' : State) (moved : List Param)
    (assign : List Instr) : Prop where
  takes : TakesParams vars [] taken moved
  run : parallel cx (moved.map Param.move) taken = .ok ((), t')
  code : t'.out = taken.out ++ assign
  locs : taken.closure.locations = t'.closure.locations

/-- What comes after the first instruction and before the parameters are taken. -/
def entryLines (frame : Int64) (saved : List SavedReg) (pos : Position) : List Instr :=
  ⟨.push, some (.reg regRbp), none, none, none, pos⟩ ::
    ⟨.move, some (.reg regRsp), none, none, some (.reg regRbp), pos⟩ ::
      (roomOps frame pos ++ saved.map (saveLine pos))

/-- The arguments are where they were when the parameters are taken. -/
theorem get_incoming_of_entry (hrec : Receives e m saved params)
    (hp : p ∈ params) (hplaced : p.Placed) (hn : n ≤ registerWidth p.var.ty)
    (hrun : LineRun e (entryLines frame saved pos) m m2) :
    m2.get (p.incoming m) n = m.get (p.incoming m) n := by
  have hn8 : n ≤ 8 := hn.trans (registerWidth_le_eight _)
  cases hrun with
  | @cons _ _ _ s1 _ step next =>
    cases step with
    | write output => cases output
    | @push word _ value after =>
      subst after
      have hpushed : (m.push word).get (p.incoming m) n = m.get (p.incoming m) n :=
        (disturbs_push m word).get (hplaced.spared (Nat.le_refl 8) hn8) hn8
      rw [← hpushed]
      refine get_of_avoids (fun i hi => ?_) (hplaced.ne (r := regR11) (by decide) _) hn8 next
      rw [List.mem_cons, List.mem_append] at hi
      rcases hi with rfl | hi | hi
      · exact ⟨by simp, _, _, rfl, rfl, separate_incoming (r := regRbp) hplaced (by decide) _ _⟩
      · unfold roomOps at hi
        split at hi
        · obtain rfl := List.mem_singleton.mp hi
          exact ⟨by simp, _, _, rfl, rfl, separate_incoming (r := regRsp) hplaced (by decide) _ _⟩
        · cases hi
      · obtain ⟨r, hr, rfl⟩ := List.mem_map.mp hi
        refine ⟨by simp [saveLine], _, _, rfl, rfl, ?_⟩
        cases hplace : p.place with
        | reg t =>
          unfold Param.incoming
          rw [hplace]
          exact separate_place (place_ne_mem t _).symm _ _
        | stack k => exact (hrec.saves r hr p hp k hplace).mono hn

theorem reading?_move (hbase : e.base = m.regs Machine.rsp - 8) (p : Param) (s : Machine.State) :
    p.move.reading? e.toSetting s = some (.place (p.incoming m)) := by
  have hplace : e.toSetting.place? s p.move.src = some (p.incoming m) := by
    simp only [Setting.place?, Param.move, home?_source hbase p]
  unfold Move.reading?
  unfold Param.move at hplace ⊢
  cases hp : p.place with
  | reg r =>
    rw [hp] at hplace
    simpa [ArgPlace.source] using hplace
  | stack k =>
    rw [hp] at hplace
    simpa [ArgPlace.source] using hplace

/-- The moves of the parameters can be done at once. -/
theorem assignable_move (hrec : Receives e m saved params) (hmoved : moved.Sublist params)
    (s : Machine.State) : Assignable e.toSetting s (moved.map Param.move) where
  home := by
    intro mv hmv
    obtain ⟨p, hp, rfl⟩ := List.mem_map.mp hmv
    obtain ⟨h, hh, hfree⟩ := hrec.home p (hmoved.mem hp)
    refine ⟨h, hh, fun hx => hfree ?_⟩
    simp only [reservedPlaces, List.mem_cons]
    exact .inr (.inr (.inr (.inr (.inl hx))))
  source := by
    intro mv hmv
    obtain ⟨p, hp, rfl⟩ := List.mem_map.mp hmv
    exact ⟨_, reading?_move hrec.base p s⟩
  apart := by
    have hapart : ∀ p q : Param, q.Clear e m p → Apart e.toSetting s p.move q.move := by
      intro p q hclear h hh
      obtain ⟨hhomes, hslot⟩ := hclear h hh
      refine ⟨hhomes, fun a ha => ?_⟩
      rw [reading?_move hrec.base p s] at ha
      have hat : p.incoming m = .mem a := Reading.place.inj (Option.some.inj ha)
      rw [← hat]
      cases hp : p.place with
      | reg r =>
        unfold Param.incoming at hat
        rw [hp] at hat
        exact absurd hat (place_ne_mem r a)
      | stack k =>
        have hwidth : p.move.sourceWidth = registerWidth p.var.ty := by
          simp only [Move.sourceWidth, Param.move, hp, ArgPlace.source]
          rfl
        rw [hwidth]
        exact hslot k hp
    refine List.pairwise_map.mpr ((hrec.clear.sublist hmoved).imp fun {p q} hclear => ?_)
    exact ⟨hapart p q hclear.2, hapart q p hclear.1⟩

/-- A parameter is read from one register, or from the stack. -/
theorem readsOne_move (p : Param) : ReadsOne e.locs p.move := by
  intro k k' hk hk'
  unfold Param.move at hk hk'
  cases hp : p.place with
  | reg r =>
    simp only [hp, ArgPlace.source, readsKey, regKey?, beq_iff_eq, Option.some.injEq] at hk hk'
    exact hk.symm.trans hk'
  | stack i =>
    simp [hp, ArgPlace.source, readsKey, regKey?] at hk

theorem unscratched_move (hrec : Receives e m saved params) (hp : p ∈ params) (hplaced : p.Placed) :
    p.move.Unscratched e.locs where
  dst := by
    obtain ⟨h, hh, hfree⟩ := hrec.home p hp
    intro hkey
    have hhome : e.toSetting.home? p.move.dst = some regR11.place := home_of_key hkey
    obtain rfl := Option.some.inj (hh.symm.trans hhome)
    exact hfree (by simp [reservedPlaces])
  src := by
    obtain ⟨earlier, -, hplace⟩ := hplaced
    unfold Param.move
    cases hat : p.place with
    | reg r =>
      rw [hat] at hplace
      have hne := ne_regR11_of_argKey (mem_argKeys hplace.symm)
      simpa [ArgPlace.source, readsKey, regKey?] using hne
    | stack k => rfl
  lea hlea := by cases hlea

theorem filled_move (p : Param) (s : Machine.State) : p.move.Filled e s := by
  intro base index scale disp ty hsrc
  unfold Param.move at hsrc
  cases hat : p.place with
  | reg r =>
    rw [hat] at hsrc
    cases hsrc
  | stack k =>
    rw [hat] at hsrc
    cases hsrc

theorem width_move (h : p.Placed) : p.move.width = registerWidth p.var.ty := by
  obtain ⟨earlier, -, hplace⟩ := h
  have hsource : p.move.sourceWidth = registerWidth p.var.ty := by
    unfold Move.sourceWidth Param.move
    cases hat : p.place with
    | reg r =>
      rw [hat] at hplace
      exact width_of_argPlace hplace.symm
    | stack k => rfl
  rw [Move.width, hsource]
  exact Nat.min_self _

theorem Receives.clear_of_ne (h : Receives e m saved params) {q : Param} (hq : q ∈ params)
    (hp : p ∈ params) (hne : q ≠ p) : q.Clear e m p := by
  have : Std.Symm fun p q : Param => p.Clear e m q ∧ q.Clear e m p := ⟨fun _ _ => And.symm⟩
  exact (h.clear.forall hq hp hne).1

/-- The start of a function leaves in every parameter what was in its place on entry. -/
theorem Taking.get_param (h : Taking cx vars taken t' moved assign)
    (hrec : Receives e m saved (paramsOf vars)) (hfew : vars.length < 2 ^ 59)
    (hlocs : t'.closure.locations = e.locs)
    (hrun : LineRun e (entryLines frame saved pos ++ assign) m m') (hp : p ∈ paramsOf vars) :
    ∃ home, e.toSetting.home? (.var p.var) = some home ∧
      ∀ n ≤ registerWidth p.var.ty, m'.get home n = m.get (p.incoming m) n := by
  obtain ⟨m2, hentry, hrest⟩ := lineRun_append hrun
  have hlocs' := h.locs.trans hlocs
  have hplaced := placed_of_mem hfew hp
  obtain ⟨home, hhome, -⟩ := hrec.home p hp
  refine ⟨home, hhome, fun n hn => ?_⟩
  have hn8 : n ≤ 8 := hn.trans (registerWidth_le_eight _)
  rw [← get_incoming_of_entry hrec hp hplaced hn hentry]
  by_cases hmem : p ∈ moved
  · have ha := assignable_move hrec h.takes.among m2
    have hmoves : ∀ mv ∈ moved.map Param.move,
        ReadsOne e.locs mv ∧ mv.Filled e m2 ∧ mv.Unscratched e.locs := by
      intro mv hmv
      obtain ⟨q, hq, rfl⟩ := List.mem_map.mp hmv
      have hq := h.takes.among.mem hq
      exact ⟨readsOne_move q, filled_move q m2,
        unscratched_move hrec hq (placed_of_mem hfew hq)⟩
    have horder := orderly_of_single_reads h.run hlocs' ha fun mv hmv => (hmoves mv hmv).1
    obtain ⟨home', rd, hhome', hrd, hget⟩ := holds_of_parallel h.run hlocs' h.code ha
      (fun mv hmv => (hmoves mv hmv).2.1) (fun mv hmv => (hmoves mv hmv).2.2) horder hrest p.move
      (List.mem_map_of_mem hmem)
    obtain rfl := Option.some.inj (hhome.symm.trans hhome')
    obtain rfl := Option.some.inj ((reading?_move hrec.base p m2).symm.trans hrd)
    rw [width_move hplaced] at hget
    rw [← Machine.setWidth_get m' home _ n hn, hget]
    exact Machine.setWidth_get m2 (p.incoming m) _ n hn
  · -- The parameter stays, and every other one is apart from it.
    have hkept := (h.takes.kept p hp).resolve_left hmem
    rw [hlocs'] at hkept
    obtain rfl := Option.some.inj (hhome.symm.trans (home?_kept hrec.base hkept))
    have havoids : Appends (Avoids e (p.incoming m) n) (parallel cx (moved.map Param.move))
        fun _ => True := by
      refine appends_parallel cx (fun mv hmv op src hop => ?_) fun src => ?_
      · obtain ⟨q, hq, rfl⟩ := List.mem_map.mp hmv
        have hqp : q ≠ p := fun he => hmem (he ▸ hq)
        have hq := h.takes.among.mem hq
        obtain ⟨hq', hhq, -⟩ := hrec.home q hq
        refine ⟨by rcases hop with rfl | rfl <;> simp, _, hq', rfl, hhq, ?_⟩
        exact ((hrec.clear_of_ne hq hp hqp _ hhq).1 _ hhome).mono hn
      · exact ⟨by simp, _, _, rfl, rfl, separate_incoming (r := regXmm13) hplaced (by decide) _ _⟩
    obtain ⟨⟨code, hcode, hall⟩, -, -⟩ := havoids _ _ _ h.run
    obtain rfl := List.append_cancel_left (h.code.symm.trans hcode)
    exact get_of_avoids hall (hplaced.ne (r := regR11) (by decide) _) hn8 hrest

/-- The lines that take parameters give values to them and to xmm13. -/
theorem Taking.outputs (h : Taking cx vars taken t' moved assign)
    (hrec : Receives e m saved (paramsOf vars)) : ∀ i ∈ assign, i.op ≠ .push ∧
      ∃ o q, i.output = some o ∧ e.toSetting.home? o = some q ∧ q ≠ regRbp.place := by
  have hall : Appends (fun i => i.op ≠ .push ∧ ∃ o q, i.output = some o ∧
      e.toSetting.home? o = some q ∧ q ≠ regRbp.place) (parallel cx (moved.map Param.move))
      fun _ => True := by
    refine appends_parallel cx (fun mv hmv op src hop => ?_) fun src => ?_
    · obtain ⟨q, hq, rfl⟩ := List.mem_map.mp hmv
      obtain ⟨home, hhome, hfree⟩ := hrec.home q (h.takes.among.mem hq)
      refine ⟨by rcases hop with rfl | rfl <;> simp, _, home, rfl, hhome, fun he => hfree ?_⟩
      rw [he]
      simp [reservedPlaces]
    · exact ⟨by simp, _, _, rfl, rfl, by simp [Reg.place, regXmm13, regRbp, xmm, gpr]⟩
  obtain ⟨⟨code, hcode, hall⟩, -, -⟩ := hall _ _ _ h.run
  obtain rfl := List.append_cancel_left (h.code.symm.trans hcode)
  exact hall

/-- The start of a function can be run. -/
theorem Taking.exists_run (h : Taking cx vars taken t' moved assign)
    (hrec : Receives e m saved (paramsOf vars)) :
    ∃ m', LineRun e (entryLines frame saved pos ++ assign) m m' := by
  refine exists_lineRun_of_homes (fun i hi => ?_) m
  simp only [entryLines, List.cons_append, List.mem_cons, List.mem_append] at hi
  rcases hi with rfl | rfl | (hi | hi) | hi
  · exact .inl rfl
  · exact .inr ⟨_, _, rfl, rfl⟩
  · unfold roomOps at hi
    split at hi
    · obtain rfl := List.mem_singleton.mp hi
      exact .inr ⟨_, _, rfl, rfl⟩
    · cases hi
  · obtain ⟨r, -, rfl⟩ := List.mem_map.mp hi
    exact .inr ⟨_, _, rfl, rfl⟩
  · obtain ⟨-, o, q, ho, hq, -⟩ := h.outputs hrec i hi
    exact .inr ⟨o, q, ho, hq⟩

/-- The frame pointer is then where the slots are counted from. -/
theorem Taking.rbp_eq (h : Taking cx vars taken t' moved assign)
    (hrec : Receives e m saved (paramsOf vars))
    (hrun : LineRun e (entryLines frame saved pos ++ assign) m m') :
    m'.regs Machine.rbp = e.base := by
  cases hrun with
  | @cons _ _ _ s1 _ step hrun =>
    cases step with
    | write output => cases output
    | @push word _ value after =>
      subst after
      cases hrun with
      | @cons _ _ _ s2 _ step hrun =>
        have hd : e.datum? (m.push word) (.reg regRsp) =
            some ⟨true, 8, (m.push word).get (.reg Machine.rsp) 8⟩ := rfl
        have hvalue := (step.assigns (effect?_move hd rfl)).value
        have htop : s2.get (.reg Machine.rbp) 8 = (m.push word).get (.reg Machine.rsp) 8 :=
          hvalue.trans (Datum.brought_self ⟨true, 8, (m.push word).get (.reg Machine.rsp) 8⟩)
        have hkept : m'.get (.reg Machine.rbp) 8 = s2.get (.reg Machine.rbp) 8 := by
          refine get_of_avoids (fun i hi => ?_) (by simp [Machine.rbp, Machine.r11])
            (Nat.le_refl 8) hrun
          simp only [List.append_eq, List.mem_append] at hi
          rcases hi with (hi | hi) | hi
          · unfold roomOps at hi
            split at hi
            · obtain rfl := List.mem_singleton.mp hi
              exact ⟨by simp, _, _, rfl, rfl, show Machine.rsp ≠ Machine.rbp by decide⟩
            · cases hi
          · obtain ⟨r, -, rfl⟩ := List.mem_map.mp hi
            exact ⟨by simp [saveLine], _, _, rfl, rfl, trivial⟩
          · obtain ⟨hop, o, q, ho, hq, hne⟩ := h.outputs hrec i hi
            exact ⟨hop, o, q, ho, hq, separate_place (r := regRbp) hne _ _⟩
        have hget : ∀ (s3 : Machine.State) r, s3.get (.reg r) 8 = s3.regs r :=
          fun s3 r => BitVec.setWidth_eq _
        rw [htop, hget, hget] at hkept
        rw [hkept, hrec.base]
        exact (Machine.pushed_push m word).rsp

/-- The code of the start of a function. -/
theorem exists_taking {items : List Operand} (h : prologue cx t = .ok ((), t'))
    (hitems : cx.instr.output = some (.list items)) :
    ∃ vars taken moved assign, items = vars.map Operand.var ∧ Taking cx vars taken t' moved assign ∧
      t'.out = t.out ++ cx.instr ::
        (entryLines t.closure.frame t.closure.saved cx.instr.pos ++ assign) := by
  rcases saveAndTake_cases (prologue_opening h) with ⟨hnone, -⟩ | ⟨items', st, taken, ho, htake,
    hassign⟩
  · exact absurd hitems (hnone items)
  · cases hitems.symm.trans ho
    obtain ⟨hout, vars, moved, hvars, -, hmoves, htakes⟩ :=
      takeParams_spec htake (argCount_nil.symm : _ = argCount []) rfl
    rw [List.nil_append] at hmoves
    rw [hmoves] at hassign
    have hany : Appends (fun _ => True) (parallel cx (moved.map Param.move)) fun _ => True :=
      appends_parallel cx (fun _ _ _ _ _ => trivial) fun _ => trivial
    obtain ⟨⟨assign, hcode, -⟩, hsame, -⟩ := hany _ _ _ hassign
    refine ⟨vars, taken, moved, assign, hvars, ⟨htakes, hassign, hcode, hsame.locations.symm⟩, ?_⟩
    rw [hcode, hout, openingOps, entryLines]
    simp

end Entry

end Backend.Lowering
