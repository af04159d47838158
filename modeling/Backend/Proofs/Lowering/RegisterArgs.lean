-- The registers of a call's arguments. Each of them holds at the call what its argument was worth
-- before the first line of the call: it was loaded when its address needed the temporary register,
-- and assigned with the others else.
import Backend.Proofs.Lowering.MoveLines
import Backend.Proofs.Lowering.PushedArgs
import Backend.Proofs.Lowering.Sharing

namespace Backend.Lowering

open Backend.Machine (Place Assigns)

/-! ## What is read from registers -/

section Read

variable {e : Scene} {s : Machine.State} {o : Operand} {t : Reg} {n : Nat}

/-- An operand that is a register is read as its key. -/
theorem regKey?_of_place (h : e.place? s o = some t.place) : regKey? e.locs o = some t.key := by
  cases o with
  | indirect base index scale disp ty =>
    obtain ⟨a, -, ha⟩ := Option.map_eq_some_iff.mp h
    exact absurd ha.symm (place_ne_mem t a)
  | symbol y => exact absurd (Option.some.inj h).symm (place_ne_mem t _)
  | _ => exact key_of_home h rfl

theorem readsKey_of_regKey? {locs : Locations} {key : Nat} (h : regKey? locs o = some key) :
    readsKey locs key o = true := by
  cases o with
  | indirect => cases h
  | _ => simp [readsKey, h]

/-- What is read from a register is read as its key. -/
theorem readsKey_of_readAt (h : ReadAt e s o t.place n) : readsKey e.locs t.key o = true := by
  rcases h with ⟨hp, -⟩ | ⟨base, index, scale, disp, ty, part, rfl, hpart, hp, -⟩
  · exact readsKey_of_regKey? (regKey?_of_place hp)
  · have hread : readsKeyOption e.locs t.key (some part) = true :=
      readsKey_of_regKey? (regKey?_of_place hp)
    rcases hpart with rfl | rfl <;> simp [readsKey, hread]

/-- A part of an address that counts reads no address itself. -/
theorem place?_of_readsKey {base index : Option Operand} {scale : UInt8} {disp : Int64}
    {a : BitVec 64} (ha : e.address? s base index scale disp = some a) {part : Operand}
    (hpart : base = some part ∨ index = some part) (h : readsKey e.locs t.key part = true) :
    e.place? s part = some t.place := by
  have hhome : regKey? e.locs part = some t.key → e.toSetting.home? part = some t.place :=
    fun hkey => home_of_key hkey
  have hplain : (∀ b i f k ty, part ≠ .indirect b i f k ty) := by
    rintro b i f k ty rfl
    simp only [Scene.address?, bind, Option.bind_eq_some_iff] at ha
    obtain ⟨wb, hb, wi, hi, -⟩ := ha
    rcases hpart with rfl | rfl
    · cases hb
    · cases hi
  cases part with
  | indirect b i f k ty => exact absurd rfl (hplain b i f k ty)
  | symbol y => simp [readsKey, regKey?] at h
  | _ => exact hhome (by simpa [readsKey] using h)

/-- What is read as the key of a register is read from there. -/
theorem exists_readAt {d : Datum} (hd : e.datum? s o = some d)
    (h : readsKey e.locs t.key o = true) : ∃ n, ReadAt e s o t.place n := by
  cases o with
  | indirect base index scale disp ty =>
    obtain ⟨p, hp, -⟩ := Option.map_eq_some_iff.mp hd
    obtain ⟨a, ha, -⟩ := Option.map_eq_some_iff.mp hp
    have hpart : ∀ o, (base = o ∨ index = o) → readsKeyOption e.locs t.key o = true →
        ∃ n, ReadAt e s (.indirect base index scale disp ty) t.place n := by
      intro o ho hread
      cases o with
      | none => cases hread
      | some part =>
        exact ⟨_, .inr ⟨base, index, scale, disp, ty, part, rfl, ho,
          place?_of_readsKey ha ho hread, rfl⟩⟩
    rw [readsKey, Bool.or_eq_true] at h
    rcases h with h | h
    · exact hpart base (.inl rfl) h
    · exact hpart index (.inr rfl) h
  | symbol y => simp [readsKey, regKey?] at h
  | _ =>
    simp only [readsKey, beq_iff_eq] at h
    exact ⟨_, .inl ⟨place?_of_home (home_of_key h), rfl⟩⟩

end Read

/-! ## What is left of an argument -/

/-- The move that is left to do for an argument in a register. A float or a string is in the data by
then, and the address of a memory operand is folded. -/
inductive Left (e : Scene) (r : Reg) : Operand → Move → Prop
  | literal {l : Literal} {v : Int64} (int : l.int? = some v) :
      Left e r (.imm l) ⟨.reg r, .imm l, false⟩
  | float {w : FloatWidth} {x : Float.Binary64} {y : Symbol} (placed : IsPlaced e (.float w x) y) :
      Left e r (.imm (.float w x)) ⟨.reg r, .symbol y, false⟩
  | string {bytes : List UInt8} {y : Symbol} (placed : IsPlaced e (.string bytes) y) :
      Left e r (.imm (.string bytes)) ⟨.reg r, .symbol y, true⟩
  | memory {base index : Option Operand} {scale : UInt8} {disp : Int64} {t : Ty} :
      Left e r (.indirect base index scale disp t) ⟨.reg r, folded base index scale disp t, false⟩
  | place {a : Operand} (literal : ∀ l, a ≠ .imm l)
      (memory : ∀ base index scale disp t, a ≠ .indirect base index scale disp t) :
      Left e r a ⟨.reg r, a, false⟩

section Left

variable {e : Scene} {cx : Context} {s : Machine.State} {r : Reg} {a : Operand} {m : Move}
  {d : Datum}

theorem Left.dst (h : Left e r a m) : m.dst = .reg r := by
  cases h <;> rfl

/-- The move reads no more registers than the argument. -/
theorem Left.readsKey (h : Left e r a m) {key : Nat} (hm : readsKey e.locs key m.src = true) :
    Lowering.readsKey e.locs key a = true := by
  cases h with
  | literal => exact hm
  | float => cases hm
  | string => cases hm
  | place => exact hm
  | @memory base index scale disp t =>
    rcases hfold : foldAddress base index scale disp with ⟨b, i, f, k⟩
    obtain ⟨hb, hi, -⟩ := foldAddress_parts hfold
    simp only [folded, hfold, Lowering.readsKey, Bool.or_eq_true] at hm ⊢
    rcases hm with hm | hm
    · cases b with
      | none => cases hm
      | some part =>
        rcases (hb part rfl).1 with rfl | rfl
        · exact .inl hm
        · exact .inr hm
    · cases i with
      | none => cases hm
      | some part =>
        rw [hi part rfl]
        exact .inr hm

theorem Left.unscratched (h : Left e r a m) (hr : r.key ≠ regR11.key)
    (ha : Lowering.readsKey e.locs regR11.key a = false) : m.Unscratched e.locs where
  dst := by
    rw [h.dst]
    exact fun hkey => hr (Option.some.inj hkey)
  src := by
    by_contra hreads
    rw [h.readsKey (by simpa using hreads)] at ha
    cases ha
  lea hlea := by
    cases h with
    | string => exact ⟨_, rfl⟩
    | _ => cases hlea

/-- The parts of an argument's address fill the registers that they are in. -/
def Filled (e : Scene) (s : Machine.State) (a : Operand) : Prop :=
  ∀ base index scale disp t, a = .indirect base index scale disp t →
    ∀ part, base = some part ∨ index = some part → Holds e s part

theorem Left.filled (h : Left e r a m) (hhere : needsTemp e.locs a = false) (ha : Filled e s a) :
    m.Filled e s := by
  cases h with
  | literal => rintro base index scale disp t ⟨⟩
  | float => rintro base index scale disp t ⟨⟩
  | string => rintro base index scale disp t ⟨⟩
  | place _ memory =>
    exact fun base index scale disp t hsrc => absurd hsrc (memory base index scale disp t)
  | @memory base index scale disp t =>
    rcases hfold : foldAddress base index scale disp with ⟨b, i, f, k⟩
    obtain ⟨hb, hi, -⟩ := foldAddress_parts hfold
    rw [needsTemp, hfold] at hhere
    simp only [Bool.not_eq_false', Bool.and_eq_true] at hhere
    intro base' index' scale' disp' t' hsrc part hpart
    simp only [folded, hfold] at hsrc
    obtain ⟨rfl, rfl, -⟩ := Operand.indirect.inj hsrc
    rcases hpart with rfl | rfl
    · exact ⟨hhere.1, ha base index scale disp t rfl part (hb part rfl).1⟩
    · exact ⟨hhere.2, ha base index scale disp t rfl part (.inr (hi part rfl))⟩

theorem Reading.setWidth_get (rd : Reading) (s : Machine.State) {n k : Nat} (h : k ≤ n) :
    (rd.get s n).setWidth (8 * k) = rd.get s k := by
  cases rd with
  | place p => exact Machine.setWidth_get s p n k h
  | word x => exact BitVec.setWidth_setWidth_of_le x (by omega)

/-- What is left to do for an argument takes what the argument is worth. -/
theorem Left.reading (h : Left e r a m) (hhere : needsTemp e.locs a = false)
    (hd : e.datum? s a = some d) (hreach : Reachable e cx s a) (hfilled : Filled e s a)
    (hfloat : FloatThere e s a) :
    ∃ rd, m.reading? e.toSetting s = some rd ∧ ∀ n ≤ registerWidth a.ty, n ≤ d.width →
      n ≤ m.sourceWidth ∧ rd.get s n = d.brought n := by
  have hheld : ∀ (o : Operand) (p : Place) (n : Nat), n ≤ width o →
      s.get p n = (held s o p).brought n :=
    fun o p n hn => ((Selection.convert_of_le _ _ hn).trans (Machine.setWidth_get s p _ n hn)).symm
  have hmoved := h.filled hhere hfilled
  cases h with
  | @literal l v int =>
    refine ⟨.word v.toBitVec, by simp [Move.reading?, int], fun n hn _ => ?_⟩
    have hword : d = ⟨true, 8, v.toBitVec⟩ := by
      cases l <;> cases int <;> exact (Option.some.inj hd).symm
    subst hword
    have hn8 := hn.trans (registerWidth_le_eight _)
    exact ⟨hn8, (Selection.convert_of_le _ _ hn8).symm⟩
  | @float w x y placed =>
    obtain ⟨name, rfl, hname⟩ := placed
    have hbits := hfloat w x name rfl hname
    refine ⟨.place (.mem (e.link.symbol name)), rfl, fun n hn hw => ⟨hn, ?_⟩⟩
    obtain rfl : (⟨false, w.ty.size, (floatBits w x).setWidth _⟩ : Datum) = d := Option.some.inj hd
    rw [Datum.brought, Selection.convert_of_le _ _ hw]
    dsimp only
    rw [← hbits]
    exact (Machine.setWidth_get s (.mem (e.link.symbol name)) _ n hw).symm
  | @string bytes y placed =>
    obtain ⟨name, rfl, hname⟩ := placed
    obtain rfl : (⟨false, 8, e.link.symbol name⟩ : Datum) = d := by
      simpa [Scene.datum?, hname] using hd
    exact ⟨.word (e.link.symbol name), rfl,
      fun n _ hw => ⟨hw, (Selection.convert_of_le _ _ hw).symm⟩⟩
  | place literal memory =>
    obtain ⟨p, hp, rfl⟩ : ∃ p, e.place? s a = some p ∧ held s a p = d := by
      cases a with
      | imm l => exact absurd rfl (literal l)
      | _ => exact Option.map_eq_some_iff.mp hd
    have hplace : e.toSetting.place? s a = some p := by
      cases a with
      | indirect base index scale disp t => exact absurd rfl (memory base index scale disp t)
      | symbol y => exact hp
      | var v =>
        have hhome : e.toSetting.home? (.var v) = some p := hp
        simp [Setting.place?, hhome]
      | reg t => exact hp
      | stack offset t => exact hp
      | _ => cases hp
    refine ⟨.place p, ?_, fun n _ hw => ⟨hw, hheld a p n hw⟩⟩
    cases a with
    | imm l => exact absurd rfl (literal l)
    | _ => simp [Move.reading?, hplace]
  | @memory base index scale disp t =>
    obtain ⟨p, hp, rfl⟩ := Option.map_eq_some_iff.mp hd
    obtain ⟨x, hx, rfl⟩ := Option.map_eq_some_iff.mp hp
    rcases hfold : foldAddress base index scale disp with ⟨b, i, f, k⟩
    have hsrc : folded base index scale disp t = .indirect b i f k t := by rw [folded, hfold]
    obtain ⟨-, -, hx'⟩ :=
      address?_folded hx (hreach.loadable base index scale disp t rfl).lone hfold
    have haddr := hmoved.address? hsrc
    rw [hx'] at haddr
    refine ⟨.place (.mem x), ?_,
      fun n hn _ => ⟨?_, hheld (.indirect base index scale disp t) (.mem x) n hn⟩⟩
    · simp only [hsrc] at haddr ⊢
      simp [Move.reading?, Setting.place?, Setting.home?, ← haddr]
    · rw [Move.sourceWidth, hsrc]
      exact hn

end Left

/-! ## One argument -/

/-- What becomes of the move of an argument. If its address needs the temporary register, it is
loaded into its register, which no other argument reads then; else a move is left. -/
inductive Handled (e : Scene) (all : List Move) (p : Move × Nat) : Option Move → Prop
  | left {r : Reg} {a : Operand} {m : Move} (move : p.1 = ⟨.reg r, a, false⟩)
      (here : needsTemp e.locs a = false) (left : Left e r a m) : Handled e all p (some m)
  | loaded {r : Reg} {a : Operand} (move : p.1 = ⟨.reg r, a, false⟩)
      (needs : needsTemp e.locs a = true)
      (unread : ∀ q ∈ all.zipIdx, q.2 ≠ p.2 → readsKey e.locs r.key q.1.src = false) :
      Handled e all p none

section Argument

variable {e : Scene} {cx : Context} {st st' : State} {s s' : Machine.State} {all : List Move}
  {index : Nat} {r : Reg} {a : Operand} {d : Datum} {left : Option Move} {code : List Instr}

theorem isPlaced_of_materialize {l : Literal} {y : Symbol} (h : materialize l st = .ok (y, st'))
    (hlocs : st.closure.locations = e.locs) (hplaces : e.Places st'.closure) : IsPlaced e l y := by
  have hworks := works_materialize (e := e) (P := fun _ => True) l
  obtain ⟨⟨code, hcode⟩, -, -⟩ := hworks.extension _ _ _ h
  obtain rfl : code = [] := by
    cases h
    exact (List.self_eq_append_right.mp hcode)
  exact (hworks.ensures ⟨fun _ => 0, fun _ => 0, fun _ => 0⟩ st y st' [] trivial h hlocs hplaces
    hcode).2

theorem unread_of_conflicting {locs : Locations} {key : Nat}
    (h : conflicting? locs key index all = none) :
    ∀ q ∈ all.zipIdx, q.2 ≠ index → readsKey locs key q.1.src = false := by
  intro q hq hne
  have hnone := List.find?_eq_none.mp (Option.map_eq_none_iff.mp h) q hq
  simpa [hne] using hnone

theorem handled_of_directArg (h : directArg cx all index ⟨.reg r, a, false⟩ st = .ok (left, st'))
    (hlocs : st.closure.locations = e.locs) (hplaces : e.Places st'.closure) :
    Handled e all (⟨.reg r, a, false⟩, index) left := by
  cases directed_of_directArg h with
  | kept literal memory =>
    have hleft : Left e r a ⟨.reg r, a, false⟩ := by
      cases a with
      | imm l =>
        obtain ⟨v, hv⟩ := literal l rfl
        exact .literal hv
      | _ => exact .place (by simp) memory
    exact .left rfl (needsTemp_of_ne memory) hleft
  | float placed => exact .left rfl rfl (.float (isPlaced_of_materialize placed hlocs hplaces))
  | string placed => exact .left rfl rfl (.string (isPlaced_of_materialize placed hlocs hplaces))
  | folded here => exact .left rfl (hlocs ▸ here) .memory
  | loaded needs _ unread =>
    exact .loaded rfl (hlocs ▸ needs) (unread_of_conflicting (hlocs ▸ unread))

/-- An argument that is loaded is in its register then. -/
theorem carries_of_loaded (h : directArg cx all index ⟨.reg r, a, false⟩ st = .ok (left, st'))
    (hcode : st'.out = st.out ++ code) (hlocs : st.closure.locations = e.locs)
    (hplaces : e.Places st'.closure) (hneeds : needsTemp e.locs a = true)
    (hwidth : width (.reg r) = registerWidth a.ty) (hd : e.datum? s a = some d)
    (hreach : Reachable e cx s a) (hrun : LineRun e code s s') : Carries s' r.place a.ty d := by
  obtain rfl : left = none := by
    cases handled_of_directArg h hlocs hplaces with
    | left move here =>
      cases move
      rw [here] at hneeds
      cases hneeds
    | loaded => rfl
  cases directed_of_directArg h with
  | @loaded base part scale disp t d1 st1 _ address =>
    have hworks := works_aimedAddress hd hreach
      (.make .move (some (.indirect base part scale disp t)) none none)
    obtain ⟨⟨pre, hpre⟩, -, -⟩ := hworks.extension _ _ _ address
    have hens := hworks.ensures s st d1 st1 pre rfl address hlocs hplaces hpre
    obtain rfl : code = pre ++
        [⟨.move, some (d1.instr.first.getD (.indirect base part scale disp t)),
          none, none, some (.reg r), cx.instr.pos⟩] := by
      rw [← List.append_cancel_left_eq st.out, ← List.append_assoc, ← hpre]
      exact hcode.symm
    obtain ⟨s1, hrun1, hrun2⟩ := lineRun_append hrun
    obtain ⟨o', ho', -, hd'⟩ := hens.of_run hrun1
    rw [ho'] at hrun2
    have hvalue := ((lineRun_singleton hrun2).assigns (effect?_move hd' rfl)).value
    rw [hwidth] at hvalue
    intro n hn _
    rw [← d.convert_brought true hn, ← hvalue, Selection.convert_of_le _ _ hn]
    exact (Machine.setWidth_get s' r.place _ n hn).symm

end Argument

/-! ## All arguments -/

section Arguments

variable {e : Scene} {cx : Context} {st st' : State} {s s' : Machine.State} {all : List Move}
  {lefts : List (Option Move)}

theorem handled_of_directArgs {moves : List (Move × Nat)}
    (hplain : ∀ p ∈ moves, ∃ r a, p.1 = ⟨.reg r, a, false⟩ ∧ r.key ∈ argKeys)
    (hlocs : st.closure.locations = e.locs) (hplaces : e.Places st'.closure)
    (h : moves.mapM (fun p => directArg cx all p.2 p.1) st = .ok (lefts, st')) :
    List.Forall₂ (Handled e all) moves lefts := by
  induction moves generalizing st lefts with
  | nil =>
    cases h
    exact .nil
  | cons p moves ih =>
    rw [List.mapM_cons] at h
    obtain ⟨left, st1, h1, h⟩ := run_bind.mp h
    obtain ⟨lefts', st2, h2, h⟩ := run_bind.mp h
    cases h
    obtain ⟨r, a, hp, -⟩ := hplain p (by simp)
    obtain ⟨-, hlocs1, -⟩ := extends_directArg cx all p.2 p.1 _ _ _ h1
    obtain ⟨-, -, hgrows⟩ := extends_mapM (fun q : Move × Nat => extends_directArg cx all q.2 q.1)
      _ _ _ h2
    refine .cons ?_ (ih (fun q hq => hplain q (by simp [hq])) (hlocs1.trans hlocs) h2)
    rw [hp] at h1
    have hhandled := handled_of_directArg h1 hlocs fun key name hk =>
      hplaces key name (hgrows key name hk)
    rwa [show p = (⟨.reg r, a, false⟩, p.2) from Prod.ext hp rfl]

variable {moves : List (Move × Nat)}

theorem exists_handled (h : List.Forall₂ (Handled e all) moves lefts) {p : Move × Nat}
    (hp : p ∈ moves) : ∃ left ∈ lefts, Handled e all p left := by
  induction h with
  | nil => cases hp
  | cons hfirst _ ih =>
    rcases List.mem_cons.mp hp with rfl | hp
    · exact ⟨_, by simp, hfirst⟩
    · obtain ⟨left, hleft, hhandled⟩ := ih hp
      exact ⟨left, by simp [hleft], hhandled⟩

theorem exists_argument (h : List.Forall₂ (Handled e all) moves lefts) {m : Move}
    (hm : m ∈ lefts.filterMap id) : ∃ p ∈ moves, Handled e all p (some m) := by
  induction h with
  | nil => cases hm
  | @cons p left ps ls hfirst _ ih =>
    obtain ⟨left', hleft, heq⟩ := List.mem_filterMap.mp hm
    obtain rfl : left' = some m := heq
    rcases List.mem_cons.mp hleft with rfl | hleft
    · exact ⟨p, by simp, hfirst⟩
    · obtain ⟨q, hq, hhandled⟩ := ih (List.mem_filterMap.mpr ⟨_, hleft, rfl⟩)
      exact ⟨q, by simp [hq], hhandled⟩

/-- Moves that are left go where the moves of the arguments go. -/
theorem sublist_destKeys (h : List.Forall₂ (Handled e all) moves lefts) :
    (destKeys e.locs (lefts.filterMap id)).Sublist (destKeys e.locs (moves.map Prod.fst)) := by
  induction h with
  | nil => exact .slnil
  | @cons p left ps ls hfirst _ ih =>
    cases hfirst with
    | @left r a m move here left =>
      simpa [destKeys, move, left.dst, regKey?] using ih
    | @loaded r a move needs unread =>
      have hstep := ih.cons r.key
      simpa [destKeys, move, regKey?] using hstep

/-- What one argument is read from, no other argument is loaded into. -/
theorem not_mem_loadedRegs (h : List.Forall₂ (Handled e all) all.zipIdx lefts) {r : Reg}
    {a : Operand} {index : Nat} (hmem : (⟨.reg r, a, false⟩, index) ∈ all.zipIdx)
    {others : List Move}
    (hothers : ∀ m ∈ others, needsTemp e.locs m.src = true →
      ∃ k, (m, k) ∈ all.zipIdx ∧ k ≠ index) {p : Place} {n : Nat}
    (hread : ReadAt e s a p n) : p ∉ loadedRegs e.locs others := by
  intro hp
  obtain ⟨m, hm, hplace⟩ := List.mem_filterMap.mp hp
  obtain ⟨hm, hneeds⟩ := List.mem_filter.mp hm
  obtain ⟨k, hk, hne⟩ := hothers m hm hneeds
  obtain ⟨left, -, hhandled⟩ := exists_handled h hk
  cases hhandled with
  | left move here =>
    cases move
    rw [here] at hneeds
    cases hneeds
  | @loaded t b move needs unread =>
    cases move
    obtain rfl : t.place = p := Option.some.inj hplace
    have hunread := unread _ hmem hne.symm
    rw [readsKey_of_readAt hread] at hunread
    cases hunread

theorem Filled.of_disturbs {dests : List Place} {room room' : Nat} {a : Operand}
    (h : Filled e s a) (hs : Disturbs dests room s s') (htake : Takeable e cx s room' a)
    (hle : room ≤ room') (hdests : ∀ p n, ReadAt e s a p n → p ∉ dests) : Filled e s' a := by
  intro base index scale disp t ha part hpart
  refine holds_of_regs (h base index scale disp t ha part hpart) fun q hq hint => ?_
  have hread : ReadAt e s a (.reg q.index) (width part) :=
    .inr ⟨base, index, scale, disp, t, part, ha, hpart, place?_of_regOf hq hint s, rfl⟩
  have hspared := (htake.spared _ _ hread).mono hle (hdests _ _ hread)
  have hget : ∀ s2 : Machine.State, s2.get (.reg q.index) 8 = s2.regs q.index :=
    fun s2 => BitVec.setWidth_eq _
  have hsame := hs.get (n := 8) ⟨hspared.1, hspared.2.1, hspared.2.2.1, hspared.2.2.2.1, trivial⟩
    (Nat.le_refl 8)
  rwa [hget, hget] at hsame

end Arguments

/-! ## The registers at the call -/

/-- An argument that can be passed: it is worth something, it can be taken, and the parts of its
address fill the registers that they are in. -/
structure Passable (e : Scene) (cx : Context) (s : Machine.State) (room : Nat) (a : Operand) : Prop
    extends Takeable e cx s room a where
  meaning : ∃ d, e.datum? s a = some d
  filled : Filled e s a

section Run

variable {e : Scene} {cx : Context} {st st' : State} {s s' : Machine.State} {args : ArgState}
  {padded pushed loaded aimed moved : State} {moves : List Move} {f : Operand}
  {count rest : List Instr} {items : List Operand} {r : Reg} {a : Operand} {d : Datum}
  {pre : List Instr}

/-- The steps that handle the arguments in registers, one by one. -/
theorem CallRun.exists_lefts
    (run : CallRun cx st st' args padded pushed loaded aimed moved moves f count rest)
    (assigned : Assigned items args) (hlocs : st.closure.locations = e.locs)
    (hplaces : e.Places st'.closure) : ∃ lefts, moves = lefts.filterMap id ∧
      args.moves.zipIdx.mapM (fun p => directArg cx args.moves p.2 p.1) pushed =
      .ok (lefts, loaded) ∧
      List.Forall₂ (Handled e args.moves) args.moves.zipIdx lefts := by
  obtain ⟨pushes, loads, aim, assign, hphases⟩ := run.exists_phases assigned hlocs
  have hload := run.load
  rw [directArgs_eq] at hload
  obtain ⟨lefts, st1, hmap, h⟩ := run_bind.mp hload
  cases h
  exact ⟨lefts, rfl, hmap, handled_of_directArgs assigned.plain hphases.pushed_locs
    (run.places hplaces).2.1 hmap⟩

/-- Nothing but a value given to it disturbs the register of an argument. -/
theorem spared_of_argKey {dests : List Place} {room n : Nat} (h : r.key ∈ argKeys)
    (hdests : r.place ∉ dests) : Spared dests room s r.place n := by
  obtain ⟨hrsp, -, hr10, -⟩ := key_ne_of_mem_argKeys h
  refine ⟨fun hp => hr10 ((Reg.place_eq_iff r regR10).mp hp),
    fun hp => ne_regR11_of_argKey h ((Reg.place_eq_iff r regR11).mp hp),
    fun hp => absurd ((Reg.place_eq_iff r regRsp).mp hp) hrsp, hdests, ?_⟩
  exact separate_place (place_ne_mem r _).symm _ _

theorem mem_zipIdx_of_mem {m : Move} {ms : List Move} (h : m ∈ ms) : ∃ k, (m, k) ∈ ms.zipIdx := by
  obtain ⟨k, hk, rfl⟩ := List.getElem_of_mem h
  exact ⟨k, List.mem_zipIdx_iff_getElem?.mpr (by simp [hk])⟩

theorem eq_of_mem_zipIdx {m m' : Move} {ms : List Move} {k : Nat} (h : (m, k) ∈ ms.zipIdx)
    (h' : (m', k) ∈ ms.zipIdx) : m = m' :=
  Option.some.inj ((List.mem_zipIdx_iff_getElem?.mp h).symm.trans
    (List.mem_zipIdx_iff_getElem?.mp h'))

/-- Different moves of a call go to different registers. -/
theorem Assigned.nodup (h : Assigned items args) (locs : Locations) :
    (destKeys locs args.moves).Nodup := by
  refine List.pairwise_filterMap.mpr (h.apart.imp_of_mem fun {m m'} hm hm' hne => ?_)
  obtain ⟨_, a, _, r, -, -, rfl⟩ := h.moves m hm
  obtain ⟨_, a', _, r', -, -, rfl⟩ := h.moves m' hm'
  intro k hk k' hk'
  obtain rfl := Option.some.inj hk
  obtain rfl := Option.some.inj hk'
  exact hne r r' rfl rfl

theorem Assigned.mem_items (h : Assigned items args) (hmem : ⟨.reg r, a, false⟩ ∈ args.moves) :
    a ∈ items ∧ r.key ∈ argKeys ∧ width (.reg r) = registerWidth a.ty := by
  obtain ⟨before, a', after, r', rfl, hplace, hm⟩ := h.moves _ hmem
  cases hm
  exact ⟨by simp, mem_argKeys hplace, width_of_argPlace hplace⟩

/-- Before the registers are assigned at once, every argument that is left is worth what it was. -/
theorem CallRun.left_unchanged
    (run : CallRun cx st st' args padded pushed loaded aimed moved moves f count rest)
    (assigned : Assigned items args) (hlocs : st.closure.locations = e.locs)
    (hplaces : e.Places st'.closure) {s3 : Machine.State}
    (hs : Disturbs (loadedRegs e.locs args.moves) (argRoom args) s s3)
    (hmem : ⟨.reg r, a, false⟩ ∈ args.moves) (hhere : needsTemp e.locs a = false)
    (hpass : Passable e cx s (argRoom args) a) (hd : e.datum? s a = some d) :
    e.datum? s3 a = some d ∧ Reachable e cx s3 a ∧ FloatThere e s3 a ∧ Filled e s3 a := by
  obtain ⟨lefts, -, -, hall⟩ := run.exists_lefts assigned hlocs hplaces
  obtain ⟨k, hk⟩ := mem_zipIdx_of_mem hmem
  have hdests : ∀ p n, ReadAt e s a p n → p ∉ loadedRegs e.locs args.moves := by
    refine fun p n hread => not_mem_loadedRegs hall hk (fun m hm hneeds => ?_) hread
    obtain ⟨j, hj⟩ := mem_zipIdx_of_mem hm
    refine ⟨j, hj, fun hjk => ?_⟩
    subst hjk
    obtain rfl := eq_of_mem_zipIdx hj hk
    rw [hhere] at hneeds
    cases hneeds
  obtain ⟨hd3, hreach3, hfloat3⟩ := hpass.toTakeable.of_disturbs hd hs (Nat.le_refl _) hdests
    (mem_not_mem_loadedRegs _ _)
  exact ⟨hd3, hreach3, hfloat3, hpass.filled.of_disturbs hs hpass.toTakeable (Nat.le_refl _) hdests⟩

/-- The moves that are left can be done at once. -/
theorem CallRun.assignable
    (run : CallRun cx st st' args padded pushed loaded aimed moved moves f count rest)
    (assigned : Assigned items args) (hlocs : st.closure.locations = e.locs)
    (hplaces : e.Places st'.closure) {s3 : Machine.State}
    (hs : Disturbs (loadedRegs e.locs args.moves) (argRoom args) s s3)
    (hitems : ∀ a ∈ items, Passable e cx s (argRoom args) a) :
    Assignable e.toSetting s3 moves ∧ (∀ m ∈ moves, m.Filled e s3) ∧
      ∀ m ∈ moves, m.Unscratched e.locs := by
  obtain ⟨lefts, rfl, -, hall⟩ := run.exists_lefts assigned hlocs hplaces
  have hnodup : (destKeys e.locs (lefts.filterMap id)).Nodup := by
    refine (assigned.nodup e.locs).sublist ?_
    simpa [List.zipIdx_map_fst] using sublist_destKeys hall
  have hleft : ∀ m ∈ lefts.filterMap id, ∃ r, m.dst = .reg r ∧ r.key ∈ argKeys ∧
      (∃ rd, m.reading? e.toSetting s3 = some rd) ∧ m.Filled e s3 ∧ m.Unscratched e.locs := by
    intro m hm
    obtain ⟨p, hp, hhandled⟩ := exists_argument hall hm
    cases hhandled with
    | @left r a _ move here left =>
      have hmem : ⟨.reg r, a, false⟩ ∈ args.moves := move ▸ List.fst_mem_of_mem_zipIdx hp
      obtain ⟨hitem, hkey, -⟩ := assigned.mem_items hmem
      have hpass := hitems a hitem
      obtain ⟨d, hd⟩ := hpass.meaning
      obtain ⟨hd3, hreach3, hfloat3, hfilled3⟩ :=
        run.left_unchanged assigned hlocs hplaces hs hmem here hpass hd
      obtain ⟨rd, hrd, -⟩ := left.reading here hd3 hreach3 hfilled3 hfloat3
      refine ⟨r, left.dst, hkey, ⟨rd, hrd⟩, left.filled here hfilled3,
        left.unscratched (ne_regR11_of_argKey hkey) ?_⟩
      by_contra hreads
      obtain ⟨n, hread⟩ := exists_readAt (t := regR11) hd (by simpa using hreads)
      exact (hpass.spared _ _ hread).2.1 rfl
  refine ⟨assignable_of_regs (fun m hm => ?_) hnodup (fun hx => ?_) fun m hm => ?_,
    fun m hm => ?_, fun m hm => ?_⟩
  · obtain ⟨r, hdst, -⟩ := hleft m hm
    rw [hdst]
    rfl
  · obtain ⟨m, hm, hk⟩ := List.mem_filterMap.mp hx
    obtain ⟨r, hdst, hkey, -⟩ := hleft m hm
    rw [hdst] at hk
    exact (key_ne_of_mem_argKeys hkey).2.2.2 (Option.some.inj hk)
  · obtain ⟨-, -, -, ⟨rd, hrd⟩, -⟩ := hleft m hm
    rw [hrd]
    rfl
  · obtain ⟨-, -, -, -, hfilled, -⟩ := hleft m hm
    exact hfilled
  · obtain ⟨-, -, -, -, -, hunscratched⟩ := hleft m hm
    exact hunscratched

/-- An argument that is left is assigned with the others. -/
theorem CallRun.carries_left
    (run : CallRun cx st st' args padded pushed loaded aimed moved moves f count rest)
    (assigned : Assigned items args) (hlocs : st.closure.locations = e.locs)
    (hplaces : e.Places st'.closure) (hitems : ∀ a ∈ items, Passable e cx s (argRoom args) a)
    (horder : Orderly e.locs moves) (hmem : ⟨.reg r, a, false⟩ ∈ args.moves)
    (hhere : needsTemp e.locs a = false) (hd : e.datum? s a = some d)
    (hpre : moved.out ++ count = st.out ++ pre) (hrun : LineRun e pre s s') :
    Carries s' r.place a.ty d := by
  obtain ⟨pushes, loads, aim, assign, hphases⟩ := run.exists_phases assigned hlocs
  obtain rfl : pre = (padding cx args ++ (pushes ++ (loads ++ aim))) ++ (assign ++ count) := by
    rw [hphases.moved_out, hphases.aimed_out, hphases.loaded_out, hphases.pushed_out,
      run.start] at hpre
    simpa using hpre.symm
  obtain ⟨s3, hrun1, hrun⟩ := lineRun_append hrun
  obtain ⟨s4, hrun2, hrun3⟩ := lineRun_append hrun
  have hearly := ((preliminary_argPadding args).append (hphases.pushes.append
    (hphases.loads.append hphases.aim))).disturbs s s3 hrun1
  have hroom : argPadding args + (8 * args.stack.length + (0 + 0)) = argRoom args := by
    rw [argRoom]
    omega
  rw [hroom, List.nil_append, List.nil_append, List.append_nil] at hearly
  obtain ⟨hitem, hkey, hwidth⟩ := assigned.mem_items hmem
  obtain ⟨hd3, hreach3, hfloat3, hfilled3⟩ :=
    run.left_unchanged assigned hlocs hplaces hearly hmem hhere (hitems a hitem) hd
  obtain ⟨hassignable, hfilled, hunscratched⟩ :=
    run.assignable assigned hlocs hplaces hearly hitems
  have hheld := holds_of_parallel run.assign hphases.aimed_locs hphases.moved_out
    hassignable hfilled hunscratched horder hrun2
  obtain ⟨lefts, rfl, -, hall⟩ := run.exists_lefts assigned hlocs hplaces
  obtain ⟨k, hk⟩ := mem_zipIdx_of_mem hmem
  obtain ⟨left, hleft, hhandled⟩ := exists_handled hall hk
  cases hhandled with
  | @left r' a' m move here left =>
    cases move
    obtain ⟨p, rd, hp, hrd, hget⟩ := hheld m (List.mem_filterMap.mpr ⟨_, hleft, rfl⟩)
    obtain ⟨rd', hrd', hvalue⟩ := left.reading hhere hd3 hreach3 hfilled3 hfloat3
    obtain rfl := Option.some.inj (hrd.symm.trans hrd')
    rw [left.dst] at hp
    obtain rfl : r.place = p := Option.some.inj hp
    intro n hn hw
    obtain ⟨hsource, hbits⟩ := hvalue n hn hw
    have hn8 := hn.trans (registerWidth_le_eight a.ty)
    have hle : n ≤ m.width := by
      rw [Move.width, left.dst, hwidth]
      exact Nat.le_min.mpr ⟨hn, hsource⟩
    have hspared : Spared [regRax.place] 0 s4 r.place n := by
      refine spared_of_argKey hkey fun hrax => ?_
      have hrax := (Reg.place_eq_iff r regRax).mp (List.mem_singleton.mp hrax)
      exact (key_ne_of_mem_argKeys hkey).2.1 hrax
    rw [(hphases.count.disturbs s4 s' hrun3).get hspared hn8, ← hbits]
    rw [← rd.setWidth_get s3 hle, ← hget]
    exact (Machine.setWidth_get s4 r.place _ n hle).symm
  | @loaded r' a' move needs unread =>
    cases move
    rw [hhere] at needs
    cases needs

/-- The register of an argument is none that other arguments go to. -/
theorem Assigned.not_mem_destPlaces (h : Assigned items args)
    (hmem : ⟨.reg r, a, false⟩ ∈ args.moves) {ms : List Move}
    (hms : ∀ n ∈ ms, ∃ m ∈ args.moves, n.dst = m.dst ∧ m ≠ ⟨.reg r, a, false⟩) :
    r.place ∉ destPlaces e.locs ms := by
  intro hp
  obtain ⟨n, hn, hplace⟩ := List.mem_filterMap.mp hp
  obtain ⟨m, hm, hdst, hne⟩ := hms n hn
  obtain ⟨_, b, _, t, -, -, rfl⟩ := h.moves m hm
  rw [hdst] at hplace
  have hsame := (Reg.place_eq_iff t r).mp (Option.some.inj hplace)
  have : Std.Symm fun m m' : Move =>
      ∀ r r', m.dst = .reg r → m'.dst = .reg r' → r.key ≠ r'.key :=
    ⟨fun _ _ hapart r r' hr hr' => (hapart r' r hr' hr).symm⟩
  exact h.apart.forall hm hmem hne t r rfl rfl hsame

/-- The other moves go to other registers, so none of them is the move of the argument. -/
theorem Assigned.others (h : Assigned items args) {front back : List Move}
    (hsplit : args.moves = front ++ ⟨.reg r, a, false⟩ :: back) :
    ∀ m ∈ front ++ back, m ∈ args.moves ∧ m ≠ ⟨.reg r, a, false⟩ := by
  intro m hm
  refine ⟨by rw [hsplit]; exact mem_of_others hm, ?_⟩
  rintro rfl
  have hapart := h.apart
  rw [hsplit] at hapart
  obtain ⟨-, hback, hfront⟩ := List.pairwise_append.mp hapart
  rcases List.mem_append.mp hm with hm | hm
  · exact hfront _ hm ⟨.reg r, a, false⟩ (by simp) r r rfl rfl rfl
  · exact (List.pairwise_cons.mp hback).1 _ hm r r rfl rfl rfl

/-- The simultaneous assignment does not go to the register of an argument that is loaded. -/
theorem CallRun.not_mem_moves
    (run : CallRun cx st st' args padded pushed loaded aimed moved moves f count rest)
    (assigned : Assigned items args) (hlocs : st.closure.locations = e.locs)
    (hplaces : e.Places st'.closure) (hmem : ⟨.reg r, a, false⟩ ∈ args.moves)
    (hneeds : needsTemp e.locs a = true) : r.place ∉ destPlaces e.locs moves := by
  obtain ⟨lefts, hmoves, -, hall⟩ := run.exists_lefts assigned hlocs hplaces
  refine assigned.not_mem_destPlaces (e := e) hmem fun n hn => ?_
  rw [hmoves] at hn
  obtain ⟨p, hp, hhandled⟩ := exists_argument hall hn
  cases hhandled with
  | @left t b _ move here left =>
    refine ⟨p.1, List.fst_mem_of_mem_zipIdx hp, by rw [left.dst, move], fun hsame => ?_⟩
    cases move.symm.trans hsame
    rw [here] at hneeds
    cases hneeds

/-- An argument that is loaded stays in its register. -/
theorem CallRun.carries_loaded
    (run : CallRun cx st st' args padded pushed loaded aimed moved moves f count rest)
    (assigned : Assigned items args) (hlocs : st.closure.locations = e.locs)
    (hplaces : e.Places st'.closure) (hmem : ⟨.reg r, a, false⟩ ∈ args.moves)
    (hneeds : needsTemp e.locs a = true) (htake : Takeable e cx s (argRoom args) a)
    (hd : e.datum? s a = some d) (hpre : moved.out ++ count = st.out ++ pre)
    (hrun : LineRun e pre s s') : Carries s' r.place a.ty d := by
  obtain ⟨pushes, loads, aim, assign, hphases⟩ := run.exists_phases assigned hlocs
  obtain ⟨lefts, -, hmap, hall⟩ := run.exists_lefts assigned hlocs hplaces
  obtain ⟨-, hkey, hwidth⟩ := assigned.mem_items hmem
  obtain ⟨front, back, hsplit⟩ := List.append_of_mem hmem
  have hzip : args.moves.zipIdx = front.zipIdx ++ (⟨.reg r, a, false⟩, front.length) ::
      back.zipIdx (front.length + 1) := by
    rw [hsplit, List.zipIdx_append, List.zipIdx_cons]
    simp
  have hplain := assigned.plain
  rw [hzip] at hmap hplain
  obtain ⟨t1, t2, lefts1, left, lefts2, h1, h2, h3, rfl⟩ := mapM_split hmap
  obtain ⟨hlocs1, -, code1, hcode1, hfirst, -⟩ := preliminary_directArgs
    (fun p hp => hplain p (by simp [hp])) hphases.pushed_locs h1
  obtain ⟨⟨code2, hcode2⟩, hlocs2, -⟩ := extends_directArg cx _ _ _ _ _ _ h2
  obtain ⟨-, -, code3, hcode3, hlast, -⟩ := preliminary_directArgs
    (fun p hp => hplain p (by simp [hp])) (hlocs2.trans hlocs1) h3
  rw [List.zipIdx_map_fst] at hfirst hlast
  have hplaces2 : e.Places t2.closure := fun key name h =>
    (run.places hplaces).2.1 key name ((extends_mapM
      (fun p : Move × Nat => extends_directArg cx args.moves p.2 p.1) _ _ _ h3).2.2 key name h)
  -- What is before the load, the load, and what follows up to the call.
  obtain rfl : pre = (padding cx args ++ (pushes ++ code1)) ++ (code2 ++
      (code3 ++ (aim ++ (assign ++ count)))) := by
    rw [hphases.moved_out, hphases.aimed_out, hcode3, hcode2, hcode1, hphases.pushed_out,
      run.start] at hpre
    simpa using hpre.symm
  obtain ⟨s1, hrun1, hrun⟩ := lineRun_append hrun
  obtain ⟨s2, hrun2, hrun3⟩ := lineRun_append hrun
  have hearly := ((preliminary_argPadding args).append
    (hphases.pushes.append hfirst)).disturbs s s1 hrun1
  have hroom : argPadding args + (8 * args.stack.length + 0) ≤ argRoom args := by
    rw [argRoom]
    omega
  have hindex : (⟨.reg r, a, false⟩, front.length) ∈ args.moves.zipIdx := by simp [hzip]
  have hother := assigned.others hsplit
  have hdests : ∀ p n, ReadAt e s a p n → p ∉ loadedRegs e.locs front := by
    refine fun p n hread => not_mem_loadedRegs hall hindex (fun m hm _ => ?_) hread
    obtain ⟨k, hk⟩ := mem_zipIdx_of_mem hm
    have hlt : k < front.length := (List.mem_zipIdx hk).2.1.trans_eq (Nat.zero_add _)
    exact ⟨k, by rw [hzip]; simp [hk], by omega⟩
  obtain ⟨hd1, hreach1, -⟩ := htake.of_disturbs hd hearly hroom (by simpa using hdests)
    (by simpa using mem_not_mem_loadedRegs _ _)
  have hloaded := carries_of_loaded h2 hcode2 hlocs1 hplaces2 hneeds hwidth hd1 hreach1 hrun2
  have hrest := (hlast.append (hphases.aim.append
    (hphases.assign.append hphases.count))).disturbs s2 s' hrun3
  have hback : r.place ∉ loadedRegs e.locs back := by
    refine assigned.not_mem_destPlaces (e := e) hmem fun n hn => ?_
    have hn := hother n (List.mem_append_right _ (List.mem_filter.mp hn).1)
    exact ⟨n, hn.1, rfl, hn.2⟩
  have hmoved := run.not_mem_moves assigned hlocs hplaces hmem hneeds
  intro n hn hw
  rw [← hloaded n hn hw]
  refine hrest.get (spared_of_argKey hkey ?_) (hn.trans (registerWidth_le_eight a.ty))
  obtain ⟨-, hrax, -, hxmm⟩ := key_ne_of_mem_argKeys hkey
  simp only [List.mem_append, List.mem_cons, List.not_mem_nil, or_false, false_or, not_or]
  exact ⟨hback, ⟨fun hp => hxmm ((Reg.place_eq_iff r regXmm13).mp hp), hmoved⟩,
    fun hp => hrax ((Reg.place_eq_iff r regRax).mp hp)⟩

end Run

/-! ## The places at the call -/

/-- The moves that a call leaves to the simultaneous assignment. -/
def leftMoves (cx : Context) (st : State) : List Move :=
  let args := argState cx.instr
  let handled := do
    each (pushArg cx) args.stack.reverse
    directArgs cx args.moves
  match handled { st with out := st.out ++ padding cx args } with
  | .ok (moves, _) => moves
  | .error _ => []

section Places

variable {e : Scene} {cx : Context} {st st' : State} {s s' : Machine.State}
  {padded pushed loaded aimed moved : State} {moves : List Move} {f : Operand}
  {count rest : List Instr} {a : Operand} {d : Datum} {place : ArgPlace} {pre : List Instr}

theorem CallRun.moves_eq (run : CallRun cx st st'
    (argState cx.instr) padded pushed loaded aimed moved moves f count rest) :
    moves = leftMoves cx st := by
  have hhandled : (do
      each (pushArg cx) (argState cx.instr).stack.reverse
      directArgs cx (argState cx.instr).moves) padded = .ok (moves, loaded) :=
    run_bind.mpr ⟨(), pushed, run.push, run.load⟩
  rw [run.start] at hhandled
  simp only [leftMoves, hhandled]

/-- Every argument is in its place at the call. -/
theorem CallRun.carries (run : CallRun cx st st'
    (argState cx.instr) padded pushed loaded aimed moved
      moves f count rest) (hlocs : st.closure.locations = e.locs) (hplaces : e.Places st'.closure)
    (hfew : (callArgs cx.instr).length < 2 ^ 59)
    (hitems : ∀ b ∈ callArgs cx.instr, Passable e cx s (argRoom (argState cx.instr)) b)
    (horder : ∀ r, place = .reg r → Orderly e.locs (leftMoves cx st)) {i : Nat}
    (ha : (callArgs cx.instr)[i]? = some a)
    (hplace : (argPlaces ((callArgs cx.instr).map Operand.ty))[i]? = some place)
    (hd : e.datum? s a = some d) (hpre : moved.out ++ count = st.out ++ pre)
    (hrun : LineRun e pre s s') : Carries s' (place.place (s'.regs Machine.rsp)) a.ty d := by
  have assigned : Assigned (callArgs cx.instr) (argState cx.instr) := assigned_foldl _
  rw [← run.moves_eq] at horder
  have hpass := hitems a (List.mem_of_getElem? ha)
  have hat := assigned.at_place ha hplace
  cases place with
  | reg r =>
    have hmem : ⟨.reg r, a, false⟩ ∈ (argState cx.instr).moves := hat
    cases hneeds : needsTemp e.locs a with
    | true =>
      exact run.carries_loaded assigned hlocs hplaces hmem hneeds hpass.toTakeable hd hpre hrun
    | false =>
      exact run.carries_left assigned hlocs hplaces hitems (horder r rfl) hmem hneeds hd hpre hrun
  | stack k =>
    exact run.carries_slot assigned hlocs hplaces ((length_stack_le _).trans_lt hfew) hat hd
      hpass.toTakeable hpre hrun

end Places

end Backend.Lowering
