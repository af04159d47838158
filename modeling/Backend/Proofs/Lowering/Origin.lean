-- Where lowered instructions come from: lowering adds no label and moves none into another closure,
-- and on its own it writes no register that a function has to preserve. It leaves the names of the
-- closure and its preserved registers alone.
import Backend.Proofs.Lowering.Emitted
import Backend.Proofs.Lowering.MoveLoop

namespace Backend.Lowering

/-! ## Instructions -/

/-- A register that a function has to preserve. -/
def isPreserved (r : Reg) : Bool := r.cls == .int && calleeSaved.contains r.index

/-- No preserved register is named as a place to write to. -/
def PlainOutput (output : Option Operand) : Prop :=
  ∀ r, (output = some (.reg r) ∨ ∃ items, output = some (.list items) ∧ .reg r ∈ items) →
    isPreserved r = false

/-- An instruction that lowering may leave for another: a label only for itself, and a preserved
register as a place to write to only if the other one had it too. -/
structure Origin (i j : Instr) : Prop where
  label : j.op = .label → j = i
  output : PlainOutput i.output → PlainOutput j.output

theorem Origin.refl (i : Instr) : Origin i i := ⟨fun _ => rfl, id⟩

theorem plainOutput_none : PlainOutput none := by
  rintro r (h | ⟨items, h, -⟩) <;> cases h

theorem plainOutput_reg {r : Reg} (h : isPreserved r = false) : PlainOutput (some (.reg r)) := by
  rintro s (hs | ⟨items, hs, -⟩)
  · cases hs
    exact h
  · cases hs

theorem plainOutput_other {o : Operand} (hreg : ∀ r, o ≠ .reg r)
    (hlist : ∀ items, o ≠ .list items) :
    PlainOutput (some o) := by
  rintro r (h | ⟨items, h, -⟩)
  · exact absurd (Option.some.inj h) (hreg r)
  · exact absurd (Option.some.inj h) (hlist items)

theorem plainOutput_stack (offset : Int64) (t : Ty) : PlainOutput (some (.stack offset t)) :=
  plainOutput_other (fun _ h => by cases h) fun _ h => by cases h

theorem plainOutput_indirect (base index : Option Operand) (scale : UInt8) (disp : Int64) (t : Ty) :
    PlainOutput (some (.indirect base index scale disp t)) :=
  plainOutput_other (fun _ h => by cases h) fun _ h => by cases h

theorem plainOutput_symbol (s : Symbol) : PlainOutput (some (.symbol s)) :=
  plainOutput_other (fun _ h => by cases h) fun _ h => by cases h

theorem plainOutput_var (v : Var) : PlainOutput (some (.var v)) :=
  plainOutput_other (fun _ h => by cases h) fun _ h => by cases h

theorem plainOutput_list (regs : List Reg) (h : ∀ r ∈ regs, isPreserved r = false) :
    PlainOutput (some (.list (regs.map .reg))) := by
  rintro r (hr | ⟨items, hr, hmem⟩)
  · cases hr
  · cases hr
    obtain ⟨s, hs, heq⟩ := List.mem_map.mp hmem
    cases heq
    exact h _ hs

theorem not_preserved_gpr {id : Machine.RegId} (h : calleeSaved.contains id = false) (width : Nat) :
    isPreserved (gpr id width) = false := by
  rw [isPreserved, gpr, h, Bool.and_false]

theorem not_preserved_xmm (id : Machine.RegId) (width : Nat) : isPreserved (xmm id width) = false :=
  rfl

theorem not_preserved_regFor {id : Machine.RegId} (h : calleeSaved.contains id = false) (t : Ty) :
    isPreserved (regFor id t) = false := by
  unfold regFor
  split
  · exact not_preserved_xmm id _
  · exact not_preserved_gpr h _

theorem not_preserved_tempReg (t : Ty) : isPreserved (tempReg t) = false :=
  not_preserved_gpr (by decide) _

/-- Arguments are passed in registers that need not be preserved. -/
theorem not_preserved_next {a a' : ArgCount} {t : Ty} {r : Reg} (h : a.next t = (some r, a')) :
    isPreserved r = false := by
  unfold ArgCount.next at h
  split at h
  · split at h
    · cases h
      rename_i hfloat _ _ _
      simp only [regFor, hfloat, if_true]
      exact not_preserved_xmm _ _
    · cases h
  · split at h
    · rename_i id hid
      cases h
      refine not_preserved_regFor ?_ t
      have hall : intArgRegs.all (fun id => !calleeSaved.contains id) = true := by decide
      simpa using List.all_eq_true.1 hall id (List.mem_of_getElem? hid)
    · cases h

/-! ## Closures -/

/-- What lowering instructions leaves of a closure: its names and preserved registers, and the
variables that live in preserved registers. -/
structure Static (c c' : Closure) : Prop where
  name : c'.name = c.name
  symbol : c'.symbol = c.symbol
  isGlobal : c'.isGlobal = c.isGlobal
  saved : c'.saved = c.saved
  frame : c'.frame = c.frame
  homes : ∀ ident r, c'.locations.reg? ident = some r →
    c.locations.reg? ident = some r ∨ isPreserved r = false

theorem Static.refl (c : Closure) : Static c c := ⟨rfl, rfl, rfl, rfl, rfl, fun _ _ h => .inl h⟩

theorem Static.trans {c c' c'' : Closure} (h : Static c c') (h' : Static c' c'') :
    Static c c'' where
  name := h'.name.trans h.name
  symbol := h'.symbol.trans h.symbol
  isGlobal := h'.isGlobal.trans h.isGlobal
  saved := h'.saved.trans h.saved
  frame := h'.frame.trans h.frame
  homes ident r hr := (h'.homes ident r hr).elim (h.homes ident r) .inr

theorem static_materialize (c : Closure) (l : Literal) : Static c (c.materialize l).2 := by
  unfold Closure.materialize
  dsimp only
  split
  · exact .refl c
  · exact ⟨rfl, rfl, rfl, rfl, rfl, fun _ _ h => .inl h⟩

/-- While instructions are lowered, the closure stays what it was, every lowered instruction comes
from one of them, and what was there before stays in front. -/
structure Tracked (c : Closure) (start ops : List Instr) (s : State) : Prop where
  static : Static c s.closure
  origin : ∀ j ∈ s.out, ∃ i ∈ ops, Origin i j
  starts : start <+: s.out

variable {c : Closure} {start ops : List Instr} {cx : Context}

/-! ## Single steps -/

theorem tracked_keep {j : Instr} (hcx : cx.instr ∈ ops) (h : Origin cx.instr j) :
    Maintains (Tracked c start ops) (keep j) fun _ => True := by
  refine maintains_modify fun s hs =>
    ⟨hs.static, fun k hk => ?_, hs.starts.trans (List.prefix_append _ _)⟩
  rcases List.mem_append.mp hk with hk | hk
  · exact hs.origin k hk
  · cases List.mem_singleton.mp hk
    exact ⟨cx.instr, hcx, h⟩

theorem tracked_emit (hcx : cx.instr ∈ ops) {op : Opcode} (hop : op ≠ .label)
    (first second : Option Operand) {output : Option Operand} (houtput : PlainOutput output) :
    Maintains (Tracked c start ops) (emit cx op first second output) fun _ => True :=
  tracked_keep hcx ⟨fun h => absurd h hop, fun _ => houtput⟩

/-- An instruction whose output is a register that need not be preserved. -/
theorem tracked_emit_reg (hcx : cx.instr ∈ ops) {op : Opcode} (hop : op ≠ .label)
    (first second : Option Operand) {r : Reg} (hr : isPreserved r = false) :
    Maintains (Tracked c start ops) (emit cx op first second (some (.reg r))) fun _ => True :=
  tracked_emit hcx hop first second (plainOutput_reg hr)

theorem tracked_materialize (l : Literal) :
    Maintains (Tracked c start ops) (materialize l) fun _ => True := by
  unfold materialize
  intro s a s' hs h
  cases hs
  exact ⟨⟨h.static.trans (static_materialize s.closure l), h.origin, h.starts⟩, trivial⟩

/-! ## Drafts -/

/-- A draft that may be kept: it is no label, and it names no preserved register as its output that
the instruction does not name. -/
structure Draft.From (i : Instr) (d : Draft) : Prop where
  op : d.instr.op ≠ .label
  output : PlainOutput i.output → PlainOutput d.instr.output

theorem Draft.From.put {i : Instr} {d : Draft} (h : d.From i) (slot : Slot) {o : Operand}
    (ho : PlainOutput (some o)) : (d.put slot o).From i := by
  refine ⟨?_, ?_⟩
  · cases slot <;> exact h.op
  · cases slot with
    | output => exact fun _ => ho
    | _ => exact h.output

theorem Draft.From.hold {i : Instr} {d : Draft} (h : d.From i) (holder : Option Slot)
    (spilled : Nat) : Draft.From i { d with holder := holder, spilled := spilled } :=
  ⟨h.op, h.output⟩

theorem Draft.From.of {i j : Instr} (hop : j.op ≠ .label) (houtput : j.output = i.output) :
    (Draft.of j).From i := ⟨hop, fun h => by rwa [Draft.of, houtput]⟩

theorem tracked_keep_draft (hcx : cx.instr ∈ ops) {d : Draft} (h : d.From cx.instr) :
    Maintains (Tracked c start ops) (keep d.instr) fun _ => True :=
  tracked_keep hcx ⟨fun hl => absurd hl h.op, h.output⟩

theorem tracked_spill (hcx : cx.instr ∈ ops) {d : Draft} (h : d.From cx.instr) :
    Maintains (Tracked c start ops) (spill cx d) (Draft.From cx.instr) := by
  unfold spill
  split
  · exact maintains_pure h
  split
  · exact maintains_pure (h.hold _ _)
  split
  · exact maintains_fail cx _
  split
  · exact maintains_fail cx _
  · refine maintains_bind (tracked_emit hcx (by decide) _ _ (plainOutput_stack _ _)) fun _ _ => ?_
    exact maintains_pure ((h.put _ (plainOutput_stack _ _)).hold _ _)

theorem tracked_reserveTemp (hcx : cx.instr ∈ ops) (slot : Slot) {d : Draft}
    (h : d.From cx.instr) :
    Maintains (Tracked c start ops) (reserveTemp cx slot d) (Draft.From cx.instr) := by
  have hself : Maintains (Tracked c start ops) (pure { d with holder := some slot })
      (Draft.From cx.instr) := maintains_pure (h.hold _ _)
  unfold reserveTemp
  split
  · split
    · exact hself
    · exact maintains_bind (tracked_spill hcx h) fun d' h' => maintains_pure (h'.hold _ _)
  · exact hself

theorem tracked_intoTemp (hcx : cx.instr ∈ ops) (slot : Slot) {d : Draft} (h : d.From cx.instr) :
    Maintains (Tracked c start ops) (intoTemp cx slot d) (Draft.From cx.instr) := by
  unfold intoTemp
  refine maintains_bind (tracked_reserveTemp hcx slot h) fun d' h' => ?_
  have htemp := not_preserved_tempReg (d.typeAt slot)
  refine maintains_bind (tracked_emit_reg hcx (by decide) _ _ htemp) fun _ _ => ?_
  exact maintains_pure (h'.put slot (plainOutput_reg htemp))

theorem tracked_address (hcx : cx.instr ∈ ops) (slot : Slot) (base index : Option Operand)
    (scale : UInt8) (disp : Int64) (t : Ty) {d : Draft} (h : d.From cx.instr) :
    Maintains (Tracked c start ops) (address cx slot base index scale disp t d)
      (Draft.From cx.instr) := by
  refine address_lines_rule (R := fun m => Maintains (Tracked c start ops) m (Draft.From cx.instr))
    (fun e _ => maintains_fail cx e)
    (fun o _ h => maintains_bind (maintains_inRegister cx o) fun ok _ => h ok)
    (fun _ hf => maintains_bind (tracked_reserveTemp hcx slot h) hf) (fun i hi _ h => ?_)
    (fun b x f k _ => maintains_pure (h.put slot (plainOutput_indirect b x f k t)))
    fun d1 b x f k h1 => maintains_pure (h1.put slot (plainOutput_indirect b x f k t))
  obtain ⟨hop, -⟩ := hi
  refine maintains_bind (tracked_emit_reg hcx ?_ _ _ (not_preserved_tempReg .i64)) fun _ _ => h
  rcases hop with rfl | rfl | rfl | rfl <;> decide

theorem tracked_source (hcx : cx.instr ∈ ops) (slot : Slot) (narrow : Bool) {d : Draft}
    (h : d.From cx.instr) :
    Maintains (Tracked c start ops) (source cx slot narrow d) (Draft.From cx.instr) := by
  unfold source
  split
  · exact maintains_bind (maintains_locate cx _) fun _ _ => maintains_pure h
  · split
    · refine maintains_bind (tracked_materialize _) fun symbol _ => ?_
      exact maintains_pure (h.put slot (plainOutput_symbol symbol))
    · refine maintains_bind (tracked_materialize _) fun symbol _ => ?_
      refine maintains_bind (tracked_reserveTemp hcx slot h) fun d' h' => ?_
      have htemp := not_preserved_tempReg .str
      refine maintains_bind (tracked_emit_reg hcx (by decide) _ _ htemp) fun _ _ => ?_
      exact maintains_pure (h'.put slot (plainOutput_reg htemp))
    · split
      · exact tracked_intoTemp hcx slot h
      · exact maintains_pure h
    · exact maintains_pure h
  · exact tracked_address hcx slot _ _ _ _ _ h
  · exact maintains_pure h

theorem tracked_dest (hcx : cx.instr ∈ ops) (slot : Slot) {d : Draft} (h : d.From cx.instr) :
    Maintains (Tracked c start ops) (dest cx slot d) (Draft.From cx.instr) := by
  unfold dest
  split
  · exact maintains_bind (maintains_locate cx _) fun _ _ => maintains_pure h
  · split
    · exact maintains_fail cx _
    · exact maintains_pure h
  · exact tracked_address hcx slot _ _ _ _ _ h
  · exact maintains_fail cx _
  · exact maintains_pure h

theorem tracked_store (hcx : cx.instr ∈ ops) (value : Reg) {output : Option Operand}
    (h : PlainOutput cx.instr.output → PlainOutput output) :
    Maintains (Tracked c start ops) (store cx value output) fun _ => True := by
  unfold store
  refine maintains_bind (tracked_dest hcx .output ⟨(fun h => by cases h), h⟩) fun d hd => ?_
  exact tracked_keep_draft hcx hd

/-! ## Instructions -/

theorem tracked_intImmediateIntoTemp (hcx : cx.instr ∈ ops) (slot : Slot) {d : Draft}
    (h : d.From cx.instr) :
    Maintains (Tracked c start ops) (intImmediateIntoTemp cx slot d) (Draft.From cx.instr) := by
  unfold intImmediateIntoTemp
  split
  · split
    · exact tracked_intoTemp hcx slot h
    · exact maintains_pure h
  · exact maintains_pure h

theorem tracked_generic (hcx : cx.instr ∈ ops) {i : Instr} (hop : i.op ≠ .label)
    (houtput : i.output = cx.instr.output) :
    Maintains (Tracked c start ops) (generic cx i) fun _ => True := by
  unfold generic
  refine maintains_bind (tracked_source hcx _ _ (.of hop houtput)) fun d1 h1 => ?_
  refine maintains_bind (tracked_source hcx _ _ h1) fun d2 h2 => ?_
  refine maintains_bind (tracked_source hcx _ _ h2) fun d3 h3 => ?_
  have hlast {d : Draft} (h : d.From cx.instr) :
      Maintains (Tracked c start ops) (do keep (← dest cx .output d).instr) fun _ => True :=
    maintains_bind (tracked_dest hcx .output h) fun _ h' => tracked_keep_draft hcx h'
  refine maintains_bind maintains_get fun st _ => ?_
  split
  · exact maintains_bind (tracked_intImmediateIntoTemp hcx _ h3) fun _ h4 => hlast h4
  split
  · exact maintains_bind (tracked_intoTemp hcx _ h3) fun _ h4 => hlast h4
  · exact hlast h3

theorem tracked_move (hcx : cx.instr ∈ ops) {i : Instr} (hop : i.op = .move)
    (houtput : PlainOutput cx.instr.output → PlainOutput i.output) :
    Maintains (Tracked c start ops) (move cx i) fun _ => True := by
  have hself : (Draft.of i).From cx.instr := ⟨by simp [Draft.of, hop], houtput⟩
  have hlast {d : Draft} (h : d.From cx.instr) : Maintains (Tracked c start ops) (do
      let d ← source cx .first false d
      let d ← dest cx .output d
      keep d.instr) fun _ => True := by
    refine maintains_bind (tracked_source hcx _ _ h) fun d1 h1 => ?_
    exact maintains_bind (tracked_dest hcx _ h1) fun d2 h2 => tracked_keep_draft hcx h2
  have hload : Maintains (Tracked c start ops) (do
      let d ← intoTemp cx .first (.of i)
      let d ← source cx .first false d
      let d ← dest cx .output d
      keep d.instr) fun _ => True :=
    maintains_bind (tracked_intoTemp hcx _ hself) fun d hd => hlast hd
  unfold move
  dsimp only
  split
  · split
    · refine maintains_bind (tracked_materialize _) fun symbol _ => ?_
      rw [pure_bind]
      exact hlast ⟨(fun h => by cases h), houtput⟩
    · split
      · exact hlast hself
      · split
        · refine maintains_bind (maintains_inRegister cx _) fun direct _ => ?_
          split
          · exact hlast hself
          · exact hload
        · exact hload
    · exact hlast hself
  · exact hlast hself

theorem swapped_ne_label {op : Opcode} (h : op ≠ .label) : op.swapped ≠ .label := by
  cases op <;> first | exact absurd rfl h | exact fun h => by cases h

theorem tracked_compare (hcx : cx.instr ∈ ops) (hop : cx.instr.op ≠ .label) :
    Maintains (Tracked c start ops) (compare cx cx.instr) fun _ => True := by
  have hfrom : (Draft.of (literalSecond cx.instr)).From cx.instr := by
    unfold literalSecond
    split
    · exact ⟨swapped_ne_label hop, id⟩
    · exact ⟨hop, id⟩
  unfold compare
  refine maintains_bind (tracked_source hcx _ _ hfrom) fun d1 h1 => ?_
  refine maintains_bind (tracked_source hcx _ _ h1) fun d2 h2 => ?_
  refine maintains_bind (tracked_intImmediateIntoTemp hcx _ h2) fun d3 h3 => ?_
  split
  · exact maintains_bind (tracked_dest hcx _ h3) fun d4 h4 => tracked_keep_draft hcx h4
  · exact tracked_keep_draft hcx h3

theorem tracked_ret (hcx : cx.instr ∈ ops) (i : Instr) :
    Maintains (Tracked c start ops) (ret cx i) fun _ => True := by
  unfold ret
  split
  · exact tracked_emit hcx (by decide) _ _ plainOutput_none
  · refine maintains_bind (tracked_move hcx rfl fun _ => ?_) fun _ _ =>
      tracked_emit hcx (by decide) _ _ plainOutput_none
    exact plainOutput_reg (not_preserved_regFor (by decide) _)

theorem tracked_divide (hcx : cx.instr ∈ ops) (hop : cx.instr.op ≠ .label) :
    Maintains (Tracked c start ops) (divide cx cx.instr) fun _ => True := by
  have hfixed {id : Machine.RegId} {op : Opcode} (w : Nat) (hid : calleeSaved.contains id = false)
      (h : op ≠ .label) (a b : Option Operand) :
      Maintains (Tracked c start ops) (emit cx op a b (some (.reg (gpr id w)))) fun _ => True :=
    tracked_emit_reg hcx h a b (not_preserved_gpr hid w)
  unfold divide
  refine maintains_bind (tracked_source hcx _ _ (.of hop rfl)) fun d1 h1 => ?_
  refine maintains_bind (tracked_source hcx _ _ h1) fun d2 h2 => ?_
  refine maintains_join (tracked_spill hcx h2) (maintains_pure h2) fun d3 h3 => ?_
  refine maintains_bind maintains_get fun st _ => ?_
  have hrestored : ∀ r ∈ ([regRax, regRdx].filter st.closure.locations.occupies).reverse,
      isPreserved r = false := by
    intro r hr
    have hmem : r ∈ [regRax, regRdx] := (List.mem_filter.mp (List.mem_reverse.mp hr)).1
    simp only [List.mem_cons, List.not_mem_nil, or_false] at hmem
    rcases hmem with rfl | rfl <;> exact not_preserved_gpr (by decide) _
  refine maintains_bind (maintains_each fun r _ =>
    tracked_emit hcx (by decide) _ _ plainOutput_none) fun _ _ => ?_
  refine maintains_bind (hfixed _ (by decide) (by decide) _ _) fun _ _ => ?_
  refine maintains_bind (hfixed _ (by decide) (by decide) _ _) fun _ _ => ?_
  refine maintains_bind (tracked_emit hcx hop _ _ ?_) fun _ _ => ?_
  · refine plainOutput_list [_, _] fun r hr => ?_
    simp only [List.mem_cons, List.not_mem_nil, or_false] at hr
    rcases hr with rfl | rfl <;> exact not_preserved_gpr (by decide) _
  have hpops : Maintains (Tracked c start ops)
      (forIn ([regRax, regRdx].filter st.closure.locations.occupies).reverse PUnit.unit
        fun r _ => do
        emit cx .pop none none (some (.reg r))
        pure (ForInStep.yield PUnit.unit)) fun _ => True :=
    maintains_each fun r hr => tracked_emit_reg hcx (by decide) _ _ (hrestored r hr)
  cases hout : d3.instr.output with
  | none =>
    dsimp only
    split
    · refine maintains_when (fun _ => hfixed _ (by decide) (by decide) _ _) ?_
      exact maintains_bind hpops fun _ _ => maintains_pure trivial
    · exact maintains_pure trivial
  | some o =>
    have hstore (r : Reg) : Maintains (Tracked c start ops) (store cx r (some o)) fun _ => True :=
      tracked_store hcx r fun h => hout ▸ h3.output h
    dsimp only
    split
    · refine maintains_when (fun _ => hfixed _ (by decide) (by decide) _ _) ?_
      exact maintains_bind hpops fun _ _ => hstore _
    · exact hstore _

theorem tracked_shift (hcx : cx.instr ∈ ops) (hop : cx.instr.op ≠ .label) :
    Maintains (Tracked c start ops) (shift cx cx.instr) fun _ => True := by
  unfold shift
  split
  · exact tracked_generic hcx hop rfl
  · refine maintains_bind (tracked_source hcx _ _ (.of hop rfl)) fun d1 h1 => ?_
    refine maintains_bind (tracked_source hcx _ _ h1) fun d2 h2 => ?_
    have hcl : isPreserved (gpr Machine.rcx 1) = false := not_preserved_gpr (by decide) _
    have hcount : isPreserved (regFor Machine.rcx (d2.typeAt .second)) = false :=
      not_preserved_regFor (by decide) _
    refine maintains_bind maintains_get fun st _ => ?_
    split
    · refine maintains_bind (tracked_dest hcx _ h2) fun d3 h3 => ?_
      refine maintains_bind (tracked_emit_reg hcx (by decide) _ _ hcount) fun _ _ => ?_
      exact tracked_keep_draft hcx (h3.put .second (plainOutput_reg hcl))
    · refine maintains_join (tracked_spill hcx h2) (maintains_pure h2) fun d3 h3 => ?_
      have htemp := not_preserved_tempReg (opType cx.instr)
      refine maintains_bind (tracked_emit_reg hcx (by decide) _ _ htemp) fun _ _ => ?_
      refine maintains_bind (tracked_emit hcx (by decide) _ _ plainOutput_none) fun _ _ => ?_
      refine maintains_bind (tracked_emit_reg hcx (by decide) _ _ hcount) fun _ _ => ?_
      refine maintains_bind (tracked_emit_reg hcx hop _ _ htemp) fun _ _ => ?_
      refine maintains_bind (tracked_emit_reg hcx (by decide) _ _
        (not_preserved_gpr (by decide) _)) fun _ _ => ?_
      exact tracked_store hcx _ h3.output

/-! ## Calls -/

/-- The destination of every move is no preserved register. -/
def PlainMoves (moves : List Move) : Prop := ∀ m ∈ moves, PlainOutput (some m.dst)

theorem plainMoves_nil : PlainMoves [] := fun m hm => by cases hm

theorem PlainMoves.concat {moves : List Move} (h : PlainMoves moves) {m : Move}
    (hm : PlainOutput (some m.dst)) : PlainMoves (moves ++ [m]) := by
  intro k hk
  rcases List.mem_append.mp hk with hk | hk
  · exact h k hk
  · cases List.mem_singleton.mp hk
    exact hm

theorem tracked_move_emit (hcx : cx.instr ∈ ops) {m : Move} (h : PlainOutput (some m.dst)) :
    Maintains (Tracked c start ops) (m.emit cx) fun _ => True := by
  unfold Move.emit
  refine tracked_emit hcx ?_ _ _ h
  split <;> decide

theorem tracked_parallelUpTo (hcx : cx.instr ∈ ops) (locs : Locations) (n : Nat)
    {moves : List Move} (h : PlainMoves moves) :
    Maintains (Tracked c start ops) (parallelUpTo cx locs n moves) fun _ => True := by
  induction n generalizing moves with
  | zero =>
    unfold parallelUpTo
    split
    · exact maintains_pure trivial
    · exact maintains_fail cx _
    · contradiction
  | succ n ih =>
    -- a ready move and the others, before and after a cycle is broken
    have hnext {pending before after : List Move} {m : Move} (hp : PlainMoves pending)
        (hsplit : splitReady locs [] pending = some (before, m, after)) :
        Maintains (Tracked c start ops) (do m.emit cx; parallelUpTo cx locs n (before ++ after))
          fun _ => True := by
      have he : pending = before ++ m :: after := (splitReady_some hsplit).1
      subst he
      exact maintains_bind (tracked_move_emit hcx (hp m (by simp))) fun _ _ =>
        ih fun m' hm' => hp m' (mem_of_others hm')
    unfold parallelUpTo
    split
    · exact maintains_pure trivial
    split
    · rename_i hsplit
      exact hnext h hsplit
    split
    · exact maintains_fail cx _
    · rename_i key pending hbreak
      have hpending : PlainMoves pending := by
        obtain ⟨b, m, a, he, -, -, rfl⟩ := breakCycle?_some hbreak
        have he : moves = b ++ m :: a := he
        subst he
        intro m' hm'
        rcases mem_redirected hm' with rfl | ⟨m'', hm'', rfl⟩
        · exact h m' (by simp)
        · rw [redirect_dst]
          exact h m'' (mem_of_others hm'')
      refine maintains_bind (tracked_emit_reg hcx (by decide) _ _ (not_preserved_xmm 13 8))
        fun _ _ => ?_
      split
      · rename_i hsplit
        exact hnext hpending hsplit
      · exact maintains_fail cx _

theorem tracked_parallel (hcx : cx.instr ∈ ops) {moves : List Move} (h : PlainMoves moves) :
    Maintains (Tracked c start ops) (parallel cx moves) fun _ => True := by
  unfold parallel
  refine maintains_bind maintains_get fun st _ => ?_
  exact tracked_parallelUpTo hcx _ _ fun m hm => h m (List.mem_filter.mp hm).1

theorem tracked_adjustStack (hcx : cx.instr ∈ ops) {op : Opcode} (hop : op ≠ .label)
    (bytes : Int64) : Maintains (Tracked c start ops) (adjustStack cx op bytes) fun _ => True :=
  tracked_emit_reg hcx hop _ _ (not_preserved_gpr (by decide) _)

/-- A parameter gets a home that is no preserved register. -/
theorem static_home {c : Closure} {ident : String} {home : Location}
    (h : ∀ r, home.reg = some r → isPreserved r = false) :
    Static c { c with locations := assocInsert ident home c.locations } := by
  refine ⟨rfl, rfl, rfl, rfl, rfl, fun other r hr => ?_⟩
  dsimp only [Locations.reg?] at hr
  by_cases ho : other = ident
  · subst ho
    rw [lookup_assocInsert_self] at hr
    exact .inr (h r hr)
  · rw [lookup_assocInsert_ne ho] at hr
    exact .inl hr

theorem tracked_takeParam {st : ParamState} (h : PlainMoves st.moves) (item : Operand) :
    Maintains (Tracked c start ops) (takeParam cx st item) fun st' => PlainMoves st'.moves := by
  unfold takeParam
  split
  · rename_i p
    dsimp only
    refine maintains_bind maintains_get fun s _ => ?_
    split
    · refine maintains_bind (maintains_modify fun s hs => ?_) fun _ _ => maintains_pure h
      refine ⟨hs.static.trans (static_home fun r hr => ?_), hs.origin, hs.starts⟩
      cases hnext : st.args.next p.ty with
      | mk reg args =>
        rw [hnext] at hr
        cases reg with
        | none => cases hr
        | some r' =>
          cases hr
          exact not_preserved_next hnext
    · exact maintains_pure (h.concat (plainOutput_var p))
  · exact maintains_fail cx _

/-- Taking the parameters of a function. -/
theorem tracked_takeParams (hcx : cx.instr ∈ ops) (items : List Operand) :
    Maintains (Tracked c start ops) (do
      let st ← items.foldlM (takeParam cx) ⟨⟨0, 0⟩, 0, []⟩
      parallel cx st.moves) fun _ => True :=
  maintains_bind (maintains_foldlM (fun item _ _ hst => tracked_takeParam hst item) plainMoves_nil)
    fun _ hst => tracked_parallel hcx hst

theorem tracked_prologue (hcx : cx.instr ∈ ops) :
    Maintains (Tracked c start ops) (prologue cx) fun _ => True := by
  unfold prologue
  refine maintains_bind maintains_get fun st _ => ?_
  refine maintains_bind (tracked_keep hcx (.refl _)) fun _ _ => ?_
  refine maintains_bind (tracked_emit hcx (by decide) _ _ plainOutput_none) fun _ _ => ?_
  refine maintains_bind (tracked_emit_reg hcx (by decide) _ _ (not_preserved_gpr (by decide) _))
    fun _ _ => ?_
  refine maintains_when (fun _ => tracked_adjustStack hcx (by decide) _) ?_
  refine maintains_bind (maintains_each fun s _ =>
    tracked_emit hcx (by decide) _ _ (plainOutput_stack _ _)) fun _ _ => ?_
  split
  · exact tracked_takeParams hcx _
  · exact maintains_pure trivial

theorem tracked_pushArg (hcx : cx.instr ∈ ops) (o : Operand) :
    Maintains (Tracked c start ops) (pushArg cx o) fun _ => True := by
  have hpush : Maintains (Tracked c start ops) (hasPush cx o) fun _ => True := by
    unfold hasPush
    split
    · exact maintains_pure trivial
    · exact maintains_pure trivial
    · exact maintains_bind (maintains_locate cx _) fun _ _ => maintains_pure trivial
    · exact maintains_pure trivial
    · exact maintains_pure trivial
  unfold pushArg
  refine maintains_bind hpush fun push _ => ?_
  split
  · exact tracked_emit hcx (by decide) _ _ plainOutput_none
  · refine maintains_bind (tracked_source hcx _ _ ⟨(fun h => by cases h),
      fun _ => plainOutput_none⟩) fun d _ => ?_
    refine maintains_when (fun _ => tracked_emit_reg hcx (by decide) _ _
      (not_preserved_tempReg _)) ?_
    exact tracked_emit hcx (by decide) _ _ plainOutput_none

theorem tracked_directArg (hcx : cx.instr ∈ ops) (moves : List Move) (index : Nat) {m : Move}
    (h : PlainOutput (some m.dst)) :
    Maintains (Tracked c start ops) (directArg cx moves index m) fun left =>
      ∀ m', left = some m' → PlainOutput (some m'.dst) := by
  have hself : ∀ m' : Move, m'.dst = m.dst → ∀ n, some m' = some n → PlainOutput (some n.dst) := by
    rintro m' hm' n hn
    cases hn
    rwa [hm']
  unfold directArg
  split
  · split
    · exact maintains_bind (tracked_materialize _) fun _ _ => maintains_pure (hself _ rfl)
    · exact maintains_bind (tracked_materialize _) fun _ _ => maintains_pure (hself _ rfl)
    · exact maintains_pure (hself _ rfl)
  · exact maintains_bind (maintains_locate cx _) fun _ _ => maintains_pure (hself _ rfl)
  · refine maintains_bind (tracked_address hcx _ _ _ _ _ _
      ⟨(fun h => by cases h), fun _ => plainOutput_none⟩) fun d _ => ?_
    split
    · exact maintains_pure (hself _ rfl)
    refine maintains_bind maintains_get fun st _ => ?_
    dsimp only
    split
    · exact maintains_fail cx _
    · exact maintains_bind (tracked_emit hcx (by decide) _ _ h) fun _ _ =>
        maintains_pure fun m' hm' => by cases hm'
  · exact maintains_pure (hself _ rfl)

theorem tracked_directArgs (hcx : cx.instr ∈ ops) {moves : List Move} (h : PlainMoves moves) :
    Maintains (Tracked c start ops) (directArgs cx moves) PlainMoves := by
  refine maintains_bind (maintains_mapM
    (R := fun left => ∀ m', left = some m' → PlainOutput (some m'.dst)) fun p hp => ?_)
    fun left hleft => maintains_pure fun m hm => ?_
  · exact tracked_directArg hcx _ _ (h p.1 (List.fst_mem_of_mem_zipIdx hp))
  · obtain ⟨m', hm', hid⟩ := List.mem_filterMap.mp hm
    exact hleft m' hm' m hid

theorem tracked_callee (hcx : cx.instr ∈ ops) :
    Maintains (Tracked c start ops) (callee cx) fun _ => True := by
  unfold callee
  split
  · exact maintains_fail cx _
  · exact maintains_pure trivial
  · refine maintains_bind (tracked_source hcx _ _ ⟨(fun h => by cases h),
      fun _ => plainOutput_none⟩) fun d _ => ?_
    exact maintains_bind (tracked_emit_reg hcx (by decide) _ _ (not_preserved_gpr (by decide) _))
      fun _ _ => maintains_pure trivial

theorem tracked_countFloats (hcx : cx.instr ∈ ops) (n : Nat) :
    Maintains (Tracked c start ops) (countFloats cx n) fun _ => True := by
  unfold countFloats
  split
  · exact tracked_emit_reg hcx (by decide) _ _ (not_preserved_gpr (by decide) _)
  · exact tracked_emit_reg hcx (by decide) _ _ (not_preserved_gpr (by decide) _)

theorem plainMoves_args (args : List Operand) {st : ArgState} (h : PlainMoves st.moves) :
    PlainMoves (args.foldl assignArg st).moves := by
  induction args generalizing st with
  | nil => exact h
  | cons a rest ih =>
    refine ih ?_
    unfold assignArg
    split
    · rename_i hnext
      exact h.concat (plainOutput_reg (not_preserved_next hnext))
    · exact h

theorem tracked_call (hcx : cx.instr ∈ ops) (hop : cx.instr.op ≠ .label) :
    Maintains (Tracked c start ops) (call cx) fun _ => True := by
  have hresult (t : Ty) : isPreserved (returnReg t) = false := not_preserved_regFor (by decide) t
  unfold call
  dsimp only
  refine maintains_when (fun _ => tracked_adjustStack hcx (by decide) _) ?_
  refine maintains_bind (maintains_each fun a _ => tracked_pushArg hcx a) fun _ _ => ?_
  refine maintains_bind (tracked_directArgs hcx (plainMoves_args _ plainMoves_nil))
    fun moves hmoves => ?_
  refine maintains_bind (tracked_callee hcx) fun f _ => ?_
  refine maintains_bind (tracked_parallel hcx hmoves) fun _ _ => ?_
  refine maintains_when (fun _ => tracked_countFloats hcx _) ?_
  refine maintains_bind (tracked_emit hcx hop _ _ ?_) fun _ _ => ?_
  · cases cx.instr.output with
    | none => exact plainOutput_none
    | some o =>
      refine plainOutput_list [returnReg o.ty] fun r hr => ?_
      cases List.mem_singleton.mp hr
      exact hresult o.ty
  refine maintains_when (fun _ => tracked_adjustStack hcx (by decide) _) ?_
  split
  · exact tracked_store hcx _ id
  · exact maintains_pure trivial

/-! ## Instructions and closures -/

/-- Lowering one instruction leaves instructions that come from it. -/
theorem tracked_instr (hcx : cx.instr ∈ ops) :
    Maintains (Tracked c start ops) (instr cx) fun _ => True := by
  have hkeep : Maintains (Tracked c start ops) (keep cx.instr) fun _ => True :=
    tracked_keep hcx (.refl _)
  have hroute := instr_route cx
  generalize instr cx = m at hroute ⊢
  cases hroute with
  | nothing => exact maintains_pure trivial
  | kept => exact hkeep
  | safepoint => exact tracked_emit_reg hcx (by decide) _ _ (not_preserved_gpr (by decide) _)
  | prologue => exact tracked_prologue hcx
  | ending =>
    refine maintains_bind maintains_get fun st _ => ?_
    split
    · exact maintains_pure trivial
    · exact hkeep
  | ret => exact tracked_ret hcx _
  | call op => exact tracked_call hcx (by rcases op with op | op <;> rw [op] <;> decide)
  | move op => exact tracked_move hcx op id
  | refused => exact maintains_fail cx _
  | divide op => exact tracked_divide hcx (by rintro hop; rw [hop] at op; cases op)
  | shift op => exact tracked_shift hcx (by rcases op with op | op | op <;> rw [op] <;> decide)
  | compare op => exact tracked_compare hcx (by rintro hop; rw [hop] at op; cases op)
  | generic _ _ _ _ label => exact tracked_generic hcx label rfl

theorem tracked_forM {variadic : List String} {scratch : Option Int64} {later : List Instr}
    (h : later ⊆ ops) :
    Maintains (Tracked c start ops) (later.forM fun i => instr ⟨variadic, scratch, i⟩) fun _ =>
      True := by
  induction later with
  | nil => exact maintains_pure trivial
  | cons i rest ih =>
    obtain ⟨hi, hrest⟩ := List.cons_subset.mp h
    exact maintains_bind (tracked_instr hi) fun _ _ => ih hrest

/-- Blocks are lowered one by one, and each lowered instruction comes from one of its block. -/
theorem origin_of_blocks {variadic : List String} {scratch : Option Int64} {c c' : Closure}
    {bs bs' : List Block} (h : blocks variadic scratch c bs = .ok (c', bs')) :
    Static c c' ∧ List.Forall₂ (fun b b' : Block => b'.label = b.label ∧
      ∀ j ∈ b'.ops, ∃ i ∈ b.ops, Origin i j) bs bs' := by
  induction bs generalizing c bs' with
  | nil =>
    cases h
    exact ⟨.refl _, .nil⟩
  | cons b rest ih =>
    obtain ⟨st, bs2, hst, h2, rfl⟩ := blocks_cons_eq_ok h
    have hblock := (tracked_forM (List.Subset.refl b.ops) ⟨c, []⟩ _ st hst
      ⟨.refl _, fun j hj => (by cases hj), List.nil_prefix⟩).1
    obtain ⟨hstatic, hrest⟩ := ih h2
    exact ⟨hblock.static.trans hstatic, .cons ⟨rfl, hblock.origin⟩ hrest⟩

/-- A lowered closure is the closure as it was laid out, with instructions that come from its
own. -/
theorem origin_of_lower {t : Target} {c c' : Closure} (h : t.lower c = .ok c') :
    Static (layout c).1 c' ∧ List.Forall₂ (fun b b' : Block => b'.label = b.label ∧
      ∀ j ∈ b'.ops, ∃ i ∈ b.ops, Origin i j) (layout c).1.blocks c'.blocks := by
  unfold Target.lower at h
  obtain ⟨⟨c1, bs⟩, hbs, h⟩ := bind_eq_ok.mp h
  cases h
  obtain ⟨hstatic, hblocks⟩ := origin_of_blocks hbs
  exact ⟨⟨hstatic.name, hstatic.symbol, hstatic.isGlobal, hstatic.saved, hstatic.frame,
    hstatic.homes⟩, hblocks⟩

theorem layout_fields (c : Closure) :
    (layout c).1.symbol = c.symbol ∧ (layout c).1.name = c.name ∧
      (layout c).1.blocks = c.blocks := by
  unfold layout
  dsimp only
  split <;> exact ⟨rfl, rfl, rfl⟩

end Backend.Lowering
