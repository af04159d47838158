-- The registers that a function has to preserve: code writes only those that variables live in, all
-- of which the start of the function saves before, in slots of their own, and every end of it takes
-- them back.
import Backend.Proofs.Lowering.FrameSlots
import Backend.Proofs.Lowering.Origin
import Backend.Proofs.Lowering.StackBalance
import Backend.Proofs.Schedule.Meaning
import Backend.Proofs.Selection.Footprint

namespace Backend.Lowering

open Backend.Machine (Inst)
open Backend.Schedule (Access)
open Backend.Selection (toDisp two)

/-! ## Saving and restoring -/

/-- Keeps a preserved register in its slot. -/
def saveInst (s : SavedReg) : Inst :=
  two .mov (.mem (.ofBase ⟨Machine.rbp, 8⟩ (toDisp s.offset) 8)) (.reg ⟨s.reg.index, 8⟩)

/-- Takes a preserved register back from its slot. -/
def restoreInst (s : SavedReg) : Inst :=
  two .mov (.reg ⟨s.reg.index, 8⟩) (.mem (.ofBase ⟨Machine.rbp, 8⟩ (toDisp s.offset) 8))

/-- Pushes the frame pointer, points it at the pushed word and makes room for the frame. -/
def enterCode (c : Closure) : List Inst :=
  [.unary .push (.reg ⟨Machine.rbp, 8⟩),
    two .mov (.reg ⟨Machine.rbp, 8⟩) (.reg ⟨Machine.rsp, 8⟩)] ++
    if c.frame > 0 then [two .sub (.reg ⟨Machine.rsp, 8⟩) (.imm c.frame)] else []

/-- Removes the frame and leaves the function. -/
def leaveCode : List Inst :=
  [two .mov (.reg ⟨Machine.rsp, 8⟩) (.reg ⟨Machine.rbp, 8⟩), .unary .pop (.reg ⟨Machine.rbp, 8⟩),
    .plain .ret]

/-- Whatever writes a register that a function has to preserve writes one of the saved registers,
and comes after the instruction that saves it. -/
def SavedFirst (saved : List SavedReg) (code : List Inst) : Prop :=
  ∀ before m after, code = before ++ m :: after →
    ∀ id ∈ calleeSaved, id.toNat ∈ m.footprint.writes →
      ∃ s ∈ saved, s.reg = gpr id 8 ∧ saveInst s ∈ before

/-! ## The start of a function -/

/-- The lowered start of a function, up to where it takes its parameters. -/
def entryOps (c : Closure) (i : Instr) : List Instr :=
  [i, ⟨.push, some (.reg regRbp), none, none, none, i.pos⟩,
    ⟨.move, some (.reg regRsp), none, none, some (.reg regRbp), i.pos⟩] ++
  (if c.frame > 0 then [adjustLine .sub c.frame i.pos] else []) ++ c.saved.map (saveLine i.pos)

/-- Saving registers comes before taking parameters. -/
theorem saves_of_saveAndTake {cx : Context} {saved : List SavedReg} {s s' : State}
    (h : saveAndTake cx saved s = .ok ((), s')) :
    s.out ++ saved.map (saveLine cx.instr.pos) <+: s'.out := by
  rcases saveAndTake_cases h with ⟨-, rfl⟩ | ⟨items, st, taken, -, htake, hassign⟩
  · exact List.prefix_refl _
  · obtain ⟨htaken, -⟩ := takeParams_spec htake (argCount_nil.symm : _ = argCount []) rfl
    have hany : Appends (fun _ => True) (parallel cx st.moves) fun _ => True :=
      appends_parallel cx (fun _ _ _ _ _ => trivial) fun _ => trivial
    obtain ⟨⟨moves, hmoved, -⟩, -, -⟩ := hany _ _ _ hassign
    rw [hmoved, htaken]
    exact List.prefix_append _ _

theorem entry_of_prologue {cx : Context} {s s' : State} (h : prologue cx s = .ok ((), s')) :
    s.out ++ entryOps s.closure cx.instr <+: s'.out := by
  have hsaves := saves_of_saveAndTake (prologue_opening h)
  rwa [List.append_assoc] at hsaves

/-- A block that begins the function starts with its frame, whatever the other instructions are. -/
theorem entry_of_ops {variadic : List String} {scratch : Option Int64} {c : Closure} {i : Instr}
    {rest : List Instr} {u : PUnit} {st : State} (hop : i.op = .fnBegin)
    (h : ((i :: rest).forM fun i => instr ⟨variadic, scratch, i⟩) ⟨c, []⟩ = .ok (u, st)) :
    entryOps c i <+: st.out := by
  obtain ⟨u1, s1, h1, h⟩ := run_bind.mp h
  have h1 : instr ⟨variadic, scratch, i⟩ ⟨c, []⟩ = .ok (u1, s1) := h1
  have hbegin : instr ⟨variadic, scratch, i⟩ = prologue ⟨variadic, scratch, i⟩ := by
    unfold instr
    dsimp only
    rw [hop]
  have hempty : Tracked c [] (i :: rest) ⟨c, []⟩ :=
    ⟨.refl _, fun j hj => (by cases hj), List.nil_prefix⟩
  have htracked : Maintains (Tracked c [] (i :: rest))
      (instr ⟨variadic, scratch, i⟩) fun _ => True :=
    tracked_instr List.mem_cons_self
  have hfirst := (htracked _ _ _ h1 hempty).1
  rw [hbegin] at h1
  have hentry := entry_of_prologue h1
  have hrest : Tracked s1.closure s1.out (i :: rest) s1 :=
    ⟨.refl _, hfirst.origin, List.prefix_refl _⟩
  exact hentry.trans (tracked_forM (List.subset_cons_self i rest) _ _ _ h hrest).1.starts

/-- Lowered code that begins with the start of a function begins with its frame. -/
theorem entry_of_blocks {variadic : List String} {scratch : Option Int64} {c c' : Closure}
    {bs bs' : List Block} {i : Instr} (h : blocks variadic scratch c bs = .ok (c', bs'))
    (hbegin : (bs.flatMap Block.ops).head? = some i) (hop : i.op = .fnBegin) :
    ∃ before b after, bs' = before ++ b :: after ∧ (∀ x ∈ before, x.ops = []) ∧
      entryOps c i <+: b.ops := by
  induction bs generalizing c bs' with
  | nil => cases hbegin
  | cons b rest ih =>
    obtain ⟨st, bs2, hst, h2, rfl⟩ := blocks_cons_eq_ok h
    cases hb : b.ops with
    | nil =>
      rw [hb] at hst
      cases hst
      rw [List.flatMap_cons, hb] at hbegin
      obtain ⟨before, b', after, rfl, hempty, hentry⟩ := ih h2 hbegin
      exact ⟨_ :: before, b', after, rfl, List.forall_mem_cons.mpr ⟨rfl, hempty⟩, hentry⟩
    | cons j ops =>
      rw [List.flatMap_cons, hb] at hbegin
      cases hbegin
      rw [hb] at hst
      exact ⟨[], _, bs2, rfl, by simp, entry_of_ops hop hst⟩

/-! ## What lowered instructions write -/

/-- The code selected for the instruction writes the register. -/
def Writes (c : Closure) (id : Machine.RegId) (i : Instr) : Prop :=
  ∃ code, Selection.instr c i = .ok code ∧ ∃ m ∈ code, id.toNat ∈ m.footprint.writes

/-- An epilogue is selected for the instruction. -/
def isExit (i : Instr) : Bool := i.op == .ret || i.op == .fnEnd

/-- The instruction writes no preserved register but a saved one. -/
structure Saves (c : Closure) (i : Instr) : Prop where
  divides : DividesInPlace i
  outputs : ∀ id ∈ calleeSaved, ∀ o ∈ i.defs, ∀ r, Access.Names c.locations o r →
    r.key = id.toNat → gpr id 8 ∈ c.saved.map SavedReg.reg

theorem isPreserved_of_key {r : Reg} {id : Machine.RegId} (hid : id ∈ calleeSaved)
    (h : r.key = id.toNat) : isPreserved r = true := by
  have hlt := id.toNat_lt
  unfold Reg.key at h
  cases hcls : r.cls with
  | float =>
    rw [hcls] at h
    dsimp only at h
    omega
  | int =>
    rw [hcls] at h
    have heq : r.index = id := UInt8.toNat_inj.mp h
    simp [isPreserved, hcls, heq, hid]

theorem output_of_defs {i : Instr} {r : Reg} (h : .reg r ∈ i.defs) :
    i.output = some (.reg r) ∨ ∃ items, i.output = some (.list items) ∧ .reg r ∈ items := by
  unfold Instr.defs at h
  split at h
  · cases h
  · split at h
    · cases h
    · rename_i items ho
      exact .inr ⟨items, ho, h⟩
    · rename_i ho
      cases List.mem_singleton.mp h
      exact .inl ho

/-- A variable that lives in a preserved register makes the layout save it. -/
theorem saved_of_home {c : Closure} {ident : String} {r : Reg} {id : Machine.RegId}
    (hid : id ∈ calleeSaved) (hr : (layout c).1.locations.reg? ident = some r)
    (hkey : r.key = id.toNat) : gpr id 8 ∈ (layout c).1.saved.map SavedReg.reg := by
  rw [saved_of_layout]
  refine List.mem_filter.mpr ⟨List.mem_map_of_mem hid, ?_⟩
  obtain ⟨l, hl, hreg⟩ := Option.bind_eq_some_iff.mp hr
  obtain ⟨before, after, hsplit, -⟩ := List.lookup_eq_some_iff.mp hl
  refine List.any_eq_true.mpr ⟨(ident, l), by simp [hsplit], ?_⟩
  have hgpr : (gpr id 8).key = id.toNat := rfl
  simp [hreg, Reg.is, hkey, hgpr]

/-- Lowered code writes preserved registers only through variables that live there. -/
theorem saves_of_lower {t : Target} {c c' : Closure} (h : t.lower c = .ok c')
    (hplain : ∀ b ∈ c.blocks, ∀ i ∈ b.ops, PlainOutput i.output) :
    ∀ b ∈ c'.blocks, ∀ i ∈ b.ops, Saves c' i := by
  intro b hb i hi
  refine ⟨dividesInPlace_of_lower h b hb i hi, fun id hid o ho r hname hkey => ?_⟩
  obtain ⟨hstatic, hblocks⟩ := origin_of_lower h
  have hpreserved := isPreserved_of_key hid hkey
  rw [hstatic.saved]
  rcases hname with rfl | ⟨v, rfl, hv⟩
  · obtain ⟨b₀, hb₀, hfrom⟩ : ∃ b₀ ∈ c.blocks, ∀ j ∈ b.ops, ∃ i₀ ∈ b₀.ops, Origin i₀ j := by
      obtain ⟨k, hk, rfl⟩ := List.getElem_of_mem hb
      have hk' : k < (layout c).1.blocks.length := hblocks.length_eq ▸ hk
      refine ⟨(layout c).1.blocks[k], ?_, (hblocks.get hk' hk).2⟩
      exact blocks_layout c ▸ List.getElem_mem hk'
    obtain ⟨i₀, hi₀, horigin⟩ := hfrom i hi
    have hnot := horigin.output (hplain b₀ hb₀ i₀ hi₀) r (output_of_defs ho)
    rw [hpreserved] at hnot
    cases hnot
  · rcases hstatic.homes v.ident r hv with hhome | hnot
    · exact saved_of_home hid hhome hkey
    · rw [hpreserved] at hnot
      cases hnot

/-- Outside an epilogue, code that writes a preserved register is selected for an instruction whose
accesses say so. -/
theorem recorded_of_writes {c : Closure} {i : Instr} {id : Machine.RegId} (hid : id ∈ calleeSaved)
    (hi : Saves c i) (hexit : isExit i = false) (h : Writes c id i) :
    .reg id.toNat ∈ (Selection.accesses c i).writes := by
  obtain ⟨code, hcode, m, hm, hw⟩ := h
  have hop : i.op ≠ .ret ∧ i.op ≠ .fnEnd := by simpa [isExit] using hexit
  refine Selection.recorded_of_written hop hi.divides hcode hm hw ?_ ?_
  · rintro rfl
    exact absurd hid (by decide)
  · rintro rfl
    exact absurd hid (by decide)

theorem writes_restoreInst (s : SavedReg) :
    (restoreInst s).footprint.writes = [s.reg.index.toNat] := rfl

theorem writes_leaveCode : ∀ m ∈ leaveCode, ∀ id ∈ calleeSaved, id.toNat ∉ m.footprint.writes := by
  decide +kernel

/-- The saved registers are whole registers that have to be preserved. -/
def WholeSaved (saved : List SavedReg) : Prop := ∀ s ∈ saved, ∃ id ∈ calleeSaved, s.reg = gpr id 8

/-- An epilogue writes the saved registers and no other preserved one. -/
theorem saved_of_epilogue {saved : List SavedReg} (hwhole : WholeSaved saved) {m : Inst}
    {id : Machine.RegId} (hid : id ∈ calleeSaved) (hm : m ∈ saved.map restoreInst ++ leaveCode)
    (hw : id.toNat ∈ m.footprint.writes) : ∃ s ∈ saved, s.reg = gpr id 8 := by
  rcases List.mem_append.mp hm with hm | hm
  · obtain ⟨s, hs, rfl⟩ := List.mem_map.mp hm
    obtain ⟨k, -, hk⟩ := hwhole s hs
    rw [writes_restoreInst, hk] at hw
    have hkid : id = k := UInt8.toNat_inj.mp (List.mem_singleton.mp hw)
    exact ⟨s, hs, hkid ▸ hk⟩
  · exact absurd hw (writes_leaveCode m hm id hid)

theorem instr_of_isExit {c : Closure} {i : Instr} (h : isExit i = true) :
    Selection.instr c i = .ok (c.saved.map restoreInst ++ leaveCode) := by
  rcases Bool.or_eq_true_iff.mp h with hop | hop <;>
    simp only [Selection.instr, beq_iff_eq.mp hop] <;> rfl

/-- Whatever writes a preserved register writes a saved one. -/
theorem Saves.saved {c : Closure} {i : Instr} {id : Machine.RegId} (hi : Saves c i)
    (hwhole : WholeSaved c.saved) (hid : id ∈ calleeSaved) (h : Writes c id i) :
    ∃ s ∈ c.saved, s.reg = gpr id 8 := by
  cases hexit : isExit i with
  | false =>
    rcases Schedule.names_of_writes_access (recorded_of_writes hid hi hexit h) with
      hsp | ⟨o, ho, r, hr, hkey⟩
    · have hrsp : id = Machine.rsp := UInt8.toNat_inj.mp hsp
      subst hrsp
      exact absurd hid (by decide)
    · exact List.mem_map.mp (hi.outputs id hid o ho r hr hkey)
  | true =>
    obtain ⟨code, hcode, m, hm, hw⟩ := h
    cases hcode.symm.trans (instr_of_isExit hexit)
    exact saved_of_epilogue hwhole hid hm hw

/-! ## Before and after -/

/-- Every instruction of the list that satisfies `P` comes after `i`. -/
def Leads (i : Instr) (P : Instr → Prop) (ops : List Instr) : Prop :=
  ∀ before j after, ops = before ++ j :: after → P j → i ∈ before

/-- A place in two lists that are put together is in the second one or in the first. -/
theorem place_of_append {α : Type} {xs ys before after : List α} {m : α}
    (h : xs ++ ys = before ++ m :: after) :
    (∃ between, before = xs ++ between ∧ ys = between ++ m :: after) ∨
      ∃ between, xs = before ++ m :: between := by
  rcases List.append_eq_append_iff.mp h with ⟨between, rfl, hys⟩ | ⟨tail, rfl, hm⟩
  · exact .inl ⟨between, rfl, hys⟩
  · cases tail with
    | nil => exact .inl ⟨[], by simp, hm.symm⟩
    | cons k tail =>
      cases hm
      exact .inr ⟨tail, rfl⟩

theorem leads_of_start {i : Instr} {P : Instr → Prop} {entry ops : List Instr}
    (h : entry <+: ops) (hi : i ∈ entry) (hentry : ∀ j ∈ entry, ¬ P j) : Leads i P ops := by
  obtain ⟨rest, rfl⟩ := h
  intro before j after heq hj
  rcases place_of_append heq with ⟨between, rfl, -⟩ | ⟨between, rfl⟩
  · exact List.mem_append_left _ hi
  · exact absurd hj (hentry j (by simp))

theorem Leads.append {i : Instr} {P : Instr → Prop} {xs : List Instr} (h : Leads i P xs)
    (hi : i ∈ xs) (ys : List Instr) : Leads i P (xs ++ ys) := by
  intro before j after heq hj
  rcases place_of_append heq with ⟨between, rfl, -⟩ | ⟨between, hxs⟩
  · exact List.mem_append_left _ hi
  · exact h before j between hxs hj

/-- Scheduling keeps an instruction before all those that write what it reads, and before
control. -/
theorem leads_of_schedule {locs : Locations} {b : Block} {i : Instr} {P : Instr → Prop}
    (h : Leads i P b.ops) (hP : ∀ j ∈ b.ops, P j →
      Schedule.Conflict (Schedule.access Target.roles locs i)
      (Schedule.access Target.roles locs j) ∨
        Schedule.isControl j = true) :
    Leads i P (Schedule.block Target.roles locs b).1.ops := by
  obtain ⟨nodes, horder, hperm, hpair⟩ := Schedule.exists_order_of_graph Target.roles locs b.ops
  have hops : (Schedule.block Target.roles locs b).1.ops = Schedule.pick b.ops nodes := by
    unfold Schedule.block
    rw [horder]
  rw [hops]
  intro before j after heq hj
  obtain ⟨out, left, rfl, rfl, hleft⟩ := List.filterMap_eq_append_iff.mp heq
  obtain ⟨skipped, n, rest, rfl, hskipped, hn, -⟩ := List.filterMap_eq_cons_iff.mp hleft
  obtain ⟨hlt, hget⟩ := List.getElem?_eq_some_iff.mp hn
  have hsplit : b.ops = b.ops.take n ++ j :: b.ops.drop (n + 1) := by
    rw [← hget, ← List.drop_eq_getElem_cons hlt, List.take_append_drop]
  obtain ⟨m, hm, hmi⟩ := List.mem_take_iff_getElem.mp (h _ _ _ hsplit hj)
  have hmn : m < n := by omega
  have hmi' : b.ops[m]? = some i := by
    rw [← hmi]
    exact List.getElem?_eq_getElem (by omega)
  have hchain : Schedule.Chain (Schedule.edges Target.roles locs b.ops) m n := by
    refine (Schedule.ordered_edges Target.roles locs b.ops).chain m n i j hmn hmi' hn ?_
    refine (hP j (hget ▸ List.getElem_mem hlt) hj).imp_right fun hc => .inl ?_
    simp [hc]
  -- The instruction comes out, and not together with or after those it leads.
  have hmem : m ∈ out ++ (skipped ++ n :: rest) := hperm.mem_iff.mpr (List.mem_range.mpr (by omega))
  refine List.mem_filterMap.mpr ⟨m, ?_, hmi'⟩
  rcases List.mem_append.mp hmem with hmem | hmem
  · exact hmem
  rcases List.mem_append.mp hmem with hmem | hmem
  · rw [hskipped m hmem] at hmi'
    cases hmi'
  rcases List.mem_cons.mp hmem with rfl | hmem
  · omega
  · have hafter := (List.pairwise_cons.mp (List.pairwise_append.mp
      (List.pairwise_append.mp hpair).2.1).2.1).1 m hmem
    exact absurd hchain hafter

/-! ## Selected code -/

/-- Each place of selected code belongs to an instruction, with the code of all earlier ones before
it. -/
theorem owner_of_instrs {c : Closure} {ops : List Instr} {code before after : List Inst} {m : Inst}
    (h : Selection.instrs c ops = .ok code) (hm : code = before ++ m :: after) :
    ∃ earlier i later first part, ops = earlier ++ i :: later ∧
      Selection.instrs c earlier = .ok first ∧ Selection.instr c i = .ok part ∧ m ∈ part ∧
      first <+: before := by
  induction ops generalizing code before with
  | nil =>
    cases h
    simp at hm
  | cons j rest ih =>
    obtain ⟨part, more, hpart, hmore, rfl⟩ := Selection.instrs_cons_eq_ok.mp h
    rcases place_of_append hm with ⟨between, rfl, hrest⟩ | ⟨between, rfl⟩
    · obtain ⟨earlier, i, later, first, part', rfl, hfirst, hpart', hmem, hstarts⟩ :=
        ih hmore hrest
      refine ⟨j :: earlier, i, later, part ++ first, part', rfl,
        Selection.instrs_cons_eq_ok.mpr ⟨_, _, hpart, hfirst, rfl⟩, hpart', hmem, ?_⟩
      exact (List.prefix_append_right_inj part).mpr hstarts
    · exact ⟨[], j, rest, [], _, rfl, rfl, hpart, by simp, List.nil_prefix⟩

theorem code_of_mem {c : Closure} {ops : List Instr} {code : List Inst} {i : Instr}
    (h : Selection.instrs c ops = .ok code) (hi : i ∈ ops) :
    ∃ part, Selection.instr c i = .ok part ∧ part ⊆ code := by
  obtain ⟨earlier, later, rfl⟩ := List.append_of_mem hi
  obtain ⟨first, more, -, hmore, rfl⟩ := Selection.instrs_append_eq_ok.mp h
  obtain ⟨part, last, hpart, -, rfl⟩ := Selection.instrs_cons_eq_ok.mp hmore
  exact ⟨part, hpart, fun m hm => by simp [hm]⟩

/-- A saved register goes to its slot with one instruction, if a displacement reaches the slot. -/
theorem instr_saveLine {c : Closure} {pos : Position} {s : SavedReg} {id : Machine.RegId}
    {code : List Inst} (hreg : s.reg = gpr id 8)
    (h : Selection.instr c (saveLine pos s) = .ok code) :
    Machine.fitsInt32 s.offset = true ∧ code = [saveInst s] := by
  obtain ⟨reg, offset⟩ := s
  subst hreg
  simp only [Selection.instr, saveLine, Selection.outputOperand, Selection.optional,
    Selection.operand, Selection.frameSlot] at h
  split at h
  · rename_i hfits
    exact ⟨hfits, (Except.ok.inj h).symm⟩
  · cases h

/-! ## The code of the start -/

section Entry

variable {c : Closure} {i : Instr}

theorem instr_pushLine (c : Closure) (pos : Position) :
    Selection.instr c ⟨.push, some (.reg regRbp), none, none, none, pos⟩ =
      .ok [.unary .push (.reg ⟨Machine.rbp, 8⟩)] := rfl

theorem instr_frameLine (c : Closure) (pos : Position) :
    Selection.instr c ⟨.move, some (.reg regRsp), none, none, some (.reg regRbp), pos⟩ =
      .ok [two .mov (.reg ⟨Machine.rbp, 8⟩) (.reg ⟨Machine.rsp, 8⟩)] := rfl

theorem instr_roomLine (c : Closure) (bytes : Int64) (pos : Position) :
    Selection.instr c (adjustLine .sub bytes pos) =
      .ok [two .sub (.reg ⟨Machine.rsp, 8⟩) (.imm bytes)] := rfl

theorem instr_begin (hop : i.op = .fnBegin) : Selection.instr c i = .ok [] := by
  simp only [Selection.instr, hop]

/-- Nothing at the start of a function writes a preserved register. -/
theorem not_writes_of_entry (hop : i.op = .fnBegin) (hwhole : WholeSaved c.saved) {j : Instr}
    (hj : j ∈ entryOps c i) {id : Machine.RegId} (hid : id ∈ calleeSaved) : ¬ Writes c id j := by
  rintro ⟨code, hcode, m, hm, hw⟩
  have hrsp : ∀ id ∈ calleeSaved, id.toNat ∉ [Machine.rsp.toNat] := by decide +kernel
  have hrbp : ∀ id ∈ calleeSaved, id.toNat ∉ [Machine.rbp.toNat] := by decide +kernel
  simp only [entryOps, List.cons_append, List.nil_append, List.mem_cons, List.mem_append,
    List.mem_map] at hj
  rcases hj with rfl | rfl | rfl | hj | ⟨s, hs, rfl⟩
  · rw [instr_begin hop] at hcode
    cases hcode
    cases hm
  · cases hcode.symm.trans (instr_pushLine c i.pos)
    cases List.mem_singleton.mp hm
    exact hrsp id hid hw
  · cases hcode.symm.trans (instr_frameLine c i.pos)
    cases List.mem_singleton.mp hm
    exact hrbp id hid hw
  · split at hj
    · cases List.mem_singleton.mp hj
      cases hcode.symm.trans (instr_roomLine c c.frame i.pos)
      cases List.mem_singleton.mp hm
      exact hrsp id hid hw
    · cases hj
  · obtain ⟨k, -, hk⟩ := hwhole s hs
    obtain ⟨-, rfl⟩ := instr_saveLine hk hcode
    cases List.mem_singleton.mp hm
    cases hw

/-- The code of the saves, and that a displacement reaches every slot. -/
theorem instrs_saves {saved : List SavedReg} (hwhole : WholeSaved saved) {pos : Position}
    {code : List Inst} (h : Selection.instrs c (saved.map (saveLine pos)) = .ok code) :
    code = saved.map saveInst ∧ ∀ s ∈ saved, Machine.fitsInt32 s.offset = true := by
  induction saved generalizing code with
  | nil =>
    cases h
    exact ⟨rfl, by simp⟩
  | cons s rest ih =>
    obtain ⟨⟨k, -, hk⟩, hrest⟩ := List.forall_mem_cons.mp hwhole
    obtain ⟨part, more, hpart, hmore, rfl⟩ := Selection.instrs_cons_eq_ok.mp h
    obtain ⟨hfits, rfl⟩ := instr_saveLine hk hpart
    obtain ⟨rfl, hothers⟩ := ih hrest hmore
    exact ⟨rfl, List.forall_mem_cons.mpr ⟨hfits, hothers⟩⟩

/-- The code of the start of a function. -/
theorem instrs_entry (hop : i.op = .fnBegin) (hwhole : WholeSaved c.saved) {code : List Inst}
    (h : Selection.instrs c (entryOps c i) = .ok code) :
    code = enterCode c ++ c.saved.map saveInst ∧
      ∀ s ∈ c.saved, Machine.fitsInt32 s.offset = true := by
  unfold entryOps at h
  obtain ⟨enter, saves, henter, hsaves, rfl⟩ := Selection.instrs_append_eq_ok.mp h
  obtain ⟨rfl, hfits⟩ := instrs_saves hwhole hsaves
  refine ⟨?_, hfits⟩
  have hroom : Selection.instrs c (if c.frame > 0 then [adjustLine .sub c.frame i.pos] else []) =
      .ok (if c.frame > 0 then [two .sub (.reg ⟨Machine.rsp, 8⟩) (.imm c.frame)] else []) := by
    split <;> rfl
  obtain ⟨first, room, hfirst, hroom', rfl⟩ := Selection.instrs_append_eq_ok.mp henter
  cases hroom.symm.trans hroom'
  obtain ⟨skipped, lines, hskipped, hlines, rfl⟩ := Selection.instrs_cons_eq_ok.mp hfirst
  cases hskipped.symm.trans (instr_begin hop)
  cases hlines
  rfl

end Entry

/-! ## Saved before written -/

/-- Selected code saves before it writes when its instructions do. -/
theorem savedFirst_of_leads {c : Closure} {ops : List Instr} {code : List Inst} (pos : Position)
    (hwhole : WholeSaved c.saved) (hsaves : ∀ i ∈ ops, Saves c i)
    (hleads : ∀ s ∈ c.saved, Leads (saveLine pos s) (Writes c s.reg.index) ops)
    (h : Selection.instrs c ops = .ok code) : SavedFirst c.saved code := by
  intro before m after hcode id hid hw
  obtain ⟨earlier, i, later, first, part, rfl, hfirst, hpart, hm, hstarts⟩ :=
    owner_of_instrs h hcode
  have hwrites : Writes c id i := ⟨part, hpart, m, hm, hw⟩
  obtain ⟨s, hs, hreg⟩ := (hsaves i (by simp)).saved hwhole hid hwrites
  have hindex : s.reg.index = id := by rw [hreg]; rfl
  have hline : saveLine pos s ∈ earlier :=
    hleads s hs earlier i later rfl (hindex ▸ hwrites)
  obtain ⟨save, hsave, hsub⟩ := code_of_mem hfirst hline
  obtain ⟨-, rfl⟩ := instr_saveLine hreg hsave
  exact ⟨s, hs, hreg, hstarts.subset (hsub (List.mem_singleton_self _))⟩

/-- Blocks that begin with the start of a function, and write a preserved register only if it is
saved. -/
structure Preserving (c : Closure) (bs : List Block) : Prop where
  whole : WholeSaved c.saved
  saves : ∀ b ∈ bs, ∀ i ∈ b.ops, Saves c i
  start : ∃ i before b after, i.op = .fnBegin ∧ bs = before ++ b :: after ∧
    (∀ x ∈ before, x.ops = []) ∧ entryOps c i <+: b.ops

theorem preserving_of_lower {t : Target} {c c' : Closure} (h : t.lower c = .ok c')
    (hbegin : (c.blocks.flatMap Block.ops).head?.map Instr.op = some .fnBegin)
    (hplain : ∀ b ∈ c.blocks, ∀ i ∈ b.ops, PlainOutput i.output) : Preserving c' c'.blocks := by
  obtain ⟨hstatic, -⟩ := origin_of_lower h
  refine ⟨?_, saves_of_lower h hplain, ?_⟩
  · intro s hs
    have hmem : s.reg ∈ (layout c).1.saved.map SavedReg.reg := by
      rw [← hstatic.saved]
      exact List.mem_map_of_mem hs
    rw [saved_of_layout] at hmem
    obtain ⟨id, hid, hreg⟩ := List.mem_map.mp (List.mem_filter.mp hmem).1
    exact ⟨id, hid, hreg.symm⟩
  · obtain ⟨i, hi, hop⟩ := Option.map_eq_some_iff.mp hbegin
    have hentry : entryOps (layout c).1 i = entryOps c' i := by
      unfold entryOps
      rw [hstatic.frame, hstatic.saved]
    obtain ⟨⟨c1, bs⟩, hblocks, h⟩ := bind_eq_ok.mp h
    cases h
    rw [← blocks_layout c] at hi
    obtain ⟨before, b, after, hbs, hempty, hstarts⟩ := entry_of_blocks hblocks hi hop
    exact ⟨i, before, b, after, hop, hbs, hempty, hentry ▸ hstarts⟩

theorem flatMap_ops_of_empty {before after : List Block} {b : Block}
    (h : ∀ x ∈ before, x.ops = []) :
    (before ++ b :: after).flatMap Block.ops = b.ops ++ after.flatMap Block.ops := by
  rw [List.flatMap_append, List.flatMap_cons, List.flatMap_eq_nil_iff.mpr h, List.nil_append]

section Order

variable {c : Closure} {bs : List Block} {code : List Inst}

/-- In the block that begins the function every saved register is saved before it is written. -/
theorem leads_of_entry (hwhole : WholeSaved c.saved) {i : Instr} (hop : i.op = .fnBegin)
    {ops : List Instr} (h : entryOps c i <+: ops) {s : SavedReg} (hs : s ∈ c.saved) :
    Leads (saveLine i.pos s) (Writes c s.reg.index) ops := by
  obtain ⟨id, hid, hreg⟩ := hwhole s hs
  have hindex : s.reg.index = id := by rw [hreg]; rfl
  refine leads_of_start h ?_ fun j hj => not_writes_of_entry hop hwhole hj (hindex ▸ hid)
  exact List.mem_append_right _ (List.mem_map_of_mem hs)

theorem Preserving.savedFirst (h : Preserving c bs)
    (hcode : Selection.instrs c (bs.flatMap Block.ops) = .ok code) : SavedFirst c.saved code := by
  obtain ⟨i, before, b, after, hop, rfl, hempty, hentry⟩ := h.start
  refine savedFirst_of_leads i.pos h.whole (fun j hj => ?_) (fun s hs => ?_) hcode
  · obtain ⟨b', hb', hj⟩ := List.mem_flatMap.mp hj
    exact h.saves b' hb' j hj
  · rw [flatMap_ops_of_empty hempty]
    exact leads_of_entry h.whole hop (hentry.trans (List.prefix_append _ _)) hs

/-- An instruction that writes a preserved register may not change places with the one that saves
it. -/
theorem conflict_of_writes {s : SavedReg} {id : Machine.RegId} {i : Instr} (pos : Position)
    (hreg : s.reg = gpr id 8) (hid : id ∈ calleeSaved) (hi : Saves c i) (h : Writes c id i) :
    Schedule.Conflict (Schedule.access Target.roles c.locations (saveLine pos s))
        (Schedule.access Target.roles c.locations i) ∨ Schedule.isControl i = true := by
  cases hexit : isExit i with
  | true =>
    right
    rcases Bool.or_eq_true_iff.mp hexit with hop | hop <;>
      simp [Schedule.isControl, beq_iff_eq.mp hop]
  | false =>
    refine .inl (.inr (.inl ⟨.reg id.toNat, ?_, recorded_of_writes hid hi hexit h⟩))
    have hread : .reg s.reg ∈ Schedule.readOperands (saveLine pos s) := List.mem_cons_self
    have hkey := Schedule.key_of_records
      (@Schedule.records_of_read Target.roles c.locations _ _ hread) (.inl rfl)
    rwa [hreg] at hkey

/-- Scheduling keeps every save before the instructions that write its register. -/
theorem Preserving.savedFirst_scheduled (h : Preserving c bs)
    (hcode : Selection.instrs c ((bs.map fun b =>
      (Schedule.block Target.roles c.locations b).1).flatMap Block.ops) = .ok code) :
    SavedFirst c.saved code := by
  obtain ⟨i, before, b, after, hop, rfl, hempty, hentry⟩ := h.start
  have hperm (b : Block) : (Schedule.block Target.roles c.locations b).1.ops.Perm b.ops :=
    (Schedule.block_spec.{0, 0} Target.roles c.locations b).2.1
  refine savedFirst_of_leads i.pos h.whole (fun j hj => ?_) (fun s hs => ?_) hcode
  · obtain ⟨b', hb', hj⟩ := List.mem_flatMap.mp hj
    obtain ⟨b₀, hb₀, rfl⟩ := List.mem_map.mp hb'
    exact h.saves b₀ hb₀ j ((hperm b₀).mem_iff.mp hj)
  · rw [List.map_append, List.map_cons, flatMap_ops_of_empty]
    · obtain ⟨id, hid, hreg⟩ := h.whole s hs
      have hindex : s.reg.index = id := by rw [hreg]; rfl
      refine (leads_of_schedule (leads_of_entry h.whole hop hentry hs) fun j hj hw => ?_).append
        ((hperm b).mem_iff.mpr (hentry.subset ?_)) _
      · exact conflict_of_writes i.pos hreg hid (h.saves b (by simp) j hj) (hindex ▸ hw)
      · exact List.mem_append_right _ (List.mem_map_of_mem hs)
    · intro x hx
      obtain ⟨b₀, hb₀, rfl⟩ := List.mem_map.mp hx
      have := hperm b₀
      rw [hempty b₀ hb₀] at this
      exact this.eq_nil

end Order

/-! ## Slots -/

theorem toInt_toDisp {offset : Int64} (h : Machine.fitsInt32 offset = true) :
    (toDisp offset).toInt = offset.toInt := by
  obtain ⟨hlow, hhigh⟩ := Machine.fitsInt32_iff.mp h
  rw [toDisp, Int64.toInt_toInt32]
  apply Int.bmod_eq_of_le <;> omega

/-- The slot of a saved register shares no byte with another one, if a displacement reaches it. A
layout in which sizes overflow puts it out of reach. -/
theorem savedSlot_disjoint {c : Closure} (hfew : FewLocals c) {s : SavedReg}
    (hs : s ∈ (layout c).1.saved) (hfits : Machine.fitsInt32 s.offset = true) {slot : FrameSlot}
    (hslot : GivenSlot c slot) (hne : slot ≠ savedSlot s) : slot.Disjoint (savedSlot s) := by
  obtain ⟨hlow, hhigh⟩ := Machine.fitsInt32_iff.mp hfits
  obtain ⟨size, vars, hlaid⟩ :=
    layout_laid_of_extent (placedExtent_of_near hfew hs (by omega) (by omega)) hfew
  exact hlaid.disjoint hslot (.saved hs) hne

/-- The code begins with saving registers, in slots that a displacement reaches. -/
theorem Preserving.saves_reached {c : Closure} {bs : List Block} {code : List Inst}
    (h : Preserving c bs) (hcode : Selection.instrs c (bs.flatMap Block.ops) = .ok code) :
    enterCode c ++ c.saved.map saveInst <+: code ∧
      ∀ s ∈ c.saved, Machine.fitsInt32 s.offset = true := by
  obtain ⟨i, before, b, after, hop, rfl, hempty, rest, hrest⟩ := h.start
  rw [flatMap_ops_of_empty hempty, ← hrest, List.append_assoc] at hcode
  obtain ⟨entry, more, hentry, -, rfl⟩ := Selection.instrs_append_eq_ok.mp hcode
  obtain ⟨rfl, hfits⟩ := instrs_entry hop h.whole hentry
  exact ⟨List.prefix_append _ _, hfits⟩

/-- What blocks preserve depends on the frame of the closure and not on the blocks it has. -/
theorem Preserving.with_blocks {c : Closure} {bs : List Block} (h : Preserving c bs)
    (bs' : List Block) : Preserving { c with blocks := bs' } bs :=
  ⟨h.whole, fun b hb i hi => ⟨(h.saves b hb i hi).divides, (h.saves b hb i hi).outputs⟩, h.start⟩

/-- The registers that a function has to preserve survive it, if it names none of them as a place to
write to. The code pushes the frame pointer, makes room for the frame and saves registers in slots
of the layout. Whatever writes a register that has to be preserved writes a saved one, and comes
after that. The slot of a saved register is in reach of its displacement and shares no byte with any
other slot. Every return, and every end of the function that is left, takes the registers back from
the same slots and removes the frame. In the order of the schedule too, registers are saved before
they are written. -/
theorem preserved_registers_survive {t : Target} {c c' : Closure} (hlower : t.lower c = .ok c')
    (hbegin : (c.blocks.flatMap Block.ops).head?.map Instr.op = some .fnBegin)
    (hplain : ∀ b ∈ c.blocks, ∀ i ∈ b.ops, PlainOutput i.output) :
    (∀ code, c'.select = .ok code →
      enterCode c' ++ c'.saved.map saveInst <+: code ∧ SavedFirst c'.saved code ∧
      ∀ s ∈ c'.saved, (toDisp s.offset).toInt = s.offset.toInt ∧ GivenSlot c (savedSlot s) ∧
        (FewLocals c → ∀ slot, GivenSlot c slot → slot ≠ savedSlot s →
          slot.Disjoint (savedSlot s))) ∧
    (∀ b ∈ c'.blocks, ∀ i ∈ b.ops, i.op = .ret ∨ i.op = .fnEnd →
      Selection.instr c' i = .ok (c'.saved.map restoreInst ++ leaveCode)) ∧
    ∀ code, (Schedule.run Target.roles c').1.select = .ok code → SavedFirst c'.saved code := by
  have h := preserving_of_lower hlower hbegin hplain
  refine ⟨fun code hcode => ?_, fun b hb i hi hop => instr_of_isExit (by simpa [isExit] using hop),
    fun code hcode => ?_⟩
  · obtain ⟨hstart, hfits⟩ := h.saves_reached hcode
    refine ⟨hstart, h.savedFirst hcode, fun s hs => ?_⟩
    have hlaid : s ∈ (layout c).1.saved := (origin_of_lower hlower).1.saved ▸ hs
    exact ⟨toInt_toDisp (hfits s hs), .saved hlaid,
      fun hfew slot => savedSlot_disjoint hfew hlaid (hfits s hs)⟩
  · rw [Schedule.run_eq] at hcode
    exact (h.with_blocks (c'.blocks.map fun b =>
      (Schedule.block Target.roles c'.locations b).1)).savedFirst_scheduled hcode

/-- A function with variables in rbx and r12 and one in the frame. -/
def keeper : Closure :=
  let a : Operand := .var ⟨"a", .i64, false, false⟩
  ⟨"f", "f", true, .void, [⟨"x", .i32, false, false⟩],
    [⟨"entry", [.make .fnBegin none none none,
      .make .move (some (.imm (.int .w64 1))) none (some a),
      .make .move (some a) none (some (.var ⟨"b", .i64, false, false⟩)),
      .make .fnEnd none none none], [], [], [], []⟩],
    [("a", ⟨some (gpr Machine.rbx 8), none⟩), ("b", ⟨some (gpr Machine.r12 8), none⟩)], [], [], 0,
    []⟩

def keptRegs : List SavedReg := [⟨gpr Machine.rbx 8, -24⟩, ⟨gpr Machine.r12 8, -32⟩]

/-- Both registers are saved below the variable, before they are written, also in the order of the
schedule. -/
theorem preserved_registers_survive_keeper :
    ∃ c', (Target.amd64Linux ⟨false, false, []⟩).lower keeper = .ok c' ∧ c'.saved = keptRegs ∧
      (∃ code, c'.select = .ok code ∧ enterCode c' ++ keptRegs.map saveInst <+: code ∧
        SavedFirst keptRegs code ∧ ∀ s ∈ keptRegs, ∀ slot, GivenSlot keeper slot →
          slot ≠ savedSlot s → slot.Disjoint (savedSlot s)) ∧
      ∃ code, (Schedule.run Target.roles c').1.select = .ok code ∧ SavedFirst keptRegs code := by
  let ops : List Instr := entryOps ⟨"", "", true, .void, [], [], [], [], [], 32, keptRegs⟩
    (.make .fnBegin none none none) ++ (keeper.blocks.flatMap Block.ops).tail
  let c' : Closure := { keeper with
    blocks := [⟨"entry", ops, [], [], [], []⟩], frame := 32, saved := keptRegs
    locations := keeper.locations ++ [("x", ⟨none, some (-4)⟩)] }
  have hlower : (Target.amd64Linux ⟨false, false, []⟩).lower keeper = .ok c' := rfl
  have hplain : ∀ b ∈ keeper.blocks, ∀ i ∈ b.ops, PlainOutput i.output := by
    intro b hb i hi
    cases List.mem_singleton.mp hb
    simp only [List.mem_cons, List.not_mem_nil, or_false] at hi
    rcases hi with rfl | rfl | rfl | rfl
    · exact plainOutput_none
    · exact plainOutput_var _
    · exact plainOutput_var _
    · exact plainOutput_none
  have hfew : FewLocals keeper := by
    unfold FewLocals
    decide
  obtain ⟨hcode, -, hscheduled⟩ := preserved_registers_survive hlower rfl hplain
  obtain ⟨code, hselect⟩ : ∃ code, c'.select = .ok code := ⟨_, rfl⟩
  have hselects : (Schedule.run Target.roles c').1.select.toOption.isSome = true := by
    decide +kernel
  obtain ⟨code', hselect'⟩ : ∃ code, (Schedule.run Target.roles c').1.select = .ok code := by
    cases hs : (Schedule.run Target.roles c').1.select with
    | error e => simp [hs, Except.toOption] at hselects
    | ok code => exact ⟨code, rfl⟩
  obtain ⟨hstart, hfirst, hslots⟩ := hcode code hselect
  exact ⟨c', hlower, rfl, ⟨code, hselect, hstart, hfirst, fun s hs => (hslots s hs).2.2 hfew⟩,
    code', hselect', hscheduled code' hselect'⟩

end Backend.Lowering
