-- The unit of a module: the machine code of its closures one after the other. Every label is
-- defined once, the data only adds objects, and the branches that are left open are filled in at
-- the end.
import Backend.Proofs.Assembler.Definitions
import Backend.Proofs.Assembler.Linked
import Backend.Proofs.Pipeline.Passes
import Backend.Proofs.Selection.Labels

namespace Backend

open Machine (Inst labels longSize)

namespace Assembler

theorem Draft.append {u : CodeUnit} {pos : Nat} {xs ys : List Inst} {s t : List UInt8}
    {rels rels' : List CodeUnit.Relocation} {pends pends' : List PendingBranch}
    (h : Draft u pos xs s rels pends) (h' : Draft u (pos + s.length) ys t rels' pends') :
    Draft u pos (xs ++ ys) (s ++ t) (rels ++ rels') (pends ++ pends') := by
  induction h with
  | nil => exact h'
  | cons item rest ih =>
    rw [List.length_append, ← Nat.add_assoc] at h'
    simp only [List.cons_append, List.append_assoc]
    exact .cons item (ih h')

/-! ## What is added -/

/-- The second assembler has these instructions more than the first, and objects with these names in
its data. -/
structure Adds (a b : Assembler) (insts : List Inst) (objects : List String) : Prop where
  once : (labels insts).Nodup
  fresh : ∀ n ∈ labels insts, ¬ a.unit.Defines n
  defines : ∀ m, b.unit.Defines m ↔ m ∈ labels insts ∨ m ∈ objects ∨ a.unit.Defines m
  text : ∀ m, m ∉ labels insts → b.unit.textOffset? m = a.unit.textOffset? m
  draft : ∃ text rels pends, Extends a b text rels pends ∧
    Draft b.unit a.unit.text.length insts text rels pends

theorem Adds.refl (a : Assembler) : Adds a a [] [] where
  once := List.nodup_nil
  fresh n hn := nomatch hn
  defines m := by simp
  text _ _ := rfl
  draft := ⟨[], [], [], .of_same (List.append_nil _).symm (List.append_nil _).symm
    (List.append_nil _).symm rfl fun _ => rfl, .nil _⟩

theorem Adds.trans {a b c : Assembler} {xs ys : List Inst} {objects objects' : List String}
    (h : Adds a b xs objects) (h' : Adds b c ys objects') :
    Adds a c (xs ++ ys) (objects ++ objects') where
  once := by
    rw [Machine.labels_append, List.nodup_append]
    refine ⟨h.once, h'.once, fun n hn m hm hnm => ?_⟩
    subst hnm
    exact h'.fresh n hm ((h.defines n).mpr (.inl hn))
  fresh n hn hdef := by
    rw [Machine.labels_append, List.mem_append] at hn
    rcases hn with hn | hn
    · exact h.fresh n hn hdef
    · exact h'.fresh n hn ((h.defines n).mpr (.inr (.inr hdef)))
  defines m := by
    rw [h'.defines, h.defines, Machine.labels_append, List.mem_append, List.mem_append]
    tauto
  text m hm := by
    rw [Machine.labels_append, List.mem_append, not_or] at hm
    rw [h'.text m hm.2, h.text m hm.1]
  draft := by
    obtain ⟨s, rels, pends, hext, hdraft⟩ := h.draft
    obtain ⟨t, rels', pends', hext', hdraft'⟩ := h'.draft
    rw [hext.text, List.length_append] at hdraft'
    exact ⟨_, _, _, hext.trans hext', (hdraft.grows hext'.grows).append hdraft'⟩

/-! ## Data -/

theorem addData_fields {u v : CodeUnit} {name : String} {value : List UInt8}
    {binding : CodeUnit.Binding} (h : u.addData name value binding = .ok v) :
    v.text = u.text ∧ v.relocs = u.relocs := by
  obtain ⟨w, hw, rfl⟩ := CodeUnit.addData_eq h
  obtain ⟨htext, -, hrelocs, -⟩ := CodeUnit.define_fields hw
  exact ⟨htext, hrelocs⟩

/-- Data leaves the text as it is and defines its names. -/
theorem addDataItems_ok {items : List DataItem} {u v : CodeUnit}
    (h : addDataItems u items = .ok v) :
    v.text = u.text ∧ v.relocs = u.relocs ∧ (∀ m, v.textOffset? m = u.textOffset? m) ∧
      ∀ m, v.Defines m ↔ m ∈ items.map DataItem.name ∨ u.Defines m := by
  induction items generalizing u with
  | nil =>
    cases h
    simp
  | cons d rest ih =>
    unfold addDataItems at h
    rw [List.foldlM_cons] at h
    obtain ⟨w, hw, h⟩ := bind_eq_ok.mp h
    obtain ⟨htext, hrelocs⟩ := addData_fields hw
    obtain ⟨htext', hrelocs', hoffset, hdefines⟩ := ih h
    refine ⟨htext'.trans htext, hrelocs'.trans hrelocs, fun m => ?_, fun m => ?_⟩
    · rw [hoffset, CodeUnit.textOffset?_addData hw]
    · rw [hdefines, (CodeUnit.defines_addData hw).2, List.map_cons, List.mem_cons]
      tauto

/-! ## Closures -/

/-- The label of a function. -/
def head (c : Closure) : Inst := .label c.symbol .func (if c.isGlobal then .glob else .loc)

/-- A closure that is emitted adds its label, its code and its data. -/
theorem adds_emitClosure {a b : Assembler} {c : Closure} (h : a.emitClosure c = .ok b) :
    ∃ code, c.select = .ok code ∧ Adds a b (head c :: code) (c.data.map DataItem.name) := by
  unfold emitClosure at h
  cases hselect : c.select with
  | error e =>
    rw [hselect] at h
    cases h
  | ok code =>
    rw [hselect] at h
    simp only [pure_bind] at h
    refine ⟨code, rfl, ?_⟩
    cases hall : a.assembleAll (head c :: code) with
    | error e =>
      simp only [head] at hall
      rw [hall] at h
      cases h
    | ok m =>
      obtain ⟨text, rels, pends, hext, hdraft⟩ := assembleAll_draft hall
      obtain ⟨honce, hfresh, hdefines, hoffset⟩ := defines_assembleAll hall
      simp only [head] at hall
      rw [hall] at h
      simp only at h
      split at h
      · rename_i u hu
        cases h
        obtain ⟨htext, hrelocs, hoffsets, hdata⟩ := addDataItems_ok hu
        have hupdate (n : String) := CodeUnit.textOffset?_update m.unit c.symbol
          (f := fun s => { s with size := m.unit.offset - a.unit.offset })
          (fun _ => rfl) (fun _ => rfl) (fun _ => rfl) (fun _ => rfl) n
        have hsame (n : String) : u.textOffset? n = m.unit.textOffset? n :=
          (hoffsets n).trans (hupdate n)
        have hstep : Extends m { m with unit := u } [] [] [] := by
          refine .of_same ?_ ?_ (List.append_nil _).symm rfl hsame
          · rw [List.append_nil]
            exact htext
          · rw [List.append_nil]
            exact hrelocs
        refine ⟨honce, hfresh, fun n => ?_, fun n hn => (hsame n).trans (hoffset n hn),
          text, rels, pends, ?_, hdraft.grows hstep.grows⟩
        · have hsize := CodeUnit.defines_update m.unit c.symbol
            (f := fun s => { s with size := m.unit.offset - a.unit.offset })
            (fun _ => rfl) (fun _ => rfl) n
          rw [hdata, hsize, hdefines]
          tauto
        · simpa using hext.trans hstep
      · cases h

/-- A closure is refused for a name that is defined only if one of its labels was defined before, or
stands in its code twice. -/
theorem defines_of_emit_refused {a : Assembler} {c : Closure} {closure n : String}
    (h : a.emitClosure c = .error (.assemble closure (.unit (.alreadyDefined n)))) :
    ∃ code, c.select = .ok code ∧ n ∈ labels (head c :: code) ∧
      (a.unit.Defines n ∨ 1 < (labels (head c :: code)).count n) := by
  unfold emitClosure at h
  cases hselect : c.select with
  | error e =>
    rw [hselect] at h
    cases h
  | ok code =>
    rw [hselect] at h
    simp only [pure_bind] at h
    refine ⟨code, rfl, ?_⟩
    cases hall : a.assembleAll (head c :: code) with
    | error e =>
      have hrefused := hall
      simp only [head] at hall
      rw [hall] at h
      cases h
      exact defines_of_all_refused hrefused
    | ok m =>
      simp only [head] at hall
      rw [hall] at h
      simp only at h
      split at h
      · cases h
      · cases h

/-! ## Open branches -/

/-- Filling in a branch leaves the offsets of symbols alone and makes no text; a local target is
defined in the text. -/
theorem resolve_ok {plt : Bool} {u v : CodeUnit} {p : PendingBranch}
    (h : resolve plt u p = .ok v) :
    v.text.length = u.text.length ∧ (∀ m, v.textOffset? m = u.textOffset? m) ∧
      (p.target.isLocal → (u.textOffset? p.target.name).isSome) := by
  unfold resolve at h
  simp only [textDistance?_eq, Option.isNone_map, Option.isSome_map] at h
  split at h
  · cases h
  rename_i hlocal
  obtain ⟨bytes, -, h⟩ := bind_eq_ok.mp h
  split at h
  · cases h
  cases hpatch : u.patch p.pos bytes with
  | error e =>
    rw [hpatch] at h
    cases h
  | ok w =>
    rw [hpatch] at h
    have hw : w.text.length = u.text.length ∧ w.symbols = u.symbols := by
      unfold CodeUnit.patch at hpatch
      split at hpatch
      · cases hpatch
      split at hpatch
      · cases hpatch
      · cases hpatch
        exact ⟨length_overwrite _ _ _, rfl⟩
    have hlines (index : Int) := setLineBytes_fields w index bytes
    have hdefined : p.target.isLocal → (u.textOffset? p.target.name).isSome := by
      intro hl
      simpa [hl, Option.isSome_iff_ne_none] using hlocal
    have hend (w' : CodeUnit) (hw' : w'.text.length = u.text.length ∧ w'.symbols = u.symbols)
        (h : (if (u.textOffset? p.target.name).isSome = true then pure w' else
          pure (w'.addRelocation ⟨p.pos + UInt64.ofNat (longSize p.op) - 4, p.target.name,
            if (plt && p.op == .call) = true then .plt32 else .pc32, -4⟩) :
            Except AsmError CodeUnit) = .ok v) :
        v.text.length = u.text.length ∧ ∀ m, v.textOffset? m = u.textOffset? m := by
      split at h
      · cases h
        exact ⟨hw'.1, CodeUnit.textOffset?_congr hw'.2⟩
      · cases h
        refine ⟨?_, fun m => ?_⟩
        · rw [(CodeUnit.addRelocation_fields w' _).1, hw'.1]
        · rw [CodeUnit.textOffset?_addRelocation, CodeUnit.textOffset?_congr hw'.2]
    suffices hsame : v.text.length = u.text.length ∧ ∀ m, v.textOffset? m = u.textOffset? m from
      ⟨hsame.1, hsame.2, hdefined⟩
    cases hline : p.line with
    | none =>
      rw [hline] at h
      exact hend w hw h
    | some index =>
      rw [hline] at h
      obtain ⟨htext, -, hsymbols⟩ := hlines index
      exact hend _ ⟨by rw [htext, hw.1], by rw [hsymbols, hw.2]⟩ h

theorem resolveAll_ok {plt : Bool} {ps : List PendingBranch} {u v : CodeUnit}
    (h : resolveAll plt u ps = (v, none)) :
    v.text.length = u.text.length ∧ (∀ m, v.textOffset? m = u.textOffset? m) ∧
      ∀ p ∈ ps, p.target.isLocal → (u.textOffset? p.target.name).isSome := by
  induction ps generalizing u with
  | nil =>
    cases h
    simp
  | cons p rest ih =>
    unfold resolveAll at h
    split at h
    · rename_i w hw
      obtain ⟨hlength, hoffset, hlocal⟩ := resolve_ok hw
      obtain ⟨hlength', hoffset', hrest⟩ := ih h
      refine ⟨hlength'.trans hlength, fun m => (hoffset' m).trans (hoffset m), fun q hq => ?_⟩
      rcases List.mem_cons.mp hq with rfl | hq
      · exact hlocal
      · rw [← hoffset]
        exact hrest q hq
    · cases h

/-- The target of a branch has an offset, or the branch is left open. -/
theorem Draft.target {u : CodeUnit} {pos : Nat} {insts : List Inst} {text : List UInt8}
    {rels : List CodeUnit.Relocation} {pends : List PendingBranch}
    (h : Draft u pos insts text rels pends) {i : Inst} (hi : i ∈ insts) {t : Machine.Target}
    (ht : i.branchTarget? = some t) :
    (u.textOffset? t.name).isSome ∨ ∃ p ∈ pends, p.target = t := by
  induction h with
  | nil => cases hi
  | cons item rest ih =>
    rcases List.mem_cons.mp hi with rfl | hi
    · cases item with
      | label => cases ht
      | short branch offset | long branch offset =>
        cases branch.symm.trans ht
        exact .inl (by simp [offset])
      | reserved line branch =>
        cases branch.symm.trans ht
        exact .inr ⟨_, List.mem_append_left _ (List.mem_singleton.mpr rfl), rfl⟩
      | plain branch =>
        rw [branch] at ht
        cases ht
    · exact (ih hi).imp_right fun ⟨p, hp, htarget⟩ => ⟨p, List.mem_append_right _ hp, htarget⟩

end Assembler

/-! ## Modules -/

namespace Pipeline

open Assembler Traced

/-- A closure as it is emitted, and its machine code. -/
structure Emission where
  closure : Closure
  code : List Inst

namespace Emission

/-- The code with the label of the function. -/
def insts (e : Emission) : List Inst := head e.closure :: e.code

/-- The names of the data of the function. -/
def objects (e : Emission) : List String := e.closure.data.map DataItem.name

/-- What the pipeline makes of a closure: the passes leave the closure from which the code is
selected. -/
structure Of (c : Closure) (e : Emission) : Prop where
  passed : Passed c e.closure
  select : e.closure.select = .ok e.code

end Emission

theorem adds_compileClosures {p : Pipeline} {cs : List Closure} {a b : Assembler}
    (h : Ends (p.compileClosures a cs) (.ok b)) :
    ∃ es, List.Forall₂ Emission.Of cs es ∧
      Adds a b (es.flatMap Emission.insts) (es.flatMap Emission.objects) := by
  induction cs generalizing a with
  | nil =>
    cases ends_pure h
    exact ⟨[], .nil, .refl _⟩
  | cons c rest ih =>
    obtain ⟨m, hm, h⟩ := ends_bind_ok h
    obtain ⟨c', hpassed, hemit⟩ := emitted_of_compileClosure.1 m hm
    obtain ⟨code, hselect, hadds⟩ := adds_emitClosure hemit
    obtain ⟨es, hes, hrest⟩ := ih h
    exact ⟨⟨c', code⟩ :: es, .cons ⟨hpassed, hselect⟩ hes, hadds.trans hrest⟩

theorem placeGlobals_ok {gs : List Global} {u v : CodeUnit} (h : placeGlobals u gs = .ok v) :
    v.text = u.text ∧ v.relocs = u.relocs ∧ (∀ m, v.textOffset? m = u.textOffset? m) ∧
      ∀ m, v.Defines m ↔ m ∈ gs.map Global.name ∨ u.Defines m := by
  induction gs generalizing u with
  | nil =>
    cases h
    simp
  | cons g rest ih =>
    unfold placeGlobals at h
    split at h
    · rename_i w hw
      obtain ⟨htext, hrelocs⟩ := addData_fields hw
      obtain ⟨htext', hrelocs', hoffset, hdefines⟩ := ih h
      refine ⟨htext'.trans htext, hrelocs'.trans hrelocs, fun m => ?_, fun m => ?_⟩
      · rw [hoffset, CodeUnit.textOffset?_addData hw]
      · rw [hdefines, (CodeUnit.defines_addData hw).2, List.map_cons, List.mem_cons]
        tauto
    · cases h

theorem placeGlobals_ne_closure {gs : List Global} {u : CodeUnit} {e : ClosureError} :
    placeGlobals u gs ≠ .error (.closure e) := by
  induction gs generalizing u with
  | nil => exact fun h => nomatch h
  | cons g rest ih =>
    unfold placeGlobals
    split
    · exact ih
    · exact fun h => nomatch h

/-- The assembler with the globals of a module placed. -/
def Placed (p : Pipeline) (m : Module) (a : Assembler) : Prop :=
  ∃ u, placeGlobals { CodeUnit.empty m.ident with listing := p.listing } m.globals = .ok u ∧
    a = Assembler.start u p.target.options.plt

theorem Placed.spec {p : Pipeline} {m : Module} {a : Assembler} (h : Placed p m a) :
    Fresh a.unit ∧ a.pending = [] ∧ ∀ n, a.unit.Defines n ↔ n ∈ m.globals.map Global.name := by
  obtain ⟨u, hu, rfl⟩ := h
  obtain ⟨htext, hrelocs, hoffset, hdefines⟩ := placeGlobals_ok hu
  refine ⟨⟨htext, hrelocs, hoffset⟩, rfl, fun n => (hdefines n).trans ?_⟩
  have hempty : ¬ ({ CodeUnit.empty m.ident with listing := p.listing } : CodeUnit).Defines n :=
    CodeUnit.not_defines_empty m.ident n
  simp [hempty]

/-- A finished assembly of a fresh unit: what its text defines, its local targets, and its
references. -/
theorem adds_finish {a b : Assembler} {v : CodeUnit} {plt : Bool} {insts : List Inst}
    {objects : List String} (fresh : Fresh v) (h : Adds (start v plt) a insts objects)
    (hfinish : a.finish = (b, none)) :
    (∀ n, (b.unit.textOffset? n).isSome → n ∈ labels insts) ∧
      (∀ i ∈ insts, ∀ t, i.branchTarget? = some t → t.isLocal →
        (b.unit.textOffset? t.name).isSome) ∧
      (b.unit.text.length < 2 ^ 63 → Resolved b.unit insts) := by
  obtain ⟨text, rels, pends, hext, hdraft⟩ := h.draft
  have htext : text = a.unit.text := by
    rw [hext.text]
    exact (congrArg (· ++ text) fresh.text).symm
  have hrels : rels = a.unit.relocs := by
    rw [hext.relocs]
    exact (congrArg (· ++ rels) fresh.relocs).symm
  have hpends : pends = a.pending := hext.pending.symm
  have hzero : (start v plt).unit.text.length = 0 := congrArg List.length fresh.text
  rw [htext, hrels, hpends, hzero] at hdraft
  have hin : ∀ name value, a.unit.textOffset? name = some value →
      value.toNat ≤ a.unit.text.length := by
    refine hext.bounded fun name value hvalue => ?_
    rw [show (start v plt).unit.textOffset? name = none from fresh.symbols name] at hvalue
    cases hvalue
  unfold finish at hfinish
  split at hfinish
  · rename_i u hu
    cases hfinish
    obtain ⟨hlength, hoffset, hlocal⟩ := resolveAll_ok hu
    refine ⟨fun n hn => ?_, fun i hi t ht hl => ?_, fun hlen => ?_⟩
    · by_contra hnot
      rw [hoffset, h.text n hnot, show (start v plt).unit.textOffset? n = none from fresh.symbols n]
        at hn
      cases hn
    · rw [hoffset]
      rcases hdraft.target hi ht with hsome | ⟨p, hp, rfl⟩
      · exact hsome
      · exact hlocal p hp hl
    · have hlen : a.unit.text.length < 2 ^ 63 := by rwa [← hlength]
      have hinside : ∀ p ∈ a.pending, p.Inside 0 a.unit.text.length :=
        (hdraft.inside (by omega)).2
      obtain ⟨hfilled, hdisp⟩ := (resolveAll_spec a.plt hlen hinside).1 u hu
      exact resolved_of_filled hdraft hlen hin hfilled hdisp
  · cases hfinish

/-- The unit of a module holds the code of its closures. Every label is defined once, only they are
defined in the text, and so is every local target. Every reference of the linked text is
resolved. -/
theorem unit_of_compile {p : Pipeline} {m : Module} {u : CodeUnit}
    (h : Ends (p.compile m) (.ok u)) :
    ∃ es : List Emission, List.Forall₂ Emission.Of m.closures es ∧
      (labels (es.flatMap Emission.insts)).Nodup ∧
      (∀ n, (u.textOffset? n).isSome → n ∈ labels (es.flatMap Emission.insts)) ∧
      (∀ i ∈ es.flatMap Emission.insts, ∀ t, i.branchTarget? = some t → t.isLocal →
        (u.textOffset? t.name).isSome) ∧
      (u.text.length < 2 ^ 63 → Resolved u (es.flatMap Emission.insts)) := by
  obtain ⟨r, h, hr⟩ := ends_adapt h
  cases r with
  | error e => cases hr
  | ok u' =>
    cases hr
    obtain ⟨v, hv, h⟩ := ends_bind_ok h
    obtain ⟨a, ha, h⟩ := ends_bind_ok h
    obtain ⟨r, ha, hr⟩ := ends_adapt ha
    cases r with
    | error e => cases hr
    | ok a' =>
      cases hr
      obtain ⟨fresh, -, -⟩ := Placed.spec ⟨v, ends_lift_ok hv, rfl⟩
      obtain ⟨es, hes, hadds⟩ := adds_compileClosures ha
      split at h
      · rename_i b hb
        cases ends_pure h
        exact ⟨es, hes, hadds.once, adds_finish fresh hadds hb⟩
      · cases ends_throw h

end Pipeline

end Backend
