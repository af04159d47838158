-- Local labels of a module. Their names in the unit are made of the symbol of the function and the
-- name of the label, and two functions share one exactly if a symbol continues the other after a
-- dot. Where no symbol does, local branches stay in their function and no label is in the way of
-- another.
import Backend.Proofs.Pipeline.Emission

namespace Backend.Pipeline

open Assembler Selection Traced
open Machine (Inst labels)

/-! ## Names -/

/-- The name looks like that of a local label. -/
def LooksLocal (name : String) : Prop := ∃ rest, name = ".L" ++ rest

/-- The second symbol continues the first after a dot, and the label of the first function repeats
the rest of the symbol before the label of the second. -/
def Continues (s : String) (l : Label) (t : String) (k : Label) : Prop :=
  ∃ rest, t = s ++ "." ++ rest ∧ l.name = rest ++ "." ++ k.name

theorem labelName_local {c : Closure} {l : Label} (h : l.isLocal = true) :
    labelName c l = ".L" ++ c.symbol ++ "." ++ l.name := if_pos h

theorem looksLocal_labelName {c : Closure} {l : Label} (h : l.isLocal = true) :
    LooksLocal (labelName c l) :=
  ⟨c.symbol ++ "." ++ l.name, by rw [labelName_local h]; simp only [String.append_assoc]⟩

/-- Two different lists before a dot and what follows it: one continues the other. -/
theorem continues_of_append_eq {s t l k : List Char} (hne : s ≠ t)
    (h : s ++ '.' :: l = t ++ '.' :: k) :
    (∃ rest, t = s ++ '.' :: rest ∧ l = rest ++ '.' :: k) ∨
      ∃ rest, s = t ++ '.' :: rest ∧ k = rest ++ '.' :: l := by
  rcases List.append_eq_append_iff.mp h with ⟨rest, ht, hl⟩ | ⟨rest, hs, hk⟩
  · cases rest with
    | nil => exact absurd (by simpa using ht.symm) hne
    | cons x rest =>
      obtain ⟨rfl, hrest⟩ := List.cons.inj hl
      exact .inl ⟨rest, ht, hrest⟩
  · cases rest with
    | nil => exact absurd (by simpa using hs) hne
    | cons x rest =>
      obtain ⟨rfl, hrest⟩ := List.cons.inj hk
      exact .inr ⟨rest, hs, hrest⟩

/-- When the local labels of two functions have one name. -/
theorem labelName_eq_iff {c d : Closure} {l k : Label} (hne : c.symbol ≠ d.symbol)
    (hl : l.isLocal = true) (hk : k.isLocal = true) : labelName c l = labelName d k ↔
      Continues c.symbol l d.symbol k ∨ Continues d.symbol k c.symbol l := by
  have hname (s t : String) :
      (".L" ++ s ++ "." ++ t).toList = '.' :: 'L' :: (s.toList ++ '.' :: t.toList) := by
    simp [String.toList_append]
  have hcontinues (s : String) (l : Label) (t : String) (k : Label) : Continues s l t k ↔
      ∃ rest, t.toList = s.toList ++ '.' :: rest ∧
      l.name.toList = rest ++ '.' :: k.name.toList := by
    constructor
    · rintro ⟨rest, rfl, hl⟩
      exact ⟨rest.toList, by simp [String.toList_append], by simp [hl, String.toList_append]⟩
    · rintro ⟨rest, ht, hl⟩
      exact ⟨String.ofList rest, String.toList_inj.mp (by simp [ht, String.toList_append]),
        String.toList_inj.mp (by simp [hl, String.toList_append])⟩
  rw [labelName_local hl, labelName_local hk, ← String.toList_inj, hname, hname, hcontinues,
    hcontinues]
  constructor
  · intro h
    refine continues_of_append_eq (fun he => hne (String.toList_inj.mp he)) ?_
    simpa using h
  · rintro (⟨rest, ht, hl⟩ | ⟨rest, hs, hk⟩)
    · simp [ht, hl]
    · simp [hs, hk]

/-- Names that keep the labels of functions apart: no symbol continues another after a dot, and no
function and no global label looks like a local label. -/
structure Separate (m : Module) : Prop where
  symbols : ∀ c ∈ m.closures, ∀ d ∈ m.closures, ∀ rest, d.symbol ≠ c.symbol ++ "." ++ rest
  heads : ∀ c ∈ m.closures, ¬ LooksLocal c.symbol
  globals : ∀ c ∈ m.closures, ∀ b ∈ c.blocks, ∀ i ∈ b.ops, i.op = .label →
    ∀ l, i.output = some (.label l) → l.isLocal = false → ¬ LooksLocal l.name

/-- A function that defines the name of a local label of a function has its symbol. -/
theorem Separate.symbol_eq {m : Module} (h : Separate m) {c d : Closure} (hc : c ∈ m.closures)
    (hd : d ∈ m.closures) {e : Emission} (he : Emission.Of d e) {l : Label}
    (hl : l.isLocal = true) (hmem : labelName c l ∈ labels e.insts) :
    d.symbol = c.symbol ∧ labelName c l ∈ labels e.code := by
  have hlooks := looksLocal_labelName (c := c) hl
  rcases List.mem_cons.mp hmem with hhead | hcode
  · rw [hhead, he.passed.symbol] at hlooks
    exact absurd hlooks (h.heads d hd)
  · refine ⟨?_, hcode⟩
    obtain ⟨i, hi, hop, k, hk, hname⟩ := (mem_labels_instrs he.select).mp hcode
    obtain ⟨b, hb, hi⟩ := List.mem_flatMap.mp (he.passed.labels i hi hop)
    cases hlocal : k.isLocal with
    | false =>
      have hglobal : labelName e.closure k = k.name := by simp [labelName, hlocal]
      rw [hname, hglobal] at hlooks
      exact absurd hlooks (h.globals d hd b hb i hi hop k hk hlocal)
    | true =>
      by_contra hne
      have hne : c.symbol ≠ e.closure.symbol := by
        rw [he.passed.symbol]
        exact fun h => hne h.symm
      rcases (labelName_eq_iff hne hl hlocal).mp hname with ⟨rest, hs, -⟩ | ⟨rest, hs, -⟩
      · rw [he.passed.symbol] at hs
        exact h.symbols c hc d hd rest hs
      · rw [he.passed.symbol] at hs
        exact h.symbols d hd c hc rest hs

/-! ## Units -/

/-- Two closures that define a common name are one. -/
theorem eq_of_common_label {es : List Emission} (h : (labels (es.flatMap Emission.insts)).Nodup)
    {d e : Emission} (hd : d ∈ es) (he : e ∈ es) {n : String} (hnd : n ∈ labels d.insts)
    (hne : n ∈ labels e.insts) : d = e := by
  have hflat : labels (es.flatMap Emission.insts) = es.flatMap fun e => labels e.insts := by
    unfold Machine.labels
    rw [List.filterMap_flatMap]
  rw [hflat, List.nodup_flatMap] at h
  by_contra hdiff
  have : Std.Symm (Function.onFun List.Disjoint fun e : Emission => labels e.insts) :=
    ⟨fun _ _ h => h.symm⟩
  exact h.2.forall hd he hdiff hnd hne

theorem exists_of_mem_emissions {cs : List Closure} {es : List Emission}
    (h : List.Forall₂ Emission.Of cs es) {e : Emission} (he : e ∈ es) :
    ∃ c ∈ cs, Emission.Of c e := by
  induction h with
  | nil => cases he
  | cons hof _ ih =>
    rcases List.mem_cons.mp he with rfl | he
    · exact ⟨_, List.mem_cons_self, hof⟩
    · obtain ⟨c, hc, hof⟩ := ih he
      exact ⟨c, List.mem_cons_of_mem _ hc, hof⟩

theorem mem_labels_emissions {es : List Emission} {n : String} :
    n ∈ labels (es.flatMap Emission.insts) ↔ ∃ e ∈ es, n ∈ labels e.insts := by
  unfold Machine.labels
  rw [List.filterMap_flatMap, List.mem_flatMap]

/-- A definition is refused while a closure is emitted: the name is that of an object, a label of a
closure before it, or twice a label of its own. -/
structure Clash (m : Module) (done : List Emission) (e : Emission) (n : String) : Prop where
  label : n ∈ labels e.insts
  cause : n ∈ m.globals.map Global.name ∨ n ∈ done.flatMap Emission.objects ∨
    n ∈ labels (done.flatMap Emission.insts) ∨ 1 < (labels e.insts).count n

theorem clash_of_compileClosures {p : Pipeline} {cs : List Closure} {a : Assembler}
    {name closure n : String}
    (h : Ends (p.compileClosures a cs) (.error (.emit name (.assemble closure
      (.unit (.alreadyDefined n)))))) :
    ∃ before c after done e, cs = before ++ c :: after ∧ List.Forall₂ Emission.Of before done ∧
      Emission.Of c e ∧ n ∈ labels e.insts ∧
      (a.unit.Defines n ∨ n ∈ done.flatMap Emission.objects ∨
        n ∈ labels (done.flatMap Emission.insts) ∨ 1 < (labels e.insts).count n) := by
  induction cs generalizing a with
  | nil => cases ends_pure h
  | cons c rest ih =>
    rcases ends_bind h with ⟨b, hb, h⟩ | ⟨e, he, heq⟩
    · obtain ⟨c', hpassed, hemit⟩ := emitted_of_compileClosure.1 b hb
      obtain ⟨code, hselect, hadds⟩ := adds_emitClosure hemit
      obtain ⟨before, d, after, done, e, rfl, hdone, he, hmem, hcause⟩ := ih h
      refine ⟨c :: before, d, after, ⟨c', code⟩ :: done, e, rfl, .cons ⟨hpassed, hselect⟩ hdone, he,
        hmem, ?_⟩
      rw [hadds.defines] at hcause
      rw [List.flatMap_cons, List.flatMap_cons, Machine.labels_append, List.mem_append,
        List.mem_append]
      change _ ∨ (n ∈ c'.data.map DataItem.name ∨ _) ∨ (n ∈ labels (head c' :: code) ∨ _) ∨ _
      tauto
    · cases heq
      obtain ⟨c', hpassed, hemit⟩ := emitted_of_compileClosure.2 _ _ he
      obtain ⟨code, hselect, hmem, hcause⟩ := defines_of_emit_refused hemit
      refine ⟨[], c, rest, [], ⟨c', code⟩, rfl, .nil, ⟨hpassed, hselect⟩, hmem, ?_⟩
      exact hcause.imp_right fun h => .inr (.inr h)

/-- A module is refused for a definition only if names clash in it. -/
theorem clash_of_compile {p : Pipeline} {m : Module} {ident name closure n : String}
    (h : Ends (p.compile m) (.error ⟨ident, .closure (.emit name (.assemble closure
      (.unit (.alreadyDefined n))))⟩)) :
    ∃ before c after done e, m.closures = before ++ c :: after ∧
      List.Forall₂ Emission.Of before done ∧ Emission.Of c e ∧ Clash m done e n := by
  obtain ⟨r, h, hr⟩ := ends_adapt h
  cases r with
  | ok u => cases hr
  | error defect =>
    cases hr
    rcases ends_bind h with ⟨v, hv, h⟩ | ⟨e, he, heq⟩
    · obtain ⟨-, -, hdefines⟩ := Placed.spec ⟨v, ends_lift_ok hv, rfl⟩
      rcases ends_bind h with ⟨a, -, h⟩ | ⟨e, he, heq⟩
      · split at h
        · cases ends_pure h
        · cases ends_throw h
      · obtain ⟨r, hall, hr⟩ := ends_adapt he
        cases heq
        cases r with
        | ok a => cases hr
        | error cause =>
          cases hr
          obtain ⟨before, c, after, done, e, hsplit, hdone, he, hmem, hcause⟩ :=
            clash_of_compileClosures hall
          rw [hdefines] at hcause
          exact ⟨before, c, after, done, e, hsplit, hdone, he, hmem, hcause⟩
    · obtain ⟨cause, hcause, hid⟩ := ends_lift_error he
      cases heq
      cases hid
      exact absurd hcause placeGlobals_ne_closure

/-! ## Local labels -/

/-- Two functions with different symbols share the name of a local label exactly if a symbol
continues the other after a dot. If no symbol does and nothing else looks like a local label, a
branch to a local label goes to the one definition of the name, which is in its own function, and a
local label is refused only for a label of a function with its symbol, or for an object. -/
theorem local_labels_stay_apart (m : Module) (hm : Separate m) (p : Pipeline) :
    (∀ c d l k, c.symbol ≠ d.symbol → l.isLocal = true → k.isLocal = true →
      (labelName c l = labelName d k ↔
        Continues c.symbol l d.symbol k ∨ Continues d.symbol k c.symbol l)) ∧
    (∀ u, (p.compile m).result.1 = .ok u → ∃ es : List Emission,
      List.Forall₂ Emission.Of m.closures es ∧
      (u.text.length < 2 ^ 63 → Resolved u (es.flatMap Emission.insts)) ∧
      ∀ e ∈ es, ∀ i ∈ e.code, ∀ l, l.isLocal = true →
        i.branchTarget? = some ⟨labelName e.closure l, true⟩ →
        labelName e.closure l ∈ labels e.code ∧
          ∀ d ∈ es, labelName e.closure l ∈ labels d.insts → d = e) ∧
    ∀ ident name closure n, (p.compile m).result.1 = .error ⟨ident, .closure (.emit name
        (.assemble closure (.unit (.alreadyDefined n))))⟩ →
      ∃ before c after done e, m.closures = before ++ c :: after ∧
        List.Forall₂ Emission.Of before done ∧ Emission.Of c e ∧ Clash m done e n ∧
        ∀ l, l.isLocal = true → n = labelName c l →
          n ∈ m.globals.map Global.name ∨ n ∈ done.flatMap Emission.objects ∨
            (∃ d ∈ done, d.closure.symbol = c.symbol ∧ n ∈ labels d.code) ∨
            1 < (labels e.code).count n := by
  refine ⟨fun c d l k hne hl hk => labelName_eq_iff hne hl hk, fun u hu => ?_,
    fun ident name closure n hn => ?_⟩
  · obtain ⟨es, hes, honce, htext, htarget, hresolved⟩ := unit_of_compile (ends_of_result hu)
    refine ⟨es, hes, hresolved, fun e he i hi l hl hbranch => ?_⟩
    have hi : i ∈ es.flatMap Emission.insts :=
      List.mem_flatMap.mpr ⟨e, he, List.mem_cons_of_mem _ hi⟩
    obtain ⟨d, hd, hmem⟩ := mem_labels_emissions.mp (htext _ (htarget i hi _ hbranch rfl))
    obtain ⟨c, hc, hof⟩ := exists_of_mem_emissions hes he
    obtain ⟨c', hc', hof'⟩ := exists_of_mem_emissions hes hd
    have hname : labelName e.closure l = labelName c l := by
      rw [labelName_local hl, labelName_local hl, hof.passed.symbol]
    rw [hname] at hmem
    obtain ⟨hsymbol, hcode⟩ := hm.symbol_eq hc hc' hof' hl hmem
    have hhead : e.closure.symbol = d.closure.symbol := by
      rw [hof.passed.symbol, hof'.passed.symbol, hsymbol]
    have hsame : d = e := eq_of_common_label honce hd he (n := d.closure.symbol)
      List.mem_cons_self (by rw [← hhead]; exact List.mem_cons_self)
    subst hsame
    rw [hname]
    exact ⟨hcode, fun d' hd' hmem' => eq_of_common_label honce hd' hd hmem' hmem⟩
  · obtain ⟨before, c, after, done, e, hsplit, hdone, hof, hclash⟩ :=
      clash_of_compile (ends_of_result hn)
    refine ⟨before, c, after, done, e, hsplit, hdone, hof, hclash, fun l hl hname => ?_⟩
    have hc : c ∈ m.closures := by simp [hsplit]
    rcases hclash.cause with h | h | h | h
    · exact .inl h
    · exact .inr (.inl h)
    · obtain ⟨d, hd, hmem⟩ := mem_labels_emissions.mp h
      obtain ⟨c', hc', hof'⟩ := exists_of_mem_emissions hdone hd
      rw [hname] at hmem
      obtain ⟨hsymbol, hcode⟩ := hm.symbol_eq hc (by simp [hsplit, hc']) hof' hl hmem
      rw [hname]
      exact .inr (.inr (.inl ⟨d, hd, hof'.passed.symbol.trans hsymbol, hcode⟩))
    · refine .inr (.inr (.inr ?_))
      have hhead : e.closure.symbol ≠ n := by
        rintro rfl
        refine hm.heads c hc ?_
        rw [← hof.passed.symbol, hname]
        exact looksLocal_labelName hl
      have hcount : (labels e.insts).count n = (labels e.code).count n :=
        List.count_cons_of_ne hhead
      rwa [← hcount]

/-- A function of one block. -/
def function (symbol : String) (ops : List Instr) : Closure :=
  ⟨symbol, symbol, true, .void, [], [⟨"entry", ops, [], [], [], []⟩], [], [], [], 0, []⟩

def branchTo (l : Label) : Instr := .make .bal none none (some (.label l))

def labelAt (l : Label) : Instr := .make .label none none (some (.label l))

def leave : Instr := .make .ret none none none

/-- Lowering and emission alone. -/
def unoptimised : Pipeline := ⟨.amd64Linux ⟨false, false, []⟩, false, 0, false, false, false⟩

/-- Two functions, each with a local label of one name. -/
def twoLoops : Module :=
  ⟨"m", [], [function "f" [branchTo ⟨"x", true⟩, labelAt ⟨"x", true⟩, leave],
    function "g" [labelAt ⟨"x", true⟩, branchTo ⟨"x", true⟩]]⟩

theorem local_labels_of_two_loops : Separate twoLoops ∧
    ∃ u, (unoptimised.compile twoLoops).result.1 = .ok u ∧
      u.textOffset? ".Lf.x" = some 5 ∧ u.textOffset? ".Lg.x" = some 10 ∧
      ∃ es : List Emission, List.Forall₂ Emission.Of twoLoops.closures es ∧
        Resolved u (es.flatMap Emission.insts) := by
  have hsymbols (s t rest : String) (hs : s.length = 1) (ht : t.length = 1) :
      t ≠ s ++ "." ++ rest := by
    intro h
    have hlength := congrArg String.length h
    have hdot : ".".length = 1 := rfl
    rw [String.length_append, String.length_append] at hlength
    omega
  have hlooks (s : String) (hs : s.length = 1) : ¬ LooksLocal s := by
    rintro ⟨rest, h⟩
    have hlength := congrArg String.length h
    have hmark : ".L".length = 2 := rfl
    rw [String.length_append] at hlength
    omega
  have hseparate : Separate twoLoops := by
    refine ⟨fun c hc d hd rest => ?_, fun c hc => ?_, fun c hc b hb i hi hop l hl hlocal => ?_⟩
    · simp only [twoLoops, List.mem_cons, List.not_mem_nil, or_false] at hc hd
      rcases hc with rfl | rfl <;> rcases hd with rfl | rfl <;> exact hsymbols _ _ rest rfl rfl
    · simp only [twoLoops, List.mem_cons, List.not_mem_nil, or_false] at hc
      rcases hc with rfl | rfl <;> exact hlooks _ rfl
    · have hx : ∀ c ∈ twoLoops.closures, ∀ b ∈ c.blocks, ∀ i ∈ b.ops, i.op = .label →
          i.output = some (.label ⟨"x", true⟩) := by
        simp [twoLoops, function, branchTo, labelAt, leave, Instr.make]
      rw [hx c hc b hb i hi hop] at hl
      cases hl
      cases hlocal
  have h := (local_labels_stay_apart twoLoops hseparate unoptimised).2.1 _ rfl
  obtain ⟨es, hes, hresolved, -⟩ := h
  exact ⟨hseparate, _, rfl, rfl, rfl, es, hes, hresolved (by decide)⟩

/-- A function that goes to a local label, and another function with a local label. The symbol of
the second continues that of the first. -/
def dotted (ops : List Instr) : Module :=
  ⟨"m", [], [function "f" (branchTo ⟨"g.x", true⟩ :: ops),
    function "f.g" [labelAt ⟨"x", true⟩, leave]]⟩

/-- Labels of differently named functions may share a name. The first function then goes to the
label of the second if it has none, and if it has one the second is refused. -/
theorem local_label_shared_across_functions :
    "f" ≠ "f.g" ∧
    labelName (function "f" []) ⟨"g.x", true⟩ = labelName (function "f.g" []) ⟨"x", true⟩ ∧
    (function "f" [branchTo ⟨"g.x", true⟩]).select =
      .ok [.unary .jmp (.target ⟨".Lf.g.x", true⟩)] ∧
    (∃ u, (unoptimised.compile (dotted [])).result.1 = .ok u ∧
      u.textOffset? "f.g" = some 5 ∧ u.textOffset? ".Lf.g.x" = some 5 ∧
      u.text.take 5 = [0xe9, 0, 0, 0, 0]) ∧
    (unoptimised.compile (dotted [labelAt ⟨"g.x", true⟩])).result.1 =
      .error ⟨"m", .closure (.emit "f.g" (.assemble "f.g"
        (.unit (.alreadyDefined ".Lf.g.x"))))⟩ :=
  ⟨by decide, by decide, rfl, ⟨_, rfl, rfl, rfl, rfl⟩, rfl⟩

end Backend.Pipeline
