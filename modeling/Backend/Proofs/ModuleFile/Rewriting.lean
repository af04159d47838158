-- A module file survives being rewritten: the file written for a module that was read is read as
-- the same module, unless an instruction in it has no written form of its own.
import Backend.Proofs.ModuleFile.Loaded

namespace Backend.ModuleFile

open Text (trim)
open Instr (Separable SameNameless)
open Operand (Printable)
open Yaml (Node)
open Yaml.Decode

variable {codec : Codec}

/-! ## The same module -/

/-- The same block, where instructions have the same operands in the same slots up to the names of
registers, and may come from other places. -/
structure SameBlock (b b' : Block) : Prop where
  label : b'.label = b.label
  ops : List.Forall₂ SameNameless b.ops b'.ops
  liveIn : b'.liveIn = b.liveIn
  liveOut : b'.liveOut = b.liveOut
  succs : b'.succs = b.succs
  preds : b'.preds = b.preds

/-- The same function. The locations are a table, whose order means nothing. -/
structure SameClosure (c c' : Closure) : Prop where
  name : c'.name = c.name
  symbol : c'.symbol = c.symbol
  isGlobal : c'.isGlobal = c.isGlobal
  ret : c'.ret = c.ret
  locals : c'.locals = c.locals
  locations : c'.locations.Perm c.locations
  blocks : List.Forall₂ SameBlock c.blocks c'.blocks
  unplaced : c'.imms = c.imms ∧ c'.data = c.data ∧ c'.frame = c.frame ∧ c'.saved = c.saved

/-- The same module. -/
structure SameModule (m m' : Module) : Prop where
  ident : m'.ident = m.ident
  globals : m'.globals = m.globals
  closures : List.Forall₂ SameClosure m.closures m'.closures

/-! ## What can be written -/

/-- The instruction has a written form of its own: an operation that has only an output, or only
sources, is one that is read so, the registers have widths of their class and no displacement is
the least one. -/
structure Distinct (i : Instr) : Prop where
  separable : Separable i
  printable : ∀ slot ∈ i.slots, ∀ o, slot = some o → Printable o

/-! ## Locations -/

theorem location_text {l : Location} (h : LoadedLocation l) :
    location registerOfName? (locationText l) = .ok l := by
  cases h with
  | @reg r known =>
    have hr := tableRegister known
    have hne : r.name.toList ≠ [] := by simpa using hr.ne_empty
    have htrim : trim r.name.toList = r.name.toList := by
      have hblank : ∀ c ∈ r.name.toList, Text.isBlank c = false := fun c hc =>
        Instr.isBlank_of_isWordChar (hr.word c hc)
      exact Instr.trim_eq ⟨⟨_, List.head?_eq_some_head hne, hblank _ (List.head_mem hne)⟩, _,
        List.getLast?_eq_some_getLast hne, hblank _ (List.getLast_mem hne)⟩
    have hstack : "stack(".toList.isPrefixOf r.name.toList = false := by
      rw [Bool.eq_false_iff]
      intro hprefix
      have hmem : '(' ∈ r.name.toList :=
        (List.isPrefixOf_iff_prefix.mp hprefix).subset (by decide)
      have hword := hr.word '(' hmem
      revert hword
      decide
    rw [location]
    simp only [locationText, htrim, hstack, Bool.false_eq_true, if_false,
      String.ofList_toList, known]
  | stack n =>
    have htext : (locationText ⟨none, some n⟩).toList =
        "stack(".toList ++ ((toString n.toInt).toList ++ [')']) := by
      simp [locationText]
    have htrim : trim (locationText ⟨none, some n⟩).toList =
        "stack(".toList ++ ((toString n.toInt).toList ++ [')']) := by
      rw [htext]
      refine Instr.trim_eq ⟨⟨'s', rfl, by decide⟩, ')', ?_, by decide⟩
      rw [← List.append_assoc, List.getLast?_append]
      rfl
    have hoffset : stackOffset ((toString n.toInt).toList ++ [')']) = .ok n := by
      rw [stackOffset, List.reverse_append]
      simp only [List.reverse_cons, List.reverse_nil, List.nil_append, List.cons_append,
        List.reverse_reverse, Text.readInt64_toString]
    rw [location]
    simp only [htrim, List.isPrefixOf_iff_prefix.mpr (List.prefix_append _ _), if_true]
    exact bind_eq_ok.mpr ⟨n, hoffset, rfl⟩

/-! ## Instructions and blocks -/

theorem instruction_text (hcodec : codec.Faithful) {i : Instr} (hread : i.Loaded)
    (hi : Distinct i) :
    ∃ j, codec.instruction registerOfName? [] (.ofSource i.text) = .ok j ∧ SameNameless i j := by
  have hoperands : i.OperandsRead := fun slot hslot o ho =>
    ⟨hread slot hslot o ho, hi.printable slot hslot o ho⟩
  obtain ⟨j, hj, hsame⟩ := Instr.parse_text_of_read hoperands hi.separable
  refine ⟨{ j with pos := ⟨(Node.ofSource i.text).line, (Node.ofSource i.text).column⟩ }, ?_,
    hsame.op, hsame.first, hsame.second, hsame.addend, hsame.output⟩
  simp only [Codec.instruction, hcodec.text, Option.getD_some, hj]

/-- The same block, its predecessors aside. -/
structure SameUnlinked (b b' : Block) : Prop where
  label : b'.label = b.label
  ops : List.Forall₂ SameNameless b.ops b'.ops
  liveIn : b'.liveIn = b.liveIn
  liveOut : b'.liveOut = b.liveOut
  succs : b'.succs = b.succs

theorem blocksFrom_declareBlock (hcodec : codec.Faithful) {blocks : List Block}
    {labels : List String} (hloaded : ∀ b ∈ blocks, LoadedBlock b)
    (hops : ∀ b ∈ blocks, ∀ i ∈ b.ops, Distinct i)
    (hlabels : (blocks.map Block.label).Nodup) (hnew : ∀ b ∈ blocks, b.label ∉ labels) :
    ∃ blocks', codec.blocksFrom registerOfName? [] labels (blocks.map declareBlock) = .ok blocks' ∧
      List.Forall₂ SameUnlinked blocks blocks' := by
  induction blocks generalizing labels with
  | nil => exact ⟨[], rfl, .nil⟩
  | cons b blocks ih =>
    obtain ⟨hb, hrest⟩ := List.forall_mem_cons.mp hloaded
    obtain ⟨hbops, hrestOps⟩ := List.forall_mem_cons.mp hops
    obtain ⟨hbnew, hrestNew⟩ := List.forall_mem_cons.mp hnew
    rw [List.map_cons, List.nodup_cons] at hlabels
    have hone : ∀ i ∈ b.ops, ∃ j, codec.instruction registerOfName? [] (.ofSource i.text) = .ok j ∧
        SameNameless i j := fun i hi => instruction_text hcodec (hb.ops i hi) (hbops i hi)
    obtain ⟨ops, hread, hsame⟩ := exists_mapM_ok hone
    have hread' : (declareBlock b).ops.mapM (codec.instruction registerOfName? []) = .ok ops :=
      mapM_eq_ok.mpr (List.forall₂_map_left_iff.mpr (mapM_eq_ok.mp hread))
    have hmoreNew : ∀ c ∈ blocks, c.label ∉ b.label :: labels := by
      intro c hc hmem
      rcases List.mem_cons.mp hmem with heq | hmem
      · exact hlabels.1 (heq ▸ List.mem_map_of_mem hc)
      · exact hrestNew c hc hmem
    obtain ⟨more, hmore, hsameMore⟩ := ih hrest hrestOps hlabels.2 hmoreNew
    exact ⟨_, blocksFrom_cons_eq_ok.mpr ⟨ops, more, hread', hbnew, hmore, rfl⟩,
      .cons ⟨rfl, hsame, hb.liveIn, hb.liveOut, rfl⟩ hsameMore⟩

theorem outline_of_same {blocks blocks' : List Block}
    (h : List.Forall₂ SameUnlinked blocks blocks') : outline blocks' = outline blocks := by
  induction h with
  | nil => rfl
  | cons hb _ ih =>
    simp only [outline, List.map_cons] at ih ⊢
    rw [ih, hb.label, hb.succs]

theorem same_linkPredecessors {blocks blocks' : List Block} (graph : List (String × List String))
    (hlinked : ∀ b ∈ blocks, b.preds = predecessors graph b.label)
    (h : List.Forall₂ SameUnlinked blocks blocks') : List.Forall₂ SameBlock blocks
      (blocks'.map fun b => { b with preds := predecessors graph b.label }) := by
  induction h with
  | nil => exact .nil
  | cons hb _ ih =>
    obtain ⟨hpreds, hrest⟩ := List.forall_mem_cons.mp hlinked
    refine .cons ⟨hb.label, hb.ops, hb.liveIn, hb.liveOut, hb.succs, ?_⟩ (ih hrest)
    rw [hpreds, ← hb.label]

/-! ## Functions -/

theorem localVar_text {v : Var} (h : Operand.Readable (.var v)) :
    localVar registerOfName? v.text = .ok v := by
  obtain ⟨o, hparse, hsame⟩ := Operand.parse_text h (.var v)
  have ho : o = .var v := by
    cases o <;> simp_all [Operand.nameless]
  rw [ho] at hparse
  have htext : v.text.toList = (Operand.var v).text.toList := by rw [Operand.text]
  rw [localVar, htext, hparse]

theorem name_ne_empty (t : Ty) : t.name ≠ "" := by
  cases t <;> decide

theorem returnType_declared (t : Ty) : returnType (if t = .void then "" else t.name) = .ok t := by
  split
  · rename_i h
    rw [h]
    rfl
  · have hname : (t.name == "") = false := by simpa using name_ne_empty t
    simp only [returnType, hname, Bool.false_eq_true, if_false, Ty.ofName?_name]

theorem located_texts {locs : Locations} (h : ∀ entry ∈ locs, LoadedLocation entry.2) :
    (locationTexts locs).mapM (located registerOfName?) = .ok (Yaml.sortEntries locs) := by
  rw [mapM_eq_ok, locationTexts, List.forall₂_map_left_iff, List.forall₂_same]
  intro entry hentry
  exact located_eq_ok.mpr ⟨rfl, location_text (h entry ((sortEntries_perm locs).mem_iff.mp hentry))⟩

theorem closure_declareClosure (hcodec : codec.Faithful) {c : Closure} (h : LoadedClosure c)
    (hops : ∀ b ∈ c.blocks, ∀ i ∈ b.ops, Distinct i) :
    ∃ c', codec.closure registerOfName? [] (declareClosure c) = .ok c' ∧ SameClosure c c' := by
  obtain ⟨blocks, hread, hsame⟩ :=
    blocksFrom_declareBlock hcodec h.blocks hops h.labels fun _ _ => List.not_mem_nil
  have houtline := outline_of_same hsame
  have hlocals : (c.locals.map Var.text).mapM (localVar registerOfName?) = .ok c.locals := by
    rw [mapM_eq_ok, List.forall₂_map_left_iff, List.forall₂_same]
    exact fun v hv => localVar_text (h.locals v hv)
  refine ⟨_, closure_eq_ok.mpr ⟨h.named, c.ret, c.locals, _, blocks, returnType_declared c.ret,
    hlocals, located_texts h.locations, hread, houtline ▸ h.closed, rfl⟩, ?_⟩
  have hsymbol : (if (declareClosure c).symbol = "" then (declareClosure c).name
      else (declareClosure c).symbol) = c.symbol := by
    by_cases hs : c.symbol = c.name <;> simp [declareClosure, hs, h.symbol]
  refine ⟨rfl, hsymbol, rfl, rfl, rfl, sortEntries_perm c.locations, ?_, ?_⟩
  · rw [linkPredecessors_eq, houtline]
    exact same_linkPredecessors (outline c.blocks) h.linked hsame
  · obtain ⟨himms, hdata, hframe, hsaved⟩ := h.unplaced
    exact ⟨himms.symm, hdata.symm, hframe.symm, hsaved.symm⟩

/-! ## Modules -/

theorem global_declareGlobal (hcodec : codec.Faithful) {g : Global} (h : LoadedGlobal g) :
    codec.global [] (declareGlobal g) = .ok g := by
  have hbytes := hcodec.bytes g.value
  have hname : (g.name == "") = false := by simpa using h.named
  have hsettled : settledSize (declareGlobal g) g.value = g.size := by
    have hne := h.positive.ne'
    simp [settledSize, declareGlobal, hne]
  have hsized : sizedGlobal (declareGlobal g) g.value = .ok g :=
    sizedGlobal_eq_ok.mpr ⟨hsettled ▸ h.fits, by rw [hsettled]; rfl⟩
  have hvalue : codec.valueBytes [] g.size (.ofFlowItems (g.value.map fun b => .ofInt b.toNat)) =
      .ok g.value := by
    rw [Node.ofFlowItems] at hbytes ⊢
    simp only [Codec.valueBytes, hbytes, Option.getD_some]
  rw [Codec.global]
  simp only [declareGlobal, hname, Bool.false_eq_true, if_false, hvalue, Except.bind]
  rw [← declareGlobal, hsized]

/-! ## Rewriting with a codec -/

/-- Any faithful codec reads the module again from the document that is written for it. -/
theorem Codec.Faithful.keeps_module (hcodec : codec.Faithful) {d : Yaml.Document} {m : Module}
    (h : codec.ofDocument registerOfName? d = .ok m)
    (hvalues : ∀ g ∈ m.globals, g.value.length < 2 ^ 63)
    (hops : ∀ c ∈ m.closures, ∀ b ∈ c.blocks, ∀ i ∈ b.ops, Distinct i) :
    ∃ m', codec.ofDocument registerOfName? ⟨toNode m, []⟩ = .ok m' ∧ SameModule m m' := by
  have hm := loadedModule hcodec h
  have hdeclarable : Declarable m := by
    refine ⟨fun g hg => ?_, fun c hc => (hm.closures c hc).distinct,
      fun c hc => (hm.closures c hc).symbol⟩
    exact ⟨(hm.globals g hg).1.positive, (hm.globals g hg).2 (hvalues g hg)⟩
  have hone : ∀ c ∈ m.closures, ∃ c',
      codec.namedClosure registerOfName? [] (declareClosure c) = .ok c' ∧ SameClosure c c' := by
    intro c hc
    obtain ⟨c', hc', hsame⟩ := closure_declareClosure hcodec (hm.closures c hc) (hops c hc)
    exact ⟨c', namedClosure_eq_ok.mpr hc', hsame⟩
  obtain ⟨closures, hread, hsame⟩ := exists_mapM_ok hone
  have hclosures : (m.closures.map declareClosure).mapM (codec.namedClosure registerOfName? []) =
      .ok closures := mapM_eq_ok.mpr (List.forall₂_map_left_iff.mpr (mapM_eq_ok.mp hread))
  have hglobals : (m.globals.map declareGlobal).mapM (codec.global []) = .ok m.globals := by
    rw [mapM_eq_ok, List.forall₂_map_left_iff, List.forall₂_same]
    exact fun g hg => global_declareGlobal hcodec (hm.globals g hg).1
  refine ⟨⟨m.ident, m.globals, closures⟩, ?_, rfl, rfl, hsame⟩
  rw [Codec.ofDocument, hcodec.written m hdeclarable]
  exact resolve_eq_ok.mpr ⟨hglobals, hclosures, rfl⟩

/-! ## A file of a loop -/

/-- An instruction that is read from a node without a place. -/
theorem instruction_of_parse {text : String} {i : Instr}
    (h : Instr.parse registerOfName? text.toList = .ok i) :
    yaml.instruction registerOfName? [] (.ofSource text) = .ok { i with pos := ⟨1, 1⟩ } := by
  simp only [Codec.instruction, faithful_yaml.text, Option.getD_some, h]
  rfl

def counter : Var := ⟨"n", .i64, false, false⟩

/-- Takes a word of memory away from the counter. -/
def subtractWord : Instr :=
  ⟨.sub, some (.var counter), some (.indirect (some (.reg (gpr 6 8))) none 0 0 .i64), none,
    some (.var counter), ⟨1, 1⟩⟩

/-- A word of the stack, which the operation has as its output without an arrow. -/
def popCounter : Instr := ⟨.pop, none, none, none, some (.var counter), ⟨1, 1⟩⟩

/-- The second block follows the first twice and itself once. -/
def loopBlocks : List Block :=
  [⟨"entry", [popCounter], [], ["n"], ["loop", "loop"], []⟩,
    ⟨"loop", [subtractWord], ["n"], ["n"], ["loop"], ["entry", "entry", "loop"]⟩]

def loopClosure : Closure :=
  ⟨"f", "F", true, .i64, [⟨"t", .i32, false, false⟩], loopBlocks,
    [("n", ⟨some (gpr 3 8), none⟩), ("t", ⟨none, some (-8)⟩)], [], [], 0, []⟩

def loopModule : Module := ⟨"m", [⟨"g", 8, [1, 2, 3]⟩], [loopClosure]⟩

theorem ordered_singleton (name : String) : Ordered [name] := by
  rw [Ordered, nameSet, List.mergeSort_singleton]
  rfl

theorem ordered_nil : Ordered [] := by
  rw [Ordered, nameSet, List.mergeSort_nil]
  rfl

theorem blocksFrom_loopBlocks :
    yaml.blocksFrom registerOfName? [] [] (loopBlocks.map declareBlock) =
    .ok (loopBlocks.map fun b => { b with preds := [] }) := by
  have hpop : Instr.parse registerOfName? "pop %n:i64".toList =
      .ok { popCounter with pos := ⟨0, 0⟩ } := by cbv
  have hsub : Instr.parse registerOfName? "sub %n:i64, [rsi]:i64 -> %n:i64".toList =
      .ok { subtractWord with pos := ⟨0, 0⟩ } := by cbv
  have hpopText : popCounter.text = "pop %n:i64" := by decide +kernel
  have hsubText : subtractWord.text = "sub %n:i64, [rsi]:i64 -> %n:i64" := by decide +kernel
  have hread : ∀ i ∈ [popCounter, subtractWord],
      yaml.instruction registerOfName? [] (.ofSource i.text) = .ok i := by
    intro i hi
    simp only [List.mem_cons, List.not_mem_nil, or_false] at hi
    rcases hi with rfl | rfl
    · rw [hpopText, instruction_of_parse hpop]
      rfl
    · rw [hsubText, instruction_of_parse hsub]
      rfl
  have hops : ∀ i ∈ [popCounter, subtractWord],
      [Node.ofSource i.text].mapM (yaml.instruction registerOfName? []) = .ok [i] := fun i hi =>
    mapM_eq_ok.mpr (.cons (hread i hi) .nil)
  refine blocksFrom_cons_eq_ok.mpr ⟨_, _, hops popCounter (by simp), List.not_mem_nil,
    blocksFrom_cons_eq_ok.mpr ⟨_, _, hops subtractWord (by simp), by decide, rfl, rfl⟩, ?_⟩
  have hlive := ordered_singleton "n"
  have hnone := ordered_nil
  unfold Ordered at hlive hnone
  simp only [declareBlock, hlive, hnone]
  rfl

theorem ofDocument_loopModule :
    yaml.ofDocument registerOfName? ⟨toNode loopModule, []⟩ = .ok loopModule := by
  have hdeclarable : Declarable loopModule := by
    refine ⟨?_, ?_, ?_⟩ <;> decide
  have hglobal : LoadedGlobal ⟨"g", 8, [1, 2, 3]⟩ := ⟨by decide, by decide, by decide⟩
  have hlocations : ∀ entry ∈ loopClosure.locations, LoadedLocation entry.2 := by
    simp only [loopClosure, List.forall_mem_cons]
    exact ⟨.reg (by decide +kernel), .stack _, fun _ h => nomatch h⟩
  have hsorted : Yaml.sortEntries loopClosure.locations = loopClosure.locations :=
    List.mergeSort_of_pairwise (by decide +kernel)
  have hlocal : Operand.Readable (.var ⟨"t", .i32, false, false⟩) := .var ⟨by decide, by decide⟩
  have hclosure : yaml.closure registerOfName? [] (declareClosure loopClosure) =
      .ok loopClosure := by
    refine closure_eq_ok.mpr ⟨by decide, _, _, _, _, returnType_declared .i64,
      mapM_eq_ok.mpr (.cons (localVar_text hlocal) .nil), located_texts hlocations,
      blocksFrom_loopBlocks, ?_, ?_⟩
    · unfold Closed
      decide
    · rw [hsorted]
      rfl
  rw [Codec.ofDocument, faithful_yaml.written _ hdeclarable]
  exact resolve_eq_ok.mpr ⟨mapM_eq_ok.mpr (.cons (global_declareGlobal faithful_yaml hglobal) .nil),
    mapM_eq_ok.mpr (.cons (namedClosure_eq_ok.mpr hclosure) .nil), rfl⟩

/-! ## Rewriting -/

/-- A module that was read from a file is read again from the file that is written for it, if every
instruction has a written form of its own. -/
theorem rewriting_keeps_module {d : Yaml.Document} {m : Module}
    (h : yaml.ofDocument registerOfName? d = .ok m)
    (hvalues : ∀ g ∈ m.globals, g.value.length < 2 ^ 63)
    (hops : ∀ c ∈ m.closures, ∀ b ∈ c.blocks, ∀ i ∈ b.ops, Distinct i) :
    ∃ m', yaml.ofDocument registerOfName? ⟨toNode m, []⟩ = .ok m' ∧ SameModule m m' :=
  faithful_yaml.keeps_module h hvalues hops

theorem distinct_of_loop : ∀ c ∈ loopModule.closures, ∀ b ∈ c.blocks, ∀ i ∈ b.ops, Distinct i := by
  have hpop : Distinct popCounter := by
    refine ⟨⟨fun _ _ => rfl, fun h => absurd rfl h⟩, ?_⟩
    intro slot hslot o ho
    subst ho
    simp only [popCounter, Instr.slots, List.mem_cons, Option.some.injEq, List.not_mem_nil,
      or_false, reduceCtorEq, false_or] at hslot
    rw [hslot]
    exact .var _
  have hsub : Distinct subtractWord := by
    refine ⟨⟨fun h => (by cases h), fun _ h => (by cases h)⟩, ?_⟩
    intro slot hslot o ho
    subst ho
    simp only [subtractWord, Instr.slots, List.mem_cons, Option.some.injEq, List.not_mem_nil,
      or_false, reduceCtorEq, false_or] at hslot
    rcases hslot with rfl | rfl | rfl
    · exact .var _
    · refine .indirect ?_ (fun _ h => by cases h) (by decide)
      rintro o ⟨⟩
      exact .reg (by decide)
    · exact .var _
  simp only [loopModule, loopClosure, loopBlocks, List.forall_mem_cons]
  exact ⟨⟨⟨hpop, fun _ h => (by cases h)⟩, ⟨hsub, fun _ h => (by cases h)⟩,
    fun _ h => (by cases h)⟩, fun _ h => (by cases h)⟩

theorem rewriting_keeps_loop :
    yaml.ofDocument registerOfName? ⟨toNode loopModule, []⟩ = .ok loopModule ∧
      (∀ g ∈ loopModule.globals, g.value.length < 2 ^ 63) ∧
      (∀ c ∈ loopModule.closures, ∀ b ∈ c.blocks, ∀ i ∈ b.ops, Distinct i) ∧
      ∃ m', yaml.ofDocument registerOfName? ⟨toNode loopModule, []⟩ = .ok m' ∧
        SameModule loopModule m' := by
  have hvalues : ∀ g ∈ loopModule.globals, g.value.length < 2 ^ 63 := by decide
  exact ⟨ofDocument_loopModule, hvalues, distinct_of_loop,
    rewriting_keeps_module ofDocument_loopModule hvalues distinct_of_loop⟩

/-! ## An output alone -/

/-- A file of one function of one line. -/
def lineDocument (text : String) : Yaml.Document :=
  ⟨.ofFields [("module", .ofText ""), ("functions", .ofItems [.ofFields [("name", .ofText "f"),
    ("blocks", .ofItems [.ofFields [("label", .ofText "entry"),
      ("ops", .ofItems [.ofSource text])]])]])], []⟩

/-- The function of one instruction. -/
def lineModule (i : Instr) : Module :=
  ⟨"", [], [⟨"f", "f", false, .void, [], [⟨"entry", [i], [], [], [], []⟩], [], [], [], 0, []⟩]⟩

theorem gives_single {α : Type} {type : String} {item : Yaml.Decoder α} {n : Node} {a : α}
    (h : Gives (item n) (some a)) : Gives (records type item (.ofItems [n])) (some [a]) := by
  have hlist : Gives (records type item (.ofItems ([()].map fun _ => n)))
      (some ([()].map fun _ => a)) :=
    gives_records fun _ _ => h
  exact hlist

theorem declarations_lineDocument (text : String) : yaml.declarations (lineDocument text) =
    .ok (some ⟨"", [], [⟨"f", "", false, "", [], [],
      [⟨"entry", [], [], [], [.ofSource text]⟩]⟩]⟩) := by
  let block : BlockDecl := ⟨"entry", [], [], [], [.ofSource text]⟩
  let function : FunctionDecl := ⟨"f", "", false, "", [], [], [block]⟩
  let blockNode : Node := .ofFields [("label", .ofText "entry"), ("ops", .ofItems [.ofSource text])]
  let functionNode : Node := .ofFields [("name", .ofText "f"), ("blocks", .ofItems [blockNode])]
  have hops : Gives (records "[]yaml.Node" .node (.ofItems [.ofSource text]))
      (some [.ofSource text]) := gives_single (gives_bind gives_count (gives_pure _))
  have hblock : Gives (blockDecl blockNode) (some block) :=
    gives_record (by simp) ((sets_field rfl (gives_ofText "entry") rfl :
      Sets _ _ _ ⟨"entry", [], [], [], []⟩).append (sets_field rfl hops rfl))
  have hfunction : Gives (functionDecl functionNode) (some function) :=
    gives_record (by simp) ((sets_field rfl (gives_ofText "f") rfl :
      Sets _ _ _ ⟨"f", "", false, "", [], [], []⟩).append
        (sets_field rfl (gives_single hblock) rfl))
  have hmodule : Gives (moduleDecl (lineDocument text).root) (some ⟨"", [], [function]⟩) :=
    gives_record (by simp) ((sets_field rfl (gives_ofText "") rfl :
      Sets _ _ _ ⟨"", [], []⟩).append (sets_field rfl (gives_single hfunction) rfl))
  exact hmodule.runAfter 1

theorem ofDocument_lineDocument {text : String} {i : Instr}
    (h : Instr.parse registerOfName? text.toList = .ok i) :
    yaml.ofDocument registerOfName? (lineDocument text) =
      .ok (lineModule { i with pos := ⟨1, 1⟩ }) := by
  have hline : [Node.ofSource text].mapM (yaml.instruction registerOfName? []) =
      .ok [{ i with pos := ⟨1, 1⟩ }] := mapM_eq_ok.mpr (.cons (instruction_of_parse h) .nil)
  have hnone := ordered_nil
  unfold Ordered at hnone
  have hblocks : yaml.blocksFrom registerOfName? [] [] [⟨"entry", [], [], [], [.ofSource text]⟩] =
      .ok [⟨"entry", [{ i with pos := ⟨1, 1⟩ }], [], [], [], []⟩] :=
    blocksFrom_cons_eq_ok.mpr ⟨_, _, hline, List.not_mem_nil, rfl, by rw [hnone]⟩
  have hclosed : Closed [("entry", [])] := by
    unfold Closed
    decide
  have hname : "f" ≠ "" := by decide
  rw [Codec.ofDocument, declarations_lineDocument]
  refine resolve_eq_ok.mpr ⟨rfl, mapM_eq_ok.mpr (.cons (namedClosure_eq_ok.mpr ?_) .nil), rfl⟩
  exact closure_eq_ok.mpr ⟨hname, _, _, _, _, rfl, rfl, rfl, hblocks, hclosed, rfl⟩

def loneOutput : Instr := ⟨.move, none, none, none, some (.var counter), ⟨1, 1⟩⟩

def loneSource : Instr := ⟨.move, some (.var counter), none, none, none, ⟨1, 1⟩⟩

/-- An output without a source is written like a source without an output, and is read as one. -/
theorem lone_output_becomes_source :
    yaml.ofDocument registerOfName? (lineDocument "move -> %n:i64") = .ok (lineModule loneOutput) ∧
      yaml.ofDocument registerOfName? ⟨toNode (lineModule loneOutput), []⟩ =
        .ok (lineModule loneSource) ∧
      ¬ SameModule (lineModule loneOutput) (lineModule loneSource) := by
  have hread : Instr.parse registerOfName? "move -> %n:i64".toList =
      .ok { loneOutput with pos := ⟨0, 0⟩ } := by cbv
  have hagain : Instr.parse registerOfName? "move %n:i64".toList =
      .ok { loneSource with pos := ⟨0, 0⟩ } := by cbv
  refine ⟨ofDocument_lineDocument hread, ?_, fun hsame => ?_⟩
  · have htext : loneOutput.text = "move %n:i64" := by decide +kernel
    have hwritten : (⟨toNode (lineModule loneOutput), []⟩ : Yaml.Document) =
        lineDocument loneOutput.text := rfl
    rw [hwritten, htext]
    exact ofDocument_lineDocument hagain
  · cases hsame.closures with
    | cons hclosure _ =>
      cases hclosure.blocks with
      | cons hblock _ =>
        cases hblock.ops with
        | cons hop _ => cases hop.first

end Backend.ModuleFile
