-- What holds of every module that is read from a file: what can be told of its globals, functions,
-- blocks and instructions without the file.
import Backend.Proofs.Instr.Roundtrip
import Backend.Proofs.ModuleFile.Declarations

namespace Backend.Instr

/-- The slots of an instruction. -/
def slots (i : Instr) : List (Option Operand) := [i.first, i.second, i.addend, i.output]

/-- What stands in the slot comes from the reader. -/
def SlotLoaded (slot : Option Operand) : Prop :=
  ∀ o, slot = some o → ∃ s, Operand.parse registerOfName? s = .ok o

/-- Every operand comes from the reader. -/
def Loaded (i : Instr) : Prop := ∀ slot ∈ i.slots, SlotLoaded slot

section Read

variable {source : String} {s : List Char} {slot : Option Operand}

theorem slotLoaded_none : SlotLoaded none := fun _ h => nomatch h

theorem loaded_iff {i : Instr} : i.Loaded ↔ SlotLoaded i.first ∧ SlotLoaded i.second ∧
    SlotLoaded i.addend ∧ SlotLoaded i.output := by
  simp [Loaded, slots]

theorem slotLoaded_of_parseSource {number : Nat}
    (h : parseSource registerOfName? source number s = .ok slot) : SlotLoaded slot := by
  unfold parseSource at h
  split at h
  · cases h
    exact slotLoaded_none
  · split at h
    · rename_i o ho
      cases h
      rintro _ ⟨⟩
      exact ⟨s, ho⟩
    · cases h

theorem slotLoaded_of_parseOutput (h : parseOutput registerOfName? source s = .ok slot) :
    SlotLoaded slot := by
  unfold parseOutput at h
  split at h
  · cases h
    exact slotLoaded_none
  · split at h
    · rename_i o ho
      cases h
      rintro _ ⟨⟩
      exact ⟨s, ho⟩
    · cases h

theorem loaded_of_ofFields {op : Opcode} {output : Option Operand} {fields : List (List Char)}
    {i : Instr} (houtput : SlotLoaded output)
    (h : ofFields registerOfName? source op output fields = .ok i) : i.Loaded := by
  unfold ofFields at h
  split at h
  · cases h
    exact loaded_iff.mpr ⟨slotLoaded_none, slotLoaded_none, slotLoaded_none, houtput⟩
  · obtain ⟨a, ha, h⟩ := bind_eq_ok.mp h
    cases h
    exact loaded_iff.mpr ⟨slotLoaded_of_parseSource ha, slotLoaded_none, slotLoaded_none, houtput⟩
  · obtain ⟨a, ha, h⟩ := bind_eq_ok.mp h
    obtain ⟨b, hb, h⟩ := bind_eq_ok.mp h
    cases h
    exact loaded_iff.mpr ⟨slotLoaded_of_parseSource ha, slotLoaded_of_parseSource hb,
      slotLoaded_none, houtput⟩
  · obtain ⟨a, ha, h⟩ := bind_eq_ok.mp h
    obtain ⟨b, hb, h⟩ := bind_eq_ok.mp h
    obtain ⟨c, hc, h⟩ := bind_eq_ok.mp h
    cases h
    exact loaded_iff.mpr ⟨slotLoaded_of_parseSource ha, slotLoaded_of_parseSource hb,
      slotLoaded_of_parseSource hc, houtput⟩
  · cases h

theorem loaded_of_parse {text : List Char} {i : Instr} (h : parse registerOfName? text = .ok i) :
    i.Loaded := by
  unfold parse at h
  dsimp only at h
  split at h
  · cases h
  · obtain ⟨output, houtput, h⟩ := bind_eq_ok.mp h
    exact loaded_of_ofFields (slotLoaded_of_parseOutput houtput) h

end Read

end Backend.Instr

namespace Backend.ModuleFile

variable {codec : Codec}

/-! ## Names in order -/

theorem nodup_eraseDups : (names : List String) → names.eraseDups.Nodup
  | [] => List.nodup_nil
  | a :: rest => by
    rw [List.eraseDups_cons, List.nodup_cons, List.mem_eraseDups]
    exact ⟨by simp, nodup_eraseDups _⟩
termination_by names => names.length
decreasing_by exact Nat.lt_succ_of_le (List.length_filter_le _ _)

theorem eraseDups_sublist : (names : List String) → names.eraseDups.Sublist names
  | [] => .slnil
  | a :: rest => by
    rw [List.eraseDups_cons]
    exact ((eraseDups_sublist _).trans List.filter_sublist).cons_cons a
termination_by names => names.length
decreasing_by exact Nat.lt_succ_of_le (List.length_filter_le _ _)

theorem eraseDups_of_nodup {names : List String} (h : names.Nodup) : names.eraseDups = names := by
  induction names with
  | nil => rfl
  | cons a rest ih =>
    obtain ⟨hnew, hrest⟩ := List.nodup_cons.mp h
    have hall : rest.filter (fun b => !b == a) = rest := by
      rw [List.filter_eq_self]
      intro b hb
      have hne : b ≠ a := fun e => hnew (e ▸ hb)
      simpa using hne
    rw [List.eraseDups_cons, hall, ih hrest]

/-- The names are in order. -/
def Ordered (names : List String) : Prop := nameSet names = names

/-- What was sorted is sorted without its repetitions. -/
theorem mergeSort_eraseDups {le : String → String → Bool}
    (htrans : ∀ a b c, le a b = true → le b c = true → le a c = true)
    (htotal : ∀ a b, (le a b || le b a) = true) (names : List String) :
    ((names.mergeSort le).eraseDups.mergeSort le).eraseDups = (names.mergeSort le).eraseDups := by
  have hsorted := List.pairwise_mergeSort htrans htotal names
  rw [List.mergeSort_of_pairwise (hsorted.sublist (eraseDups_sublist _))]
  exact eraseDups_of_nodup (nodup_eraseDups _)

theorem ordered_nameSet (names : List String) : Ordered (nameSet names) := by
  refine mergeSort_eraseDups (fun a b c hab hbc => ?_) (fun a b => ?_) names
  · simp only [Bool.not_eq_true', decide_eq_false_iff_not, String.not_lt] at *
    exact String.le_trans hab hbc
  · simp only [Bool.or_eq_true, Bool.not_eq_true', decide_eq_false_iff_not, String.not_lt]
    exact String.le_total a b

/-! ## Globals -/

/-- What holds of every global that is read. -/
structure LoadedGlobal (g : Global) : Prop where
  named : g.name ≠ ""
  positive : 0 < g.size
  fits : (g.value.length : Int) ≤ g.size

/-- The size that a declaration with a value settles on. -/
def settledSize (d : GlobalDecl) (value : List UInt8) : Int :=
  if d.size ≠ 0 then d.size else if value ≠ [] then value.length else defaultSize

theorem settledSize_pos {d : GlobalDecl} {value : List UInt8}
    (h : (value.length : Int) ≤ settledSize d value) : 0 < settledSize d value := by
  unfold settledSize at h ⊢
  split
  · rw [if_pos ‹_›] at h
    omega
  · split
    · exact_mod_cast List.length_pos_iff.mpr ‹_›
    · decide

theorem sizedGlobal_eq (d : GlobalDecl) (value : List UInt8) :
    sizedGlobal d value = if settledSize d value < value.length then
      .error (.tooLong value.length (settledSize d value))
      else .ok ⟨d.name, settledSize d value, value⟩ := by
  unfold sizedGlobal settledSize
  by_cases hd : d.size = 0 <;> by_cases hv : value = [] <;> simp [hd, hv]

theorem sizedGlobal_eq_ok {d : GlobalDecl} {value : List UInt8} {g : Global} :
    sizedGlobal d value = .ok g ↔
      (value.length : Int) ≤ settledSize d value ∧ g = ⟨d.name, settledSize d value, value⟩ := by
  rw [sizedGlobal_eq]
  split
  · constructor
    · rintro ⟨⟩
    · omega
  · rw [Except.ok.injEq, eq_comm]
    constructor
    · intro h
      exact ⟨by omega, h⟩
    · exact fun h => h.2

theorem loadedGlobal {anchors : List (Nat × Yaml.Node)} {d : GlobalDecl} {g : Global}
    (h : codec.global anchors d = .ok g) (hd : d.InRange) :
    LoadedGlobal g ∧ (g.value.length < 2 ^ 63 → g.size < 2 ^ 63) := by
  unfold Codec.global at h
  split at h
  · cases h
  rename_i hname
  dsimp only at h
  split at h
  case h_2 => cases h
  rename_i x hx
  cases h
  obtain ⟨value, -, hsized⟩ := bind_eq_ok.mp hx
  obtain ⟨hfits, rfl⟩ := sizedGlobal_eq_ok.mp hsized
  refine ⟨⟨by simpa using hname, settledSize_pos hfits, hfits⟩, fun hlen => ?_⟩
  unfold GlobalDecl.InRange at hd
  dsimp only at hlen ⊢
  unfold settledSize
  split
  · exact hd
  · split
    · exact_mod_cast hlen
    · decide

/-! ## Locations -/

/-- What holds of every location that is read. -/
inductive LoadedLocation : Location → Prop
  | reg {r : Reg} (known : registerOfName? r.name = some r) : LoadedLocation ⟨some r, none⟩
  | stack (offset : Int64) : LoadedLocation ⟨none, some offset⟩

theorem loadedLocation {text : String} {l : Location} (h : location registerOfName? text = .ok l) :
    LoadedLocation l := by
  unfold location at h
  dsimp only at h
  split at h
  · obtain ⟨n, -, h⟩ := bind_eq_ok.mp h
    cases h
    exact .stack n
  · split at h
    · rename_i r hr
      cases h
      exact .reg (tableRegister hr).known
    · cases h

/-! ## Blocks -/

/-- What holds of every block that is read, its neighbours aside. -/
structure LoadedBlock (b : Block) : Prop where
  liveIn : Ordered b.liveIn
  liveOut : Ordered b.liveOut
  ops : ∀ i ∈ b.ops, i.Loaded

theorem loaded_instruction {anchors : List (Nat × Yaml.Node)} {n : Yaml.Node} {i : Instr}
    (h : codec.instruction registerOfName? anchors n = .ok i) : i.Loaded := by
  unfold Codec.instruction at h
  split at h
  · cases h
  · split at h
    · cases h
    · rename_i j hj
      cases h
      have hread := Instr.loaded_iff.mp (Instr.loaded_of_parse hj)
      exact Instr.loaded_iff.mpr hread

/-- What it takes for declarations to stand for blocks. -/
theorem blocksFrom_cons_eq_ok {regs : RegisterTable} {anchors : List (Nat × Yaml.Node)}
    {labels : List String} {d : BlockDecl} {ds : List BlockDecl} {bs : List Block} :
    codec.blocksFrom regs anchors labels (d :: ds) = .ok bs ↔
      ∃ ops more, d.ops.mapM (codec.instruction regs anchors) = .ok ops ∧ d.label ∉ labels ∧
        codec.blocksFrom regs anchors (d.label :: labels) ds = .ok more ∧
        bs = ⟨d.label, ops, nameSet d.liveIn, nameSet d.liveOut, d.succs, []⟩ :: more := by
  rw [Codec.blocksFrom]
  constructor
  · intro h
    obtain ⟨ops, hops, h⟩ := bind_eq_ok.mp h
    split at h
    · cases h
    rename_i hnew
    obtain ⟨-, -, h⟩ := bind_eq_ok.mp h
    obtain ⟨more, hmore, h⟩ := bind_eq_ok.mp h
    exact ⟨ops, more, hops, by simpa using hnew, hmore, (Except.ok.inj h).symm⟩
  · rintro ⟨ops, more, hops, hnew, hmore, rfl⟩
    refine bind_eq_ok.mpr ⟨ops, hops, ?_⟩
    rw [if_neg (by simpa using hnew)]
    exact bind_eq_ok.mpr ⟨more, hmore, rfl⟩

theorem loaded_blocksFrom {anchors : List (Nat × Yaml.Node)} {labels : List String}
    {ds : List BlockDecl} {bs : List Block}
    (h : codec.blocksFrom registerOfName? anchors labels ds = .ok bs) :
    (∀ b ∈ bs, LoadedBlock b) ∧ (bs.map Block.label).Nodup ∧ ∀ b ∈ bs, b.label ∉ labels := by
  induction ds generalizing labels bs with
  | nil =>
    cases h
    exact ⟨fun _ h => (nomatch h), List.nodup_nil, fun _ h => nomatch h⟩
  | cons d ds ih =>
    obtain ⟨ops, more, hops, hnew, hmore, rfl⟩ := blocksFrom_cons_eq_ok.mp h
    obtain ⟨hloaded, hnodup, hlabels⟩ := ih hmore
    have hread : ∀ i ∈ ops, i.Loaded := fun i hi =>
      have ⟨_, _, hn⟩ := mem_of_mapM_ok hops hi
      loaded_instruction hn
    refine ⟨List.forall_mem_cons.mpr ⟨⟨ordered_nameSet _, ordered_nameSet _, hread⟩,
      hloaded⟩, ?_, ?_⟩
    · rw [List.map_cons, List.nodup_cons]
      refine ⟨fun hmem => ?_, hnodup⟩
      obtain ⟨b, hb, hlabel⟩ := List.mem_map.mp hmem
      exact hlabels b hb (hlabel ▸ List.mem_cons_self)
    · refine List.forall_mem_cons.mpr ⟨hnew, fun b hb hmem => ?_⟩
      exact hlabels b hb (List.mem_cons_of_mem _ hmem)

/-! ## The graph of a function -/

/-- The labels of the blocks, each with its successors. -/
def outline (blocks : List Block) : List (String × List String) :=
  blocks.map fun b => (b.label, b.succs)

/-- The predecessors of the block with a label, one for each time it is a successor. -/
def predecessors (graph : List (String × List String)) (label : String) : List String :=
  graph.flatMap fun e => (e.2.filter (· == label)).map fun _ => e.1

theorem linkPredecessors_eq (blocks : List Block) : linkPredecessors blocks =
    blocks.map fun b => { b with preds := predecessors (outline blocks) b.label } := by
  simp only [linkPredecessors, predecessors, outline, List.flatMap_map]

theorem outline_linkPredecessors (blocks : List Block) :
    outline (linkPredecessors blocks) = outline blocks := by
  simp only [linkPredecessors, outline, List.map_map, Function.comp_def]

/-- Every successor is a block. -/
def Closed (graph : List (String × List String)) : Prop :=
  ∀ e ∈ graph, ∀ name ∈ e.2, name ∈ graph.map Prod.fst

theorem checkSuccessors_eq_ok {blocks : List Block} :
    checkSuccessors blocks = .ok () ↔ Closed (outline blocks) := by
  have hone : ∀ b : Block, ∀ name, (if blocks.any (fun c => c.label == name) then .ok ()
      else .error (.unknownSuccessor b.label name) : Except FunctionDefect Unit) = .ok () ↔
        name ∈ (outline blocks).map Prod.fst := by
    intro b name
    simp [outline]
  simp only [checkSuccessors, forM_eq_ok, hone, Closed]
  simp [outline]

/-! ## Functions -/

/-- What holds of every function that is read. -/
structure LoadedClosure (c : Closure) : Prop where
  named : c.name ≠ ""
  symbol : c.symbol ≠ ""
  locals : ∀ v ∈ c.locals, Operand.Readable (.var v)
  distinct : (c.locations.map Prod.fst).Nodup
  locations : ∀ entry ∈ c.locations, LoadedLocation entry.2
  blocks : ∀ b ∈ c.blocks, LoadedBlock b
  labels : (c.blocks.map Block.label).Nodup
  closed : Closed (outline c.blocks)
  linked : ∀ b ∈ c.blocks, b.preds = predecessors (outline c.blocks) b.label
  unplaced : c.imms = [] ∧ c.data = [] ∧ c.frame = 0 ∧ c.saved = []

theorem readable_of_localVar {text : String} {v : Var}
    (h : localVar registerOfName? text = .ok v) : Operand.Readable (.var v) := by
  unfold localVar at h
  split at h
  · rename_i u hu
    cases h
    exact Operand.readable_of_parse hu
  · cases h
  · cases h

/-- The location of a variable as it is declared. -/
def located (regs : RegisterTable) (entry : String × String) :
    Except FunctionDefect (String × Location) :=
  match location regs entry.2 with
  | .ok l => .ok (entry.1, l)
  | .error e => .error (.badLocation entry.1 e)

theorem located_eq_ok {regs : RegisterTable} {entry : String × String} {ident : String}
    {l : Location} :
    located regs entry = .ok (ident, l) ↔ entry.1 = ident ∧ location regs entry.2 = .ok l := by
  unfold located
  cases h : location regs entry.2 <;> simp

theorem keys_of_located {regs : RegisterTable} {entries : List (String × String)}
    {locs : Locations} (h : List.Forall₂ (fun entry l => located regs entry = .ok l) entries locs) :
    locs.map Prod.fst = entries.map Prod.fst := by
  induction h with
  | nil => rfl
  | cons hone _ ih => rw [List.map_cons, List.map_cons, ih, (located_eq_ok.mp hone).1]

/-- What it takes for a declaration to stand for a function. -/
theorem closure_eq_ok {regs : RegisterTable} {anchors : List (Nat × Yaml.Node)} {d : FunctionDecl}
    {c : Closure} : codec.closure regs anchors d = .ok c ↔ d.name ≠ "" ∧
      ∃ ret locals locations blocks, returnType d.ret = .ok ret ∧
        d.locals.mapM (localVar regs) = .ok locals ∧
        d.locations.mapM (located regs) = .ok locations ∧
        codec.blocksFrom regs anchors [] d.blocks = .ok blocks ∧ Closed (outline blocks) ∧
        c = ⟨d.name, if d.symbol = "" then d.name else d.symbol, d.isGlobal, ret, locals,
          linkPredecessors blocks, locations, [], [], 0, []⟩ := by
  by_cases hname : d.name = ""
  · simp [Codec.closure, hname, bind, Except.bind, throw, throwThe, MonadExceptOf.throw]
  have hparts : codec.closure regs anchors d =
      (returnType d.ret >>= fun ret => d.locals.mapM (localVar regs) >>= fun locals =>
        d.locations.mapM (located regs) >>= fun locations =>
        codec.blocksFrom regs anchors [] d.blocks >>= fun blocks => checkSuccessors blocks >>=
          fun _ =>
        .ok ⟨d.name, if d.symbol = "" then d.name else d.symbol, d.isGlobal, ret, locals,
          linkPredecessors blocks, locations, [], [], 0, []⟩) := by
    have hnamed : ¬ (d.name == "") = true := by simpa using hname
    unfold Codec.closure
    rw [if_neg hnamed]
    simp only [beq_iff_eq]
    rfl
  rw [hparts]
  simp only [bind_eq_ok, ← checkSuccessors_eq_ok, Except.ok.injEq, @eq_comm _ _ c]
  constructor
  · rintro ⟨ret, hret, locals, hlocals, locations, hlocations, blocks, hblocks, ⟨⟩, hclosed, hc⟩
    exact ⟨hname, ret, locals, locations, blocks, hret, hlocals, hlocations, hblocks, hclosed, hc⟩
  · rintro ⟨-, ret, locals, locations, blocks, hret, hlocals, hlocations, hblocks, hclosed, hc⟩
    exact ⟨ret, hret, locals, hlocals, locations, hlocations, blocks, hblocks, (), hclosed, hc⟩

theorem loadedClosure {anchors : List (Nat × Yaml.Node)} {d : FunctionDecl} {c : Closure}
    (h : codec.closure registerOfName? anchors d = .ok c) (hd : d.Distinct) : LoadedClosure c := by
  obtain ⟨hname, ret, locals, locations, blocks, -, hlocals, hlocations, hblocks, hclosed, rfl⟩ :=
    closure_eq_ok.mp h
  obtain ⟨hloaded, hlabels, -⟩ := loaded_blocksFrom hblocks
  have hkeys := keys_of_located (mapM_eq_ok.mp hlocations)
  have hlinked := linkPredecessors_eq blocks
  constructor
  case named => exact hname
  case symbol =>
    dsimp only
    split
    · exact hname
    · assumption
  case locals =>
    intro v hv
    obtain ⟨_, -, hread⟩ := mem_of_mapM_ok hlocals hv
    exact readable_of_localVar hread
  case distinct => exact hkeys ▸ hd
  case locations =>
    intro entry hentry
    obtain ⟨_, -, hread⟩ := mem_of_mapM_ok hlocations hentry
    exact loadedLocation (located_eq_ok.mp hread).2
  case blocks =>
    intro b hb
    obtain ⟨a, ha, rfl⟩ := List.mem_map.mp (hlinked ▸ hb)
    exact ⟨(hloaded a ha).liveIn, (hloaded a ha).liveOut, (hloaded a ha).ops⟩
  case labels =>
    rw [hlinked, List.map_map]
    exact hlabels
  case closed =>
    rw [outline_linkPredecessors]
    exact hclosed
  case linked =>
    intro b hb
    rw [outline_linkPredecessors]
    obtain ⟨a, -, rfl⟩ := List.mem_map.mp (hlinked ▸ hb)
    rfl
  case unplaced => exact ⟨rfl, rfl, rfl, rfl⟩

/-! ## Modules -/

/-- What holds of every module that is read. -/
structure LoadedModule (m : Module) : Prop where
  globals : ∀ g ∈ m.globals, LoadedGlobal g ∧ (g.value.length < 2 ^ 63 → g.size < 2 ^ 63)
  closures : ∀ c ∈ m.closures, LoadedClosure c

/-- The function of a declaration as a module has it. -/
def Codec.namedClosure (codec : Codec) (regs : RegisterTable) (anchors : List (Nat × Yaml.Node))
    (f : FunctionDecl) : Except Error Closure :=
  match codec.closure regs anchors f with
  | .ok c => .ok c
  | .error e => .error (.function f.name e)

theorem namedClosure_eq_ok {regs : RegisterTable} {anchors : List (Nat × Yaml.Node)}
    {f : FunctionDecl} {c : Closure} :
    codec.namedClosure regs anchors f = .ok c ↔ codec.closure regs anchors f = .ok c := by
  unfold Codec.namedClosure
  cases codec.closure regs anchors f <;> simp

theorem resolve_eq_ok {regs : RegisterTable} {anchors : List (Nat × Yaml.Node)} {d : ModuleDecl}
    {m : Module} : codec.resolve regs anchors d = .ok m ↔ d.globals.mapM (codec.global anchors) =
    .ok m.globals ∧
      d.functions.mapM (codec.namedClosure regs anchors) = .ok m.closures ∧ m.ident = d.ident := by
  have hparts : codec.resolve regs anchors d =
      (d.globals.mapM (codec.global anchors) >>= fun globals =>
      d.functions.mapM (codec.namedClosure regs anchors) >>= fun closures =>
        .ok ⟨d.ident, globals, closures⟩) := rfl
  rw [hparts]
  simp only [bind_eq_ok, Except.ok.injEq]
  constructor
  · rintro ⟨globals, hglobals, closures, hclosures, rfl⟩
    exact ⟨hglobals, hclosures, rfl⟩
  · rintro ⟨hglobals, hclosures, hident⟩
    exact ⟨m.globals, hglobals, m.closures, hclosures, hident ▸ rfl⟩

theorem loadedModule (hcodec : codec.Faithful) {d : Yaml.Document} {m : Module}
    (h : codec.ofDocument registerOfName? d = .ok m) :
    LoadedModule m := by
  unfold Codec.ofDocument at h
  split at h
  · cases h
  rename_i decl hdecl
  have hformed : (decl.getD .empty).WellFormed := by
    cases decl with
    | none => exact ⟨(fun _ h => nomatch h), (fun _ h => nomatch h)⟩
    | some r => exact hcodec.wellFormed d r hdecl
  obtain ⟨hglobals, hclosures, -⟩ := resolve_eq_ok.mp h
  constructor
  · intro g hg
    obtain ⟨x, hx, hread⟩ := mem_of_mapM_ok hglobals hg
    exact loadedGlobal hread (hformed.globals x hx)
  · intro c hc
    obtain ⟨f, hf, hread⟩ := mem_of_mapM_ok hclosures hc
    exact loadedClosure (namedClosure_eq_ok.mp hread) (hformed.functions f hf)

end Backend.ModuleFile
