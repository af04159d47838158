-- What a module file declares: the bounds that every file keeps, and that the file written for a
-- module declares the module.
import Backend.ModuleFile.Reader
import Backend.ModuleFile.Writer
import Backend.Proofs.Yaml.Decoding
import Mathlib.Algebra.Group.Int.Defs
import Mathlib.Algebra.Group.Nat.Defs

namespace Backend.ModuleFile

open Yaml (Node)
open Yaml.Decode

/-! ## What every file keeps -/

/-- The sizes are those of 64-bit integers. -/
def GlobalDecl.InRange (g : GlobalDecl) : Prop := g.size < 2 ^ 63

/-- A variable has one location. -/
def FunctionDecl.Distinct (f : FunctionDecl) : Prop := (f.locations.map Prod.fst).Nodup

/-- What holds of the declarations of every file. -/
structure ModuleDecl.WellFormed (d : ModuleDecl) : Prop where
  globals : ∀ g ∈ d.globals, g.InRange
  functions : ∀ f ∈ d.functions, f.Distinct

theorem floatInt?_lt {x : Float.Binary64} {n : Int} (h : Yaml.floatInt? x = some n) :
    n < 2 ^ 63 := by
  unfold Yaml.floatInt? at h
  have hbound : ((Nat.pow 2 63 : Nat) : Int) = 2 ^ 63 := by decide
  simp only [hbound] at h
  split at h
  · cases h
  · rename_i hsmall
    simp only [Bool.or_eq_true, decide_eq_true_eq, not_or] at hsmall
    split at h
    · obtain rfl := Option.some.inj h
      decide
    · rename_i hne
      simp only [Bool.or_eq_true, beq_iff_eq, decide_eq_true_eq, not_or] at hne
      obtain rfl := Option.some.inj h
      omega

theorem yields_int (n : Node) : Yields (int n) (Taken fun k => k < 2 ^ 63) := by
  refine yields_scalar (fun text v k hk => ?_) n
  cases v with
  | int m =>
    dsimp only at hk
    split at hk
    · obtain rfl := Option.some.inj hk
      rename_i hm
      exact_mod_cast hm
    · cases hk
  | float x => exact floatInt?_lt hk
  | _ => cases hk

theorem yields_records {α : Type} {type : String} {item : Yaml.Decoder α} {P : α → Prop}
    (h : ∀ n, Yields (item n) (Taken P)) (n : Node) :
    Yields (records type item n) (Taken fun xs => ∀ x ∈ xs, P x) := by
  refine yields_bind (yields_list h n) fun r hr => yields_pure ?_
  rintro xs hxs
  cases r with
  | none => cases hxs
  | some l =>
    obtain rfl := Option.some.inj hxs
    cases l with
    | none => exact fun _ h => nomatch h
    | some l => exact hr _ rfl _ rfl

theorem yields_globalDecl (n : Node) : Yields (globalDecl n) (Taken GlobalDecl.InRange) := by
  refine yields_record (fun f hf v g hg => ?_) (by unfold GlobalDecl.InRange; decide) n
  simp only [List.mem_cons, List.not_mem_nil, or_false] at hf
  rcases hf with rfl | rfl | rfl
  · exact yields_anySet (fun _ => hg) hg
  · exact yields_set (yields_int v) (fun _ h => h) hg
  · exact yields_anySet (fun _ => hg) hg

theorem yields_functionDecl (n : Node) : Yields (functionDecl n) (Taken FunctionDecl.Distinct) := by
  refine yields_record (fun f hf v g hg => ?_)
    (show FunctionDecl.Distinct .empty from List.nodup_nil) n
  simp only [List.mem_cons, List.not_mem_nil, or_false] at hf
  rcases hf with rfl | rfl | rfl | rfl | rfl | rfl | rfl
  case inr.inr.inr.inr.inr.inl => exact yields_set (yields_table v) (fun _ h => h) hg
  all_goals exact yields_anySet (fun _ => hg) hg

/-- Every file keeps the bounds. -/
theorem yields_moduleDecl (n : Node) : Yields (moduleDecl n) (Taken ModuleDecl.WellFormed) := by
  refine yields_record (fun f hf v d hd => ?_) ⟨(fun _ h => nomatch h), (fun _ h => nomatch h)⟩ n
  simp only [List.mem_cons, List.not_mem_nil, or_false] at hf
  rcases hf with rfl | rfl | rfl
  · exact yields_anySet (fun _ => { globals := hd.globals, functions := hd.functions }) hd
  · exact yields_set (yields_records yields_globalDecl v)
      (fun _ h => { globals := h, functions := hd.functions }) hd
  · exact yields_set (yields_records yields_functionDecl v)
      (fun _ h => { globals := hd.globals, functions := h }) hd

/-! ## What is written -/

/-- What the file written for a global declares. -/
def declareGlobal (g : Global) : GlobalDecl :=
  ⟨g.name, g.size, some (.ofFlowItems (g.value.map fun b => .ofInt b.toNat))⟩

/-- What the file written for a block declares. -/
def declareBlock (b : Block) : BlockDecl :=
  ⟨b.label, b.liveIn, b.liveOut, b.succs, b.ops.map fun i => .ofSource i.text⟩

/-- Every variable with the text of its location, as they are written. -/
def locationTexts (locs : Locations) : List (String × String) :=
  (Yaml.sortEntries locs).map fun (ident, l) => (ident, locationText l)

/-- What the file written for a closure declares. -/
def declareClosure (c : Closure) : FunctionDecl :=
  ⟨c.name, if c.symbol = c.name then "" else c.symbol, c.isGlobal,
    if c.ret = .void then "" else c.ret.name, c.locals.map Var.text, locationTexts c.locations,
    c.blocks.map declareBlock⟩

/-- What the file written for a module declares. -/
def declare (m : Module) : ModuleDecl :=
  ⟨m.ident, m.globals.map declareGlobal, m.closures.map declareClosure⟩

theorem gives_names (xs : List String) : Gives (names (.ofItems (xs.map .ofText))) (some xs) := by
  have hlist : Gives (list "[]string" string (.ofItems (xs.map .ofText)))
      (some (some (xs.map id))) :=
    gives_list fun x _ => gives_ofText x
  rw [List.map_id] at hlist
  exact gives_bind hlist (gives_pure _)

theorem gives_records {α β : Type} {type : String} {item : Yaml.Decoder α} {toNode : β → Node}
    {value : β → α} {xs : List β} (h : ∀ x ∈ xs, Gives (item (toNode x)) (some (value x))) :
    Gives (records type item (.ofItems (xs.map toNode))) (some (xs.map value)) :=
  gives_bind (gives_list h) (gives_pure _)

section Written

variable {σ α : Type} {fields : List (RecordField σ)} {name : String} {decoder : Yaml.Decoder α}
  {put : α → σ → σ}

/-- A field that is left out has its default value. -/
theorem sets_optional {given : Bool} {v : Node} {a : α} {s s' : σ}
    (found : fields.find? (fun f => f.name == name) = some (.of name decoder put))
    (h : given = true → Gives (decoder v) (some a)) (hskip : given = false → s = s')
    (hput : put a s = s') : Sets fields (optional given name v) s s' := by
  cases given with
  | true => exact sets_field found (h rfl) hput
  | false =>
    rw [hskip rfl]
    exact .nil s'

theorem sets_nameField {put : List String → σ → σ} {xs : List String} {s s' : σ}
    (found : fields.find? (fun f => f.name == name) = some (.of name names put))
    (hskip : put [] s = s) (hput : put xs s = s') : Sets fields (nameField name xs) s s' := by
  refine sets_optional found (fun _ => gives_names xs) (fun h => ?_) hput
  have hnil : xs = [] := by simpa using h
  rw [← hput, hnil, hskip]

theorem keys_optional (given : Bool) (name : String) (v : Node) :
    ((optional given name v).map Prod.fst).Sublist [name] := by
  cases given
  · exact List.nil_sublist _
  · exact List.Sublist.refl _

end Written

theorem gives_globalNode {g : Global} (hsize : 0 < g.size) (hrange : g.size < 2 ^ 63) :
    Gives (globalDecl (globalNode g)) (some (declareGlobal g)) := by
  refine gives_record ?_ ?_
  · simp only [List.map_append, List.map_cons, List.map_nil]
    exact .sublist (((List.Sublist.refl _).append (keys_optional _ _ _)).append (.refl _))
      (by decide)
  · have hint : Gives (int (.ofInt g.size)) (some g.size) := by
      have := gives_int (n := g.size.toNat) (by omega)
      rwa [Int.toNat_of_nonneg (by omega)] at this
    have hgiven : (g.size != 0) = true := by simpa using (by omega : g.size ≠ 0)
    rw [hgiven]
    exact ((sets_field rfl (gives_ofText g.name) rfl : Sets _ _ _ ⟨g.name, 0, none⟩).append
      (sets_field rfl hint rfl : Sets _ _ _ ⟨g.name, g.size, none⟩)).append
      (sets_field rfl (gives_bind gives_count (gives_pure _)) rfl)

theorem gives_blockNode (b : Block) : Gives (blockDecl (blockNode b)) (some (declareBlock b)) := by
  refine gives_record ?_ ?_
  · simp only [List.map_append, List.map_cons, List.map_nil]
    exact .sublist (((((List.Sublist.refl _).append (keys_optional _ _ _)).append
      (keys_optional _ _ _)).append (keys_optional _ _ _)).append (.refl _)) (by decide)
  · refine ((((
      (sets_field rfl (gives_ofText b.label) rfl : Sets _ _ _ ⟨b.label, [], [], [], []⟩).append
      (sets_nameField rfl rfl rfl : Sets _ _ _ ⟨b.label, b.liveIn, [], [], []⟩)).append
      (sets_nameField rfl rfl rfl : Sets _ _ _ ⟨b.label, b.liveIn, b.liveOut, [], []⟩)).append
      (sets_nameField rfl rfl rfl : Sets _ _ _ ⟨b.label, b.liveIn, b.liveOut, b.succs, []⟩)).append
      (sets_field rfl (gives_records fun i _ => ?_) rfl))
    exact gives_bind gives_count (gives_pure _)

theorem sortEntries_perm {α : Type} (entries : List (String × α)) :
    (Yaml.sortEntries entries).Perm entries := List.mergeSort_perm entries _

theorem keys_locationTexts {locs : Locations} (h : (locs.map Prod.fst).Nodup) :
    ((locationTexts locs).map Prod.fst).Nodup := by
  rw [locationTexts, List.map_map]
  exact ((sortEntries_perm locs).map Prod.fst).nodup_iff.mpr h

theorem gives_closureNode {c : Closure} (hdistinct : (c.locations.map Prod.fst).Nodup)
    (hsymbol : c.symbol ≠ "") :
    Gives (functionDecl (closureNode c)) (some (declareClosure c)) := by
  have hlocations : Gives (table (.ofFields ((Yaml.sortEntries c.locations).map fun (ident, l) =>
      (ident, .ofText (locationText l))))) (some (locationTexts c.locations)) := by
    have := gives_table (keys_locationTexts hdistinct)
    rwa [locationTexts, List.map_map] at this
  refine gives_record ?_ ?_
  · simp only [List.map_append, List.map_cons, List.map_nil]
    exact .sublist (((((((List.Sublist.refl _).append (keys_optional _ _ _)).append
      (keys_optional _ _ _)).append (keys_optional _ _ _)).append (keys_optional _ _ _)).append
      (keys_optional _ _ _)).append (.refl _)) (by decide)
  · let d := declareClosure c
    have hsymbols : ((c.symbol != c.name && c.symbol != "") = true → d.symbol = c.symbol) ∧
        ((c.symbol != c.name && c.symbol != "") = false → d.symbol = "") := by
      by_cases h : c.symbol = c.name <;> simp [d, declareClosure, h, hsymbol]
    have hret : ((c.ret != .void) = true → d.ret = c.ret.name) ∧
        ((c.ret != .void) = false → d.ret = "") := by
      by_cases h : c.ret = .void <;> simp [d, declareClosure, h]
    have hempty : (!c.locations.isEmpty) = false → d.locations = [] := by
      intro h
      have hnil : c.locations = [] := by simpa using h
      simp [d, declareClosure, hnil, locationTexts, Yaml.sortEntries]
    exact (((((((
      sets_field rfl (gives_ofText c.name) rfl :
        Sets _ _ _ ⟨d.name, "", false, "", [], [], []⟩).append
      (sets_optional rfl (fun h => hsymbols.1 h ▸ gives_ofText c.symbol)
        (fun h => by rw [hsymbols.2 h]) rfl :
        Sets _ _ _ ⟨d.name, d.symbol, false, "", [], [], []⟩)).append
      (sets_optional rfl (fun h => h.symm ▸ gives_true) (fun h => by rw [h]) rfl :
        Sets _ _ _ ⟨d.name, d.symbol, c.isGlobal, "", [], [], []⟩)).append
      (sets_optional rfl (fun h => hret.1 h ▸ gives_ofText c.ret.name)
        (fun h => by rw [hret.2 h]) rfl :
        Sets _ _ _ ⟨d.name, d.symbol, c.isGlobal, d.ret, [], [], []⟩)).append
      (sets_nameField rfl rfl rfl :
        Sets _ _ _ ⟨d.name, d.symbol, c.isGlobal, d.ret, d.locals, [], []⟩)).append
      (sets_optional rfl (fun _ => hlocations) (fun h => by rw [hempty h]) rfl :
        Sets _ _ _ ⟨d.name, d.symbol, c.isGlobal, d.ret, d.locals, d.locations, []⟩)).append
      (sets_field rfl (gives_records fun b _ => gives_blockNode b) rfl))

/-- What can be written and read again as declarations. -/
structure Declarable (m : Module) : Prop where
  sizes : ∀ g ∈ m.globals, 0 < g.size ∧ g.size < 2 ^ 63
  distinct : ∀ c ∈ m.closures, (c.locations.map Prod.fst).Nodup
  symbols : ∀ c ∈ m.closures, c.symbol ≠ ""

/-- The file written for a module declares the module. -/
theorem decode_toNode {m : Module} (h : Declarable m) :
    Yaml.Document.decode moduleDecl ⟨toNode m, []⟩ = .ok (some (declare m)) := by
  have hglobals : Gives (records "[]lirfile.fileGlobal" globalDecl
      (.ofItems (m.globals.map globalNode))) (some (declare m).globals) :=
    gives_records fun g hg => gives_globalNode (h.sizes g hg).1 (h.sizes g hg).2
  have hclosures : Gives (records "[]lirfile.fileFunction" functionDecl
      (.ofItems (m.closures.map closureNode))) (some (declare m).functions) :=
    gives_records fun c hc => gives_closureNode (h.distinct c hc) (h.symbols c hc)
  have hempty : (!m.globals.isEmpty) = false → (declare m).globals = [] := by
    intro h
    have hnil : m.globals = [] := by simpa using h
    simp [declare, hnil]
  refine Gives.runAfter (gives_record ?_ ?_) 1
  · simp only [List.map_append, List.map_cons, List.map_nil]
    exact .sublist (((List.Sublist.refl _).append (keys_optional _ _ _)).append (.refl _))
      (by decide)
  · exact ((
      sets_field rfl (gives_ofText m.ident) rfl : Sets _ _ _ ⟨m.ident, [], []⟩).append
      (sets_optional rfl (fun _ => hglobals) (fun h => by rw [hempty h]) rfl :
        Sets _ _ _ ⟨m.ident, (declare m).globals, []⟩)).append
      (sets_field rfl hclosures rfl)

/-! ## Faithful codecs -/

/-- What is relied on of a codec. The declarations of every document keep the bounds, a module is
declared by the document that is written for it, and the text of a node and its bytes are decoded as
themselves. -/
structure Codec.Faithful (codec : Codec) : Prop where
  wellFormed : ∀ d decl, codec.declarations d = .ok (some decl) → decl.WellFormed
  written : ∀ m, Declarable m → codec.declarations ⟨toNode m, []⟩ = .ok (some (declare m))
  text : ∀ t, codec.text [] (.ofSource t) = .ok (some t)
  bytes : ∀ bs : List UInt8,
    codec.bytes [] (.ofFlowItems (bs.map fun b => .ofInt b.toNat)) = .ok (some bs)

theorem faithful_yaml : yaml.Faithful where
  wellFormed d _ h := (yields_moduleDecl d.root).runAfter h _ rfl
  written _ h := decode_toNode h
  text t := (gives_ofSource t).runAfter 0
  bytes bs := by
    have hlist : Gives (list "[]uint8" byte (.ofFlowItems (bs.map fun b => .ofInt b.toNat)))
        (some (some (bs.map id))) := gives_list fun b _ => gives_byte b
    rw [List.map_id] at hlist
    have hrecords : Gives (records "[]uint8" byte (.ofFlowItems (bs.map fun b => .ofInt b.toNat)))
        (some bs) := gives_bind hlist (gives_pure _)
    exact hrecords.runAfter 0

end Backend.ModuleFile
