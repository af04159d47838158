-- Runs of operations on one unit. The operations change the unit in place, so what a refused one
-- has done by then counts: it has done nothing. A definition adds its name and fails only if the
-- name is there; everything else that happens to the symbol table defines nothing.
import Backend.Proofs.CodeUnit.Symbols
import Mathlib.Algebra.Group.Nat.Defs
import Mathlib.Data.List.Induction

namespace Backend.CodeUnit

/-! ## Operations in place -/

/-- A definition as it changes the unit: the symbol is referred to first, and only then is looked
at. -/
def defineInPlace (u : CodeUnit) (name : String) (kind : SymbolKind) (binding : Binding)
    (sec : Section) (value : UInt64) : CodeUnit × Option Error :=
  let v := u.reference name
  match v.lookup? name with
  | some s =>
    if s.defined then (v, some (.alreadyDefined name))
    else (v.update name fun s =>
      { s with
        kind := kind, binding := binding, sec := sec, value := value, defined := true }, none)
  | none => (v, none)

/-- A new object as it changes the unit. -/
def addDataInPlace (u : CodeUnit) (name : String) (value : List UInt8) (binding : Binding) :
    CodeUnit × Option Error :=
  match u.defineInPlace name .object binding .data (UInt64.ofNat u.data.length) with
  | (v, some e) => (v, some e)
  | (v, none) =>
    let w := v.update name fun s => { s with size := UInt64.ofNat value.length }
    ({ w with data := w.data ++ value }, none)

/-- The unit after an operation that returns a new one, or the old unit and the error. -/
def settled (u : CodeUnit) : Except Error CodeUnit → CodeUnit × Option Error
  | .ok v => (v, none)
  | .error e => (u, some e)

theorem reference_of_lookup {u : CodeUnit} {name : String} {s : Entry}
    (h : u.lookup? name = some s) : u.reference name = u := by
  unfold reference
  rw [h]

/-- A name that is refused was in the table before, so referring to it did nothing. -/
theorem defineInPlace_eq (u : CodeUnit) (name : String) (kind : SymbolKind) (binding : Binding)
    (sec : Section) (value : UInt64) :
    u.defineInPlace name kind binding sec value =
      u.settled (u.define name kind binding sec value) := by
  unfold defineInPlace define
  dsimp only
  cases hs : (u.reference name).lookup? name with
  | none => rfl
  | some s =>
    dsimp only
    split
    · rename_i hdefined
      have hsame : u.reference name = u := by
        cases hu : u.lookup? name with
        | some t => exact reference_of_lookup hu
        | none =>
          rw [lookup?_reference, hu, if_pos rfl] at hs
          obtain rfl := Option.some.inj hs
          cases hdefined
      rw [hsame]
      rfl
    · rfl

theorem addDataInPlace_eq (u : CodeUnit) (name : String) (value : List UInt8) (binding : Binding) :
    u.addDataInPlace name value binding = u.settled (u.addData name value binding) := by
  unfold addDataInPlace addData
  rw [defineInPlace_eq]
  cases u.define name .object binding .data (UInt64.ofNat u.data.length) with
  | ok v => rfl
  | error e => rfl

/-! ## Runs -/

/-- What can be done to a unit. -/
inductive Op where
  | emit (bytes : List UInt8)
  | reference (name : String)
  | define (name : String) (kind : SymbolKind) (binding : Binding) (sec : Section) (value : UInt64)
  | addData (name : String) (value : List UInt8) (binding : Binding)
  | addRelocation (r : Relocation)

/-- The symbol that an operation is about. -/
def Op.symbol? : Op → Option String
  | .emit _ => none
  | .reference name | .define name _ _ _ _ | .addData name _ _ => some name
  | .addRelocation r => some r.symbol

/-- The symbol that an operation defines. -/
def Op.defines? : Op → Option String
  | .define name _ _ _ _ | .addData name _ _ => some name
  | _ => none

/-- The relocation that an operation records. -/
def Op.relocation? : Op → Option Relocation
  | .addRelocation r => some r
  | _ => none

theorem Op.symbol?_of_defines {o : Op} {name : String} (h : o.defines? = some name) :
    o.symbol? = some name := by
  cases o with
  | define _ _ _ _ _ | addData _ _ _ => exact h
  | emit _ | reference _ | addRelocation _ => cases h

theorem Op.relocation?_of_defines {o : Op} {name : String} (h : o.defines? = some name) :
    o.relocation? = none := by
  cases o with
  | addRelocation _ => cases h
  | _ => rfl

/-- One operation in place. -/
def perform (u : CodeUnit) : Op → CodeUnit × Option Error
  | .emit bytes => (u.emit bytes, none)
  | .reference name => (u.reference name, none)
  | .define name kind binding sec value => u.defineInPlace name kind binding sec value
  | .addData name value binding => u.addDataInPlace name value binding
  | .addRelocation r => (u.addRelocation r, none)

/-- The unit after a sequence of operations, whether they were refused or not. -/
def performAll (u : CodeUnit) (ops : List Op) : CodeUnit := ops.foldl (fun u o => (u.perform o).1) u

/-- An object of the data section. -/
structure Object where
  name : String
  value : List UInt8
  binding : Binding
  deriving DecidableEq

/-- The object that an operation adds, unless it is refused. -/
def added? (u : CodeUnit) (o : Op) : Option Object :=
  match o, (u.perform o).2 with
  | .addData name value binding, none => some ⟨name, value, binding⟩
  | _, _ => none

/-- The objects that a sequence of operations adds, in order. -/
def objects : CodeUnit → List Op → List Object
  | _, [] => []
  | u, o :: rest => (u.added? o).toList ++ objects (u.perform o).1 rest

theorem performAll_append (u : CodeUnit) (before rest : List Op) :
    u.performAll (before ++ rest) = (u.performAll before).performAll rest :=
  List.foldl_append

/-! ## One operation -/

theorem define_eq_error {u : CodeUnit} {name : String} {kind : SymbolKind} {binding : Binding}
    {sec : Section} {value : UInt64} {e : Error} :
    u.define name kind binding sec value = .error e ↔
      e = .alreadyDefined name ∧ ∃ s, u.lookup? name = some s ∧ s.defined = true := by
  have hlookup := lookup?_reference u name name
  rw [if_pos rfl] at hlookup
  unfold define
  dsimp only
  rw [hlookup]
  cases hu : u.lookup? name with
  | none => exact ⟨(fun h => nomatch h), (fun ⟨_, _, h, _⟩ => nomatch h)⟩
  | some s =>
    by_cases hdefined : s.defined = true
    · simp [hdefined, @eq_comm _ e]
    · simp [hdefined]

theorem addData_eq_error {u : CodeUnit} {name : String} {value : List UInt8} {binding : Binding}
    {e : Error} :
    u.addData name value binding = .error e ↔
      e = .alreadyDefined name ∧ ∃ s, u.lookup? name = some s ∧ s.defined = true := by
  have hdefine := @define_eq_error u name .object binding .data (UInt64.ofNat u.data.length) e
  rw [← hdefine]
  unfold addData
  cases u.define name .object binding .data (UInt64.ofNat u.data.length) with
  | ok v => simp [bind, Except.bind, pure, Except.pure]
  | error e' => simp [bind, Except.bind]

theorem settled_error {u : CodeUnit} {x : Except Error CodeUnit} {e : Error} :
    (u.settled x).2 = some e ↔ x = .error e := by
  cases x <;> simp [settled]

/-- An operation is refused exactly if it defines a symbol that is defined. -/
theorem perform_refused {u : CodeUnit} {o : Op} {e : Error} :
    (u.perform o).2 = some e ↔
      ∃ name s, o.defines? = some name ∧ u.lookup? name = some s ∧ s.defined = true ∧
        e = .alreadyDefined name := by
  have hswap : ∀ name : String,
      (e = .alreadyDefined name ∧ ∃ s, u.lookup? name = some s ∧ s.defined = true) ↔
        ∃ n s, some name = some n ∧ u.lookup? n = some s ∧ s.defined = true ∧
          e = .alreadyDefined n := by
    intro name
    constructor
    · rintro ⟨he, s, hs, hdefined⟩
      exact ⟨name, s, rfl, hs, hdefined, he⟩
    · rintro ⟨n, s, hn, hs, hdefined, he⟩
      obtain rfl := Option.some.inj hn
      exact ⟨he, s, hs, hdefined⟩
  cases o with
  | define name kind binding sec value =>
    rw [perform, defineInPlace_eq, settled_error, define_eq_error]
    exact hswap name
  | addData name value binding =>
    rw [perform, addDataInPlace_eq, settled_error, addData_eq_error]
    exact hswap name
  | emit _ | reference _ | addRelocation _ =>
    exact ⟨(fun h => nomatch h), (fun ⟨_, _, h, _⟩ => nomatch h)⟩

/-- An operation that is refused does nothing. -/
theorem perform_of_refused {u : CodeUnit} {o : Op} {e : Error} (h : (u.perform o).2 = some e) :
    (u.perform o).1 = u := by
  cases o with
  | define name kind binding sec value =>
    rw [perform, defineInPlace_eq] at h ⊢
    rw [settled_error.mp h]
    rfl
  | addData name value binding =>
    rw [perform, addDataInPlace_eq] at h ⊢
    rw [settled_error.mp h]
    rfl
  | _ => cases h

theorem reachable_settled {u : CodeUnit} {x : Except Error CodeUnit} (h : Reachable u)
    (hx : ∀ v, x = .ok v → Reachable v) : Reachable (u.settled x).1 := by
  cases x with
  | ok v => exact hx v rfl
  | error e => exact h

theorem reachable_perform {u : CodeUnit} (h : Reachable u) (o : Op) :
    Reachable (u.perform o).1 := by
  cases o with
  | emit bytes => exact h.emit bytes
  | reference name => exact h.reference name
  | define name kind binding sec value =>
    rw [perform, defineInPlace_eq]
    exact reachable_settled h fun v hv => h.define hv
  | addData name value binding =>
    rw [perform, addDataInPlace_eq]
    exact reachable_settled h fun v hv => h.addData hv
  | addRelocation r => exact h.addRelocation r

/-- What an accepted operation makes of the entry of the symbol that it defines. -/
def Op.defined (u : CodeUnit) (s : Entry) : Op → Entry
  | .define _ kind binding sec value =>
    { s with kind := kind, binding := binding, sec := sec, value := value, defined := true }
  | .addData _ value binding =>
    ⟨s.name, binding, .object, .data, UInt64.ofNat u.data.length, UInt64.ofNat value.length, true⟩
  | _ => s

theorem Op.defined_name (u : CodeUnit) (o : Op) (s : Entry) : (o.defined u s).name = s.name := by
  cases o <;> rfl

theorem update_update (u : CodeUnit) (name : String) {f g : Entry → Entry}
    (hf : ∀ s, (f s).name = s.name) :
    (u.update name f).update name g = u.update name fun s => g (f s) := by
  unfold update
  simp only [List.map_map]
  congr 1
  apply List.map_congr_left
  intro s _
  simp only [Function.comp]
  by_cases hs : (s.name == name) = true <;> simp [hs, hf]

/-- What an accepted definition changes: the entry of its symbol, which was not defined before. -/
structure Defined (u : CodeUnit) (o : Op) (name : String) (v : CodeUnit) : Prop where
  fresh : ∀ s, u.lookup? name = some s → s.defined = false
  symbols : v.symbols = ((u.reference name).update name fun s => o.defined u s).symbols
  relocs : v.relocs = u.relocs
  data : v.data = u.data ++ (u.added? o).toList.flatMap Object.value

theorem perform_defined {u : CodeUnit} {o : Op} {name : String} (ho : o.defines? = some name)
    (h : (u.perform o).2 = none) : Defined u o name (u.perform o).1 := by
  cases o with
  | emit _ | reference _ | addRelocation _ => cases ho
  | define n kind binding sec value =>
    obtain rfl := Option.some.inj ho
    rw [perform, defineInPlace_eq] at h ⊢
    cases hv : u.define n kind binding sec value with
    | error e =>
      rw [hv] at h
      cases h
    | ok v =>
      obtain ⟨-, hdata, hrelocs, -⟩ := define_fields hv
      obtain ⟨rfl, hnew⟩ := define_ok hv
      exact ⟨hnew, rfl, hrelocs, by simpa [added?, settled] using hdata⟩
  | addData n value binding =>
    obtain rfl := Option.some.inj ho
    have hadded : u.added? (.addData n value binding) = some ⟨n, value, binding⟩ := by
      simp only [added?, h]
    rw [perform, addDataInPlace_eq] at h ⊢
    cases hv : u.addData n value binding with
    | error e =>
      rw [hv] at h
      cases h
    | ok v =>
      obtain ⟨w, hw, rfl⟩ := addData_eq hv
      obtain ⟨-, hdata, hrelocs, -⟩ := define_fields hw
      obtain ⟨rfl, hnew⟩ := define_ok hw
      refine ⟨hnew, ?_, hrelocs, ?_⟩
      · show (((u.reference n).update n _).update n _).symbols = _
        rw [update_update _ _ (by exact fun _ => rfl)]
        rfl
      · rw [hadded]
        simpa [settled] using hdata

/-! ## What an operation keeps -/

/-- The entries keep their places and names, and those of defined symbols do not change at all. -/
def Keeps (u v : CodeUnit) : Prop :=
  ∀ (i : Nat) (s : Entry), u.symbols[i]? = some s →
    ∃ t, v.symbols[i]? = some t ∧ t.name = s.name ∧ (s.defined = true → t = s)

theorem Keeps.of_symbols {u v : CodeUnit} (h : v.symbols = u.symbols) : Keeps u v := by
  intro i s hs
  exact ⟨s, h ▸ hs, rfl, fun _ => rfl⟩

theorem Keeps.trans {u v w : CodeUnit} (h : Keeps u v) (h' : Keeps v w) : Keeps u w := by
  intro i s hs
  obtain ⟨t, ht, hname, hsame⟩ := h i s hs
  obtain ⟨r, hr, hname', hsame'⟩ := h' i t ht
  refine ⟨r, hr, hname'.trans hname, fun hdefined => ?_⟩
  obtain rfl := hsame hdefined
  exact hsame' hdefined

theorem keeps_reference (u : CodeUnit) (name : String) : Keeps u (u.reference name) := by
  intro i s hs
  refine ⟨s, ?_, rfl, fun _ => rfl⟩
  unfold reference
  split
  · exact hs
  · rw [List.getElem?_append_left (List.getElem?_eq_some_iff.mp hs).1]
    exact hs

/-- Changing the entry of a symbol that is not defined keeps the others. -/
theorem keeps_update {u : CodeUnit} (hu : u.Consistent) {name : String} {change : Entry → Entry}
    (hnew : ∀ s, u.lookup? name = some s → s.defined = false)
    (hname : ∀ s, (change s).name = s.name) : Keeps u (u.update name change) := by
  intro i s hs
  refine ⟨if s.name == name then change s else s, ?_, ?_, fun hdefined => ?_⟩
  · simp [update, hs]
  · split
    · exact hname s
    · rfl
  · have hne : (s.name == name) = false := by
      rw [beq_eq_false_iff_ne]
      rintro rfl
      rw [hnew s (hu.lookup?_of_mem (List.mem_of_getElem? hs))] at hdefined
      cases hdefined
    rw [hne]
    rfl

theorem lookup?_reference_undefined {u : CodeUnit} {name : String}
    (h : ∀ s, u.lookup? name = some s → s.defined = false) :
    ∀ s, (u.reference name).lookup? name = some s → s.defined = false := by
  intro s hs
  rw [lookup?_reference, if_pos rfl] at hs
  cases hu : u.lookup? name with
  | some t =>
    rw [hu] at hs
    obtain rfl := Option.some.inj hs
    exact h t hu
  | none =>
    rw [hu] at hs
    obtain rfl := Option.some.inj hs
    rfl

/-- The entry of a name after the symbols of the name have been referred to and changed. -/
theorem lookup?_update_reference (u : CodeUnit) (name : String) {change : Entry → Entry}
    (hname : ∀ s, (change s).name = s.name) :
    ((u.reference name).update name change).lookup? name =
      some (change ((u.lookup? name).getD (.placeholder name))) := by
  rw [lookup?_update _ _ hname, lookup?_reference, if_pos rfl]
  cases hu : u.lookup? name with
  | some s => simp [lookup?_name hu]
  | none => simp [Entry.placeholder]

theorem keeps_perform {u : CodeUnit} (hu : u.Consistent) (o : Op) : Keeps u (u.perform o).1 := by
  cases haccepted : (u.perform o).2 with
  | some e => exact .of_symbols (by rw [perform_of_refused haccepted])
  | none =>
    cases ho : o.defines? with
    | some name =>
      have h := perform_defined ho haccepted
      exact ((keeps_reference u name).trans (keeps_update (consistent_reference hu name)
        (lookup?_reference_undefined h.fresh) (o.defined_name u))).trans (.of_symbols h.symbols)
    | none =>
      cases o with
      | emit bytes => exact .of_symbols rfl
      | reference name => exact keeps_reference u name
      | addRelocation r => exact (keeps_reference u r.symbol).trans (.of_symbols rfl)
      | define _ _ _ _ _ | addData _ _ _ => cases ho

/-- The names of a table after a reference: a new one comes last. -/
theorem names_reference_filter (u : CodeUnit) (name : String) :
    (u.reference name).symbols.map Entry.name =
      u.symbols.map Entry.name ++ [name].filter (· ∉ u.symbols.map Entry.name) := by
  rw [names_reference]
  by_cases h : name ∈ u.symbols.map Entry.name
  · rw [if_pos h, List.filter_cons_of_neg (by simpa using h), List.filter_nil]
  · rw [if_neg h, List.filter_cons_of_pos (by simpa using h), List.filter_nil]

/-- An operation adds the name of its symbol at the end of the table, if it is new. -/
theorem names_perform (u : CodeUnit) (o : Op) :
    (u.perform o).1.symbols.map Entry.name =
      u.symbols.map Entry.name ++ o.symbol?.toList.filter (· ∉ u.symbols.map Entry.name) := by
  cases haccepted : (u.perform o).2 with
  | some e =>
    obtain ⟨name, s, ho, hs, -⟩ := perform_refused.mp haccepted
    have hmem : name ∈ u.symbols.map Entry.name :=
      lookup?_name hs ▸ List.mem_map_of_mem (List.mem_of_find?_eq_some hs)
    rw [perform_of_refused haccepted, Op.symbol?_of_defines ho, Option.toList_some,
      List.filter_cons_of_neg (by simpa using hmem), List.filter_nil, List.append_nil]
  | none =>
    cases ho : o.defines? with
    | some name =>
      rw [(perform_defined ho haccepted).symbols, names_update _ _ (o.defined_name u),
        names_reference_filter, Op.symbol?_of_defines ho]
      rfl
    | none =>
      cases o with
      | emit bytes => simp [perform, Op.symbol?, CodeUnit.emit]
      | reference name => exact names_reference_filter u name
      | addRelocation r => exact names_reference_filter u r.symbol
      | define _ _ _ _ _ | addData _ _ _ => cases ho

theorem relocs_perform (u : CodeUnit) (o : Op) :
    (u.perform o).1.relocs = u.relocs ++ o.relocation?.toList := by
  cases haccepted : (u.perform o).2 with
  | some e =>
    obtain ⟨name, s, ho, -⟩ := perform_refused.mp haccepted
    simp [perform_of_refused haccepted, Op.relocation?_of_defines ho]
  | none =>
    cases ho : o.defines? with
    | some name =>
      simp [(perform_defined ho haccepted).relocs, Op.relocation?_of_defines ho]
    | none =>
      cases o with
      | emit bytes => simp [perform, Op.relocation?, CodeUnit.emit]
      | reference name => simp [perform, Op.relocation?, reference_fields u name]
      | addRelocation r => simp [perform, Op.relocation?, addRelocation_fields u r]
      | define _ _ _ _ _ | addData _ _ _ => cases ho

/-- Only an operation that adds an object changes the data, and the object comes last. -/
theorem data_perform (u : CodeUnit) (o : Op) :
    (u.perform o).1.data = u.data ++ (u.added? o).toList.flatMap Object.value := by
  cases haccepted : (u.perform o).2 with
  | some e =>
    have hnone : u.added? o = none := by
      cases o <;> simp [added?, haccepted]
    simp [perform_of_refused haccepted, hnone]
  | none =>
    cases ho : o.defines? with
    | some name => exact (perform_defined ho haccepted).data
    | none =>
      cases o with
      | emit bytes => simp [perform, added?, CodeUnit.emit]
      | reference name => simp [perform, added?, reference_fields u name]
      | addRelocation r => simp [perform, added?, addRelocation, reference_fields u r.symbol]
      | define _ _ _ _ _ | addData _ _ _ => cases ho

/-- After an accepted definition the symbol has the entry of the definition. -/
theorem lookup?_perform {u : CodeUnit} {o : Op} {name : String} (ho : o.defines? = some name)
    (h : (u.perform o).2 = none) :
    (u.perform o).1.lookup? name =
      some (o.defined u ((u.lookup? name).getD (.placeholder name))) := by
  rw [lookup?_congr (perform_defined ho h).symbols]
  exact lookup?_update_reference u name (o.defined_name u)

/-! ## What a run keeps -/

theorem reachable_performAll {u : CodeUnit} (h : Reachable u) (ops : List Op) :
    Reachable (u.performAll ops) := by
  induction ops generalizing u with
  | nil => exact h
  | cons o rest ih => exact ih (reachable_perform h o)

theorem keeps_performAll {u : CodeUnit} (h : Reachable u) (ops : List Op) :
    Keeps u (u.performAll ops) := by
  induction ops generalizing u with
  | nil => exact .of_symbols rfl
  | cons o rest ih => exact (keeps_perform h.consistent o).trans (ih (reachable_perform h o))

/-- A defined symbol has the same entry after a run as before it. -/
theorem lookup?_performAll {u : CodeUnit} (h : Reachable u) (ops : List Op) {name : String}
    {s : Entry} (hs : u.lookup? name = some s) (hdefined : s.defined = true) :
    (u.performAll ops).lookup? name = some s := by
  obtain ⟨i, hi, rfl⟩ := List.getElem_of_mem (List.mem_of_find?_eq_some hs)
  obtain ⟨t, ht, -, hsame⟩ := keeps_performAll h ops i _ (List.getElem?_eq_getElem hi)
  obtain rfl := hsame hdefined
  rw [← lookup?_name hs]
  exact (reachable_performAll h ops).consistent.lookup?_of_mem (List.mem_of_getElem? ht)

/-- The table has the symbols in the order in which they were first seen. -/
theorem names_performAll (name : String) (ops : List Op) :
    ((empty name).performAll ops).symbols.map Entry.name =
      (ops.filterMap Op.symbol?).eraseDups := by
  induction ops using List.reverseRecOn with
  | nil => rfl
  | append_singleton ops o ih =>
    rw [performAll_append, performAll, List.foldl_cons, List.foldl_nil, names_perform, ih,
      List.filterMap_append, List.eraseDups_append]
    congr 1
    have hsingle : [o].filterMap Op.symbol? = o.symbol?.toList := by
      cases ho : o.symbol? <;> simp [ho]
    rw [hsingle]
    cases o.symbol? with
    | none => rfl
    | some n =>
      by_cases h : n ∈ ops.filterMap Op.symbol?
      · rw [Option.toList_some, List.filter_cons_of_neg (by simpa using h),
          List.removeAll, List.filter_cons_of_neg (by simpa using h)]
        rfl
      · rw [Option.toList_some, List.filter_cons_of_pos (by simpa using h),
          List.removeAll, List.filter_cons_of_pos (by simpa using h)]
        rfl

theorem relocs_performAll (u : CodeUnit) (ops : List Op) :
    (u.performAll ops).relocs = u.relocs ++ ops.filterMap Op.relocation? := by
  induction ops generalizing u with
  | nil => simp [performAll]
  | cons o rest ih =>
    rw [show u.performAll (o :: rest) = (u.perform o).1.performAll rest from rfl, ih,
      relocs_perform]
    cases ho : o.relocation? <;> simp [ho]

theorem data_performAll (u : CodeUnit) (ops : List Op) :
    (u.performAll ops).data = u.data ++ (u.objects ops).flatMap Object.value := by
  induction ops generalizing u with
  | nil => simp [performAll, objects]
  | cons o rest ih =>
    rw [show u.performAll (o :: rest) = (u.perform o).1.performAll rest from rfl, ih,
      data_perform, objects, List.flatMap_append, List.append_assoc]

/-- The entry of an object behind so many bytes. -/
def Object.entryAt (x : Object) (offset : Nat) : Entry :=
  ⟨x.name, x.binding, .object, .data, UInt64.ofNat offset, UInt64.ofNat x.value.length, true⟩

theorem added?_spec {u : CodeUnit} {o : Op} {x : Object} (h : u.added? o = some x) :
    (u.perform o).1.lookup? x.name = some (x.entryAt u.data.length) := by
  unfold added? at h
  split at h
  · rename_i name value binding haccepted
    obtain rfl := Option.some.inj h
    rw [lookup?_perform rfl haccepted]
    cases hs : u.lookup? name with
    | none => rfl
    | some s => simp [Op.defined, Object.entryAt, lookup?_name hs]
  · cases h

/-- Every object of a run has the entry of its place, behind the objects before it. -/
theorem lookup?_object {u : CodeUnit} (h : Reachable u) {ops : List Op} {before after : List Object}
    {x : Object} (hobjects : u.objects ops = before ++ x :: after) :
    (u.performAll ops).lookup? x.name =
      some (x.entryAt (u.data.length + (before.flatMap Object.value).length)) := by
  induction ops generalizing u before with
  | nil => simp [objects] at hobjects
  | cons o rest ih =>
    have hnext := reachable_perform h o
    have hdata := data_perform u o
    rw [objects] at hobjects
    rw [show u.performAll (o :: rest) = (u.perform o).1.performAll rest from rfl]
    cases hadded : u.added? o with
    | none =>
      rw [hadded] at hobjects hdata
      rw [ih hnext (by simpa using hobjects)]
      simp [hdata]
    | some y =>
      rw [hadded] at hobjects hdata
      cases before with
      | nil =>
        obtain ⟨rfl, -⟩ := List.cons.inj hobjects
        simpa using lookup?_performAll hnext rest (added?_spec hadded) rfl
      | cons z before =>
        obtain ⟨rfl, hrest⟩ := List.cons.inj hobjects
        rw [ih hnext hrest]
        simp [hdata, Nat.add_assoc]

/-- The object takes the bytes from an offset on, and its symbol says so. -/
structure Object.Occupies (x : Object) (u : CodeUnit) (offset : Nat) : Prop where
  entry : ∃ s, u.lookup? x.name = some s ∧ s.defined = true ∧ s.kind = .object ∧ s.sec = .data ∧
    s.binding = x.binding ∧ s.value.toNat = offset ∧ s.size.toNat = x.value.length
  bytes : (u.data.drop offset).take x.value.length = x.value

theorem occupies_of_split {u : CodeUnit} {before after : List Object} {x : Object}
    (hlookup : u.lookup? x.name = some (x.entryAt (before.flatMap Object.value).length))
    (hdata : u.data = (before ++ x :: after).flatMap Object.value)
    (hsize : u.data.length < 2 ^ 64) :
    x.Occupies u (before.flatMap Object.value).length := by
  have hsplit : u.data =
      before.flatMap Object.value ++ (x.value ++ after.flatMap Object.value) := by
    rw [hdata, List.flatMap_append, List.flatMap_cons]
  rw [hsplit, List.length_append, List.length_append] at hsize
  have hword : UInt64.size = 2 ^ 64 := rfl
  refine ⟨⟨_, hlookup, rfl, rfl, rfl, rfl, ?_, ?_⟩, ?_⟩
  · exact UInt64.toNat_ofNat_of_lt' (by omega)
  · exact UInt64.toNat_ofNat_of_lt' (by omega)
  · rw [hsplit, List.drop_left, List.take_left]

/-- What a step of a run means for the unit in the end: a definition of a defined symbol is refused
and does nothing, and the entry of an accepted definition is there in the end. -/
structure Op.Settles (o : Op) (v u : CodeUnit) : Prop where
  refused : ∀ e, (v.perform o).2 = some e ↔
    ∃ n s, o.defines? = some n ∧ v.lookup? n = some s ∧ s.defined = true ∧ e = .alreadyDefined n
  unchanged : ∀ e, (v.perform o).2 = some e → (v.perform o).1 = v
  accepted : ∀ n, (v.perform o).2 = none → o.defines? = some n →
    u.lookup? n = some (o.defined v ((v.lookup? n).getD (.placeholder n)))

theorem Op.defined_defined {o : Op} {n : String} (h : o.defines? = some n) (u : CodeUnit)
    (s : Entry) : (o.defined u s).defined = true := by
  cases o with
  | define _ _ _ _ _ | addData _ _ _ => rfl
  | emit _ | reference _ | addRelocation _ => cases h

theorem settles_performAll {v : CodeUnit} (h : Reachable v) (o : Op) (rest : List Op) :
    o.Settles v (v.performAll (o :: rest)) := by
  refine ⟨fun e => perform_refused, fun e => perform_of_refused, fun n haccepted ho => ?_⟩
  exact lookup?_performAll (reachable_perform h o) rest (lookup?_perform ho haccepted)
    (Op.defined_defined ho v _)

/-- The symbol table over a whole run of operations on a fresh unit. A name has one entry, and
looking it up gives that entry; the entries stand in the order in which their names were first
seen, keep their places, and do not change any more once they are defined; what is refused does
nothing; the symbols of all relocations are there; and the objects that were added lie one behind
the other and make up the data. A data section is shorter than 2^64 bytes. -/
theorem symbol_table_of_run (name : String) (ops : List Op)
    (hsize : ((empty name).performAll ops).data.length < 2 ^ 64) :
    let u := (empty name).performAll ops
    (u.symbols.map Entry.name).Nodup ∧
      (∀ n s, u.lookup? n = some s ↔ s ∈ u.symbols ∧ s.name = n) ∧
      u.symbols.map Entry.name = (ops.filterMap Op.symbol?).eraseDups ∧
      (∀ before rest, ops = before ++ rest → Keeps ((empty name).performAll before) u) ∧
      (∀ before o rest, ops = before ++ o :: rest → o.Settles ((empty name).performAll before) u) ∧
      (∀ r ∈ u.relocs, ∃ s, u.lookup? r.symbol = some s) ∧
      u.relocs = ops.filterMap Op.relocation? ∧
      u.data = ((empty name).objects ops).flatMap Object.value ∧
      ∀ before x after, (empty name).objects ops = before ++ x :: after →
        x.Occupies u (before.flatMap Object.value).length := by
  intro u
  have hfresh : Reachable (empty name) := .empty name
  have hu : u.Consistent := (reachable_performAll hfresh ops).consistent
  have hdata : u.data = ((empty name).objects ops).flatMap Object.value :=
    data_performAll (empty name) ops
  refine ⟨hu.distinct, fun n s => ?_, names_performAll name ops, ?_, ?_, fun r hr => ?_,
    relocs_performAll (empty name) ops, hdata, ?_⟩
  · constructor
    · intro hs
      exact ⟨List.mem_of_find?_eq_some hs, lookup?_name hs⟩
    · rintro ⟨hs, rfl⟩
      exact hu.lookup?_of_mem hs
  · rintro before rest rfl
    have := keeps_performAll (reachable_performAll hfresh before) rest
    rwa [← performAll_append] at this
  · rintro before o rest rfl
    have := settles_performAll (reachable_performAll hfresh before) o rest
    rwa [← performAll_append] at this
  · obtain ⟨s, hs, hname⟩ := List.mem_map.mp (hu.known r hr)
    exact ⟨s, hname ▸ hu.lookup?_of_mem hs⟩
  · intro before x after hobjects
    have hlookup := lookup?_object hfresh hobjects
    rw [show (empty name).data.length = 0 from rfl, Nat.zero_add] at hlookup
    exact occupies_of_split hlookup (hobjects ▸ hdata) hsize

/-- A forward reference, a definition, an object, a refused second definition and a relocation. -/
def crossedOps : List Op :=
  [.addRelocation ⟨0, "late", .pc32, -4⟩, .define "f" .func .glob .text 0,
    .addData "late" [1, 2, 3] .loc, .define "late" .func .glob .text 7, .reference "g",
    .addData "g" [] .glob, .addData "f" [4] .loc, .addData "h" [5, 6] .glob, .emit [0xc3]]

theorem symbol_table_of_crossed_run :
    ((empty "unit").performAll crossedOps).data.length < 2 ^ 64 ∧
      ((empty "unit").performAll crossedOps).symbols.map Entry.name = ["late", "f", "g", "h"] ∧
      (Object.mk "h" [5, 6] .glob).Occupies ((empty "unit").performAll crossedOps) 3 := by
  have hsize : ((empty "unit").performAll crossedOps).data.length < 2 ^ 64 := by decide
  obtain ⟨-, -, hnames, -, -, -, -, -, hobjects⟩ := symbol_table_of_run "unit" crossedOps hsize
  refine ⟨hsize, hnames.trans (by decide), ?_⟩
  exact hobjects [⟨"late", [1, 2, 3], .loc⟩, ⟨"g", [], .glob⟩] ⟨"h", [5, 6], .glob⟩ [] (by decide)

/-! ## Defined names -/

/-- The unit defines the name, in its text or its data. -/
def Defines (u : CodeUnit) (name : String) : Prop :=
  ∃ s, u.lookup? name = some s ∧ s.defined = true

theorem defines_congr {u v : CodeUnit} (h : v.symbols = u.symbols) (name : String) :
    v.Defines name ↔ u.Defines name := by
  unfold Defines
  rw [lookup?_congr h]

theorem not_defines_empty (name m : String) : ¬ (empty name).Defines m := by
  rintro ⟨s, hs, -⟩
  cases hs

theorem defines_reference (u : CodeUnit) (name m : String) :
    (u.reference name).Defines m ↔ u.Defines m := by
  unfold Defines
  rw [lookup?_reference]
  cases u.lookup? m with
  | some s => rfl
  | none =>
    by_cases hm : m = name
    · simp [hm, Entry.placeholder]
    · simp [hm]

theorem defines_addRelocation (u : CodeUnit) (r : Relocation) (m : String) :
    (u.addRelocation r).Defines m ↔ u.Defines m := defines_reference u r.symbol m

/-- A change of the entry of a name that leaves open whether it is defined. -/
theorem defines_update (u : CodeUnit) (name : String) {f : Entry → Entry}
    (hname : ∀ s, (f s).name = s.name) (hdefined : ∀ s, (f s).defined = s.defined) (m : String) :
    (u.update name f).Defines m ↔ u.Defines m := by
  have hself (s : Entry) : (if s.name == name then f s else s).defined = s.defined := by
    split
    · exact hdefined s
    · rfl
  unfold Defines
  rw [lookup?_update u name hname]
  cases u.lookup? m with
  | none => simp
  | some s => simp only [Option.map_some, Option.some.injEq, exists_eq_left', hself]

/-- A definition defines its name, which was not defined before. -/
theorem defines_define {u v : CodeUnit} {name : String} {kind : SymbolKind} {binding : Binding}
    {sec : Section} {value : UInt64} (h : u.define name kind binding sec value = .ok v) :
    ¬ u.Defines name ∧ ∀ m, v.Defines m ↔ m = name ∨ u.Defines m := by
  obtain ⟨rfl, hfree⟩ := define_ok h
  refine ⟨fun ⟨s, hs, hdefined⟩ => by simp [hfree s hs] at hdefined, fun m => ?_⟩
  by_cases hm : m = name
  · subst hm
    refine iff_of_true ?_ (.inl rfl)
    unfold Defines
    rw [lookup?_update _ _ (by exact fun _ => rfl), lookup?_reference, if_pos rfl]
    cases hu : u.lookup? m with
    | none => exact ⟨_, rfl, by simp [Entry.placeholder]⟩
    | some s => exact ⟨_, rfl, by simp [lookup?_name hu]⟩
  · simp only [hm, false_or]
    rw [← defines_reference u name m]
    unfold Defines
    rw [lookup?_update _ _ (by exact fun _ => rfl)]
    cases hu : (u.reference name).lookup? m with
    | none => simp
    | some s => simp [lookup?_name hu, hm]

/-- An object in the data defines its name, which was not defined before. -/
theorem defines_addData {u v : CodeUnit} {name : String} {value : List UInt8} {binding : Binding}
    (h : u.addData name value binding = .ok v) :
    ¬ u.Defines name ∧ ∀ m, v.Defines m ↔ m = name ∨ u.Defines m := by
  obtain ⟨w, hw, rfl⟩ := addData_eq h
  obtain ⟨hfree, hw⟩ := defines_define hw
  refine ⟨hfree, fun m => ?_⟩
  rw [← hw m]
  have hsize := defines_update w name (f := fun s => { s with size := UInt64.ofNat value.length })
    (fun _ => rfl) (fun _ => rfl) m
  exact hsize

/-! ## Offsets in the text -/

/-- A change of the entry of a name that leaves its place alone. -/
theorem textOffset?_update (u : CodeUnit) (name : String) {f : Entry → Entry}
    (hname : ∀ s, (f s).name = s.name) (hdefined : ∀ s, (f s).defined = s.defined)
    (hsec : ∀ s, (f s).sec = s.sec) (hvalue : ∀ s, (f s).value = s.value) (m : String) :
    (u.update name f).textOffset? m = u.textOffset? m := by
  have hself (s : Entry) : (if s.name == name then f s else s).defined = s.defined ∧
      (if s.name == name then f s else s).sec = s.sec ∧
      (if s.name == name then f s else s).value = s.value := by
    split
    · exact ⟨hdefined s, hsec s, hvalue s⟩
    · exact ⟨rfl, rfl, rfl⟩
  unfold textOffset?
  rw [lookup?_update u name hname]
  cases u.lookup? m with
  | none => rfl
  | some s =>
    obtain ⟨hdefined, hsec, hvalue⟩ := hself s
    simp only [Option.map_some, hdefined, hsec, hvalue]

/-- A definition in the data gives no symbol an offset in the text. -/
theorem textOffset?_define_data {u v : CodeUnit} {name : String} {kind : SymbolKind}
    {binding : Binding} {value : UInt64} (h : u.define name kind binding .data value = .ok v)
    (m : String) : v.textOffset? m = u.textOffset? m := by
  obtain ⟨rfl, hfree⟩ := define_ok h
  by_cases hm : m = name
  · subst hm
    rw [textOffset?_of_undefined hfree]
    unfold textOffset?
    rw [lookup?_update _ _ (by exact fun _ => rfl), lookup?_reference, if_pos rfl]
    cases hu : u.lookup? m with
    | none => simp [Entry.placeholder]
    | some s => simp [lookup?_name hu]
  · rw [← textOffset?_reference u name m]
    unfold textOffset?
    rw [lookup?_update _ _ (by exact fun _ => rfl)]
    cases hu : (u.reference name).lookup? m with
    | none => rfl
    | some s => simp [lookup?_name hu, hm]

theorem textOffset?_addData {u v : CodeUnit} {name : String} {value : List UInt8}
    {binding : Binding} (h : u.addData name value binding = .ok v) (m : String) :
    v.textOffset? m = u.textOffset? m := by
  obtain ⟨w, hw, rfl⟩ := addData_eq h
  rw [← textOffset?_define_data hw m]
  have hsize := textOffset?_update w name
    (f := fun s => { s with size := UInt64.ofNat value.length })
    (fun _ => rfl) (fun _ => rfl) (fun _ => rfl) (fun _ => rfl) m
  exact hsize

end Backend.CodeUnit
