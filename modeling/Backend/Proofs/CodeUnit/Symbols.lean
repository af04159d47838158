-- What the operations on a unit do to its symbol table. In the units that they build no name has
-- two entries, and the symbol of every relocation has one.
import Backend.CodeUnit.Basic
import Mathlib.Data.List.Nodup

namespace Backend.CodeUnit

/-- The offset of a symbol that the text defines. -/
def textOffset? (u : CodeUnit) (name : String) : Option UInt64 :=
  match u.lookup? name with
  | some s => if s.defined && s.sec == .text then some s.value else none
  | none => none

theorem lookup?_congr {u v : CodeUnit} (h : v.symbols = u.symbols) (name : String) :
    v.lookup? name = u.lookup? name := by
  unfold lookup?
  rw [h]

theorem textOffset?_congr {u v : CodeUnit} (h : v.symbols = u.symbols) (name : String) :
    v.textOffset? name = u.textOffset? name := by
  unfold textOffset?
  rw [lookup?_congr h]

/-- A symbol that is not defined has no offset. -/
theorem textOffset?_of_undefined {u : CodeUnit} {name : String}
    (h : ∀ s, u.lookup? name = some s → s.defined = false) : u.textOffset? name = none := by
  unfold textOffset?
  cases hs : u.lookup? name with
  | none => rfl
  | some s => simp [h s hs]

theorem lookup?_name {u : CodeUnit} {name : String} {s : Entry} (h : u.lookup? name = some s) :
    s.name = name := by
  have hs := List.find?_some h
  simpa using hs

/-! ## References -/

theorem reference_fields (u : CodeUnit) (name : String) :
    (u.reference name).text = u.text ∧ (u.reference name).data = u.data ∧
      (u.reference name).relocs = u.relocs ∧ (u.reference name).name = u.name := by
  unfold reference
  split <;> exact ⟨rfl, rfl, rfl, rfl⟩

/-- A reference adds at most the placeholder of its name. -/
theorem lookup?_reference (u : CodeUnit) (name m : String) :
    (u.reference name).lookup? m =
      (u.lookup? m).or (if m = name then some (.placeholder name) else none) := by
  unfold reference
  cases hs : u.lookup? name with
  | some s =>
    by_cases hm : m = name
    · subst hm
      simp [hs]
    · simp [hm]
  | none =>
    simp only [lookup?, List.find?_append]
    cases List.find? (fun s => s.name == m) u.symbols with
    | some s => rfl
    | none =>
      by_cases hm : m = name
      · subst hm
        simp [Entry.placeholder]
      · simp [Entry.placeholder, hm, Ne.symm hm]

theorem textOffset?_reference (u : CodeUnit) (name m : String) :
    (u.reference name).textOffset? m = u.textOffset? m := by
  unfold textOffset?
  rw [lookup?_reference]
  cases u.lookup? m with
  | some s => rfl
  | none =>
    by_cases hm : m = name
    · simp [hm, Entry.placeholder]
    · simp [hm]

theorem addRelocation_fields (u : CodeUnit) (r : Relocation) :
    (u.addRelocation r).text = u.text ∧ (u.addRelocation r).relocs = u.relocs ++ [r] := by
  obtain ⟨htext, -, hrelocs, -⟩ := reference_fields u r.symbol
  exact ⟨htext, congrArg (· ++ [r]) hrelocs⟩

theorem textOffset?_addRelocation (u : CodeUnit) (r : Relocation) (m : String) :
    (u.addRelocation r).textOffset? m = u.textOffset? m :=
  textOffset?_reference u r.symbol m

/-! ## Definitions -/

theorem lookup?_update (u : CodeUnit) (name : String) {f : Entry → Entry}
    (hf : ∀ s, (f s).name = s.name) (m : String) :
    (u.update name f).lookup? m =
      (u.lookup? m).map fun s => if s.name == name then f s else s := by
  have hname : ((fun s : Entry => s.name == m) ∘ fun s => if s.name == name then f s else s) =
      fun s => s.name == m := by
    funext s
    simp only [Function.comp]
    split
    · rw [hf]
    · rfl
  unfold lookup? update
  rw [List.find?_map, hname]

/-- What a definition changes. -/
theorem define_ok {u v : CodeUnit} {name : String} {kind : SymbolKind} {binding : Binding}
    {sec : Section} {value : UInt64} (h : u.define name kind binding sec value = .ok v) :
    v = (u.reference name).update name (fun s =>
        { s with kind := kind, binding := binding, sec := sec, value := value, defined := true }) ∧
      ∀ s, u.lookup? name = some s → s.defined = false := by
  have hlookup := lookup?_reference u name name
  simp only [if_true] at hlookup
  unfold define at h
  simp only at h
  split at h
  · rename_i s hs
    split at h
    · simp at h
    · rename_i hdefined
      refine ⟨(Except.ok.inj h).symm, fun t ht => ?_⟩
      rw [hlookup, ht] at hs
      obtain rfl := Option.some.inj hs
      simpa using hdefined
  · rename_i hs
    rw [hlookup] at hs
    cases hu : u.lookup? name with
    | some s => simp [hu] at hs
    | none => simp [hu] at hs

theorem define_fields {u v : CodeUnit} {name : String} {kind : SymbolKind} {binding : Binding}
    {sec : Section} {value : UInt64} (h : u.define name kind binding sec value = .ok v) :
    v.text = u.text ∧ v.data = u.data ∧ v.relocs = u.relocs ∧ v.name = u.name := by
  obtain ⟨rfl, -⟩ := define_ok h
  exact reference_fields u name

/-- A definition in the text gives the symbol its offset and leaves the others as they are. -/
theorem textOffset?_define {u v : CodeUnit} {name : String} {kind : SymbolKind}
    {binding : Binding} {value : UInt64} (h : u.define name kind binding .text value = .ok v)
    (m : String) :
    v.textOffset? m = if m = name then some value else u.textOffset? m := by
  obtain ⟨rfl, -⟩ := define_ok h
  unfold textOffset?
  rw [lookup?_update, lookup?_reference]
  · by_cases hm : m = name
    · subst hm
      cases hs : u.lookup? m with
      | some s => simp [lookup?_name hs]
      | none => simp [Entry.placeholder]
    · cases hs : u.lookup? m with
      | some s => simp [lookup?_name hs, hm]
      | none => simp [hm]
  · intro s
    rfl

/-! ## Reachable units -/

/-- The units that the operations build from an empty one. Whoever holds an entry may change
anything but its name. -/
inductive Reachable : CodeUnit → Prop
  | empty (name : String) : Reachable (empty name)
  | emit {u : CodeUnit} (bytes : List UInt8) : Reachable u → Reachable (u.emit bytes)
  | patch {u v : CodeUnit} {offset : UInt64} {bytes : List UInt8} :
      Reachable u → u.patch offset bytes = .ok v → Reachable v
  | reference {u : CodeUnit} (name : String) : Reachable u → Reachable (u.reference name)
  | define {u v : CodeUnit} {name : String} {kind : SymbolKind} {binding : Binding}
      {sec : Section} {value : UInt64} :
      Reachable u → u.define name kind binding sec value = .ok v → Reachable v
  | addData {u v : CodeUnit} {name : String} {value : List UInt8} {binding : Binding} :
      Reachable u → u.addData name value binding = .ok v → Reachable v
  | update {u : CodeUnit} (name : String) {change : Entry → Entry} :
      Reachable u → (∀ s, (change s).name = s.name) → Reachable (u.update name change)
  | addRelocation {u : CodeUnit} (r : Relocation) : Reachable u → Reachable (u.addRelocation r)
  | enableListing {u : CodeUnit} : Reachable u → Reachable { u with listing := true }
  | addLine {u : CodeUnit} (l : Line) : Reachable u → Reachable (u.addLine l)
  | setLineBytes {u : CodeUnit} (index : Int) (bytes : List UInt8) :
      Reachable u → Reachable (u.setLineBytes index bytes)

/-- What the symbol table and the relocations keep. -/
structure Consistent (u : CodeUnit) : Prop where
  distinct : (u.symbols.map Entry.name).Nodup
  known : ∀ r ∈ u.relocs, r.symbol ∈ u.symbols.map Entry.name

theorem Consistent.congr {u v : CodeUnit} (h : u.Consistent) (hsymbols : v.symbols = u.symbols)
    (hrelocs : v.relocs = u.relocs) : v.Consistent := by
  refine ⟨?_, ?_⟩
  · rw [hsymbols]
    exact h.distinct
  · rw [hsymbols, hrelocs]
    exact h.known

theorem lookup?_eq_none {u : CodeUnit} {name : String} :
    u.lookup? name = none ↔ name ∉ u.symbols.map Entry.name := by
  simp [lookup?]

theorem names_reference (u : CodeUnit) (name : String) :
    (u.reference name).symbols.map Entry.name =
      u.symbols.map Entry.name ++ if name ∈ u.symbols.map Entry.name then [] else [name] := by
  unfold reference
  split
  · rename_i s hs
    have hmem : name ∈ u.symbols.map Entry.name := by
      by_contra habsent
      rw [lookup?_eq_none.mpr habsent] at hs
      cases hs
    rw [if_pos hmem, List.append_nil]
  · rename_i hs
    rw [if_neg (lookup?_eq_none.mp hs)]
    simp [Entry.placeholder]

theorem consistent_reference {u : CodeUnit} (h : u.Consistent) (name : String) :
    (u.reference name).Consistent := by
  refine ⟨?_, fun r hr => ?_⟩
  · rw [names_reference]
    split
    · simpa using h.distinct
    · rename_i habsent
      refine h.distinct.append (List.nodup_singleton name) ?_
      simpa using habsent
  · rw [(reference_fields u name).2.2.1] at hr
    rw [names_reference]
    exact List.mem_append_left _ (h.known r hr)

theorem mem_names_reference (u : CodeUnit) (name : String) :
    name ∈ (u.reference name).symbols.map Entry.name := by
  rw [names_reference]
  split
  · rename_i hmem
    exact List.mem_append_left _ hmem
  · exact List.mem_append_right _ List.mem_cons_self

theorem names_update (u : CodeUnit) (name : String) {change : Entry → Entry}
    (h : ∀ s, (change s).name = s.name) :
    (u.update name change).symbols.map Entry.name = u.symbols.map Entry.name := by
  simp only [update, List.map_map]
  apply List.map_congr_left
  intro s _
  simp only [Function.comp]
  split
  · exact h s
  · rfl

theorem consistent_update {u : CodeUnit} (h : u.Consistent) (name : String)
    {change : Entry → Entry} (hchange : ∀ s, (change s).name = s.name) :
    (u.update name change).Consistent := by
  have hnames := names_update u name hchange
  refine ⟨?_, fun r hr => ?_⟩
  · rw [hnames]
    exact h.distinct
  · rw [hnames]
    exact h.known r hr

theorem consistent_define {u v : CodeUnit} {name : String} {kind : SymbolKind}
    {binding : Binding} {sec : Section} {value : UInt64} (h : u.Consistent)
    (hv : u.define name kind binding sec value = .ok v) : v.Consistent := by
  obtain ⟨rfl, -⟩ := define_ok hv
  exact consistent_update (consistent_reference h name) name fun _ => rfl

theorem consistent_addRelocation {u : CodeUnit} (h : u.Consistent) (r : Relocation) :
    (u.addRelocation r).Consistent := by
  have href := consistent_reference h r.symbol
  refine ⟨href.distinct, fun s hs => ?_⟩
  rcases List.mem_append.mp hs with hold | hnew
  · exact href.known s hold
  · obtain rfl := List.mem_singleton.mp hnew
    exact mem_names_reference u s.symbol

/-- An object is a definition in the data section whose size is filled in. -/
theorem addData_eq {u v : CodeUnit} {name : String} {value : List UInt8} {binding : Binding}
    (h : u.addData name value binding = .ok v) :
    ∃ w, u.define name .object binding .data (UInt64.ofNat u.data.length) = .ok w ∧
      v = { w.update name (fun s => { s with size := UInt64.ofNat value.length }) with
        data := w.data ++ value } := by
  unfold addData at h
  cases hw : u.define name .object binding .data (UInt64.ofNat u.data.length) with
  | error e =>
    rw [hw] at h
    cases h
  | ok w =>
    rw [hw] at h
    exact ⟨w, rfl, (Except.ok.inj h).symm⟩

theorem Reachable.consistent {u : CodeUnit} (h : Reachable u) : u.Consistent := by
  induction h with
  | empty name => exact ⟨List.nodup_nil, fun r hr => nomatch hr⟩
  | emit bytes _ ih => exact ih.congr rfl rfl
  | patch _ hv ih =>
    unfold CodeUnit.patch at hv
    split at hv
    · cases hv
    · split at hv
      · cases hv
      · cases hv
        exact ih.congr rfl rfl
  | reference name _ ih => exact consistent_reference ih name
  | define _ hv ih => exact consistent_define ih hv
  | @addData u v name value binding _ hv ih =>
    obtain ⟨w, hw, rfl⟩ := addData_eq hv
    have hsized : (w.update name fun s =>
        { s with size := UInt64.ofNat value.length }).Consistent :=
      consistent_update (consistent_define ih hw) name fun _ => rfl
    exact hsized.congr rfl rfl
  | update name _ hchange ih => exact consistent_update ih name hchange
  | addRelocation r _ ih => exact consistent_addRelocation ih r
  | enableListing _ ih => exact ih.congr rfl rfl
  | addLine l _ ih => exact ih.congr rfl rfl
  | setLineBytes index bytes _ ih =>
    unfold CodeUnit.setLineBytes
    split
    · exact ih
    · exact ih.congr rfl rfl

/-- In a consistent unit the entry of a name is the only one. -/
theorem Consistent.lookup?_of_mem {u : CodeUnit} (h : u.Consistent) {s : Entry}
    (hs : s ∈ u.symbols) : u.lookup? s.name = some s := by
  cases ht : u.lookup? s.name with
  | none =>
    have habsent := lookup?_eq_none.mp ht
    exact absurd (List.mem_map_of_mem hs) habsent
  | some t =>
    have hmem : t ∈ u.symbols := List.mem_of_find?_eq_some ht
    rw [List.inj_on_of_nodup_map h.distinct hmem hs (lookup?_name ht)]

end Backend.CodeUnit
