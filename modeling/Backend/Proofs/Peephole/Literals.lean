-- Literals in the data section never dangle: whatever the order in which literals are placed, code
-- is rewritten and unused literals are dropped, a literal that the code refers to keeps its datum.
-- Nor does rewriting bring in a label: every label of a rewritten closure stood in the closure
-- before.
import Backend.Proofs.Closure.Literals
import Backend.Proofs.Peephole.Rules
import Mathlib.Logic.Relation

namespace Backend

/-! ## Symbols in code -/

mutual

/-- The symbols in an operand at any depth. -/
def Operand.symbols : Operand → List Symbol
  | .symbol s => [s]
  | .indirect base index _ _ _ => Operand.slotSymbols base ++ Operand.slotSymbols index
  | .list items => Operand.itemSymbols items
  | _ => []

def Operand.slotSymbols : Option Operand → List Symbol
  | none => []
  | some o => o.symbols

def Operand.itemSymbols : List Operand → List Symbol
  | [] => []
  | o :: rest => o.symbols ++ Operand.itemSymbols rest

end

/-- The symbols in the slots of an instruction. -/
def Instr.symbols (i : Instr) : List Symbol :=
  [i.first, i.second, i.addend, i.output].flatMap Operand.slotSymbols

def Block.symbols (b : Block) : List Symbol := b.ops.flatMap Instr.symbols

/-- The symbols anywhere in the code of a closure. -/
def Closure.symbols (c : Closure) : List Symbol := c.blocks.flatMap Block.symbols

theorem Instr.mem_symbols {i : Instr} {s : Symbol} : s ∈ i.symbols ↔
    s ∈ Operand.slotSymbols i.first ∨ s ∈ Operand.slotSymbols i.second ∨
      s ∈ Operand.slotSymbols i.addend ∨ s ∈ Operand.slotSymbols i.output := by
  simp [Instr.symbols]

end Backend

namespace Backend.Peephole

mutual

theorem symbolsOf_eq (o : Operand) : symbolsOf o = o.symbols.map Symbol.name := by
  cases o with
  | indirect base index scale disp t =>
    simp only [symbolsOf, Operand.symbols, List.map_append]
    rw [symbolsOfOption_eq base, symbolsOfOption_eq index]
  | list items => exact symbolsOfItems_eq items
  | _ => simp [symbolsOf, Operand.symbols]

theorem symbolsOfOption_eq (o : Option Operand) :
    symbolsOfOption o = (Operand.slotSymbols o).map Symbol.name := by
  cases o with
  | none => rfl
  | some o => exact symbolsOf_eq o

theorem symbolsOfItems_eq (items : List Operand) :
    symbolsOfItems items = (Operand.itemSymbols items).map Symbol.name := by
  cases items with
  | nil => rfl
  | cons o rest =>
    simp only [symbolsOfItems, Operand.itemSymbols, List.map_append]
    rw [symbolsOf_eq o, symbolsOfItems_eq rest]

end

theorem instrSymbols_eq (i : Instr) : instrSymbols i = i.symbols.map Symbol.name := by
  simp [instrSymbols, Instr.symbols, symbolsOfOption_eq]

/-- The names in use when literals are dropped are those of the symbols in the code. -/
theorem usedNames_eq (c : Closure) :
    (c.blocks.flatMap fun b => b.ops.flatMap instrSymbols) = c.symbols.map Symbol.name := by
  simp only [Closure.symbols, Block.symbols, List.map_flatMap]
  exact List.flatMap_congr fun b _ => List.flatMap_congr fun i _ => instrSymbols_eq i

/-! ## Rewriting -/

section Rules

variable {st : Setting} {b : Block}

theorem slotSymbols_of_isDirect {o : Option Operand} (h : isDirect o = true) :
    Operand.slotSymbols o = [] := by
  unfold isDirect at h
  split at h
  · rfl
  · rfl
  · simp at h

theorem slotSymbols_productUse {next : Instr} {t : Var} {op : Opcode} {addend : Option Operand}
    (h : productUse? next t = some (op, addend)) :
    Operand.slotSymbols addend ⊆ next.symbols := by
  obtain ⟨-, -, o, ho, haddend⟩ := productUse?_eq_some h
  intro s hs
  rcases haddend with rfl | ⟨l, -, rfl⟩
  · rcases ho with rfl | rfl
    · exact Instr.mem_symbols.mpr (.inl hs)
    · exact Instr.mem_symbols.mpr (.inr (.inl hs))
  · simp [Operand.slotSymbols, Operand.symbols] at hs

theorem symbols_cons_mono {i j : Instr} (h : i.symbols ⊆ j.symbols) (rest : List Instr) :
    (i :: rest).flatMap Instr.symbols ⊆ (j :: rest).flatMap Instr.symbols :=
  List.append_subset.mpr
    ⟨List.Subset.trans h (List.subset_append_left _ _), List.subset_append_right _ _⟩

theorem lea_symbols {ops : List Instr} {f : LeaFusion} (h : leaFusion? st b ops = some f) :
    (f.instr :: f.rest).flatMap Instr.symbols ⊆ ops.flatMap Instr.symbols := by
  obtain ⟨mul, add, between, t, cur, fu⟩ := leaFusion?_eq_some h
  intro s hs
  rw [fu.ops]
  simp only [List.flatMap_cons, List.flatMap_append, List.mem_append] at hs ⊢
  rcases hs with hs | hs
  · -- The index is a factor, a variable or register, so the address has no symbol.
    have hnone : ∀ scale disp u, Operand.slotSymbols
        (some (.indirect f.index none scale disp u)) = [] ∧ Operand.slotSymbols
        (some (.indirect none f.index scale disp u)) = [] := by
      intro scale disp u
      have hindex := slotSymbols_of_isDirect fu.product.direct
      simp [Operand.slotSymbols, Operand.symbols, hindex]
    have hout : s ∈ Operand.slotSymbols f.dst := by
      rw [Instr.mem_symbols] at hs
      simp only [LeaFusion.instr, Instr.make] at hs
      rcases hs with hs | hs | hs | hs
      · split at hs
        · rw [(hnone ..).1] at hs
          cases hs
        · rw [(hnone ..).2] at hs
          cases hs
      · cases hs
      · cases hs
      · exact hs
    rw [fu.dst] at hout
    exact .inr (.inr (.inl (Instr.mem_symbols.mpr (.inr (.inr (.inr hout))))))
  · exact .inr (.inr (.inr hs))

theorem mulAdd_symbols {mul next new : Instr} (h : mulAdd? st b mul next = some new) :
    new.symbols ⊆ next.symbols := by
  obtain ⟨t, m⟩ := mulAdd?_eq_some h
  obtain ⟨op, addend, huse, -, rfl⟩ := m.fused
  intro s hs
  rcases Instr.mem_symbols.mp hs with hs | hs | hs | hs
  · rw [slotSymbols_of_isDirect m.firstDirect] at hs
    cases hs
  · rw [slotSymbols_of_isDirect m.secondDirect] at hs
    cases hs
  · exact slotSymbols_productUse huse hs
  · exact Instr.mem_symbols.mpr (.inr (.inr (.inr hs)))

theorem doubled_symbols {mul : Instr} {x y : Option Operand} (h : Sources mul y x) :
    (doubled mul x).symbols ⊆ mul.symbols := by
  have hx : ∀ s ∈ Operand.slotSymbols x, s ∈ mul.symbols := by
    intro s hs
    rcases h with ⟨-, rfl⟩ | ⟨-, rfl⟩
    · exact Instr.mem_symbols.mpr (.inr (.inl hs))
    · exact Instr.mem_symbols.mpr (.inl hs)
  intro s hs
  rcases Instr.mem_symbols.mp hs with hs | hs | hs | hs
  · exact hx s hs
  · exact hx s hs
  · exact Instr.mem_symbols.mpr (.inr (.inr (.inl hs)))
  · exact Instr.mem_symbols.mpr (.inr (.inr (.inr hs)))

theorem doubling_symbols {ops ops' : List Instr} (h : Doubling st b ops ops') :
    ops'.flatMap Instr.symbols ⊆ ops.flatMap Instr.symbols := by
  cases h with
  | second op two =>
    exact symbols_cons_mono (doubled_symbols (.inr ⟨rfl, rfl⟩)) _
  | first op two =>
    exact symbols_cons_mono (doubled_symbols (.inl ⟨rfl, rfl⟩)) _
  | moved op move two temp factors =>
    obtain ⟨y, hxy, -⟩ := factors
    exact List.Subset.trans (symbols_cons_mono (doubled_symbols hxy) _)
      (List.subset_append_right _ _)

/-- An instruction whose symbols are in one of two stands for both. -/
theorem symbols_pair_mono {first second new : Instr} {rest : List Instr}
    (h : ∀ s ∈ new.symbols, s ∈ first.symbols ∨ s ∈ second.symbols) :
    (new :: rest).flatMap Instr.symbols ⊆ (first :: second :: rest).flatMap Instr.symbols := by
  intro s hs
  simp only [List.flatMap_cons, List.mem_append] at hs ⊢
  rcases hs with hs | hs
  · exact (h s hs).imp_right .inl
  · exact .inr (.inr hs)

/-- No rule brings in a symbol. -/
theorem rule_symbols {rule : Rule} (hrule : rule ∈ defaultRules) {ops ops' : List Instr}
    (h : rule st b ops = some ops') :
    ops'.flatMap Instr.symbols ⊆ ops.flatMap Instr.symbols := by
  cases application_of_rule hrule h with
  | lea hf => exact lea_symbols hf
  | mulAdd hnew =>
    exact List.Subset.trans (symbols_cons_mono (mulAdd_symbols hnew) _)
      (List.subset_append_right _ _)
  | double found => exact doubling_symbols found
  | retarget hnew =>
    refine symbols_pair_mono fun s hs => ?_
    obtain ⟨-, -, -, rfl, -⟩ := retarget?_eq_some hnew
    rw [Instr.mem_symbols] at hs
    rw [Instr.mem_symbols, Instr.mem_symbols]
    tauto
  | substitute hnew =>
    refine symbols_pair_mono fun s hs => ?_
    obtain ⟨-, -, -, t, -, -, ⟨-, rfl⟩ | ⟨-, rfl⟩⟩ := substitute?_eq_some hnew
    all_goals
      rw [Instr.mem_symbols] at hs
      rw [Instr.mem_symbols, Instr.mem_symbols]
      tauto

end Rules

/-- One application of a rule somewhere in a block. -/
inductive Rewrites (st : Setting) : Block → Block → Prop
  | mk (b : Block) (rule : Rule) (done ops ops' : List Instr) (mem : rule ∈ defaultRules)
      (here : b.ops = done ++ ops) (applies : rule st b ops = some ops') :
      Rewrites st b { b with ops := done ++ ops' }

theorem Rewrites.symbols {st : Setting} {b b' : Block} (h : Rewrites st b b') :
    b'.symbols ⊆ b.symbols := by
  obtain ⟨rule, done, ops, ops', mem, here, applies⟩ := h
  intro s hs
  simp only [Block.symbols, here, List.flatMap_append, List.mem_append] at hs ⊢
  exact hs.imp_right fun hs => rule_symbols mem applies hs

/-! ## Dropping -/

section Prune

variable {c : Closure}

theorem mem_imms_prune {p : List UInt8 × String} :
    p ∈ (prune c).1.imms ↔ p ∈ c.imms ∧ ∃ s ∈ c.symbols, s.name = p.2 := by
  simp only [prune, usedNames_eq, List.mem_filter, List.contains_iff_mem, List.mem_map]

theorem mem_data_prune {d : DataItem} : d ∈ (prune c).1.data ↔
    d ∈ c.data ∧ (d.name ∈ c.imms.map Prod.snd → ∃ s ∈ c.symbols, s.name = d.name) := by
  have hliteral : (c.imms.any fun p => p.2 == d.name) = true ↔ d.name ∈ c.imms.map Prod.snd := by
    simp
  simp only [prune, usedNames_eq, List.mem_filter, Bool.or_eq_true, Bool.not_eq_true',
    List.contains_iff_mem, List.mem_map, ← hliteral, Bool.eq_false_iff]
  tauto

theorem imms_prune_sublist (c : Closure) : (prune c).1.imms.Sublist c.imms := List.filter_sublist

theorem data_prune_sublist (c : Closure) : (prune c).1.data.Sublist c.data := List.filter_sublist

end Prune

/-! ## Placing, rewriting and dropping -/

/-- A closure, with the symbols that were given for its literals and, among them, those that were
given since unused literals were last dropped. -/
structure Stage where
  closure : Closure
  given : List Symbol
  fresh : List Symbol

/-- What happens to a closure between lowering and selection. Code may be written freely, except
that the symbol of a literal that was dropped does not come back: the symbol of a literal enters the
code before unused literals are next dropped. -/
inductive Step : Stage → Stage → Prop
  | materialize (t : Stage) (l : Literal) :
      Step t ⟨(t.closure.materialize l).2, (t.closure.materialize l).1 :: t.given,
        (t.closure.materialize l).1 :: t.fresh⟩
  | write (t : Stage) (c : Closure) (imms : c.imms = t.closure.imms)
      (data : c.data = t.closure.data)
      (known : ∀ s ∈ c.symbols, s ∈ t.given → s ∈ t.fresh ∨ s ∈ t.closure.symbols) :
      Step t ⟨c, t.given, t.fresh⟩
  | rewrite (t : Stage) (features : Features) (before after : List Block) (b b' : Block)
      (here : t.closure.blocks = before ++ b :: after)
      (rewrites : Rewrites ⟨t.closure.locations, features⟩ b b') :
      Step t ⟨{ t.closure with blocks := before ++ b' :: after }, t.given, t.fresh⟩
  | prune (t : Stage) : Step t ⟨(prune t.closure).1, t.given, []⟩

/-- A closure before any literal is placed. -/
structure Start (t : Stage) : Prop where
  imms : t.closure.imms = []
  given : t.given = []
  names : (t.closure.data.map DataItem.name).Nodup

/-- The stages that are reached from a closure without literals. -/
def Reached (t : Stage) : Prop := ∃ start, Start start ∧ Relation.ReflTransGen Step start t

/-- A symbol given for a literal may still be used: it is in the code, or has been given since
unused literals were last dropped. -/
def Stage.Live (t : Stage) (s : Symbol) : Prop :=
  s ∈ t.given ∧ (s ∈ t.fresh ∨ s ∈ t.closure.symbols)

/-- The tables agree with each other and with the symbols in use. -/
structure Sound (t : Stage) : Prop where
  names : (t.closure.data.map DataItem.name).Nodup
  keys : (t.closure.imms.map Prod.fst).Nodup
  symbols : (t.closure.imms.map Prod.snd).Nodup
  entries : ∀ p ∈ t.closure.imms, ∃ l, (∃ s ∈ t.given, s.const = some l) ∧ p.1 = l.key ∧
    ⟨p.2, l.bytes, true⟩ ∈ t.closure.data
  live : ∀ s, t.Live s → ∃ l, s.const = some l ∧ (l.key, s.name) ∈ t.closure.imms

theorem Start.sound {t : Stage} (h : Start t) : Sound t where
  names := h.names
  keys := by simp [h.imms]
  symbols := by simp [h.imms]
  entries := by simp [h.imms]
  live := by simp [Stage.Live, h.given]

namespace Sound

variable {t : Stage}

/-- The name of a literal is the name of a datum. -/
theorem name_mem (h : Sound t) {p : List UInt8 × String} (hp : p ∈ t.closure.imms) :
    p.2 ∈ t.closure.data.map DataItem.name := by
  obtain ⟨l, -, -, hd⟩ := h.entries p hp
  exact List.mem_map_of_mem hd

theorem materialize (h : Sound t) (l : Literal) :
    Sound ⟨(t.closure.materialize l).2, (t.closure.materialize l).1 :: t.given,
      (t.closure.materialize l).1 :: t.fresh⟩ := by
  cases hfind : t.closure.imms.lookup l.key with
  | some name =>
    have hplaced : t.closure.materialize l =
        (⟨name, true, false, l.ty, some l⟩, t.closure) := by
      simp only [Closure.materialize, hfind]
    rw [hplaced]
    refine ⟨h.names, h.keys, h.symbols, fun p hp => ?_, ?_⟩
    · obtain ⟨l', ⟨s, hs, hconst⟩, hkey, hd⟩ := h.entries p hp
      exact ⟨l', ⟨s, List.mem_cons_of_mem _ hs, hconst⟩, hkey, hd⟩
    · rintro s ⟨hgiven, hlive⟩
      simp only [List.mem_cons] at hgiven hlive
      by_cases hs : s = ⟨name, true, false, l.ty, some l⟩
      · subst hs
        obtain ⟨before, after, hsplit, -⟩ := List.lookup_eq_some_iff.mp hfind
        exact ⟨l, rfl, by simp [hsplit]⟩
      · simp only [hs, false_or] at hgiven hlive
        exact h.live s ⟨hgiven, hlive⟩
  | none =>
    obtain ⟨-, hfree⟩ := t.closure.freshName_spec
    have hplaced : t.closure.materialize l = (⟨t.closure.freshName, true, false, l.ty, some l⟩,
        { t.closure with imms := t.closure.imms ++ [(l.key, t.closure.freshName)],
                         data := t.closure.data ++ [⟨t.closure.freshName, l.bytes, true⟩] }) := by
      simp only [Closure.materialize, hfind]
    have hkey : l.key ∉ t.closure.imms.map Prod.fst := by
      intro hmem
      obtain ⟨p, hp, hpk⟩ := List.mem_map.mp hmem
      simpa [hpk] using List.lookup_eq_none_iff.mp hfind p hp
    have hname : t.closure.freshName ∉ t.closure.imms.map Prod.snd := by
      intro hmem
      obtain ⟨p, hp, hpn⟩ := List.mem_map.mp hmem
      exact hfree (hpn ▸ h.name_mem hp)
    rw [hplaced]
    refine ⟨?_, ?_, ?_, fun p hp => ?_, ?_⟩
    · rw [List.map_append, List.map_singleton, ← List.concat_eq_append]
      exact h.names.concat hfree
    · rw [List.map_append, List.map_singleton, ← List.concat_eq_append]
      exact h.keys.concat hkey
    · rw [List.map_append, List.map_singleton, ← List.concat_eq_append]
      exact h.symbols.concat hname
    · simp only [List.mem_append, List.mem_singleton] at hp
      rcases hp with hp | rfl
      · obtain ⟨l', ⟨s, hs, hconst⟩, hkey, hd⟩ := h.entries p hp
        exact ⟨l', ⟨s, List.mem_cons_of_mem _ hs, hconst⟩, hkey, List.mem_append_left _ hd⟩
      · exact ⟨l, ⟨_, List.mem_cons_self, rfl⟩, rfl, by simp⟩
    · rintro s ⟨hgiven, hlive⟩
      simp only [List.mem_cons] at hgiven hlive
      by_cases hs : s = ⟨t.closure.freshName, true, false, l.ty, some l⟩
      · subst hs
        exact ⟨l, rfl, by simp⟩
      · simp only [hs, false_or] at hgiven hlive
        obtain ⟨l', hconst, hmem⟩ := h.live s ⟨hgiven, hlive⟩
        exact ⟨l', hconst, List.mem_append_left _ hmem⟩

theorem write (h : Sound t) {c : Closure} (imms : c.imms = t.closure.imms)
    (data : c.data = t.closure.data)
    (known : ∀ s ∈ c.symbols, s ∈ t.given → s ∈ t.fresh ∨ s ∈ t.closure.symbols) :
    Sound ⟨c, t.given, t.fresh⟩ where
  names := by simpa only [data] using h.names
  keys := by simpa only [imms] using h.keys
  symbols := by simpa only [imms] using h.symbols
  entries := by simpa only [imms, data] using h.entries
  live := by
    rintro s ⟨hgiven, hlive⟩
    simp only [imms]
    exact h.live s ⟨hgiven, hlive.elim .inl fun hs => known s hs hgiven⟩

theorem prune (h : Sound t) : Sound ⟨(prune t.closure).1, t.given, []⟩ where
  names := h.names.sublist ((data_prune_sublist _).map _)
  keys := h.keys.sublist ((imms_prune_sublist _).map _)
  symbols := h.symbols.sublist ((imms_prune_sublist _).map _)
  entries := by
    intro p hp
    obtain ⟨hp, hused⟩ := mem_imms_prune.mp hp
    obtain ⟨l, hl, hkey, hd⟩ := h.entries p hp
    exact ⟨l, hl, hkey, mem_data_prune.mpr ⟨hd, fun _ => hused⟩⟩
  live := by
    rintro s ⟨hgiven, hlive⟩
    have hused : s ∈ t.closure.symbols := hlive.resolve_left List.not_mem_nil
    obtain ⟨l, hconst, hmem⟩ := h.live s ⟨hgiven, .inr hused⟩
    exact ⟨l, hconst, mem_imms_prune.mpr ⟨hmem, s, hused, rfl⟩⟩

/-- The step lemma. -/
theorem step (h : Sound t) {t' : Stage} (hstep : Step t t') : Sound t' := by
  cases hstep with
  | materialize l => exact h.materialize l
  | write c imms data known => exact h.write imms data known
  | rewrite features before after b b' here rewrites =>
    refine h.write rfl rfl fun s hs _ => .inr ?_
    simp only [Closure.symbols, here, List.flatMap_append, List.flatMap_cons, List.mem_append]
      at hs ⊢
    exact hs.imp_right (Or.imp_left fun hs => rewrites.symbols hs)
  | prune => exact h.prune

end Sound

/-- The run lemma. -/
theorem Reached.sound {t : Stage} (h : Reached t) : Sound t := by
  obtain ⟨start, hstart, hrun⟩ := h
  induction hrun with
  | refl => exact hstart.sound
  | tail _ hstep ih => exact ih.step hstep

/-! ## The tables at every stage -/

/-- The tables of a closure and the symbols in its code belong together. The bytes of a datum are
those of every float or string with its key; integers, which lowering never places, share a key
when they differ in width only. -/
structure Consistent (t : Stage) : Prop where
  /-- No two data have one name. -/
  names : (t.closure.data.map DataItem.name).Nodup
  /-- A literal has one datum, which holds its bytes. -/
  entry : ∀ key name, (key, name) ∈ t.closure.imms → ∃ d ∈ t.closure.data, d.name = name ∧
    (∀ d' ∈ t.closure.data, d'.name = name → d' = d) ∧
    (∃ s ∈ t.given, ∃ l, s.const = some l ∧ l.key = key ∧ d.value = l.bytes) ∧
    ∀ l : Literal, l.int? = none → l.key = key → d.value = l.bytes
  /-- Literals share a symbol if and only if they have one key. -/
  shared : ∀ s s' l l', t.Live s → t.Live s' → s.const = some l → s'.const = some l' →
    (s.name = s'.name ↔ l.key = l'.key)
  /-- A symbol of a literal that is in the code when unused literals have been dropped has its
  datum, with the bytes of the literal. -/
  kept : ∀ s ∈ t.given, s ∈ (prune t.closure).1.symbols → ∃ l, s.const = some l ∧
    ∃ d ∈ (prune t.closure).1.data, d.name = s.name ∧ (l.int? = none → d.value = l.bytes)
  /-- Dropping removes the literals that nothing refers to, from both tables, and nothing else. -/
  dropped : ∀ key name, (key, name) ∈ t.closure.imms →
    ((key, name) ∈ (prune t.closure).1.imms ↔ ∃ s ∈ t.closure.symbols, s.name = name) ∧
    ∀ d ∈ t.closure.data, d.name = name →
      (d ∈ (prune t.closure).1.data ↔ ∃ s ∈ t.closure.symbols, s.name = name)
  others : ∀ d ∈ t.closure.data, d.name ∉ t.closure.imms.map Prod.snd →
    d ∈ (prune t.closure).1.data
  /-- What is left stays in order. -/
  ordered : (prune t.closure).1.data.Sublist t.closure.data ∧
    (prune t.closure).1.imms.Sublist t.closure.imms

theorem Sound.consistent {t : Stage} (h : Sound t) : Consistent t where
  names := h.names
  entry := by
    intro key name hmem
    obtain ⟨l, ⟨s, hs, hconst⟩, rfl, hd⟩ := h.entries _ hmem
    refine ⟨_, hd, rfl, fun d' hd' hname => List.inj_on_of_nodup_map h.names hd' hd hname,
      ⟨s, hs, l, hconst, rfl, rfl⟩, fun l' hl' hkey => Literal.bytes_eq_of_key_eq hl' hkey ▸ rfl⟩
  shared := by
    intro s s' l l' hs hs' hl hl'
    obtain ⟨l₁, hl₁, hmem⟩ := h.live s hs
    obtain ⟨l₂, hl₂, hmem'⟩ := h.live s' hs'
    obtain rfl := Option.some.inj (hl.symm.trans hl₁)
    obtain rfl := Option.some.inj (hl'.symm.trans hl₂)
    constructor
    · intro hname
      exact (Prod.mk.inj (List.inj_on_of_nodup_map h.symbols hmem hmem' hname)).1
    · intro hkey
      exact (Prod.mk.inj (List.inj_on_of_nodup_map h.keys hmem hmem' hkey)).2
  kept := by
    intro s hgiven hs
    obtain ⟨l, hconst, hmem⟩ := h.prune.live s ⟨hgiven, .inr hs⟩
    obtain ⟨l', -, hkey, hd⟩ := h.prune.entries _ hmem
    exact ⟨l, hconst, _, hd, rfl, fun hl => (Literal.bytes_eq_of_key_eq hl hkey).symm⟩
  dropped := by
    intro key name hmem
    refine ⟨mem_imms_prune.trans (and_iff_right hmem), ?_⟩
    rintro d hd rfl
    rw [mem_data_prune]
    constructor
    · exact fun hd => hd.2 (List.mem_map_of_mem hmem)
    · exact fun hused => ⟨hd, fun _ => hused⟩
  others := fun d hd hname => mem_data_prune.mpr ⟨hd, fun hmem => absurd hmem hname⟩
  ordered := ⟨data_prune_sublist _, imms_prune_sublist _⟩

/-- Literals never dangle. From a closure without literals, whose data have different names, placing
literals, writing and rewriting code and dropping unused literals in any order keep the tables
consistent. -/
theorem literals_never_dangle (t : Stage) (h : Reached t) : Consistent t :=
  h.sound.consistent

/-- A function without code and with one variable in its data. -/
def codeless : Closure where
  name := "f"
  symbol := "f"
  isGlobal := false
  ret := .void
  locals := []
  blocks := []
  locations := []
  imms := []
  data := [⟨"v", [7], false⟩]
  frame := 0
  saved := []

/-- A call with the second of two texts behind an address among its arguments. -/
def callWith (text : Symbol) : Block :=
  ⟨"entry", [.make .call (some (.symbol ⟨"g", false, false, .void, none⟩))
    (some (.list [.indirect (some (.symbol text)) none 0 8 .i8])) none], [], [], [], []⟩

/-- Two texts are placed, the first is dropped as unused, and a float is placed: the number of
literals suggests the name of the second text, which the float does not get. -/
theorem literals_of_call_never_dangle : ∃ t, Reached t ∧
    t.closure.imms.map Prod.snd = ["f.imm.1", "f.imm.2"] ∧
    t.closure.data = [⟨"v", [7], false⟩, ⟨"f.imm.1", [98, 0], true⟩,
      ⟨"f.imm.2", [0, 0, 0, 0, 0, 0, 0, 64], true⟩] ∧ Consistent t := by
  let t₁ : Stage := ⟨(codeless.materialize (.string [97])).2,
    [(codeless.materialize (.string [97])).1], [(codeless.materialize (.string [97])).1]⟩
  let text := (t₁.closure.materialize (.string [98])).1
  let t₂ : Stage := ⟨(t₁.closure.materialize (.string [98])).2, text :: t₁.given, text :: t₁.fresh⟩
  let t₃ : Stage := ⟨{ t₂.closure with blocks := [callWith text] }, t₂.given, t₂.fresh⟩
  let t₄ : Stage := ⟨(prune t₃.closure).1, t₃.given, []⟩
  let two : Literal := .float .w64 ⟨0x4000000000000000⟩
  let t₅ : Stage := ⟨(t₄.closure.materialize two).2, (t₄.closure.materialize two).1 :: t₄.given,
    [(t₄.closure.materialize two).1]⟩
  have hwritten : ∀ s ∈ t₃.closure.symbols, s ∈ t₂.given → s ∈ t₂.fresh ∨ s ∈ t₂.closure.symbols :=
    fun s _ hs => .inl hs
  have hreached : Reached t₅ :=
    ⟨⟨codeless, [], []⟩, ⟨rfl, rfl, List.nodup_singleton _⟩,
      .tail (.tail (.tail (.tail (.tail .refl (.materialize _ (.string [97])))
        (.materialize t₁ (.string [98]))) (.write t₂ t₃.closure rfl rfl hwritten)) (.prune t₃))
        (.materialize t₄ two)⟩
  exact ⟨t₅, hreached, by decide +kernel, by decide +kernel, literals_never_dangle t₅ hreached⟩

/-- A stage at which a literal has just been placed. -/
def Stage.placed (t : Stage) (l : Literal) : Stage :=
  ⟨(t.closure.materialize l).2, (t.closure.materialize l).1 :: t.given,
    (t.closure.materialize l).1 :: t.fresh⟩

/-- The conditions under which literals are told apart and have their bytes are needed. A literal
gets the name of another one that was dropped before; code that is given the symbol of a dropped
literal refers to no datum; and of two integers that differ in width only, the second has the bytes
of the first. -/
theorem literals_dangle_unless_live :
    (∃ t, Reached t ∧ ∃ s ∈ t.given, ∃ s' ∈ t.given, ∃ l l', s.const = some l ∧ s'.const = some l' ∧
      s.name = s'.name ∧ l.key ≠ l'.key) ∧
    (∃ t, Reached t ∧ ∃ s ∈ t.given, s.name ∈ (callWith s).symbols.map Symbol.name ∧
      s.name ∉ (prune { t.closure with blocks := [callWith s] }).1.data.map DataItem.name) ∧
    ∃ t, Reached t ∧ ∃ s ∈ t.given, s ∈ (prune t.closure).1.symbols ∧ ∃ l, s.const = some l ∧
      ∀ d ∈ (prune t.closure).1.data, d.name = s.name → d.value ≠ l.bytes := by
  let start : Stage := ⟨codeless, [], []⟩
  have hstart : Start start := ⟨rfl, rfl, List.nodup_singleton _⟩
  let placed := start.placed (.string [97])
  let dropped : Stage := ⟨(prune placed.closure).1, placed.given, []⟩
  have hdropped : Relation.ReflTransGen Step start dropped :=
    .tail (.tail .refl (.materialize _ (.string [97]))) (.prune placed)
  let again := dropped.placed (.string [98])
  let wide := (start.placed (.int .w8 5)).placed (.int .w16 5)
  let five := ((start.placed (.int .w8 5)).closure.materialize (.int .w16 5)).1
  let used : Stage := ⟨{ wide.closure with blocks := [callWith five] }, wide.given, wide.fresh⟩
  have hused : ∀ s ∈ used.closure.symbols, s ∈ wide.given → s ∈ wide.fresh ∨
      s ∈ wide.closure.symbols :=
    fun _ _ hs => .inl hs
  refine ⟨⟨again, ⟨start, hstart, hdropped.tail (.materialize _ _)⟩, ?_⟩,
    ⟨dropped, ⟨start, hstart, hdropped⟩, ?_⟩,
    used, ⟨start, hstart, .tail (.tail (.tail .refl (.materialize _ (.int .w8 5)))
      (.materialize (start.placed (.int .w8 5)) (.int .w16 5))) (.write wide _ rfl rfl hused)⟩, ?_⟩
  · exact ⟨(dropped.closure.materialize (.string [98])).1, by decide +kernel,
      (codeless.materialize (.string [97])).1, by decide +kernel, .string [98], .string [97],
      by decide +kernel, by decide +kernel, by decide +kernel, by decide +kernel⟩
  · exact ⟨(codeless.materialize (.string [97])).1, by decide +kernel, by decide +kernel,
      by decide +kernel⟩
  · exact ⟨five, by decide +kernel, by decide +kernel, .int .w16 5, by decide +kernel,
      by decide +kernel⟩

/-! ## Runs of the optimiser -/

theorem Step.rewrites {t : Stage} {features : Features} {before after : List Block} {b b' : Block}
    (here : t.closure.blocks = before ++ b :: after)
    (h : Relation.ReflTransGen (Rewrites ⟨t.closure.locations, features⟩) b b') :
    Relation.ReflTransGen Step t
      ⟨{ t.closure with blocks := before ++ b' :: after }, t.given, t.fresh⟩ := by
  induction h with
  | refl => rw [← here]
  | tail _ hstep ih => exact ih.tail (.rewrite _ features before after _ _ rfl hstep)

section Runs

variable {rules : List Rule} (hrules : ∀ rule ∈ rules, rule ∈ defaultRules)

include hrules

theorem sweepFrom_rewrites (st : Setting) (b : Block) (n : Nat) (done ops : List Instr)
    (fired : Nat) : Relation.ReflTransGen (Rewrites st) { b with ops := done ++ ops }
      { b with ops := (sweepFrom rules st b n done ops fired).1 } := by
  fun_induction sweepFrom rules st b n done ops fired with
  | case1 done ops fired => exact .refl
  | case2 n done fired => rw [List.append_nil]
  | case3 n done i rest fired ops' hfirst ih =>
    obtain ⟨rule, hmem, happly⟩ := List.exists_of_findSome?_eq_some hfirst
    exact .head (.mk _ rule done _ ops' (hrules rule hmem) rfl happly) ih
  | case4 n done i rest fired hnone ih => simpa using ih

theorem sweep_rewrites (st : Setting) (b : Block) :
    Relation.ReflTransGen (Rewrites st) b (sweep rules st b).1 :=
  sweepFrom_rewrites hrules st b (sweepBound b.ops) [] b.ops 0

theorem map_sweep_steps (features : Features) (t : Stage) (before after : List Block)
    (here : t.closure.blocks = before ++ after) : Relation.ReflTransGen Step t
      ⟨{ t.closure with blocks := before ++
        (after.map (sweep rules ⟨t.closure.locations, features⟩)).map Prod.fst },
        t.given, t.fresh⟩ := by
  induction after generalizing t before with
  | nil => rw [List.map_nil, List.map_nil, ← here]
  | cons b after ih =>
    have hfirst := sweep_rewrites hrules ⟨t.closure.locations, features⟩ b
    refine (Step.rewrites here hfirst).trans ?_
    have hrest := ih ⟨{ t.closure with blocks := before ++
        (sweep rules ⟨t.closure.locations, features⟩ b).1 :: after }, t.given, t.fresh⟩
      (before ++ [(sweep rules ⟨t.closure.locations, features⟩ b).1]) (by simp)
    simpa using hrest

theorem sweeps_steps (features : Features) (n : Nat) (t : Stage) : Relation.ReflTransGen Step t
    ⟨{ t.closure with
        blocks := (sweeps rules ⟨t.closure.locations, features⟩ n t.closure.blocks).1 },
      t.given, t.fresh⟩ := by
  induction n generalizing t with
  | zero => exact .refl
  | succ n ih =>
    have hsweep := map_sweep_steps hrules features t [] t.closure.blocks rfl
    simp only [sweeps]
    split
    · exact hsweep
    · exact hsweep.trans (ih _)

/-- A run of the optimiser rewrites code and then drops what is unused. -/
theorem runWith_steps (features : Features) (limit : Int) (t : Stage) :
    Relation.ReflTransGen Step t
      ⟨(runWith rules features limit t.closure).1, t.given, []⟩ :=
  (sweeps_steps hrules features _ t).tail (.prune _)

end Runs

/-- The literals of an optimised closure are consistent, in whatever order they were placed. -/
theorem Reached.run {t : Stage} (h : Reached t) (features : Features) (limit : Int) :
    Reached ⟨(run features limit t.closure).1, t.given, []⟩ := by
  obtain ⟨start, hstart, hrun⟩ := h
  exact ⟨start, hstart, hrun.trans (runWith_steps (fun _ hr => hr) features limit t)⟩

end Backend.Peephole

namespace Backend

/-! ## Labels -/

/-- Every label among the first instructions is one of the others. -/
def LabelsFrom (ops' ops : List Instr) : Prop := ∀ i ∈ ops', i.op = .label → i ∈ ops

theorem LabelsFrom.refl (ops : List Instr) : LabelsFrom ops ops := fun _ h _ => h

theorem LabelsFrom.trans {a b c : List Instr} (h : LabelsFrom a b) (h' : LabelsFrom b c) :
    LabelsFrom a c := fun i hi hop => h' i (h i hi hop) hop

/-- An instruction that is no label takes the place of others. -/
theorem labelsFrom_cons {i : Instr} {rest ops : List Instr} (hop : i.op ≠ .label)
    (h : rest ⊆ ops) : LabelsFrom (i :: rest) ops := by
  intro j hj hlabel
  rcases List.mem_cons.mp hj with rfl | hj
  · exact absurd hlabel hop
  · exact h hj

end Backend

namespace Backend.Peephole

section Rules

variable {st : Setting} {b : Block}

theorem ne_label_of_computes {op : Opcode} (h : op.computes = true) : op ≠ .label := by
  rintro rfl
  exact absurd h (by decide)

theorem ne_label_of_isFused {op : Opcode} (h : op.isFused = true) : op ≠ .label := by
  rintro rfl
  exact absurd h (by decide)

/-- No rule brings in a label. -/
theorem rule_labels {rule : Rule} (hrule : rule ∈ defaultRules) {ops ops' : List Instr}
    (h : rule st b ops = some ops') : LabelsFrom ops' ops := by
  have hpair {first second new : Instr} {rest : List Instr} (hnew : new.op ≠ .label) :
      LabelsFrom (new :: rest) (first :: second :: rest) :=
    labelsFrom_cons hnew fun i hi => List.mem_cons_of_mem _ (List.mem_cons_of_mem _ hi)
  cases application_of_rule hrule h with
  | @lea ops f hf =>
    obtain ⟨mul, add, between, t, cur, fu⟩ := leaFusion?_eq_some hf
    refine labelsFrom_cons (by simp [LeaFusion.instr, Instr.make]) fun i hi => ?_
    rw [fu.ops]
    simp [hi]
  | mulAdd hnew =>
    obtain ⟨t, m⟩ := mulAdd?_eq_some hnew
    obtain ⟨op, addend, huse, -, rfl⟩ := m.fused
    exact hpair (ne_label_of_isFused (productUse?_eq_some huse).2.1)
  | double found =>
    cases found with
    | second => exact labelsFrom_cons (by simp [doubled]) fun i hi => List.mem_cons_of_mem _ hi
    | first => exact labelsFrom_cons (by simp [doubled]) fun i hi => List.mem_cons_of_mem _ hi
    | moved => exact hpair (by simp [doubled])
  | retarget hnew =>
    obtain ⟨hop, -, -, rfl, -⟩ := retarget?_eq_some hnew
    exact hpair (ne_label_of_computes hop)
  | substitute hnew =>
    obtain ⟨-, hop, -, t, -, -, ⟨-, rfl⟩ | ⟨-, rfl⟩⟩ := substitute?_eq_some hnew
    · exact hpair (ne_label_of_computes hop)
    · exact hpair (ne_label_of_computes hop)

end Rules

/-! ## Runs -/

/-- No rule breaks the property: every instruction it writes has it if those it looked at had. -/
def Keeps (st : Setting) (P : Instr → Prop) : Prop :=
  ∀ rule ∈ defaultRules, ∀ b ops ops', rule st b ops = some ops' → (∀ i ∈ ops, P i) →
    ∀ i ∈ ops', P i

section Keeps

variable {st : Setting} {P : Instr → Prop}

theorem Keeps.rewrites (hP : Keeps st P) {b b' : Block}
    (h : Relation.ReflTransGen (Rewrites st) b b') (hb : ∀ i ∈ b.ops, P i) : ∀ i ∈ b'.ops, P i := by
  induction h with
  | refl => exact hb
  | tail _ hstep ih =>
    obtain ⟨rule, done, ops, ops', mem, here, applies⟩ := hstep
    rw [here] at ih
    intro i hi
    rcases List.mem_append.mp hi with hi | hi
    · exact ih i (List.mem_append_left _ hi)
    · exact hP rule mem _ ops ops' applies (fun j hj => ih j (List.mem_append_right _ hj)) i hi

/-- Sweeps over the blocks of a closure keep what no rule breaks. -/
theorem Keeps.sweeps (hP : Keeps st P) (n : Nat) {blocks : List Block}
    (h : ∀ i ∈ blocks.flatMap Block.ops, P i) :
    ∀ i ∈ (sweeps defaultRules st n blocks).1.flatMap Block.ops, P i := by
  have hswept (blocks : List Block) (h : ∀ i ∈ blocks.flatMap Block.ops, P i) :
      ∀ i ∈ ((blocks.map (sweep defaultRules st)).map Prod.fst).flatMap Block.ops, P i := by
    intro i hi
    simp only [List.mem_flatMap, List.mem_map] at hi
    obtain ⟨b', ⟨p, ⟨b, hb, rfl⟩, rfl⟩, hi⟩ := hi
    refine hP.rewrites (sweep_rewrites (fun _ h => h) st b) (fun j hj => h j ?_) i hi
    exact List.mem_flatMap.mpr ⟨b, hb, hj⟩
  induction n generalizing blocks with
  | zero => exact h
  | succ n ih =>
    simp only [Peephole.sweeps]
    split
    · exact hswept blocks h
    · exact ih (hswept blocks h)

end Keeps

/-- Sweeps over the blocks of a closure bring no label into any of them. -/
theorem labels_sweeps (st : Setting) (n : Nat) (blocks : List Block) :
    LabelsFrom ((sweeps defaultRules st n blocks).1.flatMap Block.ops)
      (blocks.flatMap Block.ops) := by
  have hkeeps : Keeps st fun i => i.op = .label → i ∈ blocks.flatMap Block.ops :=
    fun _ mem _ _ _ applies hops i hi hop => hops i (rule_labels mem applies i hi hop) hop
  exact hkeeps.sweeps n fun i hi _ => hi

/-- Optimising a closure keeps its names and brings in no label. -/
theorem run_labels (features : Features) (limit : Int) (c : Closure) :
    (run features limit c).1.symbol = c.symbol ∧
      LabelsFrom ((run features limit c).1.blocks.flatMap Block.ops)
        (c.blocks.flatMap Block.ops) := by
  unfold run runWith
  exact ⟨rfl, labels_sweeps _ _ _⟩

end Backend.Peephole
