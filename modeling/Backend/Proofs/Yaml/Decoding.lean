-- Decoding the nodes that are made for values: without aliases every value is decoded from its own
-- node and nothing is noted. And what holds of whatever a decoder returns.
import Backend.Proofs.Text.Numeral
import Backend.Yaml.Decode
import Backend.Yaml.Node.Printer
import Mathlib.Data.List.Forall2
import Mathlib.Data.List.Nodup

namespace Backend.Yaml

open Backend.Text

namespace Decode

/-! ## Decoding that gives a value -/

/-- No node is anchored and no alias has been followed. -/
def plainScope : Scope := ⟨[], false⟩

/-- Without aliases, the decoding gives the value and notes nothing. -/
def Gives {α : Type} (x : Decode α) (a : α) : Prop :=
  ∀ p : Progress, p.aliased = 0 → ∃ p', (ReaderT.run x plainScope).run p = some (a, p') ∧
    p'.mismatches = p.mismatches ∧ p'.aliased = 0

section Gives

variable {α β : Type}

theorem gives_pure (a : α) : Gives (pure a) a := fun p hp => ⟨p, rfl, rfl, hp⟩

theorem gives_bind {x : Decode α} {f : α → Decode β} {a : α} {b : β} (hx : Gives x a)
    (hf : Gives (f a) b) : Gives (x >>= f) b := by
  intro p hp
  obtain ⟨p', hrun, hsame, hp'⟩ := hx p hp
  obtain ⟨p'', hrun', hsame', hp''⟩ := hf p' hp'
  refine ⟨p'', ?_, hsame'.trans hsame, hp''⟩
  rw [ReaderT.run_bind, StateT.run_bind, hrun]
  exact hrun'

/-- Without aliases no number of visits is too large. -/
theorem gives_count : Gives count () := by
  intro p hp
  let counted : Progress := { p with visits := p.visits + 1, aliased := p.aliased + 0 }
  have hfew : counted.isExcessive = false := by simp [counted, Progress.isExcessive, hp]
  refine ⟨counted, ?_, rfl, hp⟩
  have hrest : (ReaderT.run count plainScope).run p =
      (ReaderT.run (if counted.isExcessive = true then
      failure else pure () : Decode Unit) plainScope).run counted := rfl
  rw [hrest, hfew]
  rfl

theorem gives_visit {f : Node → Decode α} {n : Node} {a : α} (hn : ∀ m name target,
    n ≠ .alias m name target) (hf : Gives (f n) a) : Gives (visit f n) a := by
  refine gives_bind gives_count ?_
  cases n with
  | «alias» m name target => exact absurd rfl (hn m name target)
  | scalar m tag style text => exact hf
  | seq m tag flow items => exact hf
  | map m tag flow entries => exact hf

theorem gives_mapM {f : α → Decode β} {xs : List α} {ys : List β}
    (h : List.Forall₂ (fun x y => Gives (f x) y) xs ys) : Gives (xs.mapM f) ys := by
  induction h with
  | nil => exact gives_pure []
  | cons hx _ ih =>
    rw [List.mapM_cons]
    exact gives_bind hx (gives_bind ih (gives_pure _))

/-- A value that is given is the result. -/
theorem Gives.runAfter {x : Decode α} {a : α} (h : Gives x a) (visits : Nat) :
    runAfter visits [] x = .ok a := by
  obtain ⟨p', hrun, hsame, -⟩ := h ⟨#[], visits, 0⟩ rfl
  have hempty : p'.mismatches.isEmpty = true := by
    rw [hsame]
    rfl
  have hrun' : (ReaderT.run x ⟨[], false⟩).run ⟨#[], visits, 0⟩ = some (a, p') := hrun
  rw [Decode.runAfter, hrun']
  simp only [hempty, if_true]

end Gives

/-! ## Scalars -/

theorem taggedValue?_strTag (s : String) : taggedValue? strTag s = some (.text s) := rfl

/-- A scalar is decoded by its meaning, which is not null. -/
theorem gives_scalar {α : Type} {type : String} {ofValue : String → ScalarValue → Option α}
    {m : Mark} {tag : String} {style : ScalarStyle} {text : String} {v : ScalarValue} {a : α}
    (hvalue : taggedValue? tag text = some v) (hnull : v ≠ .null) (ha : ofValue text v = some a) :
    Gives (scalar type ofValue (.scalar m tag style text)) (some a) := by
  refine gives_visit (by rintro m name target ⟨⟩) ?_
  rw [scalarOf, hvalue]
  cases v with
  | null => exact absurd rfl hnull
  | _ =>
    simp only [ha]
    exact gives_pure _

/-- Every text is decoded from a node that is tagged as text. -/
theorem gives_string (m : Mark) (style : ScalarStyle) (s : String) :
    Gives (string (.scalar m strTag style s)) (some s) :=
  gives_scalar (taggedValue?_strTag s) (by rintro ⟨⟩) rfl

theorem gives_ofText (s : String) : Gives (string (.ofText s)) (some s) := gives_string _ _ s

theorem gives_ofSource (s : String) : Gives (string (.ofSource s)) (some s) := gives_string _ _ s

theorem gives_true : Gives (bool (.ofBool true)) (some true) :=
  gives_scalar (v := .bool true) rfl (by rintro ⟨⟩) rfl

/-- Words do not begin with a digit. -/
theorem not_contains_of_digit {s : String} {c : Char} {rest : List Char} (hs : s.toList = c :: rest)
    (hc : c.isDigit = true) {words : List String}
    (hwords : ∀ w ∈ words, w.toList.head?.any Char.isDigit = false) : words.contains s = false := by
  rw [List.contains_eq_mem, decide_eq_false_iff_not]
  intro hmem
  have := hwords s hmem
  rw [hs] at this
  simp [hc] at this

theorem wordValue?_of_digit {s : String} {c : Char} {rest : List Char} (hs : s.toList = c :: rest)
    (hc : c.isDigit = true) : wordValue? s = none := by
  unfold wordValue?
  rw [not_contains_of_digit hs hc (by decide), not_contains_of_digit hs hc (by decide),
    not_contains_of_digit hs hc (by decide), not_contains_of_digit hs hc (by decide),
    not_contains_of_digit hs hc (by decide), not_contains_of_digit hs hc (by decide)]
  rfl

/-- A time has a dash behind its year. -/
theorem not_isTimestamp {s : List Char} (h : ∀ c ∈ s, c.isDigit = true) :
    isTimestamp s = false := by
  have hbehind : behind? '-' (s.drop 4) = none := by
    cases hs : s.drop 4 with
    | nil => rfl
    | cons c rest =>
      have hc := h c (List.mem_of_mem_drop (hs ▸ List.mem_cons_self))
      have hne : (c == '-') = false := by simpa using ne_of_isDigit hc (by decide)
      rw [behind?, hne]
      rfl
  have hdate : date? s = none := by
    unfold date?
    simp only [hbehind]
    split <;> rfl
  rw [isTimestamp, hdate]

/-- A number is decoded from its digits. -/
theorem taggedValue?_digits {n : Nat} (h : n < 2 ^ 63) :
    taggedValue? intTag (toString (n : Int)) = some (.int n) := by
  have hchars : (toString (n : Int)).toList = Nat.toDigits 10 n :=
    toString_of_nonneg (Int.natCast_nonneg n)
  obtain ⟨c, rest, hs⟩ := List.exists_cons_of_ne_nil (l := Nat.toDigits 10 n)
    (List.ne_nil_of_length_pos Nat.length_toDigits_pos)
  have hdigits : ∀ d ∈ c :: rest, d.isDigit = true := fun d hd => isDigit_of_mem_decimal (hs ▸ hd)
  have hc := hdigits c List.mem_cons_self
  rw [hs] at hchars
  have hplain : (c :: rest).filter (· != '_') = c :: rest := by
    rw [List.filter_eq_self]
    intro d hd
    simpa using ne_of_isDigit (hdigits d hd) (by decide)
  have hint : intValue? (c :: rest) = some (n : Int) := by
    have hread := readInt64_toDigits h
    rw [hs] at hread
    unfold intValue?
    simp only [hread, Int64.toInt_ofNat_of_lt h]
  have hvalue : plainValue (toString (n : Int)) = .int n := by
    have hdot : (c == '.') = false := by simpa using ne_of_isDigit hc (by decide)
    rw [plainValue, wordValue?_of_digit hchars hc, hchars]
    simp only [numberValue?, hdot, Bool.false_eq_true, if_false, hc, Bool.or_true, if_true,
      not_isTimestamp hdigits, hplain, hint]
    rfl
  have hknown : (intTag == binaryTag) = false ∧ (!meaningTags.contains intTag) = false := ⟨rfl, rfl⟩
  rw [taggedValue?, hknown.1, hknown.2, hvalue]
  rfl

theorem gives_int {n : Nat} (h : n < 2 ^ 63) : Gives (int (.ofInt n)) (some (n : Int)) := by
  refine gives_scalar (taggedValue?_digits h) (by rintro ⟨⟩) ?_
  have hsmall : (n : Int) < Nat.pow 2 63 := by exact_mod_cast h
  simp only [hsmall, if_true]

theorem gives_byte (b : UInt8) : Gives (byte (.ofInt b.toNat)) (some b) := by
  have hb := b.toNat_lt
  refine gives_scalar (taggedValue?_digits (by omega)) (by rintro ⟨⟩) ?_
  have hrange : (decide ((0 : Int) ≤ b.toNat) && decide ((b.toNat : Int) ≤ 255)) = true := by
    simp only [Bool.and_eq_true, decide_eq_true_eq]
    omega
  simp only [hrange, if_true, Int.toNat_natCast, UInt8.ofNat_toNat]

/-! ## Collections -/

theorem gives_list {α β : Type} {type : String} {item : Decoder α} {m : Mark} {tag : String}
    {flow : Bool} {xs : List β} {toNode : β → Node} {value : β → α}
    (h : ∀ x ∈ xs, Gives (item (toNode x)) (some (value x))) :
    Gives (list type item (.seq m tag flow (xs.map toNode))) (some (some (xs.map value))) := by
  have hitems : Gives ((xs.map toNode).mapM item) (xs.map (some ∘ value)) := by
    apply gives_mapM
    rw [List.forall₂_map_left_iff, List.forall₂_map_right_iff, List.forall₂_same]
    exact h
  refine gives_visit (by rintro m name target ⟨⟩) (gives_bind hitems ?_)
  have hall : (xs.map (some ∘ value)).filterMap id = xs.map value := by
    rw [List.filterMap_map, ← List.filterMap_eq_map]
    rfl
  rw [hall]
  exact gives_pure _

/-- The entries of a mapping with text keys. -/
def entriesOf (fields : List (String × Node)) : List (Node × Node) :=
  fields.map fun (k, v) => (.ofText k, v)

theorem gives_uniqueKeys {fields : List (String × Node)} (h : (fields.map Prod.fst).Nodup) :
    Gives (uniqueKeys (entriesOf fields)) true := by
  induction fields with
  | nil => exact gives_pure true
  | cons field rest ih =>
    obtain ⟨hnew, hrest⟩ := List.nodup_cons.mp h
    have hagain : ((entriesOf rest).map Prod.fst).filter (fun j =>
        (Node.ofText field.1).sameKind j && (Node.ofText field.1).text == j.text) = [] := by
      rw [List.filter_eq_nil_iff]
      intro j hj
      obtain ⟨entry, hentry, rfl⟩ := List.mem_map.mp hj
      obtain ⟨other, hother, rfl⟩ := List.mem_map.mp hentry
      have hne : field.1 ≠ other.1 := fun e => hnew (List.mem_map.mpr ⟨other, hother, e.symm⟩)
      simpa [Node.ofText, Node.sameKind, Node.text] using hne
    have hmore : Gives (uniqueKeysFrom ((entriesOf rest).map Prod.fst)) true := ih hrest
    show Gives (uniqueKeysFrom (.ofText field.1 :: (entriesOf rest).map Prod.fst)) true
    rw [uniqueKeysFrom, hagain]
    exact gives_bind (gives_pure ()) (gives_bind hmore (gives_pure _))

/-- The fields, put one after the other, lead from one value to another. -/
inductive Puts {σ : Type} (put : Node → String → Node → List String → σ → Decode σ) :
    List String → List (String × Node) → σ → σ → Prop
  | nil (done : List String) (s : σ) : Puts put done [] s s
  | cons {done : List String} {k : String} {v : Node} {rest : List (String × Node)} {s s' s'' : σ}
      (first : Gives (put (.ofText k) k v done s) s') (more : Puts put (k :: done) rest s' s'') :
      Puts put done ((k, v) :: rest) s s''

theorem filter_entriesOf {fields : List (String × Node)} {p : Node × Node → Bool}
    (h : ∀ k v, p (.ofText k, v) = true) : (entriesOf fields).filter p = entriesOf fields := by
  rw [List.filter_eq_self]
  intro entry hentry
  obtain ⟨field, -, rfl⟩ := List.mem_map.mp hentry
  exact h _ _

theorem filter_entriesOf_none {fields : List (String × Node)} {p : Node × Node → Bool}
    (h : ∀ k v, p (.ofText k, v) = false) : (entriesOf fields).filter p = [] := by
  rw [List.filter_eq_nil_iff]
  intro entry hentry
  obtain ⟨field, -, rfl⟩ := List.mem_map.mp hentry
  rw [Bool.not_eq_true]
  exact h _ _

theorem not_isMergeKey_ofText (text : String) : (Node.ofText text).isMergeKey = false := by
  simp [Node.ofText, Node.isMergeKey, strTag, mergeTag]

theorem gives_entriesInto {σ : Type} {put : Node → String → Node → List String → σ → Decode σ}
    {fields : List (String × Node)} {s t : σ} (h : Puts put [] fields s t) (fuel : Nat) :
    Gives (entriesInto put (fuel + 1) none (entriesOf fields) s) (t, none) := by
  rw [entriesInto]
  refine gives_bind (a := (t, (fields.map Prod.fst).reverse ++ [], none)) ?_ ?_
  case refine_2 =>
    dsimp only
    rw [filter_entriesOf_none fun k v => not_isMergeKey_ofText k]
    exact gives_pure _
  rw [filter_entriesOf fun k v => by simp [not_isMergeKey_ofText]]
  generalize ([] : List String) = done at h ⊢
  induction h with
  | nil done s => exact gives_pure _
  | @cons done k v rest s s' s'' first more ih =>
    show Gives (List.foldlM _ (s, done, none) ((.ofText k, v) :: entriesOf rest)) _
    rw [List.foldlM_cons]
    refine gives_bind (gives_bind (gives_ofText k) (gives_bind first (gives_pure _))) ?_
    rw [List.map_cons, List.reverse_cons, List.append_assoc]
    exact ih

theorem gives_mergeDepth (n : Node) : Gives (mergeDepth n) (size n + 1) := fun p hp =>
  ⟨p, rfl, rfl, hp⟩

theorem assocInsert_new {α β : Type} [BEq α] [LawfulBEq α] {k : α} {t : List (α × β)}
    (h : k ∉ t.map Prod.fst) (v : β) : assocInsert k v t = t ++ [(k, v)] := by
  induction t with
  | nil => rfl
  | cons entry rest ih =>
    rw [List.map_cons, List.mem_cons, not_or] at h
    obtain ⟨hne, hrest⟩ := h
    have hkey : (entry.1 == k) = false := by simpa using Ne.symm hne
    rw [assocInsert, hkey]
    simp only [Bool.false_eq_true, if_false, ih hrest, List.cons_append]

/-- A table grows by one entry with every new name. -/
theorem puts_table {put : Node → String → Node → List String → List (String × String) →
      Decode (List (String × String))}
    (hput : ∀ name text done t,
      Gives (put (.ofText name) name (.ofText text) done t) (assocInsert name text t))
    (rest before : List (String × String)) (done : List String)
    (h : ((before ++ rest).map Prod.fst).Nodup) :
    Puts put done (rest.map fun entry => (entry.1, .ofText entry.2)) before (before ++ rest) := by
  induction rest generalizing before done with
  | nil =>
    rw [List.append_nil]
    exact .nil done before
  | cons entry rest ih =>
    have hnew : entry.1 ∉ before.map Prod.fst := by
      rw [List.map_append, List.nodup_append] at h
      exact fun hmem => h.2.2 _ hmem _ List.mem_cons_self rfl
    refine .cons (hput entry.1 entry.2 done before) ?_
    have hmore := ih (before ++ [entry]) (entry.1 :: done) (by simpa using h)
    rw [assocInsert_new hnew]
    simpa using hmore

/-- A mapping from distinct texts to texts. -/
theorem gives_table {entries : List (String × String)} (h : (entries.map Prod.fst).Nodup) :
    Gives (table (.ofFields (entries.map fun entry => (entry.1, .ofText entry.2))))
      (some entries) := by
  have hkeys : ((entries.map fun entry => (entry.1, Node.ofText entry.2)).map Prod.fst) =
      entries.map Prod.fst := by
    rw [List.map_map]
    rfl
  unfold table
  refine gives_visit (by rintro m name target ⟨⟩) ?_
  refine gives_bind (gives_uniqueKeys (hkeys ▸ h)) ?_
  refine gives_bind (gives_mergeDepth _) (gives_bind (gives_entriesInto (t := entries) ?_ _)
    (gives_pure _))
  refine puts_table (fun name text done t => ?_) entries [] [] h
  exact gives_bind (gives_ofText text) (gives_pure _)

/-! ## Records -/

/-- The fields, written in this order, turn one record into another. -/
inductive Sets {σ : Type} (fields : List (RecordField σ)) : List (String × Node) → σ → σ → Prop
  | nil (s : σ) : Sets fields [] s s
  | cons {f : RecordField σ} {k : String} {v : Node} {rest : List (String × Node)} {s s' s'' : σ}
      (found : fields.find? (fun f => f.name == k) = some f) (first : Gives (f.set v s) s')
      (more : Sets fields rest s' s'') : Sets fields ((k, v) :: rest) s s''

section Record

variable {σ α : Type} {fields : List (RecordField σ)}

theorem Sets.append {written written' : List (String × Node)} {s s' s'' : σ}
    (h : Sets fields written s s') (h' : Sets fields written' s' s'') :
    Sets fields (written ++ written') s s'' := by
  induction h with
  | nil => exact h'
  | cons found first _ ih => exact .cons found first (ih h')

theorem gives_set {name : String} {decoder : Decoder α} {put : α → σ → σ} {v : Node} {a : α}
    (h : Gives (decoder v) (some a)) (s : σ) :
    Gives ((RecordField.of name decoder put).set v s) (put a s) :=
  gives_bind h (gives_pure _)

theorem sets_field {name : String} {decoder : Decoder α} {put : α → σ → σ} {v : Node} {a : α}
    {s s' : σ} (found : fields.find? (fun f => f.name == name) = some (.of name decoder put))
    (h : Gives (decoder v) (some a)) (hput : put a s = s') : Sets fields [(name, v)] s s' :=
  .cons found (hput ▸ gives_set h s) (.nil _)

/-- A mapping with distinct fields of a record. -/
theorem gives_record {type : String} {init s : σ} {written : List (String × Node)}
    (hnodup : (written.map Prod.fst).Nodup) (h : Sets fields written init s) :
    Gives (record type fields init (.ofFields written)) (some s) := by
  refine gives_visit (by rintro m name target ⟨⟩) ?_
  refine gives_bind (gives_uniqueKeys hnodup) ?_
  refine gives_bind (gives_mergeDepth _)
    (gives_bind (gives_entriesInto (t := s) ?_ _) (gives_pure _))
  have hdone : ∀ k ∈ ([] : List String), k ∉ written.map Prod.fst := fun _ h => nomatch h
  generalize ([] : List String) = done at hdone
  induction h generalizing done with
  | nil s => exact .nil done s
  | @cons f k v rest s s' s'' found first _ ih =>
    obtain ⟨hnew, hrest⟩ := List.nodup_cons.mp hnodup
    have hk : done.contains k = false := by
      rw [List.contains_eq_mem, decide_eq_false_iff_not]
      exact fun hmem => hdone k hmem List.mem_cons_self
    refine .cons ?_ (ih hrest (k :: done) ?_)
    · simpa only [found, hk, Bool.false_eq_true, if_false] using first
    · intro j hj hmem
      rcases List.mem_cons.mp hj with rfl | hj
      · exact hnew hmem
      · exact hdone j hj (List.mem_cons_of_mem _ hmem)

end Record

/-! ## What decoding yields -/

/-- Whatever value comes out has the property. -/
def Yields {α : Type} (x : Decode α) (P : α → Prop) : Prop :=
  ∀ scope p a p', (ReaderT.run x scope).run p = some (a, p') → P a

section Yields

variable {α β σ : Type}

theorem yields_pure {P : α → Prop} {a : α} (h : P a) : Yields (pure a) P := by
  intro scope p b p' hrun
  obtain ⟨rfl, -⟩ := Prod.mk.inj (Option.some.inj hrun)
  exact h

theorem yields_failure {P : α → Prop} : Yields (failure : Decode α) P :=
  fun _ _ _ _ hrun => nomatch hrun

theorem yields_any (x : Decode α) : Yields x fun _ => True := fun _ _ _ _ _ => trivial

theorem yields_bind {x : Decode α} {f : α → Decode β} {P : α → Prop} {Q : β → Prop}
    (hx : Yields x P) (hf : ∀ a, P a → Yields (f a) Q) : Yields (x >>= f) Q := by
  intro scope p b p'' hrun
  rw [ReaderT.run_bind, StateT.run_bind] at hrun
  obtain ⟨⟨a, p'⟩, hfirst, hrest⟩ := Option.bind_eq_some_iff.mp hrun
  exact hf a (hx scope p a p' hfirst) scope p' b p'' hrest

theorem yields_after {x : Decode α} {f : α → Decode β} {Q : β → Prop} (hf : ∀ a, Yields (f a) Q) :
    Yields (x >>= f) Q := yields_bind (yields_any x) fun a _ => hf a

theorem yields_visit {f : Node → Decode α} {P : α → Prop} (hf : ∀ n, Yields (f n) P) (n : Node) :
    Yields (visit f n) P := by
  refine yields_after fun _ => ?_
  cases n with
  | «alias» m name target =>
    refine yields_after fun found => ?_
    intro scope p a p' hrun
    exact yields_after (x := count) (fun _ => hf found) { scope with inAlias := true } p a p' hrun
  | scalar m tag style text => exact hf _
  | seq m tag flow items => exact hf _
  | map m tag flow entries => exact hf _

theorem yields_foldlM {f : σ → β → Decode σ} {I : σ → Prop} (hf : ∀ s x, I s → Yields (f s x) I)
    (xs : List β) {s : σ} (hs : I s) : Yields (xs.foldlM f s) I := by
  induction xs generalizing s with
  | nil => exact yields_pure hs
  | cons x xs ih =>
    rw [List.foldlM_cons]
    exact yields_bind (hf s x hs) fun _ => ih

theorem yields_mapM {f : α → Decode β} {P : β → Prop} (hf : ∀ x, Yields (f x) P) (xs : List α) :
    Yields (xs.mapM f) fun ys => ∀ y ∈ ys, P y := by
  induction xs with
  | nil => exact yields_pure fun _ h => nomatch h
  | cons x xs ih =>
    rw [List.mapM_cons]
    refine yields_bind (hf x) fun y hy => yields_bind ih fun ys hys => yields_pure ?_
    intro z hz
    rcases List.mem_cons.mp hz with rfl | hz
    · exact hy
    · exact hys z hz

/-- A result that is not skipped has the property. -/
def Taken (P : α → Prop) (r : Option α) : Prop := ∀ a, r = some a → P a

theorem taken_none {P : α → Prop} : Taken P none := fun _ h => nomatch h

theorem taken_some {P : α → Prop} {a : α} (h : P a) : Taken P (some a) := by
  rintro b ⟨⟩
  exact h

theorem yields_refuse {P : α → Prop} (n : Node) (tag type : String) :
    Yields (refuse n tag type) (Taken P) := yields_after fun _ => yields_pure taken_none

theorem yields_refuseCollection {P : α → Prop} (n : Node) (type : String) :
    Yields (refuseCollection n type) (Taken P) := by
  cases n with
  | seq m tag flow items => exact yields_refuse _ _ _
  | map m tag flow entries =>
    refine yields_after fun unique => ?_
    cases unique
    · exact yields_pure taken_none
    · exact yields_refuse _ _ _
  | _ => exact yields_failure

theorem yields_scalar {type : String} {ofValue : String → ScalarValue → Option α} {P : α → Prop}
    (h : ∀ text v a, ofValue text v = some a → P a) (n : Node) :
    Yields (scalar type ofValue n) (Taken P) := by
  refine yields_visit (fun n => ?_) n
  unfold scalarOf
  split
  · split
    · exact yields_failure
    · exact yields_pure taken_none
    · split
      · exact yields_pure (taken_some (h _ _ _ ‹_›))
      · exact yields_refuse _ _ _
  · exact yields_refuseCollection _ _

theorem yields_list {type : String} {item : Decoder α} {P : α → Prop}
    (h : ∀ n, Yields (item n) (Taken P)) (n : Node) :
    Yields (list type item n) (Taken (Taken fun xs => ∀ x ∈ xs, P x)) := by
  refine yields_visit (fun n => ?_) n
  split
  · refine yields_bind (yields_mapM h _) fun xs hxs => yields_pure (taken_some (taken_some ?_))
    intro x hx
    rw [List.mem_filterMap] at hx
    obtain ⟨y, hy, hyx⟩ := hx
    exact hxs y hy x hyx
  · split
    · exact yields_failure
    · exact yields_pure (taken_some taken_none)
    · exact yields_refuse _ _ _
  · exact yields_refuseCollection _ _

/-- What every field keeps holds of a mapping that is read entry by entry, with all that is merged
into it. -/
theorem yields_entriesInto {put : Node → String → Node → List String → σ → Decode σ} {I : σ → Prop}
    (hput : ∀ k name v done s, I s → Yields (put k name v done s) I) (fuel : Nat)
    (merged : Option (List String)) (entries : List (Node × Node)) {s : σ} (hs : I s) :
    Yields (entriesInto put fuel merged entries s) fun r => I r.1 := by
  induction fuel generalizing merged entries s with
  | zero => exact yields_failure
  | succ fuel ih =>
    rw [entriesInto]
    refine yields_bind (P := fun acc => I acc.1) (yields_foldlM (fun acc entry hacc => ?_) _ hs) ?_
    · refine yields_after fun name => ?_
      split
      · exact yields_pure hacc
      · split
        · split
          · exact yields_pure hacc
          · exact yields_bind (hput _ _ _ _ _ hacc) fun _ h => yields_pure h
        · exact yields_bind (hput _ _ _ _ _ hacc) fun _ h => yields_pure h
    · rintro ⟨s, done, merged⟩ hacc
      dsimp only
      split
      · exact yields_pure hacc
      · cases merged
        all_goals
          refine yields_after fun names => yields_after fun sources => yields_bind
            (yields_foldlM (I := fun acc => I acc.1)
              (fun acc m hacc => yields_visit (fun m => ?_) m) _ hacc) fun _ h => yields_pure h
          cases m with
          | map _ _ _ entries =>
            refine yields_after fun unique => ?_
            cases unique
            · exact yields_pure hacc
            · exact yields_bind (ih _ _ hacc) fun _ h => yields_pure h
          | _ => exact yields_failure

theorem keys_assocInsert {k : String} {v : α} {t : List (String × α)}
    (h : (t.map Prod.fst).Nodup) : ((assocInsert k v t).map Prod.fst).Nodup := by
  by_cases hk : k ∈ t.map Prod.fst
  · have hsame : (assocInsert k v t).map Prod.fst = t.map Prod.fst := by
      clear h
      induction t with
      | nil => exact absurd hk List.not_mem_nil
      | cons entry rest ih =>
        by_cases he : entry.1 = k
        · simp [assocInsert, he]
        · have hrest : k ∈ rest.map Prod.fst := by
            rw [List.map_cons, List.mem_cons] at hk
            exact hk.resolve_left (Ne.symm he)
          simp [assocInsert, he, ih hrest]
    rwa [hsame]
  · rw [assocInsert_new hk, List.map_append, List.nodup_append]
    refine ⟨h, List.nodup_singleton k, ?_⟩
    rintro a ha b hb rfl
    obtain rfl := List.mem_singleton.mp hb
    exact hk ha

/-- A table has every key once. -/
theorem yields_table (n : Node) : Yields (table n) (Taken fun t => (t.map Prod.fst).Nodup) := by
  refine yields_visit (fun n => ?_) n
  split
  · refine yields_after fun unique => ?_
    split
    · exact yields_pure taken_none
    · refine yields_after fun depth => ?_
      refine yields_bind (yields_entriesInto (I := fun t => (t.map Prod.fst).Nodup) ?_ _ _ _
        List.nodup_nil) fun r h => yields_pure (taken_some h)
      intro k name v done t ht
      refine yields_after fun text => ?_
      split
      · exact yields_pure (keys_assocInsert ht)
      · refine yields_after fun target => yields_pure ?_
        split
        · exact keys_assocInsert ht
        · exact ht
  · split
    · exact yields_failure
    · exact yields_pure (taken_some List.nodup_nil)
    · exact yields_refuse _ _ _
  · exact yields_refuseCollection _ _

theorem yields_set {name : String} {decoder : Decoder α} {put : α → σ → σ} {P : α → Prop}
    {I : σ → Prop} {v : Node} {s : σ} (hdecoder : Yields (decoder v) (Taken P))
    (hput : ∀ a, P a → I (put a s)) (hs : I s) :
    Yields ((RecordField.of name decoder put).set v s) I := by
  refine yields_bind hdecoder fun a ha => ?_
  cases a with
  | none => exact yields_pure hs
  | some a => exact yields_pure (hput a (ha a rfl))

/-- A field that cannot break the property. -/
theorem yields_anySet {name : String} {decoder : Decoder α} {put : α → σ → σ} {I : σ → Prop}
    {v : Node} {s : σ} (hput : ∀ a, I (put a s)) (hs : I s) :
    Yields ((RecordField.of name decoder put).set v s) I :=
  yields_set (P := fun _ => True) (fun _ _ _ _ _ _ _ => trivial) (fun a _ => hput a) hs

/-- What every field of a record keeps holds of the record. -/
theorem yields_record {type : String} {fields : List (RecordField σ)} {init : σ} {I : σ → Prop}
    (hfields : ∀ f ∈ fields, ∀ v s, I s → Yields (f.set v s) I) (hinit : I init) (n : Node) :
    Yields (record type fields init n) (Taken I) := by
  refine yields_visit (fun n => ?_) n
  split
  · refine yields_after fun unique => ?_
    split
    · refine yields_after fun depth => ?_
      refine yields_bind (yields_entriesInto (I := I) ?_ _ _ _ hinit) fun r h =>
        yields_pure (taken_some h)
      intro k name v done s hs
      split
      · exact yields_after fun _ => yields_pure hs
      · split
        · exact yields_after fun _ => yields_pure hs
        · exact hfields _ (List.mem_of_find?_eq_some ‹_›) _ _ hs
    · exact yields_pure taken_none
  · split
    · exact yields_failure
    · exact yields_pure taken_none
    · exact yields_refuse _ _ _
  · exact yields_refuseCollection _ _

/-- The value of a document has the property. -/
theorem Yields.runAfter {P : α → Prop} {x : Decode α} (h : Yields x P) {visits : Nat}
    {anchors : List (Nat × Node)} {a : α} (hrun : x.runAfter visits anchors = .ok a) : P a := by
  unfold Decode.runAfter at hrun
  split at hrun
  · cases hrun
  · split at hrun
    · obtain rfl := Except.ok.inj hrun
      exact h _ _ _ _ ‹_›
    · cases hrun

end Yields

end Decode

end Backend.Yaml
