-- Taking values of given types out of a document. A node that does not fit its type is noted and
-- skipped, so that all such nodes of a document are reported together.
import Backend.Assoc
import Backend.Text.Quoted
import Backend.Yaml.Node.Basic

namespace Backend.Yaml

/-! ## Reports -/

/-- A node that does not fit. Lines are counted from one. -/
inductive Mismatch where
  | value (line : Nat) (tag text type : String)
  | unknownField (line : Nat) (name type : String)
  | repeatedField (line : Nat) (name type : String)
  | repeatedKey (line : Nat) (key : String) (first : Nat)
  deriving DecidableEq

/-- The longest text that a report shows in full, in bytes. -/
def shownBytes : Nat := 10

/-- The text of a node in a report: a long one is cut. -/
def shownText (text : String) : String :=
  let bytes := Text.utf8 text
  if bytes.length ≤ shownBytes then text else Text.ofUtf8 (bytes.take (shownBytes - 3)) ++ "..."

/-- The wording of a mismatch. -/
def Mismatch.message : Mismatch → String
  | .value line tag text type =>
    let shown := if tag == seqTag || tag == mapTag then "" else " `" ++ shownText text ++ "`"
    s!"line {line}: cannot unmarshal {tag}{shown} into {type}"
  | .unknownField line name type => s!"line {line}: field {name} not found in type {type}"
  | .repeatedField line name type => s!"line {line}: field {name} already set in type {type}"
  | .repeatedKey line key first =>
    s!"line {line}: mapping key {Text.quote key} already defined at line {first}"

/-- The wording of all mismatches of a document. -/
def mismatchText (ms : List Mismatch) : String :=
  "yaml: unmarshal errors:" ++ String.join (ms.map fun m => "\n  " ++ m.message)

/-- Why a document gives no value: a node has no meaning at all, or some do not fit. -/
inductive DecodeError where
  | malformed
  | mismatches (ms : List Mismatch)

/-- The wording of a decoding error. -/
def DecodeError.message : DecodeError → String
  | .malformed => "yaml: malformed document"
  | .mismatches ms => mismatchText ms

/-! ## Decoders -/

/-- What decoding has met so far: the mismatches, the number of nodes visited, and how many of these
visits went through an alias. -/
structure Progress where
  mismatches : Array Mismatch
  visits : Nat
  aliased : Nat

/-- Up to so many visits, 99 of 100 may go through aliases. -/
def freeVisits : Nat := 400000

/-- From so many visits on, one of ten may go through aliases. -/
def strictVisits : Nat := 4000000

/-- Too many visits went through aliases. The share that is allowed falls with the number of visits;
small numbers do not count. -/
def Progress.isExcessive (p : Progress) : Bool :=
  let range := strictVisits - freeVisits
  let share := if p.visits ≤ freeVisits then 99 * range
    else if strictVisits ≤ p.visits then 10 * range
    else 99 * range - 89 * (p.visits - freeVisits)
  decide (100 < p.aliased) && decide (1000 < p.visits) &&
    decide (p.visits * share < p.aliased * (100 * range))

/-- The anchored nodes, and whether an alias has been followed. -/
structure Scope where
  anchors : List (Nat × Node)
  inAlias : Bool

/-- Decoding in a document. It notes mismatches and fails on nodes without meaning. -/
abbrev Decode := ReaderT Scope (StateT Progress Option)

/-- Takes a value out of a node; none if the node is skipped. -/
abbrev Decoder (α : Type) := Node → Decode (Option α)

namespace Decode

def note (m : Mismatch) : Decode Unit :=
  modify fun p => { p with mismatches := p.mismatches.push m }

/-- The node that an alias stands for. -/
def deref (n : Node) : Decode Node := do
  match n with
  | .alias _ _ target =>
    match (← read).anchors.lookup target with
    | some m => pure m
    | none => failure
  | _ => pure n

/-- Counts the visit of a node. -/
def count : Decode Unit := do
  let aliased := if (← read).inAlias then 1 else 0
  modify fun p => { p with visits := p.visits + 1, aliased := p.aliased + aliased }
  if (← get).isExcessive then failure

/-- Visits a node, or an alias and the node that it stands for. -/
def visit {α : Type} (f : Node → Decode α) (n : Node) : Decode α := do
  count
  match n with
  | .alias _ _ _ =>
    let m ← deref n
    withReader (fun s => { s with inAlias := true }) do
      count
      f m
  | _ => f n

/-- Notes that a node does not fit a type. -/
def refuse {α : Type} (n : Node) (tag type : String) : Decode (Option α) := do
  note (.value n.line tag n.text type)
  return none

/-- Runs a decoder after a number of visits. -/
def runAfter {α : Type} (visits : Nat) (anchors : List (Nat × Node)) (x : Decode α) :
    Except DecodeError α :=
  match (ReaderT.run x ⟨anchors, false⟩).run ⟨#[], visits, 0⟩ with
  | none => .error .malformed
  | some (a, p) => if p.mismatches.isEmpty then .ok a else .error (.mismatches p.mismatches.toList)

end Decode

/-- Decodes a node among anchored ones. -/
def Node.decode {α : Type} (anchors : List (Nat × Node)) (d : Decoder α) (n : Node) :
    Except DecodeError (Option α) := (d n).runAfter 0 anchors

/-- Decodes the root of a document, after the visit of the document itself. -/
def Document.decode {α : Type} (d : Decoder α) (doc : Document) : Except DecodeError (Option α) :=
  (d doc.root).runAfter 1 doc.anchors

namespace Decode

/-! ## Keys -/

/-- Notes every key that an earlier key of the mapping repeats; tells whether there is none. -/
def uniqueKeysFrom : List Node → Decode Bool
  | [] => return true
  | k :: rest => do
    let again := rest.filter fun j => k.sameKind j && k.text == j.text
    again.forM fun j => note (.repeatedKey j.line j.text k.line)
    let more ← uniqueKeysFrom rest
    return again.isEmpty && more

def uniqueKeys (entries : List (Node × Node)) : Decode Bool := uniqueKeysFrom (entries.map Prod.fst)

end Decode

/-! ## Scalars -/

/-- The integer part of a float toward zero; an infinite one is beyond all bounds. -/
def truncated (x : Float.Binary64) : Int :=
  let (m, q) := x.decode
  let n : Nat := if q < 0 then m / Nat.pow 2 q.natAbs else m * Nat.pow 2 q.natAbs
  if x.isNegative then -(n : Int) else n

/-- A float as a 64-bit integer toward zero. One that is too small becomes the least integer, and so
does the bound itself; larger ones and NaN have no value. -/
def floatInt? (x : Float.Binary64) : Option Int :=
  let n := truncated x
  let bound : Int := Nat.pow 2 63
  if x.isNaN || bound < n then none
  else if n == bound || n < -bound then some (-bound)
  else some n

/-- A float as a byte toward zero, by way of an unsigned 64-bit integer, of which the bound itself
becomes zero. -/
def floatByte? (x : Float.Binary64) : Option UInt8 :=
  let n := truncated x
  if n == Nat.pow 2 64 then some 0
  else if x.isNaN || n < 0 || 255 < n then none
  else some (UInt8.ofNat n.toNat)

namespace Decode

/-- Refuses a collection. The keys of a mapping must differ all the same. -/
def refuseCollection {α : Type} (n : Node) (type : String) : Decode (Option α) :=
  match n with
  | .seq _ tag _ _ => refuse n tag type
  | .map _ tag _ entries => do
    if ← uniqueKeys entries then refuse n tag type else return none
  | _ => failure

/-- A scalar and its meaning, or nothing for null; other nodes are refused. -/
def scalarOf {α : Type} (type : String) (ofValue : String → ScalarValue → Option α) (n : Node) :
    Decode (Option α) :=
  match n with
  | .scalar _ tag _ text =>
    match taggedValue? tag text with
    | none => failure
    | some .null => return none
    | some v =>
      match ofValue text v with
      | some a => return some a
      | none => refuse n tag type
  | _ => refuseCollection n type

def scalar {α : Type} (type : String) (ofValue : String → ScalarValue → Option α) : Decoder α :=
  visit (scalarOf type ofValue)

/-- Text: every scalar as it is written, and binary data decoded. -/
def string : Decoder String :=
  scalar "string" fun text v =>
    match v with
    | .text s => some s
    | _ => some text

/-- A 64-bit integer. A float counts without its fraction. -/
def int : Decoder Int :=
  scalar "int" fun _ v =>
    match v with
    | .int k => if k < Nat.pow 2 63 then some k else none
    | .float x => floatInt? x
    | _ => none

/-- A byte. A float counts without its fraction. -/
def byte : Decoder UInt8 :=
  scalar "uint8" fun _ v =>
    match v with
    | .int k => if 0 ≤ k && k ≤ 255 then some (UInt8.ofNat k.toNat) else none
    | .float x => floatByte? x
    | _ => none

/-- A truth value, also in one of the older spellings. -/
def truthValue? : ScalarValue → Option Bool
  | .bool b => some b
  | .text s =>
    if ["y", "Y", "yes", "on"].contains s then some true
    else if ["n", "N", "no", "off"].contains s then some false
    else none
  | _ => none

def bool : Decoder Bool := scalar "bool" fun _ v => truthValue? v

/-- A truth value that may be missing; null says so. A collection cannot be null, even if it has
that tag. -/
def optionalBool : Decoder (Option Bool) :=
  visit fun n => do
    if !n.isNull then return (← scalarOf "bool" (fun _ v => truthValue? v) n).map some
    match n with
    | .scalar _ tag _ text => if (taggedValue? tag text).isNone then failure else return some none
    | _ => refuseCollection n "*bool"

/-- The node itself. -/
def node : Decoder Node := fun n => do
  count
  return some n

/-! ## Collections -/

/-- All items of a sequence that are not skipped. Null is the same as no sequence. -/
def list {α : Type} (type : String) (item : Decoder α) : Decoder (Option (List α)) :=
  visit fun n => do
    match n with
    | .seq _ _ _ items =>
      let xs ← items.mapM item
      return some (some (xs.filterMap id))
    | .scalar _ tag _ text =>
      match taggedValue? tag text with
      | none => failure
      | some .null => return some none
      | some _ => refuse n tag type
    | _ => refuseCollection n type

/-- The mappings that a merge key names, in order. -/
def mergeSources (n : Node) : Decode (List Node) := do
  let sources := match n with
    | .seq _ _ _ items => items
    | _ => [n]
  sources.forM fun m => do
    match ← deref m with
    | .map _ _ _ _ => pure ()
    | _ => failure
  return sources

/-- The names of keys that are text. A collection cannot be a key beside a merge key. -/
def keyNames (entries : List (Node × Node)) : Decode (List String) :=
  entries.filterMapM fun (k, _) => k |> visit fun k => do
    match k with
    | .scalar _ tag _ text =>
      match taggedValue? tag text with
      | some (.text s) => return some s
      | some _ => return none
      | none => failure
    | _ => failure

/-- Goes through the entries of a mapping, and then through those of the mappings merged into it,
of which a name counts only at its first place. `put` is called with the key, its name, the value
and the names met in this mapping. -/
def entriesInto {σ : Type} (put : Node → String → Node → List String → σ → Decode σ) :
    Nat → Option (List String) → List (Node × Node) → σ → Decode (σ × Option (List String))
  | 0, _, _, _ => failure
  | fuel + 1, merged, entries, s => do
    let plain := entries.filter fun (k, _) => !k.isMergeKey
    let (s, _, merged) ← plain.foldlM
      (fun (acc : σ × List String × Option (List String)) (k, v) => do
      let (s, done, merged) := acc
      match ← string k with
      | none => return acc
      | some name =>
        match merged with
        | some names =>
          if names.contains name then return acc
          else return (← put k name v done s, name :: done, some (name :: names))
        | none => return (← put k name v done s, name :: done, none)) (s, [], merged)
    match (entries.filter fun (k, _) => k.isMergeKey).getLast? with
    | none => return (s, merged)
    | some (_, source) =>
      let names ← match merged with
        | some names => pure names
        | none => keyNames entries
      let sources ← mergeSources source
      let (s, names) ← sources.foldlM (fun (acc : σ × List String) n => n |> visit fun m => do
        match m with
        | .map _ _ _ entries =>
          if !(← uniqueKeys entries) then return acc
          let (s, names) ← entriesInto put fuel (some acc.2) entries acc.1
          return (s, names.getD [])
        | _ => failure) (s, names)
      return (s, merged.map fun _ => names)

mutual

/-- The number of nodes of a tree. -/
def size : Node → Nat
  | .scalar _ _ _ _ => 1
  | .seq _ _ _ items => sizeItems items + 1
  | .map _ _ _ entries => sizeEntries entries + 1
  | .alias _ _ _ => 1

def sizeItems : List Node → Nat
  | [] => 0
  | n :: rest => size n + sizeItems rest

def sizeEntries : List (Node × Node) → Nat
  | [] => 0
  | (k, v) :: rest => size k + size v + sizeEntries rest

end

/-- More than the number of mappings that can be merged into one another without a circle. -/
def mergeDepth (n : Node) : Decode Nat := do
  return (← read).anchors.foldl (fun d (_, m) => d + size m) (size n) + 1

/-- A mapping from text to text. Null is the same as no mapping; a null value is an empty text. -/
def table : Decoder (List (String × String)) :=
  let type := "map[string]string"
  visit fun n => do
    match n with
    | .map _ _ _ entries =>
      if !(← uniqueKeys entries) then return none
      let put (_ : Node) (name : String) (v : Node) (_ : List String)
          (t : List (String × String)) : Decode (List (String × String)) := do
        match ← string v with
        | some text => return assocInsert name text t
        | none => return if (← deref v).isNull then assocInsert name "" t else t
      let (t, _) ← entriesInto put (← mergeDepth n) none entries []
      return some t
    | .scalar _ tag _ text =>
      match taggedValue? tag text with
      | none => failure
      | some .null => return some []
      | some _ => refuse n tag type
    | _ => refuseCollection n type

/-- A field of a record: its name and how its value changes the record. -/
structure RecordField (σ : Type) where
  name : String
  set : Node → σ → Decode σ

/-- A field whose value replaces the old one unless it is skipped. -/
def RecordField.of {σ α : Type} (name : String) (decoder : Decoder α) (put : α → σ → σ) :
    RecordField σ :=
  ⟨name, fun n s => do
    match ← decoder n with
    | some a => return put a s
    | none => return s⟩

/-- A mapping with the fields of a record. Fields that do not exist or come twice are noted. -/
def record {σ : Type} (type : String) (fields : List (RecordField σ)) (init : σ) : Decoder σ :=
  visit fun n => do
    match n with
    | .map _ _ _ entries =>
      let put (k : Node) (name : String) (v : Node) (done : List String) (s : σ) : Decode σ := do
        match fields.find? fun f => f.name == name with
        | none =>
          note (.unknownField k.line name type)
          return s
        | some f =>
          if done.contains name then
            note (.repeatedField k.line name type)
            return s
          else f.set v s
      if ← uniqueKeys entries then
        let (s, _) ← entriesInto put (← mergeDepth n) none entries init
        return some s
      else return none
    | .scalar _ tag _ text =>
      match taggedValue? tag text with
      | none => failure
      | some .null => return none
      | some _ => refuse n tag type
    | _ => refuseCollection n type

end Decode

end Backend.Yaml
