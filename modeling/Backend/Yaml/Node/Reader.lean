-- The document that a sequence of tokens stands for.
import Backend.Yaml.Node.Basic
import Backend.Yaml.Token.Stream

namespace Backend.Yaml

/-! ## The state of reading -/

/-- The tokens left, the handles of tags, and the anchors: the newest number of every name, the
nodes by number, and the next number. -/
structure Reading where
  tokens : List Token
  handles : List (String × String)
  names : List (String × Nat)
  anchors : List (Nat × Node)
  count : Nat

/-- A step of reading, which fails on malformed input. -/
abbrev Reader := StateT Reading Option

namespace Reader

/-- The next token. -/
def peek : Reader Token := do
  match (← get).tokens with
  | t :: _ => pure t
  | [] => failure

def skip : Reader Unit := modify fun r => { r with tokens := r.tokens.drop 1 }

/-- The next token is one of the given kinds. -/
def sees (kinds : List TokenKind) : Reader Bool := return kinds.contains (← peek).kind

/-- The number for a new anchor. -/
def newAnchor (name : String) : Reader Nat :=
  modifyGet fun r => (r.count, { r with names := (name, r.count) :: r.names, count := r.count + 1 })

/-- Keeps the node of an anchor. -/
def keepAnchor (number : Option Nat) (n : Node) : Reader Node :=
  match number with
  | none => pure n
  | some k => modifyGet fun r => (n, { r with anchors := (k, n) :: r.anchors })

/-- The tag with its handle expanded. -/
def expandTag (handle suffix : String) : Reader String := do
  if handle.isEmpty then pure suffix
  else
    match (← get).handles.lookup handle with
    | some uri => pure (uri ++ suffix)
    | none => failure

end Reader

/-! ## Nodes -/

/-- A scalar of no characters. -/
def emptyScalar (mark : Mark) : Node := .scalar mark nullTag .plain ""

/-- The tag that a node has: the given one unless it is missing or only `!`. -/
def givenTag (given default : String) : String :=
  if given.isEmpty || given == "!" then default else shortTag given

/-- The tag of a scalar without one. -/
def scalarTag (style : ScalarStyle) (value : String) : String :=
  if style != .plain then strTag
  else if value == "<<" then mergeTag
  else (plainValue value).tag

/-- What stands in front of the content of a node: its tag, the number of its anchor, and where
this starts. -/
structure Properties where
  tag : String
  anchor : Option Nat
  mark : Mark

namespace Reader

/-- An anchor, if there is one. -/
def anchor? : Reader (Option Nat) := do
  match (← peek).kind with
  | .anchor name =>
    skip
    return some (← newAnchor name)
  | _ => return none

/-- A tag, if there is one. -/
def tag? : Reader (Option String) := do
  match (← peek).kind with
  | .tag handle suffix =>
    skip
    return some (← expandTag handle suffix)
  | _ => return none

/-- An anchor and a tag in either order. -/
def properties : Reader Properties := do
  let mark := (← peek).start
  let anchor ← anchor?
  let tag ← tag?
  let anchor ← if anchor.isNone && tag.isSome then anchor? else pure anchor
  return ⟨tag.getD "", anchor, mark⟩

mutual

/-- A node. Block collections may start only where `block` holds, and a sequence whose dashes stand
at the column of the mapping around it only where `indentless` holds. -/
def node (block indentless : Bool) : Nat → Reader Node
  | 0 => failure
  | fuel + 1 => do
    match (← peek).kind with
    | .alias name =>
      let mark := (← peek).start
      match (← get).names.lookup name with
      | some target =>
        skip
        return .alias mark name target
      | none => failure
    | _ =>
      let p ← properties
      let finish (n : Node) : Reader Node := keepAnchor p.anchor n
      match (← peek).kind with
      | .scalar style value =>
        skip
        finish (.scalar p.mark (givenTag p.tag (scalarTag style value)) style value)
      | .flowSeqStart =>
        skip
        finish (.seq p.mark (givenTag p.tag seqTag) true (← flowItems true fuel))
      | .flowMapStart =>
        skip
        finish (.map p.mark (givenTag p.tag mapTag) true (← flowEntries true fuel))
      | .blockEntry =>
        if indentless then
          finish (.seq p.mark (givenTag p.tag seqTag) false (← indentlessItems fuel))
        else emptyOrFail p
      | .blockSeqStart =>
        if block then
          skip
          finish (.seq p.mark (givenTag p.tag seqTag) false (← blockItems fuel))
        else emptyOrFail p
      | .blockMapStart =>
        if block then
          skip
          finish (.map p.mark (givenTag p.tag mapTag) false (← blockEntries fuel))
        else emptyOrFail p
      | _ => emptyOrFail p

/-- A node of which only the properties are there is an empty scalar. -/
def emptyOrFail (p : Properties) : Reader Node :=
  if p.anchor.isSome || !p.tag.isEmpty then
    keepAnchor p.anchor (.scalar p.mark (givenTag p.tag nullTag) .plain "")
  else failure

/-- The items of a block sequence. -/
def blockItems : Nat → Reader (List Node)
  | 0 => failure
  | fuel + 1 => do
    let t ← peek
    skip
    match t.kind with
    | .blockEntry =>
      let item ← if ← sees [.blockEntry, .blockEnd] then pure (emptyScalar t.stop)
        else node true false fuel
      return item :: (← blockItems fuel)
    | .blockEnd => return []
    | _ => failure

/-- The items of a sequence that is not indented. -/
def indentlessItems : Nat → Reader (List Node)
  | 0 => failure
  | fuel + 1 => do
    let t ← peek
    match t.kind with
    | .blockEntry =>
      skip
      let item ← if ← sees [.blockEntry, .key, .value, .blockEnd] then pure (emptyScalar t.stop)
        else node true false fuel
      return item :: (← indentlessItems fuel)
    | _ => return []

/-- The entries of a block mapping. -/
def blockEntries : Nat → Reader (List (Node × Node))
  | 0 => failure
  | fuel + 1 => do
    let t ← peek
    match t.kind with
    | .key =>
      skip
      let key ← if ← sees [.key, .value, .blockEnd] then pure (emptyScalar t.stop)
        else node true true fuel
      let value ← blockValue fuel
      return (key, value) :: (← blockEntries fuel)
    | .blockEnd =>
      skip
      return []
    | _ => failure

/-- The value of an entry of a block mapping. -/
def blockValue : Nat → Reader Node
  | 0 => failure
  | fuel + 1 => do
    let t ← peek
    match t.kind with
    | .value =>
      skip
      if ← sees [.key, .value, .blockEnd] then return emptyScalar t.stop else node true true fuel
    | _ => return emptyScalar t.start

/-- The items of a sequence in brackets. An item can be a mapping of one entry. -/
def flowItems (first : Bool) : Nat → Reader (List Node)
  | 0 => failure
  | fuel + 1 => do
    if ← sees [.flowSeqEnd] then
      skip
      return []
    if !first then
      if ← sees [.flowEntry] then skip else failure
    let t ← peek
    match t.kind with
    | .flowSeqEnd =>
      skip
      return []
    | .key =>
      skip
      let item ← flowPair t.start fuel
      return item :: (← flowItems false fuel)
    | _ =>
      let item ← node false false fuel
      return item :: (← flowItems false fuel)

/-- A mapping of one entry behind its key mark. -/
def flowPair (mark : Mark) : Nat → Reader Node
  | 0 => failure
  | fuel + 1 => do
    let t ← peek
    let key ←
      if ← sees [.value, .flowEntry, .flowSeqEnd] then
        skip
        pure (emptyScalar t.stop)
      else node false false fuel
    let value ← flowPairValue fuel
    return .map mark mapTag true [(key, value)]

def flowPairValue : Nat → Reader Node
  | 0 => failure
  | fuel + 1 => do
    if ← sees [.value] then
      skip
      if ← sees [.flowEntry, .flowSeqEnd] then return emptyScalar (← peek).start
      else node false false fuel
    else return emptyScalar (← peek).start

/-- The entries of a mapping in brackets. A key without a mark has no value. -/
def flowEntries (first : Bool) : Nat → Reader (List (Node × Node))
  | 0 => failure
  | fuel + 1 => do
    if ← sees [.flowMapEnd] then
      skip
      return []
    if !first then
      if ← sees [.flowEntry] then skip else failure
    match (← peek).kind with
    | .flowMapEnd =>
      skip
      return []
    | .key =>
      skip
      let key ← if ← sees [.value, .flowEntry, .flowMapEnd] then pure (emptyScalar (← peek).start)
        else node false false fuel
      let value ← flowValue fuel
      return (key, value) :: (← flowEntries false fuel)
    | _ =>
      let key ← node false false fuel
      let value := emptyScalar (← peek).start
      return (key, value) :: (← flowEntries false fuel)

def flowValue : Nat → Reader Node
  | 0 => failure
  | fuel + 1 => do
    if ← sees [.value] then
      skip
      if ← sees [.flowEntry, .flowMapEnd] then return emptyScalar (← peek).start
      else node false false fuel
    else return emptyScalar (← peek).start

end

/-! ## Documents -/

/-- The directives of a document: at most one version, which must be 1.1, and handles that
differ. -/
def directivesFrom : Nat → Bool → List (String × String) → Reader (List (String × String))
  | 0, _, _ => failure
  | fuel + 1, versioned, handles => do
    match (← peek).kind with
    | .versionDirective major minor =>
      if versioned || major != 1 || minor != 1 then failure
      skip
      directivesFrom fuel true handles
    | .tagDirective handle uri =>
      if (handles.lookup handle).isSome then failure
      skip
      directivesFrom fuel versioned (handles ++ [(handle, uri)])
    | _ => return handles

/-- The root of a document that starts with directives or a mark. -/
def markedRoot (fuel : Nat) : Reader Node := do
  let handles ← directivesFrom fuel false []
  modify fun r => { r with handles := handles ++ r.handles }
  let t ← peek
  if t.kind != .documentStart then failure
  skip
  let t ← peek
  match t.kind with
  | .documentStart | .documentEnd | .streamEnd | .versionDirective _ _ | .tagDirective _ _ =>
    return emptyScalar t.start
  | _ => node true false fuel

/-- The root of the first document; none if there is no document. -/
def firstRoot (fuel : Nat) : Reader (Option Node) := do
  match (← peek).kind with
  | .streamEnd => return none
  | .documentStart | .versionDirective _ _ | .tagDirective _ _ => return some (← markedRoot fuel)
  | _ => return some (← node true false fuel)

end Reader

/-- The tokens that have to be readable from the end of a document on. -/
def lookahead : Nat := 3

/-- The tokens after the first `done` have to be read beyond those that are given: there are too few
of them, or what may be a key is not yet known to be none. -/
def needsMore (ts : Tokens) (done : Nat) : Bool :=
  !ts.complete && (decide (ts.list.length < done + lookahead) ||
    (ts.openKey.map fun k => decide (k ≤ done)).getD false)

/-- What a text holds. -/
inductive Source where
  | malformed
  | empty
  | document (d : Document)

/-- The first document of a text. What follows it does not count, except that its first tokens must
be readable. -/
def read (text : String) : Source :=
  let ts := tokens text.toList
  let fuel := 2 * ts.list.length + 4
  let start : Reading := ⟨ts.list, [("!", "!"), ("!!", coreTags)], [], [], 0⟩
  match (Reader.firstRoot fuel).run start with
  | none => .malformed
  | some (root, r) =>
    if needsMore ts (ts.list.length - r.tokens.length) then .malformed
    else
      match root with
      | none => .empty
      | some n => .document ⟨n, r.anchors⟩

end Backend.Yaml
