-- The tokens of a whole text. Indentation opens and closes block collections. A key is known only
-- by the colon behind it, so the token of a key is put in front of tokens that were read before.
import Backend.Yaml.Token.Property
import Backend.Yaml.Token.Scalar

namespace Backend.Yaml

/-- A place where a key may have started: the number of tokens before it, and whether the
indentation says that there must be one. -/
structure KeyStart where
  required : Bool
  tokens : Nat
  index : Nat
  mark : Mark

/-- The state between two tokens. `keys` holds the possible key of every level of brackets, the
innermost first; `keyAllowed` says whether the next token may start one. -/
structure Lexer where
  cursor : Cursor
  tokens : Array Token
  indent : Int
  indents : List Int
  keyAllowed : Bool
  key : Option KeyStart
  keys : List (Option KeyStart)

namespace Lexer

def start (room : Nat) (text : List Char) : Lexer :=
  ⟨.start room text, #[], -1, [], true, none, []⟩

/-- The lexer is inside brackets. -/
def inFlow (l : Lexer) : Bool := !l.keys.isEmpty

/-! ## Tokens and indentation -/

/-- Appends a token that reaches from the cursor to `stop`, where reading goes on. -/
def push (l : Lexer) (kind : TokenKind) (stop : Cursor) : Lexer :=
  { l with tokens := l.tokens.push ⟨kind, l.cursor.mark, stop.mark⟩, cursor := stop }

/-- Puts a token of no length in front of those after the first `n`. -/
def insertAt (l : Lexer) (n : Nat) (kind : TokenKind) (mark : Mark) : Lexer :=
  if n == l.tokens.size then { l with tokens := l.tokens.push ⟨kind, mark, mark⟩ }
  else
    let (before, after) := (l.tokens.extract 0 n, l.tokens.extract n l.tokens.size)
    { l with tokens := before.push ⟨kind, mark, mark⟩ ++ after }

/-- Opens a block collection at a column, unless one is open there; nothing happens in brackets. -/
def openBlock (l : Lexer) (column n : Nat) (kind : TokenKind) (mark : Mark) : Lexer :=
  if l.inFlow || decide ((column : Int) ≤ l.indent) then l
  else { l with indents := l.indent :: l.indents, indent := column }.insertAt n kind mark

/-- Closes the block collections that are indented deeper than a column. -/
def closeBlocksFrom (column : Int) : List Int → Lexer → Lexer
  | [], l => l
  | outer :: rest, l =>
    if l.indent ≤ column then l
    else closeBlocksFrom column rest { l.push .blockEnd l.cursor with
      indent := outer, indents := rest }

/-- Closes the block collections that are indented deeper than a column, outside brackets. -/
def closeBlocks (l : Lexer) (column : Int) : Lexer :=
  if l.inFlow then l else closeBlocksFrom column l.indents l

/-! ## Possible keys -/

/-- Gives up the possible key of this level, which is an error if a key is required. -/
def dropKey (l : Lexer) : Option Lexer :=
  match l.key with
  | some k => if k.required then none else some { l with key := none }
  | none => some l

/-- Remembers that a key may start at the cursor. -/
def saveKey (l : Lexer) : Option Lexer :=
  if !l.keyAllowed then some l
  else do
    let required := !l.inFlow && l.indent == l.cursor.column
    let l ← l.dropKey
    some { l with key := some ⟨required, l.tokens.size, l.cursor.index, l.cursor.mark⟩ }

/-- The greatest distance between the start of a key and its colon. -/
def keyReach : Nat := 1024

/-- The possible key is still one: it started on this line and not too far back. -/
def keyHolds (l : Lexer) (k : KeyStart) : Bool :=
  k.mark.line == l.cursor.line && decide (l.cursor.index ≤ k.index + keyReach)

/-! ## White space and comments -/

/-- The farthest that the next comment may start behind the end of one that it continues. -/
def commentReach : Nat := 512

/-- Passes over a comment, and over further ones with only white space of ASCII between them. -/
def commentsFrom : Nat → Cursor → Cursor
  | 0, c => c
  | fuel + 1, c =>
    let c := c.skipLine
    let distance := (c.rest.takeWhile fun x => isGap x || x == '\n' || x == '\r').length
    let c := c.need (min (distance + 1) commentReach)
    if decide (distance < commentReach) && (c.rest.drop distance).head? == some '#' then
      match Gap.empty.read 0 c with
      | some (_, d) => commentsFrom fuel d
      | none => c
    else c

/-- Passes over a comment behind the cursor on the same line. -/
def lineComment (c : Cursor) : Cursor :=
  let (_, d) := c.span isGap
  if d.sees '#' then d.skipLine else c

/-- Passes over the first character of a line as long as the window starts with a byte order mark.
At the start of a text that character is the mark itself. -/
def passMark (c : Cursor) : Cursor :=
  let c := c.need 1
  if c.column == 0 && c.window.marked then (c.skip 1).need 1 else c

/-- Passes over white space and comments. A tab may not stand where a key may start, except in
brackets; a new line outside brackets allows keys. -/
def toTokenFrom (flow : Bool) : Nat → Bool → Cursor → Bool × Cursor
  | 0, keyAllowed, c => (keyAllowed, c)
  | fuel + 1, keyAllowed, c =>
    let (_, c) := (passMark c).span fun x => x == ' ' || ((flow || !keyAllowed) && x == '\t')
    let c := if c.sees '#' then commentsFrom c.rest.length c else c
    match c.lineBreak? with
    | some (_, c) => toTokenFrom flow fuel (keyAllowed || !flow) c
    | none => (keyAllowed, c)

/-- Passes over white space and comments. -/
def toToken (l : Lexer) : Lexer :=
  let (keyAllowed, c) := toTokenFrom l.inFlow (l.cursor.rest.length + 1) l.keyAllowed l.cursor
  { l with keyAllowed := keyAllowed, cursor := c }

/-! ## One token -/

/-- The end of the text. -/
def lexEnd (l : Lexer) : Option Lexer := do
  let c := l.cursor
  let c := if c.column == 0 then c else c.nextLine 0
  let l ← ({ l with cursor := c }.closeBlocks (-1)).dropKey
  some { l.push .streamEnd c with keyAllowed := false }

/-- A token at the level of documents. -/
def lexDocumentPart (l : Lexer) (kind : TokenKind) (stop : Cursor) : Option Lexer := do
  let l ← (l.closeBlocks (-1)).dropKey
  some { l.push kind stop with keyAllowed := false }

def lexFlowStart (l : Lexer) (kind : TokenKind) : Option Lexer := do
  let l ← l.saveKey
  some { l.push kind (l.cursor.skip 1) with
    keys := l.key :: l.keys, key := none, keyAllowed := true }

def lexFlowEnd (l : Lexer) (kind : TokenKind) : Option Lexer := do
  let l ← l.dropKey
  let (key, keys) := match l.keys with
    | [] => (none, [])
    | k :: rest => (k, rest)
  some { l.push kind (l.cursor.skip 1) with key := key, keys := keys, keyAllowed := false }

def lexFlowEntry (l : Lexer) : Option Lexer := do
  let l ← l.dropKey
  some { l.push .flowEntry (l.cursor.skip 1) with keyAllowed := true }

/-- A dash, which outside brackets opens a sequence. -/
def lexBlockEntry (l : Lexer) : Option Lexer :=
  if !l.inFlow && !l.keyAllowed then none
  else do
    let c := l.cursor
    let l ← (l.openBlock c.column l.tokens.size .blockSeqStart c.mark).dropKey
    some { l.push .blockEntry (c.skip 1) with keyAllowed := true }

/-- A question mark in front of a key. -/
def lexKey (l : Lexer) : Option Lexer :=
  if !l.inFlow && !l.keyAllowed then none
  else do
    let c := l.cursor
    let l ← (l.openBlock c.column l.tokens.size .blockMapStart c.mark).dropKey
    some { l.push .key (c.skip 1) with cursor := lineComment (c.skip 1), keyAllowed := !l.inFlow }

/-- A colon without a key in front of it on the same line. -/
def lexBareValue (l : Lexer) : Option Lexer :=
  let c := l.cursor
  if l.inFlow then some { l.push .value (c.skip 1) with keyAllowed := false }
  else if !l.keyAllowed then none
  else
    let l := l.openBlock c.column l.tokens.size .blockMapStart c.mark
    some { l.push .value (c.skip 1) with cursor := lineComment (c.skip 1), keyAllowed := true }

/-- A colon. If a key may have started before it, the key gets its token, and outside brackets a
mapping is opened at its column. -/
def lexValue (l : Lexer) : Option Lexer :=
  match l.key with
  | none => l.lexBareValue
  | some k =>
    if l.keyHolds k then
      let l := { l with key := none, keyAllowed := false }.insertAt k.tokens .key k.mark
      let l := l.openBlock k.mark.column k.tokens .blockMapStart k.mark
      some (l.push .value (l.cursor.skip 1))
    else if k.required then none
    else { l with key := none }.lexBareValue

/-- A token that can be a key: an anchor, an alias, a tag, or a scalar on one line. -/
def lexContent (l : Lexer) (read : Cursor → Option (TokenKind × Bool × Cursor)) : Option Lexer := do
  let l ← l.saveKey
  let (kind, keyAllowed, c) ← read l.cursor
  some { l.push kind c with keyAllowed := keyAllowed }

/-- A block scalar, after which a key may start. -/
def lexBlockScalar (l : Lexer) (folded : Bool) : Option Lexer := do
  let l ← l.dropKey
  let (text, c) ← readBlock folded l.indent l.cursor
  let style := if folded then ScalarStyle.folded else .literal
  some { l.push (.scalar style (String.ofList text)) c with keyAllowed := true }

def readQuotedToken (single : Bool) (c : Cursor) : Option (TokenKind × Bool × Cursor) := do
  let (text, c) ← readQuoted single c
  let style := if single then ScalarStyle.singleQuoted else .doubleQuoted
  some (.scalar style (String.ofList text), false, c)

def readPlainToken (flow : Bool) (least : Int) (c : Cursor) :
    Option (TokenKind × Bool × Cursor) := do
  let (text, broken, c) ← readPlain flow least c
  some (.scalar .plain (String.ofList text), broken, c)

def readAnchorToken (kind : String → TokenKind) (c : Cursor) :
    Option (TokenKind × Bool × Cursor) := do
  let (name, c) ← readAnchorName (c.skip 1)
  some (kind name, false, c)

def readTagToken (c : Cursor) : Option (TokenKind × Bool × Cursor) := do
  let (handle, suffix, c) ← readTag c
  some (.tag handle suffix, false, c)

/-- A plain scalar can start with `c`: it is no indicator, or an indicator that needs a gap behind
it and has none. -/
def startsPlain (flow : Bool) (c : Char) (rest : List Char) : Bool :=
  if c == '-' then !(rest.head?.map isGap).getD false
  else if c == '?' || c == ':' then !flow && !wordEnds rest
  else !(isGap c || isBreak c || isFlowIndicator c || "#&*!|>'\"%@`".toList.contains c)

/-- The token that starts with a character which is no mark of documents. -/
def lexChar (l : Lexer) (c : Char) (rest : List Char) : Option Lexer :=
  let flow := l.inFlow
  match c with
  | '[' => l.lexFlowStart .flowSeqStart
  | '\x7b' => l.lexFlowStart .flowMapStart
  | ']' => l.lexFlowEnd .flowSeqEnd
  | '\x7d' => l.lexFlowEnd .flowMapEnd
  | ',' => l.lexFlowEntry
  | '*' => l.lexContent (readAnchorToken .alias)
  | '&' => l.lexContent (readAnchorToken .anchor)
  | '!' => l.lexContent readTagToken
  | '\'' => l.lexContent (readQuotedToken true)
  | '"' => l.lexContent (readQuotedToken false)
  | _ =>
    if c == '-' && wordEnds rest then l.lexBlockEntry
    else if c == '?' && (flow || wordEnds rest) then l.lexKey
    else if c == ':' && (flow || wordEnds rest) then l.lexValue
    else if c == '|' && !flow then l.lexBlockScalar false
    else if c == '>' && !flow then l.lexBlockScalar true
    else if startsPlain flow c rest then l.lexContent (readPlainToken flow (l.indent + 1))
    else none

/-- The deepest nesting of brackets, and the most block collections in one another. -/
def depthLimit : Nat := 10000

/-- Nothing is nested too deep, and the text could be taken in. -/
def isSound (l : Lexer) : Bool :=
  !l.cursor.window.faulty && decide (l.keys.length ≤ depthLimit) &&
    decide (l.indents.length ≤ depthLimit)

/-- Reads the next token. Block collections that end come before it. -/
def next (l : Lexer) : Option Lexer :=
  let l := l.toToken
  let l := l.closeBlocks l.cursor.column
  let cursor := l.cursor.need Cursor.documentMarkReach
  let l := { l with cursor := cursor }
  match cursor.rest with
  | [] => l.lexEnd
  | c :: rest =>
    if cursor.column == 0 && c == '%' then do
      let (kind, stop) ← readDirective cursor
      l.lexDocumentPart kind stop
    else if cursor.seesLineMark '-' then l.lexDocumentPart .documentStart (cursor.skip 3)
    else if cursor.seesLineMark '.' then l.lexDocumentPart .documentEnd (cursor.skip 3)
    else l.lexChar c rest

/-- Reads all tokens. -/
def run : Nat → Lexer → Lexer × Bool
  | 0, l => (l, false)
  | fuel + 1, l =>
    match l.next.filter isSound with
    | none => (l, false)
    | some m => if l.cursor.rest.isEmpty then (m, true) else run fuel m

/-- The first token that may still turn out to start a key. -/
def openKey? (l : Lexer) : Option Nat :=
  (((l.key :: l.keys).filterMap id).filter l.keyHolds |>.map KeyStart.tokens).min?

end Lexer

/-- The tokens of a text up to its end or to a fault. If there is a fault, `openKey` is the first
token that would still be a key if a colon followed. -/
structure Tokens where
  list : List Token
  complete : Bool
  openKey : Option Nat

/-- Bytes that a byte order mark takes. -/
def markBytes : Nat := byteOrderMark.utf8Size

/-- Reads the tokens of a text, without a byte order mark in front of it. -/
def tokens (text : List Char) : Tokens :=
  let (room, text) :=
    if text.head? == some byteOrderMark then (pieceBytes - markBytes, text.drop 1)
    else (pieceBytes, text)
  let start := Lexer.start room text
  if start.isSound then
    let (l, complete) := Lexer.run (text.length + 2) start
    ⟨l.tokens.toList, complete, l.openKey?⟩
  else ⟨[], false, none⟩

end Backend.Yaml
