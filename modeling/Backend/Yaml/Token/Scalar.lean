-- Reading the scalars of a YAML document: plain words, quoted texts and indented blocks. A reader
-- gives none if the text is malformed.
import Backend.Text.Hex
import Backend.Text.Quoted
import Backend.Yaml.Token

namespace Backend.Yaml

/-! ## Plain scalars -/

/-- A character that ends a plain scalar inside brackets. -/
def isFlowIndicator (c : Char) : Bool :=
  c == ',' || c == '?' || c == '[' || c == ']' || c == '\x7b' || c == '\x7d'

/-- The word of a plain scalar at the front of a text. A colon ends it only before a gap. -/
def plainWord (flow : Bool) : List Char → List Char
  | [] => []
  | c :: rest =>
    if isGap c || isBreak c || (c == ':' && wordEnds rest) || (flow && isFlowIndicator c) then []
    else c :: plainWord flow rest

/-- Reads words and gaps up to the end of a plain scalar. Outside brackets a continuation line
starts at column `least` or behind it. Tells also whether a gap with a line break follows. -/
def plainFrom (flow : Bool) (least : Int) :
    Nat → List Char → Gap → Cursor → Option (List Char × Bool × Cursor)
  | 0, text, g, c => some (text, g.broken, c)
  | fuel + 1, text, g, c =>
    let c := c.need Cursor.documentMarkReach
    if c.seesDocumentMark || c.sees '#' then some (text, g.broken, c)
    else
      let word := plainWord flow c.rest
      let (text, g) := if word.isEmpty then (text, g) else (text ++ g.fold ++ word, Gap.empty)
      let c := (c.skip word.length).need 2
      if c.rest.isEmpty || !wordEnds c.rest then some (text, g.broken, c)
      else
        match g.read least c with
        | none => none
        | some (g, c) =>
          if !flow && decide ((c.column : Int) < least) then some (text, g.broken, c)
          else plainFrom flow least fuel text g c

/-- Reads a plain scalar. -/
def readPlain (flow : Bool) (least : Int) (c : Cursor) : Option (List Char × Bool × Cursor) :=
  plainFrom flow least (c.rest.length + 1) [] .empty c

/-! ## Quoted scalars -/

/-- A stretch of a quoted scalar without gaps: its value, its length as written, and whether an
escaped line break ends it. -/
structure QuotedWord where
  text : List Char
  size : Nat
  escapedBreak : Bool

/-- The stretch with a character in front that takes `n` characters. -/
def QuotedWord.push (c : Char) (n : Nat) (w : QuotedWord) : QuotedWord :=
  { w with text := c :: w.text, size := w.size + n }

def QuotedWord.nil : QuotedWord := ⟨[], 0, false⟩

/-- A stretch between single quotes, in which two quotes stand for one. -/
def singleWord : List Char → QuotedWord
  | [] => .nil
  | '\'' :: '\'' :: rest => (singleWord rest).push '\'' 2
  | c :: rest => if c == '\'' || isGap c || isBreak c then .nil else (singleWord rest).push c 1

/-- The characters that a backslash and one character stand for. -/
def escapedChar? (c : Char) : Option Char :=
  [('0', 0), ('a', 7), ('b', 8), ('t', 9), ('\t', 9), ('n', 10), ('v', 11), ('f', 12), ('r', 13),
    ('e', 27), (' ', 32), ('"', 34), ('\'', 39), ('\\', 92), ('N', 0x85), ('_', 0xa0),
    ('L', 0x2028), ('P', 0x2029)].lookup c |>.map Char.ofNat

/-- The number of digits of an escape by code point. -/
def escapeDigits? (c : Char) : Option Nat := [('x', 2), ('u', 4), ('U', 8)].lookup c

/-- The character of a code point that is no surrogate. -/
def codePoint? (n : Nat) : Option Char :=
  if n < 0xd800 || (0xdfff < n && n ≤ 0x10ffff) then some (Char.ofNat n) else none

/-- A stretch between double quotes; `skip` counts the digits of an escape already read. -/
def doubleWordFrom : Nat → List Char → Option QuotedWord
  | _, [] => some .nil
  | skip + 1, _ :: rest => (doubleWordFrom skip rest).map fun w => { w with size := w.size + 1 }
  | 0, '\\' :: e :: rest =>
    if isBreak e then some ⟨[], 1, true⟩
    else
      match escapeDigits? e with
      | some n => do
        let (value, _) ← Text.takeHex n 0 rest
        let c ← codePoint? value
        let w ← doubleWordFrom n rest
        some (w.push c 2)
      | none => do
        let c ← escapedChar? e
        let w ← doubleWordFrom 0 rest
        some (w.push c 2)
  | 0, c :: rest =>
    if c == '\\' then none
    else if c == '"' || isGap c || isBreak c then some .nil
    else (doubleWordFrom 0 rest).map (QuotedWord.push c 1)

/-- Reads stretches and gaps up to the closing quote. A document may not start or end inside. -/
def quotedFrom (single : Bool) : Nat → List Char → Cursor → Option (List Char × Cursor)
  | 0, _, _ => none
  | fuel + 1, text, c =>
    let c := c.need Cursor.documentMarkReach
    if c.seesDocumentMark || c.rest.isEmpty then none
    else do
      let w ← if single then some (singleWord c.rest) else doubleWordFrom 0 c.rest
      let c := (c.skip w.size).need 2
      let (g, c) := if w.escapedBreak then
          (Gap.escaped, (c.lineBreak?.map Prod.snd).getD c)
        else (Gap.empty, c)
      let text := text ++ w.text
      if c.sees (if single then '\'' else '"') then some (text, c.skip 1)
      else
        let (g, c) ← g.read 0 c
        quotedFrom single fuel (text ++ g.fold) c

/-- Reads a quoted scalar from its opening quote on. -/
def readQuoted (single : Bool) (c : Cursor) : Option (List Char × Cursor) :=
  quotedFrom single (c.rest.length + 1) [] (c.skip 1)

/-! ## Block scalars -/

/-- What becomes of the line breaks at the end of a block scalar. -/
inductive Chomp where
  | strip
  | clip
  | keep
  deriving DecidableEq

/-- The sign that chooses how the end is treated. -/
def readChomp (c : Cursor) : Option Chomp × Cursor :=
  if c.sees '+' then (some .keep, c.skip 1)
  else if c.sees '-' then (some .strip, c.skip 1)
  else (none, c)

/-- The digit that gives the indentation, which is not zero; without one the result is zero. -/
def readIncrement (c : Cursor) : Option (Nat × Cursor) :=
  match c.rest with
  | d :: _ =>
    if !d.isDigit then some (0, c)
    else if d == '0' then none
    else some (d.toNat - 48, c.skip 1)
  | [] => some (0, c)

/-- The header of a block scalar behind its indicator: sign and digit in either order, and at most
a comment up to the end of the line. -/
def readBlockHeader (c : Cursor) : Option (Chomp × Nat × Cursor) := do
  let (chomp, c) := readChomp c
  let (increment, c) ← readIncrement c
  let (chomp, c) := if chomp.isSome || increment == 0 then (chomp, c) else readChomp c
  let (_, c) := c.span isGap
  let c := if c.sees '#' then c.skipLine else c
  if c.rest.isEmpty then some (chomp.getD .clip, increment, c)
  else do
    let (_, c) ← c.lineBreak?
    some (chomp.getD .clip, increment, c)

/-- Passes over indentation and empty lines; an `indent` of zero is not yet known. Gives the
greatest column reached and the line breaks. -/
def indentationFrom (indent : Nat) : Nat → Nat → List Char → Cursor →
    Option (Nat × List Char × Cursor)
  | 0, deepest, breaks, c => some (deepest, breaks, c)
  | fuel + 1, deepest, breaks, c =>
    let spaces := (c.rest.takeWhile (· == ' ')).length
    let c := c.skip (if indent == 0 then spaces else min spaces (indent - c.column))
    let deepest := max deepest c.column
    if (indent == 0 || decide (c.column < indent)) && c.sees '\t' then none
    else
      match c.lineBreak? with
      | some (text, c) => indentationFrom indent fuel deepest (breaks ++ text) c
      | none => some (deepest, breaks, c)

/-- Passes over indentation and empty lines. -/
def readIndentation (indent : Nat) (c : Cursor) : Option (Nat × List Char × Cursor) :=
  indentationFrom indent (c.rest.length + 1) 0 [] c

/-- The content of a block scalar so far: the text, the break that ended the last line, the breaks
of empty lines after it, and whether that line started with a gap. -/
structure BlockText where
  text : List Char
  lead : List Char
  breaks : List Char
  gapFirst : Bool

/-- Reads the lines at column `indent`. In a folded scalar a single break between two lines that
start with no gap becomes a space. -/
def blockLinesFrom (folded : Bool) (indent : Nat) : Nat → BlockText → Cursor →
    Option (BlockText × Cursor)
  | 0, b, c => some (b, c)
  | fuel + 1, b, c =>
    if c.column != indent || c.rest.isEmpty then some (b, c)
    else do
      let gapFirst := c.seesAny isGap
      let joins := folded && !b.gapFirst && !gapFirst && b.lead == ['\n']
      let glue := if !joins then b.lead else if b.breaks.isEmpty then [' '] else []
      let (line, c) := c.span fun x => !isBreak x
      let (lead, c) := c.lineBreak?.getD ([], c)
      let (_, breaks, c) ← readIndentation indent c
      blockLinesFrom folded indent fuel ⟨b.text ++ glue ++ b.breaks ++ line, lead, breaks,
        gapFirst⟩ c

/-- Reads a block scalar from its indicator on. Without a digit in its header its indentation is
that of its first line that is not empty, and at least one more than that of the collection around
it. -/
def readBlock (folded : Bool) (outer : Int) (c : Cursor) : Option (List Char × Cursor) := do
  let (chomp, increment, c) ← readBlockHeader (c.skip 1)
  let given := if increment == 0 then 0 else (max outer 0).toNat + increment
  let (deepest, breaks, c) ← readIndentation given c
  let indent := if given == 0 then max (max deepest (outer + 1).toNat) 1 else given
  let (b, c) ← blockLinesFrom folded indent (c.rest.length + 1) ⟨[], [], breaks, false⟩ c
  let tail := match chomp with
    | .strip => []
    | .clip => b.lead
    | .keep => b.lead ++ b.breaks
  some (b.text ++ tail, c)

end Backend.Yaml
