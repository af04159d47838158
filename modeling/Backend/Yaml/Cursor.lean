-- A place in the text of a YAML document: what is left to read, with line and column, and the
-- characters that have been taken in ahead of it. A text is taken in by pieces, each only when the
-- characters ahead do not suffice, so a fault behind the end of what is needed does no harm.

namespace Backend.Yaml

/-! ## Classes of characters -/

/-- A line break. -/
def isBreak (c : Char) : Bool :=
  let n := c.toNat
  n == 10 || n == 13 || n == 0x85 || n == 0x2028 || n == 0x2029

/-- A space or a tab. -/
def isGap (c : Char) : Bool := c == ' ' || c == '\t'

/-- A character of names: anchors, directives and the handles of tags. -/
def isWord (c : Char) : Bool := c.isAlphanum || c == '_' || c == '-'

/-- A character that may stand in a document at all. -/
def isAllowed (c : Char) : Bool :=
  let n := c.toNat
  n == 9 || n == 10 || n == 13 || (0x20 ≤ n && n ≤ 0x7e) || n == 0x85 ||
    (0xa0 ≤ n && n ≤ 0xfffd) || 0x10000 ≤ n

/-- The mark that says that the text is Unicode. -/
def byteOrderMark : Char := Char.ofNat 0xfeff

/-- A word ends here: a space, a tab, a line break or the end of the text follows. -/
def wordEnds : List Char → Bool
  | [] => true
  | c :: _ => isGap c || isBreak c

/-! ## Pieces -/

/-- The most bytes of a piece. -/
def pieceBytes : Nat := 512

/-- The lengths of the pieces of a text, where the first has `room` more bytes for the characters
after the `count` it has. A piece with a character that may not stand in a document has none. -/
def piecesFrom (room count : Nat) (sound : Bool) : List Char → List (Option Nat)
  | [] => if count == 0 then [] else [if sound then some count else none]
  | c :: rest =>
    if c.utf8Size ≤ room then piecesFrom (room - c.utf8Size) (count + 1) (sound && isAllowed c) rest
    else
      (if sound then some count else none) ::
        piecesFrom (pieceBytes - c.utf8Size) 1 (isAllowed c) rest

/-! ## Windows -/

/-- What has been taken in: whether it starts with a byte order mark, how many of its characters are
not yet read, the pieces to come, and whether a piece could not be taken in. -/
structure Window where
  marked : Bool
  ahead : Nat
  pieces : List (Option Nat)
  faulty : Bool

namespace Window

/-- Takes in pieces until `count` characters are ahead. The end of the text counts as one more
character every time it is reached. -/
def takeIn (count : Nat) (marked : Bool) : Nat → List (Option Nat) → Window
  | ahead, [] => ⟨marked, if count ≤ ahead then ahead else ahead + 1, [], false⟩
  | ahead, p :: rest =>
    if count ≤ ahead then ⟨marked, ahead, p :: rest, false⟩
    else
      match p with
      | some n => takeIn count marked (ahead + n) rest
      | none => ⟨marked, ahead, p :: rest, true⟩

/-- The window with `count` characters ahead at least. If more have to be taken in, it starts anew
at the place of reading, where `marked` tells about a byte order mark. -/
def need (w : Window) (count : Nat) (marked : Bool) : Window :=
  if w.faulty || decide (count ≤ w.ahead) then w else takeIn count marked w.ahead w.pieces

/-- The window after reading `n` characters. -/
def pass (w : Window) (n : Nat) : Window :=
  let v := w.need n false
  { v with ahead := v.ahead - n }

/-- The first window of a text whose first piece has room for so many bytes. -/
def start (room : Nat) (text : List Char) : Window :=
  takeIn 1 (text.head? == some byteOrderMark) 0 (piecesFrom room 0 true text)

end Window

/-! ## Places -/

/-- A line and a column, counted from zero. -/
structure Mark where
  line : Nat
  column : Nat
  deriving DecidableEq

/-- The text left to read and where it starts; `index` counts the characters before it. -/
structure Cursor where
  rest : List Char
  index : Nat
  line : Nat
  column : Nat
  window : Window

namespace Cursor

/-- The start of a text whose first piece has room for so many bytes. -/
def start (room : Nat) (text : List Char) : Cursor := ⟨text, 0, 0, 0, .start room text⟩

def mark (c : Cursor) : Mark := ⟨c.line, c.column⟩

/-- The next character is `x`. -/
def sees (c : Cursor) (x : Char) : Bool := c.rest.head? == some x

/-- The next character satisfies `p`. -/
def seesAny (c : Cursor) (p : Char → Bool) : Bool := (c.rest.head?.map p).getD false

/-- Takes in at least `n` characters ahead. -/
def need (c : Cursor) (n : Nat) : Cursor :=
  { c with window := c.window.need n (c.sees byteOrderMark) }

/-- Passes over characters of one line. -/
def skip (c : Cursor) (n : Nat) : Cursor :=
  ⟨c.rest.drop n, c.index + n, c.line, c.column + n, c.window.pass n⟩

/-- The longest run of characters of one line that satisfy `p`. -/
def span (c : Cursor) (p : Char → Bool) : List Char × Cursor :=
  let run := c.rest.takeWhile p
  (run, c.skip run.length)

/-- The cursor after a line break of `n` characters. -/
def nextLine (c : Cursor) (n : Nat) : Cursor :=
  ⟨c.rest.drop n, c.index + n, c.line + 1, 0, c.window.pass n⟩

/-- The line break at the cursor as it counts in a scalar. The breaks of ASCII and the next-line
character become a line feed. -/
def lineBreak? (c : Cursor) : Option (List Char × Cursor) :=
  match c.rest with
  | '\r' :: '\n' :: _ => some (['\n'], (c.need 2).nextLine 2)
  | x :: _ =>
    if !isBreak x then none
    else if x.toNat < 0x2028 then some (['\n'], (c.need 2).nextLine 1)
    else some ([x], (c.need 2).nextLine 1)
  | [] => none

/-- Passes over the rest of the line. -/
def skipLine (c : Cursor) : Cursor := (c.span fun x => !isBreak x).2

/-- The number of characters that show a document mark, with the one behind it. -/
def documentMarkReach : Nat := 4

/-- Three equal characters at the start of a line with nothing behind them. -/
def seesLineMark (c : Cursor) (x : Char) : Bool :=
  c.column == 0 && c.rest.take 3 == [x, x, x] && wordEnds (c.rest.drop 3)

/-- A document starts or ends here. -/
def seesDocumentMark (c : Cursor) : Bool := c.seesLineMark '-' || c.seesLineMark '.'

end Cursor

/-! ## Gaps inside scalars -/

/-- White space between two words of a scalar: the spaces of the first line, whether that line has
ended, and the text of the first line break and of the later ones. -/
structure Gap where
  blanks : List Char
  broken : Bool
  first : List Char
  more : List Char

namespace Gap

def empty : Gap := ⟨[], false, [], []⟩

/-- The gap after a line break that does not count. -/
def escaped : Gap := ⟨[], true, [], []⟩

/-- The gap with another line break. -/
def addBreak (g : Gap) (text : List Char) : Gap :=
  if g.broken then { g with more := g.more ++ text } else ⟨[], true, text, []⟩

/-- The gap with another space, which counts only on the first line. -/
def addBlank (g : Gap) (c : Char) : Gap :=
  if g.broken then g else { g with blanks := g.blanks ++ [c] }

/-- What a gap amounts to in the value: its spaces, or its line breaks. A single line feed becomes
a space, and a first line feed is dropped if others follow. -/
def fold (g : Gap) : List Char :=
  if !g.broken then g.blanks
  else if g.first == ['\n'] then (if g.more.isEmpty then [' '] else g.more)
  else g.first ++ g.more

/-- Reads on in a gap. A tab that stands before column `least` on a later line is an error. -/
def readFrom (least : Int) : Nat → Gap → Cursor → Option (Gap × Cursor)
  | 0, g, c => some (g, c)
  | fuel + 1, g, c =>
    match c.rest with
    | [] => some (g, c)
    | x :: _ =>
      if isGap x then
        if x == '\t' && g.broken && decide ((c.column : Int) < least) then none
        else readFrom least fuel (g.addBlank x) (c.skip 1)
      else
        match c.lineBreak? with
        | some (text, c) => readFrom least fuel (g.addBreak text) c
        | none => some (g, c)

/-- Reads a gap to its end. -/
def read (least : Int) (g : Gap) (c : Cursor) : Option (Gap × Cursor) :=
  readFrom least c.rest.length g c

end Gap

end Backend.Yaml
