-- The text of a document tree: block collections with two spaces for every level, and scalars in
-- the plainest style that reads back as the same value.
import Backend.Text.Hex
import Backend.Text.Letter
import Backend.Text.Utf8
import Backend.Yaml.Node.Basic

namespace Backend.Yaml

/-! ## Scalars as nodes -/

/-- The place of a node that is not read from a text. -/
def noMark : Mark := ⟨0, 0⟩

/-- Numbers to base sixty, which some readers know. -/
def isSexagesimal (s : List Char) : Bool :=
  let unsigned := match s with
    | '-' :: r => r
    | '+' :: r => r
    | r => r
  let isGroup (g : List Char) : Bool :=
    match g with
    | [d] => d.isDigit
    | [t, d] => '0' ≤ t && t ≤ '5' && d.isDigit
    | _ => false
  let (body, tail) := (unsigned.takeWhile (· != '.'), unsigned.dropWhile (· != '.'))
  let groups := (body.splitOn ':').drop 1
  let whole := body.takeWhile (· != ':')
  (whole.head?.map Char.isDigit).getD false && whole.all (fun c => c.isDigit || c == '_') &&
    !groups.isEmpty && groups.all isGroup && (tail.drop 1).all fun c => c.isDigit || c == '_'

/-- The truth values of older versions of the format. -/
def isOldBool (s : String) : Bool :=
  ["y", "Y", "yes", "Yes", "YES", "on", "On", "ON",
    "n", "N", "no", "No", "NO", "off", "Off", "OFF"].contains s

/-- A plain scalar of these characters is text. -/
def meansText (s : String) : Bool := (plainValue s).tag == strTag

namespace Node

/-- The style of a text: a block if it has several lines, and quotes if it would mean something
else without. -/
def textStyle (isPlain : Bool) (s : String) : ScalarStyle :=
  if s.toList.contains '\n' then .literal else if isPlain then .plain else .doubleQuoted

/-- A node for a text, quoted also if other readers may misunderstand it. -/
def ofText (s : String) : Node :=
  .scalar noMark strTag
    (textStyle (meansText s && !isSexagesimal s.toList && !isOldBool s) s) s

/-- A node for a line of program text. -/
def ofSource (s : String) : Node := .scalar noMark strTag (textStyle (meansText s) s) s

def ofInt (n : Int) : Node := .scalar noMark intTag .plain (toString n)

def ofBool (b : Bool) : Node := .scalar noMark boolTag .plain (if b then "true" else "false")

def ofItems (items : List Node) : Node := .seq noMark seqTag false items

def ofFlowItems (items : List Node) : Node := .seq noMark seqTag true items

/-- A mapping with text keys. -/
def ofFields (fields : List (String × Node)) : Node :=
  .map noMark mapTag false (fields.map fun (k, v) => (ofText k, v))

end Node

/-! ## Styles -/

/-- A character that is written as it is. -/
def isShown (c : Char) : Bool :=
  let n := c.toNat
  n == 10 || (0x20 ≤ n && n ≤ 0x7e) ||
    (0xa0 ≤ n && n ≤ 0xfffd && n != 0xfeff)

/-- Every character with the one before and the one after it. -/
def withNeighbours (s : List Char) : List (Option Char × Char × Option Char) :=
  (none :: s.map some).zip (s.zip ((s.drop 1).map some ++ [none]))

/-- Some two characters in a row satisfy `p` and `q`. -/
def anyPair (p q : Char → Bool) (s : List Char) : Bool :=
  (s.zip (s.drop 1)).any fun (a, b) => p a && q b

/-- A character that would be an indicator in plain style, in brackets and outside. -/
def indicates (before : Option Char) (c : Char) (after : Option Char) : Bool × Bool :=
  let ends := (after.map isGap).getD true
  let begins := (before.map fun x => isGap x || isBreak x).getD true
  match before with
  | none =>
    if "#,[]\x7b\x7d&*!|>'\"%@`".toList.contains c then (true, true)
    else if c == '?' || c == ':' then (true, ends)
    else if c == '-' then (ends, ends)
    else (false, false)
  | some _ =>
    if ",?[]\x7b\x7d".toList.contains c then (true, false)
    else if c == ':' then (true, ends)
    else if c == '#' then (begins, begins)
    else (false, false)

/-- The styles in which a text can be written. -/
structure Styles where
  multiline : Bool
  flowPlain : Bool
  blockPlain : Bool
  singleQuoted : Bool
  literal : Bool

/-- The styles that keep a text as it is. -/
def stylesOf (s : List Char) : Styles :=
  if s.isEmpty then ⟨false, false, true, true, false⟩
  else
    let isSpace (c : Char) : Bool := c == ' '
    let marks := (withNeighbours s).map fun (a, c, b) => indicates a c b
    let documentMark := s.take 3 == "---".toList || s.take 3 == "...".toList
    let atEnds (p : Char → Bool) : Bool :=
      (s.head?.map p).getD false || (s.getLast?.map p).getD false
    let breaks := s.any isBreak
    let hidden := s.any fun c => c != '\t' && !isShown c
    let spaceBreak := anyPair isSpace isBreak s
    let breakSpace := anyPair isBreak isSpace s
    let odd := breakSpace || spaceBreak || s.contains '\t' || hidden
    let plain := !(atEnds fun c => isSpace c || isBreak c) && !odd && !breaks && !documentMark
    { multiline := breaks
      flowPlain := plain && !marks.any Prod.fst
      blockPlain := plain && !marks.any Prod.snd
      singleQuoted := !odd
      literal := !(s.getLast?.map isSpace).getD false && !spaceBreak && !hidden }

/-- Where a scalar is written. -/
inductive Context where
  | block
  | flow
  | key
  deriving DecidableEq

/-- The style in which a scalar is written: the wanted one if it is possible at this place. -/
def chooseStyle (context : Context) (wanted : ScalarStyle) (s : List Char) : ScalarStyle :=
  let can := stylesOf s
  let plain := if context == .flow then can.flowPlain else can.blockPlain
  let quoted : ScalarStyle := if can.singleQuoted then .singleQuoted else .doubleQuoted
  if context == .key && can.multiline then .doubleQuoted
  else
    match wanted with
    | .plain =>
      if !plain || (s.isEmpty && context != .block) then quoted else .plain
    | .singleQuoted => quoted
    | .doubleQuoted => .doubleQuoted
    | .literal => if can.literal && context == .block then .literal else .doubleQuoted
    | .folded => if can.literal && context == .block then .literal else .doubleQuoted

/-! ## Scalars as text -/

def spaces (n : Nat) : List Char := List.replicate n ' '

/-- A character as an escape between double quotes. -/
def charEscape (c : Char) : List Char :=
  let short : List (Nat × Char) :=
    [(0, '0'), (7, 'a'), (8, 'b'), (9, 't'), (10, 'n'), (11, 'v'), (12, 'f'), (13, 'r'), (27, 'e'),
      (34, '"'), (92, '\\'), (0x85, 'N'), (0xa0, '_'), (0x2028, 'L'), (0x2029, 'P')]
  let upper (digits : List Char) : List Char := digits.map Char.toUpper
  match short.lookup c.toNat with
  | some letter => ['\\', letter]
  | none =>
    if c.toNat ≤ 0xff then '\\' :: 'x' :: upper (Text.hexFixed 2 c.toNat)
    else if c.toNat ≤ 0xffff then '\\' :: 'u' :: upper (Text.hexFixed 4 c.toNat)
    else '\\' :: 'U' :: upper (Text.hexFixed 8 c.toNat)

/-- A character between double quotes. -/
def doubleQuotedChar (c : Char) : List Char :=
  if isShown c && !isBreak c && c != '"' && c != '\\' then [c] else charEscape c

/-- A text between double quotes. One that starts with a byte order mark is all escapes. -/
def doubleQuotedText (s : List Char) : List Char :=
  let write := if s.head? == some byteOrderMark then charEscape else doubleQuotedChar
  '"' :: s.flatMap write ++ ['"']

/-- Between single quotes a quote is doubled, and text behind a line break is indented. -/
def singleQuotedText (indent : Nat) (s : List Char) : List Char :=
  '\'' :: (withNeighbours s).flatMap (fun (before, c, _) =>
    (if (before.map isBreak).getD false && !isBreak c then spaces indent else []) ++
      (if c == '\'' then ['\'', '\''] else [c])) ++ ['\'']

/-- The signs behind the bar of a block: the indentation if the text does not show it, and how it
ends. -/
def literalHints (s : List Char) : List Char :=
  let indent := if s.head? == some ' ' || (s.head?.map isBreak).getD false then ['2'] else []
  let tail := match s.reverse with
    | [] => ['-']
    | c :: rest =>
      if !isBreak c then ['-']
      else if (rest.head?.map isBreak).getD true then ['+']
      else []
  indent ++ tail

/-- A block: the bar and its signs, and every line that is not empty behind the indentation. -/
def literalText (indent : Nat) (s : List Char) : List Char :=
  '|' :: literalHints s ++ (withNeighbours s).flatMap fun (before, c, _) =>
    if isBreak c then [c]
    else
      match before with
      | none => '\n' :: spaces indent ++ [c]
      | some b => if isBreak b then spaces indent ++ [c] else [c]

/-- A scalar at a place, where `indent` is the indentation of its further lines. -/
def scalarText (context : Context) (indent : Nat) (style : ScalarStyle) (value : String) :
    List Char :=
  let s := value.toList
  match chooseStyle context style s with
  | .plain => s
  | .singleQuoted => singleQuotedText indent s
  | .doubleQuoted => doubleQuotedText s
  | .literal => literalText indent s
  | .folded => literalText indent s

/-! ## Collections -/

/-- The longest key that stands on one line with its colon, in bytes. -/
def simpleKeyBytes : Nat := 128

/-- A key that stands on one line with its colon. -/
def isSimpleKey (value : String) : Bool :=
  !value.toList.any isBreak && (Text.utf8 value).length ≤ simpleKeyBytes

/-- A text behind an indicator, from which a space divides it. -/
def behindSpace (s : List Char) : List Char := if s.isEmpty then [] else ' ' :: s

mutual

/-- A node in brackets or on one line. -/
def flowText : Node → List Char
  | .scalar _ _ style value => scalarText .flow 0 style value
  | .seq _ _ _ items => '[' :: flowItemsText items ++ [']']
  | .map _ _ _ entries => '\x7b' :: flowEntriesText entries ++ ['\x7d']
  | .alias _ name _ => '*' :: name.toList

def flowItemsText : List Node → List Char
  | [] => []
  | [n] => flowText n
  | n :: rest => flowText n ++ ", ".toList ++ flowItemsText rest

def flowEntriesText : List (Node × Node) → List Char
  | [] => []
  | [(k, v)] => flowText k ++ ": ".toList ++ flowText v
  | (k, v) :: rest => flowText k ++ ": ".toList ++ flowText v ++ ", ".toList ++ flowEntriesText rest

end

mutual

/-- A node behind a colon or dash of a collection at `indent`: what stands on the same line, and the
lines that follow. -/
def blockText (dash : Bool) (indent : Nat) : Node → List Char × List (List Char)
  | .scalar _ _ style value => (behindSpace (scalarText .block (indent + 2) style value), [])
  | .seq m t flow items =>
    if flow || items.isEmpty then (behindSpace (flowText (.seq m t flow items)), [])
    else
      let lines := itemLines (indent + 2) items
      if dash then
        (match lines with
          | first :: rest => (' ' :: first.drop (indent + 2), rest)
          | [] => ([], []))
      else ([], lines)
  | .map m t flow entries =>
    if flow || entries.isEmpty then (behindSpace (flowText (.map m t flow entries)), [])
    else
      let lines := entryLines (indent + 2) entries
      if dash then
        (match lines with
          | first :: rest => (' ' :: first.drop (indent + 2), rest)
          | [] => ([], []))
      else ([], lines)
  | .alias _ name _ => (' ' :: '*' :: name.toList, [])

/-- The lines of a block sequence. -/
def itemLines (indent : Nat) : List Node → List (List Char)
  | [] => []
  | n :: rest =>
    let (head, lines) := blockText true indent n
    (spaces indent ++ '-' :: head) :: lines ++ itemLines indent rest

/-- The lines of a block mapping. A key that does not fit on one line has a mark of its own. -/
def entryLines (indent : Nat) : List (Node × Node) → List (List Char)
  | [] => []
  | (k, v) :: rest =>
    let (head, lines) := blockText false indent v
    let key := match k with
      | .scalar _ _ style value =>
        if isSimpleKey value then [spaces indent ++ scalarText .key (indent + 2) style value ++
          ':' :: head]
        else
          [spaces indent ++ '?' :: behindSpace (scalarText .block (indent + 2) style value),
            spaces indent ++ ':' :: head]
      | _ => [spaces indent ++ '?' :: behindSpace (flowText k), spaces indent ++ ':' :: head]
    key ++ lines ++ entryLines indent rest

end

/-- Ends a line unless a block has ended it. -/
def endLine (line : List Char) : List Char :=
  if line.getLast? == some '\n' then line else line ++ ['\n']

/-- The text of a document. -/
def Node.render (n : Node) : String :=
  let lines := match n with
    | .map _ _ false entries => if entries.isEmpty then [flowText n] else entryLines 0 entries
    | .seq _ _ false items => if items.isEmpty then [flowText n] else itemLines 0 items
    | .scalar _ _ style value => [scalarText .block 2 style value]
    | _ => [flowText n]
  String.ofList (lines.flatMap endLine)

/-! ## The order of keys

Keys are written by letters, with runs of digits compared as numbers. -/

/-- The value of the digits at the front of a text after `start`, in 64 bits, and their number. -/
def digitRun (start : Int64) (s : List Char) : Int64 × Nat :=
  let digits := s.takeWhile Text.isDecimalDigit
  (digits.foldl (fun n d => n * 10 + (Int64.ofNat d.toNat - 48)) start, digits.length)

/-- Compares two texts from the characters on in which they differ; `seen` is what they share, the
last character first. Letters come after other characters, but before them behind a digit. -/
def differingBefore (seen : List Char) (a b : Char) (as bs : List Char) : Bool :=
  if Text.isLetter a && Text.isLetter b then decide (a < b)
  else if Text.isLetter a || Text.isLetter b then
    if (seen.head?.map Text.isDecimalDigit).getD false then Text.isLetter a else Text.isLetter b
  else
    let inNumber := (a == '0' || b == '0') && (seen.takeWhile Text.isDecimalDigit).any (· != '0')
    let start : Int64 := if inNumber then 1 else 0
    let (m, i) := digitRun start (a :: as)
    let (n, j) := digitRun start (b :: bs)
    if m != n then decide (m < n) else if i != j then decide (i < j) else decide (a < b)

/-- The first text comes before the second. -/
def keyBeforeFrom : List Char → List Char → List Char → Bool
  | seen, a :: as, b :: bs =>
    if a == b then keyBeforeFrom (a :: seen) as bs else differingBefore seen a b as bs
  | _, [], bs => !bs.isEmpty
  | _, _ :: _, [] => false

/-- The first key comes before the second. -/
def keyBefore (a b : String) : Bool := keyBeforeFrom [] a.toList b.toList

/-- The entries of a table in the order of their keys. -/
def sortEntries {α : Type} (entries : List (String × α)) : List (String × α) :=
  entries.mergeSort fun x y => !keyBefore y.1 x.1

end Backend.Yaml
