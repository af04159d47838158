-- Reading the parts of a YAML document that stand in front of content: directives, anchors,
-- aliases and tags. A reader gives none if the text is malformed.
import Backend.Text.Hex
import Backend.Text.Utf8
import Backend.Yaml.Token

namespace Backend.Yaml

/-! ## Anchors and aliases -/

/-- A name that ends at a gap or at an indicator. -/
def readAnchorName (c : Cursor) : Option (String × Cursor) :=
  let (name, c) := c.span isWord
  let ends := wordEnds c.rest || c.seesAny fun x => "?:,]\x7d%@`".toList.contains x
  if name.isEmpty || !ends then none else some (String.ofList name, c)

/-! ## Tags -/

/-- A character that may stand in the URI of a tag. -/
def isUriChar (c : Char) : Bool := isWord c || ";/?:@&=+$.%!~*'()[],".toList.contains c

/-- The byte of an escape such as `%2F` at the front of a text, and what follows. -/
def escapedByte? : List Char → Option (UInt8 × List Char)
  | '%' :: a :: b :: rest => do
    let x ← Text.hexValue? a
    let y ← Text.hexValue? b
    some (UInt8.ofNat (x * 16 + y), rest)
  | _ => none

/-- The number of bytes after one that starts a character, by its highest bits. -/
def bytesAfter? (b : UInt8) : Option Nat :=
  if b &&& 0x80 == 0 then some 0
  else if b &&& 0xe0 == 0xc0 then some 1
  else if b &&& 0xf0 == 0xe0 then some 2
  else if b &&& 0xf8 == 0xf0 then some 3
  else none

/-- Escapes of so many bytes that continue a character. -/
def continuationBytes? : Nat → List Char → Option (List UInt8 × List Char)
  | 0, s => some ([], s)
  | n + 1, s => do
    let (b, s) ← escapedByte? s
    if b &&& 0xc0 != 0x80 then none
    let (more, s) ← continuationBytes? n s
    some (b :: more, s)

/-- The bytes of the escapes of one character. Only their form counts: the character that they stand
for need not exist. -/
def escapedSequence? (s : List Char) : Option (List UInt8 × List Char) := do
  let (b, s) ← escapedByte? s
  let n ← bytesAfter? b
  let (more, s) ← continuationBytes? n s
  some (b :: more, s)

/-- The URI at the front of a text with its escapes decoded. A malformed escape is an error. -/
def uriFrom : Nat → List Char → Option (List Char × List Char)
  | 0, s => some ([], s)
  | fuel + 1, s =>
    match s with
    | '%' :: _ => do
      let (bytes, rest) ← escapedSequence? s
      let (text, rest) ← uriFrom fuel rest
      some ((Text.ofUtf8 bytes).toList ++ text, rest)
    | c :: rest =>
      if isUriChar c then (uriFrom fuel rest).map fun (text, rest) => (c :: text, rest)
      else some ([], c :: rest)
    | [] => some ([], [])

/-- Reads a URI. -/
def readUri (c : Cursor) : Option (String × Cursor) := do
  let (text, rest) ← uriFrom c.rest.length c.rest
  some (String.ofList text, c.skip (c.rest.length - rest.length))

/-- The handle of a tag: an exclamation mark, or a name between two of them. A mark and a name
without the second mark are no handle, and the flag says so. -/
def readHandle (c : Cursor) : Option (String × Bool × Cursor) :=
  if !c.sees '!' then none
  else
    let (name, d) := (c.skip 1).span isWord
    if d.sees '!' then some (String.ofList ('!' :: name ++ ['!']), true, d.skip 1)
    else some (String.ofList ('!' :: name), false, d)

/-- Reads a tag: `!<uri>`, a handle with a suffix, or a suffix behind the plain handle `!`. A lone
`!` has no handle. -/
def readTag (c : Cursor) : Option (String × String × Cursor) := do
  let (handle, suffix, c) ←
    if (c.skip 1).sees '<' then do
      let (uri, c) ← readUri (c.skip 2)
      if uri.isEmpty || !c.sees '>' then none else some ("", uri, c.skip 1)
    else do
      let (handle, isHandle, d) ← readHandle c
      if isHandle then
        let (uri, d) ← readUri d
        if uri.isEmpty then none else some (handle, uri, d)
      else
        let (uri, d) ← readUri d
        let suffix := String.ofList (handle.toList.drop 1) ++ uri
        some (if suffix.isEmpty then ("", "!", d) else ("!", suffix, d))
  if wordEnds c.rest then some (handle, suffix, c) else none

/-! ## Directives -/

/-- The longest part of a version number. -/
def versionDigits : Nat := 2

/-- One part of a version number. -/
def readVersionPart (c : Cursor) : Option (Nat × Cursor) :=
  let (digits, c) := c.span Char.isDigit
  if digits.isEmpty || versionDigits < digits.length then none
  else some (digits.foldl (fun n d => n * 10 + (d.toNat - 48)) 0, c)

/-- A version such as `1.1`. -/
def readVersion (c : Cursor) : Option (TokenKind × Cursor) := do
  let (major, c) ← readVersionPart (c.span isGap).2
  if !c.sees '.' then none
  let (minor, c) ← readVersionPart (c.skip 1)
  some (.versionDirective major minor, c)

/-- A handle and the URI that it abbreviates. -/
def readTagDirective (c : Cursor) : Option (TokenKind × Cursor) := do
  let (handle, isHandle, c) ← readHandle (c.span isGap).2
  if !isHandle && handle != "!" || !c.seesAny isGap then none
  let (uri, c) ← readUri (c.span isGap).2
  if uri.isEmpty || !wordEnds c.rest then none else some (.tagDirective handle uri, c)

/-- Reads a directive from its percent sign to the end of the line. -/
def readDirective (c : Cursor) : Option (TokenKind × Cursor) := do
  let (name, c) := (c.skip 1).span isWord
  if !wordEnds c.rest then none
  let (kind, c) ←
    if name == "YAML".toList then readVersion c
    else if name == "TAG".toList then readTagDirective c
    else none
  let (_, c) := c.span isGap
  let c := if c.sees '#' then c.skipLine else c
  match c.lineBreak? with
  | some (_, c) => some (kind, c)
  | none => if c.rest.isEmpty then some (kind, c) else none

end Backend.Yaml
