-- The text of a listing: offset, bytes and instruction in columns.
import Backend.CodeUnit.Basic

namespace Backend.CodeUnit

/-- The width of the byte column. -/
def byteColumn : Nat := 30

/-- Bytes as pairs of digits with blanks between them. -/
def spacedHex (bytes : List UInt8) : List Char :=
  (" ".intercalate (bytes.map fun b => String.ofList (Text.hexFixed 2 b.toNat))).toList

/-- The byte column: padded with blanks, or cut and ended with an ellipsis. -/
def byteText (bytes : List UInt8) : List Char :=
  let raw := spacedHex bytes
  if raw.length ≤ byteColumn then raw ++ List.replicate (byteColumn - raw.length) ' '
  else raw.take (byteColumn - 1) ++ ['…']

/-- A number in hexadecimal, filled with blanks on the left. -/
def hexColumn (width n : Nat) : String :=
  let digits := Text.hex n
  String.ofList (List.replicate (width - digits.length) ' ') ++ digits

/-- One line with its line break. -/
def Line.render (l : Line) : String :=
  if l.label != "" && l.text == "" then l.label ++ ":\n"
  else "  " ++ hexColumn 6 l.offset.toNat ++ ":  " ++ String.ofList (byteText l.bytes) ++ "  " ++
    l.text ++ "\n"

/-- The text of a listing. -/
def renderLines (lines : List Line) : String := String.join (lines.map Line.render)

end Backend.CodeUnit
