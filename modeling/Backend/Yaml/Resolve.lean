-- What an untagged scalar means: null, a truth value, a number, a time, or text.
import Backend.Float.Numeral
import Backend.Text.Utf8

namespace Backend.Yaml

/-! ## Times -/

/-- One or two digits at the front of a text. -/
def shortNumber? : List Char → Option (Nat × List Char)
  | a :: b :: rest =>
    if !a.isDigit then none
    else if b.isDigit then some ((a.toNat - 48) * 10 + (b.toNat - 48), rest)
    else some (a.toNat - 48, b :: rest)
  | [a] => if a.isDigit then some (a.toNat - 48, []) else none
  | [] => none

/-- Two digits at the front of a text. -/
def pairNumber? : List Char → Option (Nat × List Char)
  | a :: b :: rest =>
    if a.isDigit && b.isDigit then some ((a.toNat - 48) * 10 + (b.toNat - 48), rest) else none
  | _ => none

/-- The text behind `c`, which must come first. -/
def behind? (c : Char) : List Char → Option (List Char)
  | d :: rest => if d == c then some rest else none
  | [] => none

/-- The number of days of a month. -/
def daysOfMonth (year month : Nat) : Nat :=
  if month == 2 then
    if (year % 4 == 0 && year % 100 != 0) || year % 400 == 0 then 29 else 28
  else if [4, 6, 9, 11].contains month then 30
  else 31

/-- A year of four digits, a month and a day with dashes between them, and what follows. -/
def date? (s : List Char) : Option ((Nat × Nat × Nat) × List Char) := do
  let year := s.takeWhile Char.isDigit
  if year.length != 4 then none
  let rest ← behind? '-' (s.drop 4)
  let (month, rest) ← shortNumber? rest
  let rest ← behind? '-' rest
  let (day, rest) ← shortNumber? rest
  some ((year.foldl (fun n d => n * 10 + (d.toNat - 48)) 0, month, day), rest)

/-- The date exists. -/
def isDate (d : Nat × Nat × Nat) : Bool :=
  let (year, month, day) := d
  1 ≤ month && month ≤ 12 && 1 ≤ day && day ≤ daysOfMonth year month

/-- Passes over a point or comma with digits behind it. -/
def dropFraction (s : List Char) : List Char :=
  match s with
  | c :: d :: rest =>
    if (c == '.' || c == ',') && d.isDigit then rest.dropWhile Char.isDigit else s
  | _ => s

/-- The text behind a time of day. -/
def clock? (s : List Char) : Option (List Char) := do
  let (hour, rest) ← shortNumber? s
  let (minute, rest) ← shortNumber? (← behind? ':' rest)
  let (second, rest) ← shortNumber? (← behind? ':' rest)
  if hour < 24 && minute < 60 && second < 60 then some (dropFraction rest) else none

/-- The text is a time zone: `Z`, or a sign, hours and minutes. -/
def isZone (s : List Char) : Bool :=
  match s with
  | ['Z'] => true
  | sign :: rest =>
    (sign == '+' || sign == '-') && ((do
      let (hours, rest) ← pairNumber? rest
      let (minutes, rest) ← pairNumber? (← behind? ':' rest)
      some (decide (hours ≤ 24) && decide (minutes ≤ 60) && rest.isEmpty)).getD false)
  | [] => false

/-- The text is a date, a date and a time of day with a zone behind a `T`, or a date and a time of
day with spaces between them. -/
def isTimestamp (s : List Char) : Bool :=
  match date? s with
  | none => false
  | some (d, rest) =>
    isDate d && match rest with
      | [] => true
      | c :: time =>
        if c == 'T' || c == 't' then ((clock? time).map isZone).getD false
        else if c == ' ' then ((clock? (time.dropWhile (· == ' '))).map List.isEmpty).getD false
        else false

end Backend.Yaml

namespace Backend.Text

/-! ## Base 64

Four digits stand for three bytes, and equals signs fill up the last four. -/

/-- The value of a digit of base 64. -/
def base64Value? (c : Char) : Option Nat :=
  if c.isUpper then some (c.toNat - 65)
  else if c.isLower then some (c.toNat - 71)
  else if c.isDigit then some (c.toNat + 4)
  else if c == '+' then some 62
  else if c == '/' then some 63
  else none

/-- The bytes of digits in groups of four, of which the last may be filled up with equals signs. -/
def base64Digits? : List Char → Option (List UInt8)
  | [] => some []
  | [a, b, '=', '='] => do
    let n := (← base64Value? a) * 64 + (← base64Value? b)
    some [UInt8.ofNat (n / 16)]
  | [a, b, c, '='] => do
    let n := ((← base64Value? a) * 64 + (← base64Value? b)) * 64 + (← base64Value? c)
    some [UInt8.ofNat (n / 1024), UInt8.ofNat (n / 4)]
  | a :: b :: c :: d :: rest => do
    let n := (((← base64Value? a) * 64 + (← base64Value? b)) * 64 + (← base64Value? c)) * 64 +
      (← base64Value? d)
    let more ← base64Digits? rest
    some (UInt8.ofNat (n / 65536) :: UInt8.ofNat (n / 256) :: UInt8.ofNat n :: more)
  | _ => none

/-- The bytes of a base 64 text, in which line breaks do not count. -/
def base64? (s : List Char) : Option (List UInt8) :=
  base64Digits? (s.filter fun c => c != '\n' && c != '\r')

end Backend.Text

namespace Backend.Yaml

/-! ## Tags -/

def nullTag : String := "!!null"
def boolTag : String := "!!bool"
def strTag : String := "!!str"
def intTag : String := "!!int"
def floatTag : String := "!!float"
def timestampTag : String := "!!timestamp"
def seqTag : String := "!!seq"
def mapTag : String := "!!map"
def binaryTag : String := "!!binary"
def mergeTag : String := "!!merge"

/-- The URI that `!!` stands for. -/
def coreTags : String := "tag:yaml.org,2002:"

/-- The short form of a tag of the core schema; other tags stay as they are. -/
def shortTag (tag : String) : String :=
  if coreTags.toList.isPrefixOf tag.toList then
    "!!" ++ String.ofList (tag.toList.drop coreTags.length)
  else tag

/-! ## Values -/

/-- The meaning of a scalar. An integer has at most 64 bits, with or without a sign. -/
inductive ScalarValue where
  | null
  | bool (b : Bool)
  | int (n : Int)
  | float (x : Float.Binary64)
  | timestamp
  | text (s : String)

def ScalarValue.tag : ScalarValue → String
  | .null => nullTag
  | .bool _ => boolTag
  | .int _ => intTag
  | .float _ => floatTag
  | .timestamp => timestampTag
  | .text _ => strTag

/-- Words with a meaning of their own. -/
def wordValue? (s : String) : Option ScalarValue :=
  let infinity (negative : Bool) : ScalarValue :=
    .float (.ofMagnitude negative Float.Format.binary64.infinity)
  if ["", "~", "null", "Null", "NULL"].contains s then some .null
  else if ["true", "True", "TRUE"].contains s then some (.bool true)
  else if ["false", "False", "FALSE"].contains s then some (.bool false)
  else if [".nan", ".NaN", ".NAN"].contains s then some (.float .nan)
  else if [".inf", ".Inf", ".INF", "+.inf", "+.Inf", "+.INF"].contains s then some (infinity false)
  else if ["-.inf", "-.Inf", "-.INF"].contains s then some (infinity true)
  else none

/-- A numeral with optional sign in a base, within 64 bits: with a sign as a signed number. -/
def basedInt? (base : Nat) (s : List Char) : Option Int :=
  let digits (limit : Nat) (r : List Char) : Option Int :=
    if r.isEmpty then none
    else (Text.digitsFrom base limit false 0 r).toOption.map Int.ofNat
  match s with
  | '-' :: r => (digits (Nat.pow 2 63 + 1) r).map fun n => -n
  | '+' :: r => digits (Nat.pow 2 63) r
  | r => digits (Nat.pow 2 64) r

/-- An integer: with a base mark in front or behind a sign, or with a sign behind a mark for two or
eight. -/
def intValue? (s : List Char) : Option Int :=
  match Text.readInt64 s, Text.readNat (Nat.pow 2 64) s with
  | .ok n, _ => some n.toInt
  | .error _, .ok n => some n
  | .error _, .error _ =>
    match s with
    | '0' :: 'b' :: r => basedInt? 2 r
    | '0' :: 'o' :: r => basedInt? 8 r
    | _ => none

/-- A decimal numeral with a point or an exponent, or without both. -/
def isDecimal (s : List Char) : Bool :=
  let unsigned := match s with
    | '-' :: r => r
    | '+' :: r => r
    | r => r
  let whole := unsigned.takeWhile Char.isDigit
  let (places, rest) := match unsigned.dropWhile Char.isDigit with
    | '.' :: r => (r.takeWhile Char.isDigit, r.dropWhile Char.isDigit)
    | r => ([], r)
  let exponent := match rest with
    | [] => true
    | e :: r =>
      let digits := match r with
        | '-' :: t => t
        | '+' :: t => t
        | t => t
      (e == 'e' || e == 'E') && !digits.isEmpty && digits.all Char.isDigit
  (!whole.isEmpty || !places.isEmpty) && exponent

/-- A number or a time, by the character it starts with. Underscores in numbers do not count. -/
def numberValue? (s : List Char) : Option ScalarValue :=
  match s with
  | [] => none
  | c :: _ =>
    if c == '.' then (Float.read? s).map .float
    else if c == '+' || c == '-' || c.isDigit then
      if isTimestamp s then some .timestamp
      else
        let plain := s.filter (· != '_')
        match intValue? plain with
        | some n => some (.int n)
        | none => if isDecimal plain then (Float.read? plain).map .float else none
    else none

/-- The meaning of a plain scalar. -/
def plainValue (s : String) : ScalarValue :=
  match wordValue? s with
  | some v => v
  | none => (numberValue? s.toList).getD (.text s)

/-- The tags that say what a scalar has to mean. All other tags make it text. -/
def meaningTags : List String := [boolTag, intTag, floatTag, nullTag, timestampTag]

/-- The meaning of a scalar with a tag: decoded text for `!!binary`, what it would mean without the
tag if the tag tells that, and otherwise text. A meaning must agree with the tag, where an integer
may be tagged as a float. -/
def taggedValue? (tag value : String) : Option ScalarValue :=
  if tag == binaryTag then (Text.base64? value.toList).map fun bytes => .text (Text.ofUtf8 bytes)
  else if !meaningTags.contains tag then some (.text value)
  else
    let v := plainValue value
    if v.tag == tag then some v
    else
      match v with
      | .int n =>
        if tag == floatTag && n < Nat.pow 2 63 then (Float.read? (toString n).toList).map .float
        else none
      | _ => none

end Backend.Yaml
