-- The configuration of a build: its values, their defaults, and which of them are valid.
import Backend.Pipeline
import Backend.Text.Numeral
import Backend.Text.Quoted

namespace Backend

/-! ## Versions -/

/-- A semantic version with a leading `v`, in which minor and patch number may be missing. The parts
are kept as written. -/
structure Version where
  major : List Char
  minor : Option (List Char)
  patch : Option (List Char)
  prerelease : List (List Char)
  build : List (List Char)
  deriving DecidableEq

namespace Version

/-- A number without leading zeros at the front of a text. -/
def number? (s : List Char) : Option (List Char × List Char) :=
  let digits := s.takeWhile Char.isDigit
  if digits.isEmpty || (digits.head? == some '0' && digits.length != 1) then none
  else some (digits, s.dropWhile Char.isDigit)

/-- A number behind a dot, which may be missing only at the end of the text. -/
def part? (s : List Char) : Option (Option (List Char) × List Char) :=
  match s with
  | [] => some (none, [])
  | '.' :: r => (number? r).map fun (digits, rest) => (some digits, rest)
  | _ => none

def isIdentifierChar (c : Char) : Bool := c.isAlphanum || c == '-'

/-- A number with a leading zero. -/
def isPaddedNumber (s : List Char) : Bool :=
  s.all Char.isDigit && s.head? == some '0' && decide (1 < s.length)

/-- Identifiers with dots between them, none of them empty. -/
def identifiers? (s : List Char) : Option (List (List Char)) :=
  let parts := s.splitOn '.'
  if parts.all fun p => !p.isEmpty && p.all isIdentifierChar then some parts else none

/-- The identifiers behind a hyphen and those behind a plus sign. -/
def suffixes? (s : List Char) : Option (List (List Char) × List (List Char)) := do
  let (pre, rest) ← match s with
    | '-' :: r => do
      let pre ← identifiers? (r.takeWhile (· != '+'))
      if pre.any isPaddedNumber then none else some (pre, r.dropWhile (· != '+'))
    | r => some ([], r)
  match rest with
  | [] => some (pre, [])
  | '+' :: r => do some (pre, ← identifiers? r)
  | _ => none

/-- Reads a version. Only a version with all three numbers may have more behind them. -/
def parse? (s : String) : Option Version :=
  match s.toList with
  | 'v' :: r => do
    let (major, rest) ← number? r
    let (minor, rest) ← part? rest
    let (patch, rest) ← part? rest
    if patch.isNone then some ⟨major, minor, none, [], []⟩
    else
      let (pre, build) ← suffixes? rest
      some ⟨major, minor, patch, pre, build⟩
  | _ => none

/-- The major version with its `v`. -/
def majorText (v : Version) : String := String.ofList ('v' :: v.major)

end Version

/-! ## Log levels -/

/-- The capital form of a letter, as far as it can be an ASCII letter. -/
def capital (c : Char) : Char := if c.toNat == 0x131 then 'I' else c.toUpper

/-- A signed decimal numeral of 64 bits. -/
def signedDecimal (s : List Char) : Except Text.NumeralError Int64 :=
  let magnitude (limit : Nat) (r : List Char) : Except Text.NumeralError Nat := do
    let n ← Text.readDecimal (Nat.pow 2 64) r
    if n < limit then .ok n else .error .outOfRange
  match s with
  | '-' :: r => do .ok (Int64.ofInt (-((← magnitude (Nat.pow 2 63 + 1) r : Nat) : Int)))
  | '+' :: r => do .ok (Int64.ofNat (← magnitude (Nat.pow 2 63) r))
  | r => do .ok (Int64.ofNat (← magnitude (Nat.pow 2 63) r))

/-- The numbers of the named levels. -/
def logLevels : List (String × Int64) := [("DEBUG", -4), ("INFO", 0), ("WARN", 4), ("ERROR", 8)]

/-- The number of a level: that of its name and the distance behind it. -/
def logLevel? (s : String) : Option Int64 := do
  let name := s.toList.takeWhile fun c => c != '+' && c != '-'
  let base ← logLevels.lookup (String.ofList (name.map capital))
  match s.toList.drop name.length with
  | [] => some base
  | distance => (signedDecimal distance).toOption.map (base + ·)

/-! ## Configurations -/

/-- A build configuration. A pass whose switch is not given runs. -/
structure Config where
  version : String
  arch : String
  os : String
  peephole : Option Bool
  sweeps : Int
  schedule : Option Bool
  allowFallback : Bool
  fma : Bool
  variadic : Option (List String)
  plt : Bool
  outputDir : String
  listing : Bool
  jobs : Int
  logLevel : String
  logFormat : String

namespace Config

/-- A configuration in which nothing is given. -/
def unset : Config := ⟨"", "", "", none, 0, none, false, false, none, false, "", false, 0, "", ""⟩

/-- The C library functions with the variadic convention. -/
def defaultVariadic : List String := ["printf", "fprintf", "sprintf", "snprintf", "dprintf"]

/-- The text, or its default if it is empty. -/
def orDefault (s default : String) : String := if s == "" then default else s

/-- The configuration with defaults for what is not given. -/
def normalize (c : Config) : Config :=
  { c with
    version := orDefault c.version "v1.0.0"
    arch := orDefault c.arch "amd64"
    os := orDefault c.os "linux"
    sweeps := if c.sweeps == 0 then Peephole.defaultLimit else c.sweeps
    variadic := some (c.variadic.getD defaultVariadic)
    outputDir := orDefault c.outputDir "build"
    logLevel := orDefault c.logLevel "info"
    logFormat := orDefault c.logFormat "text" }

def default : Config := unset.normalize

/-! ## Validation -/

/-- A value that is not valid. -/
inductive Invalid where
  | version (text : String)
  | majorVersion (text major : String)
  | sweeps
  | jobs
  | logLevel (text : String)
  | logFormat (text : String)
  deriving DecidableEq

/-- The wording of a validation error. -/
def Invalid.message (e : Invalid) : String :=
  "invalid configuration: " ++ match e with
    | .version text => s!"version {Text.quote text} is not a semantic version"
    | .majorVersion text major => s!"version {text} not supported (major {major}, want v1)"
    | .sweeps => "peephole.max_iterations must not be negative"
    | .jobs => "jobs must not be negative"
    | .logLevel text => s!"log.level {Text.quote text}"
    | .logFormat text => s!"log.format {Text.quote text} (want text or json)"

/-- The first invalid value, if there is one. -/
def validate (c : Config) : Except Invalid Unit := do
  match Version.parse? c.version with
  | none => throw (.version c.version)
  | some v => if v.majorText != "v1" then throw (.majorVersion c.version v.majorText)
  if c.sweeps < 0 then throw .sweeps
  if c.jobs < 0 then throw .jobs
  if (logLevel? c.logLevel).isNone then throw (.logLevel c.logLevel)
  if c.logFormat != "text" && c.logFormat != "json" then throw (.logFormat c.logFormat)

/-! ## The pipeline -/

/-- The pipeline that a configuration asks for. -/
def pipeline (c : Config) : Except UnsupportedTarget Pipeline := do
  let target ← Target.lookup c.arch c.os ⟨c.fma, c.plt, c.variadic.getD []⟩
  return { target := target
           peephole := c.peephole.getD true
           sweeps := c.sweeps
           schedule := c.schedule.getD true
           keepsCycles := c.allowFallback
           listing := c.listing }

end Config

end Backend
