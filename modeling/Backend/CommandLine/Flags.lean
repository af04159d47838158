-- The flags of the command line. A flag starts with one or two dashes; its value follows an equals
-- sign or, unless it is a switch, comes as the next argument. Two dashes alone end the flags.
import Backend.Config.Basic
import Backend.Text.Quoted

namespace Backend.CommandLine

/-- What the command line asks for. An empty text is not given. -/
structure Options where
  config : String
  arch : String
  os : String
  outputDir : String
  listing : Option Bool
  jobs : Option Int
  unoptimized : Bool
  verbose : Bool
  writesConfig : Bool
  modules : List String

def Options.empty : Options := ⟨"", "", "", "", none, none, false, false, false, []⟩

/-- Why a command line is refused. -/
inductive FlagError where
  | badForm (arg : String)
  | unknown (name : String)
  | missingValue (name : String)
  | badSwitch (name value reason : String)
  | badValue (name value reason : String)
  deriving DecidableEq

/-- The wording of a flag error. -/
def FlagError.message : FlagError → String
  | .badForm arg => s!"bad flag syntax: {arg}"
  | .unknown name => s!"flag provided but not defined: -{name}"
  | .missingValue name => s!"flag needs an argument: -{name}"
  | .badSwitch name value reason =>
    s!"invalid boolean value {Text.quote value} for -{name}: {reason}"
  | .badValue name value reason => s!"invalid value {Text.quote value} for flag -{name}: {reason}"

/-! ## Values -/

/-- The spellings of truth values. -/
def switchValue? (s : String) : Option Bool :=
  if ["1", "t", "T", "true", "TRUE", "True"].contains s then some true
  else if ["0", "f", "F", "false", "FALSE", "False"].contains s then some false
  else none

/-- A switch; `reason` words the error of a value. -/
def readSwitch (name value : String) (reason : String → String) : Except FlagError Bool :=
  match switchValue? value with
  | some b => .ok b
  | none => .error (.badSwitch name value (reason value))

/-- The reason for which a detailed switch refuses a value. -/
def detailedReason (value : String) : String :=
  s!"strconv.ParseBool: parsing {Text.quote value}: invalid syntax"

/-- A number. -/
def readNumber (name value : String) : Except FlagError Int :=
  match signedDecimal value.toList with
  | .ok n => .ok n.toInt
  | .error e =>
    let cause := match e with
      | .malformed => "invalid syntax"
      | .outOfRange => "value out of range"
    .error (.badValue name value s!"strconv.Atoi: parsing {Text.quote value}: {cause}")

/-! ## Flags -/

/-- A flag: a switch, or one that takes a value. -/
inductive Flag where
  | switch (set : String → Options → Except FlagError Options)
  | value (set : String → Options → Except FlagError Options)

/-- A switch that only tells whether a value is possible. -/
def plainSwitch (name : String) (put : Bool → Options → Options) : Flag :=
  .switch fun s o => do return put (← readSwitch name s fun _ => "parse error") o

/-- The flag of a name. -/
def flag? : String → Option Flag
  | "config" => some (.value fun s o => .ok { o with config := s })
  | "arch" => some (.value fun s o => .ok { o with arch := s })
  | "os" => some (.value fun s o => .ok { o with os := s })
  | "o" => some (.value fun s o => .ok { o with outputDir := s })
  | "S" => some (.switch fun s o => do
      return { o with listing := some (← readSwitch "S" s detailedReason) })
  | "j" => some (.value fun s o => do return { o with jobs := some (← readNumber "j" s) })
  | "O0" => some (plainSwitch "O0" fun b o => { o with unoptimized := b })
  | "v" => some (plainSwitch "v" fun b o => { o with verbose := b })
  | "init" => some (plainSwitch "init" fun b o => { o with writesConfig := b })
  | _ => none

/-- The name of a flag and the value behind an equals sign, which is not the first character. -/
def splitFlag (s : List Char) : String × Option String :=
  match s with
  | [] => ("", none)
  | c :: rest =>
    let name := String.ofList (c :: rest.takeWhile (· != '='))
    match rest.dropWhile (· != '=') with
    | [] => (name, none)
    | _ :: value => (name, some (String.ofList value))

/-- Reads flags up to the first argument that is none. The result is none if help is asked for. -/
def parseFrom (o : Options) : List String → Except FlagError (Option Options)
  | [] => .ok (some o)
  | arg :: rest =>
    let body := match arg.toList with
      | '-' :: '-' :: name => some name
      | ['-'] => none
      | '-' :: name => some name
      | _ => none
    match body with
    | none => .ok (some { o with modules := arg :: rest })
    | some body =>
      if arg == "--" then .ok (some { o with modules := rest })
      else if body.head? == none || body.head? == some '-' || body.head? == some '=' then
        .error (.badForm arg)
      else
        let (name, given) := splitFlag body
        match flag? name, given, rest with
        | none, _, _ => if name == "help" || name == "h" then .ok none else .error (.unknown name)
        | some (.switch set), _, rest =>
          match set (given.getD "true") o with
          | .ok o => parseFrom o rest
          | .error e => .error e
        | some (.value set), some value, rest =>
          match set value o with
          | .ok o => parseFrom o rest
          | .error e => .error e
        | some (.value set), none, value :: rest =>
          match set value o with
          | .ok o => parseFrom o rest
          | .error e => .error e
        | some (.value _), none, [] => .error (.missingValue name)

/-- Reads a command line. The result is none if help is asked for. -/
def parse (args : List String) : Except FlagError (Option Options) := parseFrom .empty args

end Backend.CommandLine
