-- Configuration files: reading one, and writing one with all defaults filled in.
import Backend.Config.Basic
import Backend.Yaml.Decode
import Backend.Yaml.Node.Printer
import Backend.Yaml.Node.Reader

namespace Backend.Config

open Yaml (Node)
open Yaml.Decode (RecordField)

/-! ## Reading -/

/-- Fields that stand together under a name. -/
def group (name type : String) (fields : List (RecordField Config)) : RecordField Config :=
  ⟨name, fun n c => do return (← Yaml.Decode.record type fields c n).getD c⟩

/-- The fields of a configuration file. -/
def fields : List (RecordField Config) :=
  [.of "version" .string fun x c => { c with version := x },
   group "target" "config.TargetConfig"
     [.of "arch" .string fun x c => { c with arch := x },
      .of "os" .string fun x c => { c with os := x }],
   group "peephole" "config.PeepholeConfig"
     [.of "enabled" .optionalBool fun x c => { c with peephole := x },
      .of "max_iterations" .int fun x c => { c with sweeps := x }],
   group "schedule" "config.ScheduleConfig"
     [.of "enabled" .optionalBool fun x c => { c with schedule := x },
      .of "allow_fallback" .bool fun x c => { c with allowFallback := x }],
   group "features" "config.FeatureConfig"
     [.of "fma" .bool fun x c => { c with fma := x }],
   group "calls" "config.CallConfig"
     [.of "variadic" (.list "[]string" .string) fun x c => { c with variadic := x },
      .of "plt" .bool fun x c => { c with plt := x }],
   group "output" "config.OutputConfig"
     [.of "dir" .string fun x c => { c with outputDir := x },
      .of "listing" .bool fun x c => { c with listing := x }],
   .of "jobs" .int fun x c => { c with jobs := x },
   group "log" "config.LogConfig"
     [.of "level" .string fun x c => { c with logLevel := x },
      .of "format" .string fun x c => { c with logFormat := x }]]

/-- Why a configuration file is refused. -/
inductive Error where
  | document (cause : Yaml.DecodeError)
  | invalid (cause : Invalid)

/-- The wording of a configuration file error. -/
def Error.message : Error → String
  | .document cause => s!"parse config: {cause.message}"
  | .invalid cause => cause.message

/-- Fills in the defaults and checks the values. -/
def complete (c : Config) : Except Error Config :=
  match c.normalize.validate with
  | .ok _ => .ok c.normalize
  | .error e => .error (.invalid e)

/-- Reads a configuration file. A file without a document gives nothing. -/
def parse (text : String) : Except Error Config :=
  match Yaml.read text with
  | .malformed => .error (.document .malformed)
  | .empty => complete unset
  | .document d =>
    match d.decode (.record "config.Config" fields unset) with
    | .error e => .error (.document e)
    | .ok c => complete (c.getD unset)

/-! ## Writing -/

/-- A field that is written only if `given` holds. -/
def whenGiven (given : Bool) (name : String) (value : Node) : List (String × Node) :=
  if given then [(name, value)] else []

/-- A switch that is written only if it is given. -/
def switchField (name : String) (s : Option Bool) : List (String × Node) :=
  (s.map fun b => (name, Node.ofBool b)).toList

/-- The document of a configuration. -/
def toNode (c : Config) : Node :=
  let variadic := c.variadic.getD []
  .ofFields ([("version", .ofText c.version),
    ("target", .ofFields [("arch", .ofText c.arch), ("os", .ofText c.os)]),
    ("peephole", .ofFields (switchField "enabled" c.peephole ++
      whenGiven (c.sweeps != 0) "max_iterations" (.ofInt c.sweeps))),
    ("schedule", .ofFields (switchField "enabled" c.schedule ++
      whenGiven c.allowFallback "allow_fallback" (.ofBool true))),
    ("features", .ofFields (whenGiven c.fma "fma" (.ofBool true))),
    ("calls", .ofFields (
      whenGiven (!variadic.isEmpty) "variadic" (.ofItems (variadic.map .ofText)) ++
      whenGiven c.plt "plt" (.ofBool true))),
    ("output", .ofFields ([("dir", .ofText c.outputDir)] ++
      whenGiven c.listing "listing" (.ofBool true)))] ++
    whenGiven (c.jobs != 0) "jobs" (.ofInt c.jobs) ++
    [("log", .ofFields [("level", .ofText c.logLevel), ("format", .ofText c.logFormat)])])

/-- Writes a configuration file with the defaults filled in. -/
def render (c : Config) : String := (toNode c.normalize).render

end Backend.Config
