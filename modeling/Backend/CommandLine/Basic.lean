-- The compiler as a command: it reads a configuration and module files and builds them, or writes a
-- configuration file to start from.
import Backend.Build.Basic
import Backend.CommandLine.Flags
import Backend.Config.File
import Backend.ModuleFile.Reader

namespace Backend.CommandLine

open Build (FileError FileSystem)

/-- The configuration file that is used if none is named. -/
def defaultConfigFile : String := "lirc.yaml"

/-- The ending of module files. -/
def moduleEnding : String := ".lir.yaml"

/-! ## Errors -/

/-- Why the command fails. -/
inductive Error where
  | flag (cause : FlagError)
  | fileExists (path : String)
  | createFile (path : String) (cause : FileError)
  | readFile (path : String) (cause : FileError)
  | configFile (path : String) (cause : Config.Error)
  | invalid (cause : Config.Invalid)
  | noModules
  | target (cause : UnsupportedTarget)
  | moduleFile (path : String) (cause : ModuleFile.Error)
  | build (cause : Build.Error)

/-- The wording of a command error. -/
def Error.message : Error → String
  | .flag cause => cause.message
  | .fileExists path => s!"{path} already exists"
  | .createFile path cause => s!"create {path}: {cause.message}"
  | .readFile path cause => s!"read {path}: {cause.message}"
  | .configFile path cause => s!"{path}: {cause.message}"
  | .invalid cause => cause.message
  | .noModules => "no module files given"
  | .target cause => cause.message
  | .moduleFile path cause => s!"{path}: " ++ cause.message?.getD ""
  | .build cause => cause.message

/-! ## Options and configuration -/

/-- The configuration with what the command line asks for. -/
def Options.apply (o : Options) (c : Config) : Config :=
  { c with
    arch := if o.arch != "" then o.arch else c.arch
    os := if o.os != "" then o.os else c.os
    outputDir := if o.outputDir != "" then o.outputDir else c.outputDir
    listing := o.listing.getD c.listing
    jobs := o.jobs.getD c.jobs
    peephole := if o.unoptimized then some false else c.peephole
    schedule := if o.unoptimized then some false else c.schedule
    logLevel := if o.verbose then "debug" else c.logLevel }

/-- How the command is used. -/
def usage : String :=
  "Usage: lirc [flags] module" ++ moduleEnding ++ "...\n\n" ++
  "Compile LIR modules into ELF relocatable objects.\n\nFlags:\n" ++
  "  -O0            Disable peephole optimization and scheduling\n" ++
  "  -S             Write an assembly listing next to each object\n" ++
  "  -arch string   Target architecture\n" ++
  "  -config string Build configuration file (default: " ++ defaultConfigFile ++
  " when present)\n" ++
  "  -init          Write a default " ++ defaultConfigFile ++ " and exit\n" ++
  "  -j value       Modules compiled in parallel\n" ++
  "  -o string      Output directory for object files\n" ++
  "  -os string     Target operating system\n" ++
  "  -v             Enable debug logging\n"

variable {m : Type → Type} [Monad m] [FileSystem m]

/-- Passes the value of a step on, or its error with a context. -/
def orFail {ε α : Type} (context : ε → Error) (r : Except ε α) : ExceptT Error m α :=
  ExceptT.mk (return r.mapError context)

/-- The content of a file as text; none if it is not text. -/
def readText (path : String) : ExceptT Error m (Option String) := do
  let bytes ← orFail (.readFile path) (← ExceptT.lift (FileSystem.readFile path))
  return if Text.isUtf8 bytes then some (Text.ofUtf8 bytes) else none

/-- Reads a configuration file. -/
def loadConfigFile (path : String) : ExceptT Error m Config := do
  match ← readText path with
  | none => throw (.configFile path (.document .malformed))
  | some text => orFail (.configFile path) (Config.parse text)

/-- Reads the named configuration file, or the default one if it exists. -/
def loadConfig (path : String) : ExceptT Error m Config := do
  if path != "" then loadConfigFile path
  else if ← ExceptT.lift (FileSystem.pathExists defaultConfigFile) then
    loadConfigFile defaultConfigFile
  else return .default

/-- Reads a module file. A module without a name is named after its file. -/
def loadModule (regs : RegisterTable) (path : String) : ExceptT Error m Module := do
  match ← readText path with
  | none => throw (.moduleFile path (.document .malformed))
  | some text =>
    let mod ← orFail (.moduleFile path) (ModuleFile.parse regs text)
    return if mod.ident == "" then
        { mod with ident := Path.dropSuffix moduleEnding (Path.base path) }
      else mod

/-! ## The command -/

/-- Writes a configuration file with all defaults, unless the file exists. -/
def writeConfig (path : String) : ExceptT Error m (List String) := do
  let path := if path == "" then defaultConfigFile else path
  if ← ExceptT.lift (FileSystem.pathExists path) then throw (.fileExists path)
  orFail (.createFile path)
    (← ExceptT.lift (FileSystem.writeFile path (Text.utf8 Config.default.render)))
  return [path]

/-- Builds the modules that the options name. -/
def buildModules (o : Options) : ExceptT Error m (List String) := do
  let config := o.apply (← loadConfig o.config)
  orFail .invalid config.validate
  if o.modules.isEmpty then throw .noModules
  let pipeline ← orFail .target config.pipeline
  let modules ← o.modules.mapM (loadModule registerOfName?)
  ExceptT.mk do return (← (Build.run pipeline config.outputDir modules).run).mapError .build

/-- Runs the command. Gives the lines that it prints. -/
def run (args : List String) : ExceptT Error m (List String) := do
  match ← orFail .flag (parse args) with
  | none => return []
  | some o => if o.writesConfig then writeConfig o.config else buildModules o

end Backend.CommandLine
