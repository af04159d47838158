-- The compiler as a program.
import Backend.CommandLine.Basic

namespace Backend

open Build

/-- The number by which the system says that a path is a directory. -/
def directoryCode : UInt32 := 21

/-- The cause behind an error of the system. -/
def causeOf : IO.Error → FileCause
  | .noFileOrDirectory _ _ _ => .missing
  | .inappropriateType _ code _ => if code == directoryCode then .isDirectory else .notDirectory
  | .alreadyExists _ _ _ => .nameTaken
  | e => .other (toString e)

/-- A directory can be opened, but not read. -/
def readingError (e : FileError) : FileError :=
  if e.cause = .isDirectory then { e with operation := "read" } else e

/-- Runs a file operation and keeps its error. -/
def guarded {α : Type} (operation path : String) (x : IO α) : IO (Except FileError α) := do
  try return .ok (← x)
  catch e => return .error ⟨operation, path, causeOf e⟩

instance : FileSystem IO where
  pathExists path := do return (← guarded "stat" path (IO.FS.realPath path)).isOk
  readFile path := do
    let content ← guarded "open" path do return (← IO.FS.readBinFile path).toList
    return content.mapError readingError
  writeFile path content := guarded "open" path (IO.FS.writeBinFile path ⟨content.toArray⟩)
  touch path := guarded "open" path do
    let _ ← IO.FS.Handle.mk path .append
    return ()
  makeDirs path := guarded "mkdir" path (IO.FS.createDirAll path)
  perform
    | .create temp => IO.FS.writeBinFile temp ⟨#[]⟩
    | .fill temp content => IO.FS.writeBinFile temp ⟨content.toArray⟩
    | .rename temp target => IO.FS.rename temp target
    | .record _ => return ()
    | .remove path => IO.FS.removeFile path

end Backend

/-- The command is not used as it should be, or help is asked for. -/
def Backend.needsUsage (args : List String) : Bool :=
  match CommandLine.parse args with
  | .ok (some o) => !o.writesConfig && o.modules.isEmpty
  | _ => true

/-- Runs the command, prints the paths of what it wrote, and reports an error. -/
def main (args : List String) : IO UInt32 := do
  if Backend.needsUsage args then IO.eprint Backend.CommandLine.usage
  match ← (Backend.CommandLine.run args : ExceptT _ IO _).run with
  | .ok lines =>
    lines.forM fun line => IO.println line
    return 0
  | .error e =>
    IO.eprintln s!"lirc: {e.message}"
    return 1
