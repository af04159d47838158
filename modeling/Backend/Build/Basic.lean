-- Building modules: the object file and the listing of every module go to the output directory. If
-- a module fails, what this build has put there is taken away again.
import Backend.Build.FileSystem
import Backend.CodeUnit.Listing
import Backend.Pipeline

namespace Backend.Build

/-! ## Jobs -/

/-- What the compilation of one module does to the files, and how it ends: with the path of the
object file or an error. -/
structure Job where
  steps : List FileStep
  outcome : Except CompileError String

/-- The temporary name of a file. -/
def tempName (dir name : String) (number : Nat) : String := Path.join dir s!".{name}-{number}.tmp"

/-- Puts a file into place. -/
def placeSteps (dir name : String) (number : Nat) (content : List UInt8) : List FileStep :=
  let temp := tempName dir name number
  let target := Path.join dir name
  [.create temp, .fill temp content, .rename temp target, .record target]

/-- The name of the listing of a module. -/
def listingName (ident : String) : String := Path.dropSuffix ".o" (objectName ident) ++ ".lst"

/-- The job of a module. -/
def job (p : Pipeline) (dir : String) (number : Nat) (m : Module) : Job :=
  let name := objectName m.ident
  match (p.compileObject m).result.1 with
  | .error e => ⟨[.create (tempName dir name number), .remove (tempName dir name number)], .error e⟩
  | .ok (u, object) =>
    let listing := if p.listing then
        placeSteps dir (listingName m.ident) number (Text.utf8 (CodeUnit.renderLines u.lines))
      else []
    ⟨placeSteps dir name number object ++ listing, .ok (Path.join dir name)⟩

/-! ## Builds -/

/-- Why a build fails. -/
inductive Error where
  | sameObject (first second name : String)
  | outputDir (cause : FileError)
  | lock (dir : String) (cause : FileError)
  | compile (cause : CompileError)

/-- The wording of a build error. -/
def Error.message : Error → String
  | .sameObject first second name => s!"modules {first} and {second} both map to {name}"
  | .outputDir cause => s!"create output directory: {cause.message}"
  | .lock dir cause => s!"{dir}: open lock: {cause.message}"
  | .compile cause => cause.message

/-- The file that locks an output directory. It stays there. -/
def lockName : String := ".lirc.lock"

/-- No two modules have the same object file; `seen` holds the modules before, the last first. -/
def checkNames : List String → List String → Except Error Unit
  | _, [] => .ok ()
  | seen, ident :: rest =>
    match seen.find? fun other => objectName other == objectName ident with
    | some other => .error (.sameObject other ident (objectName ident))
    | none => checkNames (ident :: seen) rest

variable {m : Type → Type} [Monad m] [FileSystem m]

/-- Runs jobs one after the other up to the first that fails. `written` are the files in place. -/
def runJobs : List String → List Job → m (List String × Except CompileError (List String))
  | written, [] => return (written, .ok [])
  | written, j :: rest => do
    j.steps.forM FileSystem.perform
    let written := written ++ j.steps.filterMap FileStep.recorded?
    match j.outcome with
    | .error e => return (written, .error e)
    | .ok path =>
      let (written, result) ← runJobs written rest
      return (written, result.map (path :: ·))

/-- The end of a build whose jobs have given these paths or this error. If one has failed, what was
put into place is taken away again. -/
def conclude {ε : Type} (written : List String) :
    Except ε (List String) → ExceptT ε m (List String)
  | .ok paths => return paths
  | .error e => do
    ExceptT.lift (written.forM fun path => FileSystem.perform (.remove path))
    throw e

/-- Builds modules into a directory. Gives the paths of the object files in the order of the
modules. -/
def run (p : Pipeline) (dir : String) (modules : List Module) : ExceptT Error m (List String) := do
  ExceptT.mk (return checkNames [] (modules.map Module.ident))
  ExceptT.mk do return (← FileSystem.makeDirs dir).mapError .outputDir
  ExceptT.mk do return (← FileSystem.touch (Path.join dir lockName)).mapError (.lock dir)
  let jobs := modules.zipIdx.map fun (m, number) => job p dir number m
  let (written, result) ← ExceptT.lift (runJobs [] jobs)
  conclude written (result.mapError .compile)

end Backend.Build
