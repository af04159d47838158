-- A module through the back end: lowering, peephole rules, scheduling, and emission of every
-- closure into one unit, and the object file of the unit. The passes leave a trace.
import Backend.ElfObject
import Backend.Emission
import Backend.Lowering.Closure
import Backend.Peephole.Basic
import Backend.Schedule.Block

namespace Backend

/-! ## Errors and traces -/

/-- Why one closure does not compile. -/
inductive ClosureError where
  | lower (closure : String) (cause : InternalError)
  | schedule (closure : String) (cause : Schedule.Error)
  | emit (closure : String) (cause : EmitError)

/-- The wording of a closure error. -/
def ClosureError.message : ClosureError → String
  | .lower closure cause => s!"lower {closure}: {cause.message}"
  | .schedule closure cause => s!"schedule {closure}: {cause.message}"
  | .emit closure cause => s!"emit {closure}: {cause.message}"

/-- What went wrong with a module. -/
inductive ModuleDefect where
  | global (name : String) (cause : CodeUnit.Error)
  | closure (cause : ClosureError)
  | finish (cause : AsmError)
  | object (cause : InternalError)

/-- The wording of a module defect. -/
def ModuleDefect.message : ModuleDefect → String
  | .global name cause => s!"global {name}: " ++ cause.message?.getD ""
  | .closure cause => cause.message
  | .finish cause => cause.message
  | .object cause => cause.message

/-- A module that does not compile. -/
structure CompileError where
  ident : String
  defect : ModuleDefect

/-- The wording of a compile error. -/
def CompileError.message (e : CompileError) : String := s!"module {e.ident}: {e.defect.message}"

/-- A pass over one closure that has ended. -/
inductive PassRecord where
  | lower
  | peephole (summary : Peephole.Summary)
  | schedule
  | emit

/-- One record of a trace. -/
inductive TraceRecord where
  | done (closure : String) (pass : PassRecord) (ops : Nat)
  | keptOrder (closure : String) (cause : Schedule.Error)

/-- The text of a trace record. -/
def TraceRecord.text : TraceRecord → String
  | .done closure pass ops =>
    let (name, rest) := match pass with
      | .lower => ("lower", "")
      | .peephole s => ("peephole", s!" sweeps={s.sweeps} rewrites={s.applied} pruned={s.pruned}")
      | .schedule => ("schedule", "")
      | .emit => ("emit", "")
    s!"pass done closure={closure} pass={name} ops={ops}{rest}"
  | .keptOrder closure cause =>
    s!"keeping original instruction order closure={closure} error={cause.message}"

/-- A computation that leaves trace records, also when it fails. -/
abbrev Traced (ε : Type) := ExceptT ε (StateM (List TraceRecord))

namespace Traced

/-- Appends a record. -/
def record {ε : Type} (r : TraceRecord) : Traced ε Unit :=
  modifyGet fun trace => ((), trace ++ [r])

/-- The result of an untraced step, with its error put in context. -/
def lift {ε ε' α : Type} (context : ε → ε') : Except ε α → Traced ε' α
  | .ok a => pure a
  | .error e => throw (context e)

/-- Runs from an empty trace. -/
def result {ε α : Type} (x : Traced ε α) : Except ε α × List TraceRecord := x.run.run []

end Traced

/-! ## The pipeline -/

/-- A target and the passes that run. `sweeps` bounds the peephole pass. -/
structure Pipeline where
  target : Target
  peephole : Bool
  sweeps : Int
  schedule : Bool
  keepsCycles : Bool
  listing : Bool

namespace Pipeline

/-- The peephole pass, if it is on. -/
def simplify (p : Pipeline) (c : Closure) : Traced ClosureError Closure :=
  if p.peephole then do
    let (c, summary) := Peephole.run p.target.features p.sweeps c
    Traced.record (.done c.name (.peephole summary) c.length)
    pure c
  else pure c

/-- The scheduling pass, if it is on. A cycle is an error unless such blocks may keep their
order. -/
def reorder (p : Pipeline) (c : Closure) : Traced ClosureError Closure :=
  if p.schedule then do
    let (c, error) := Schedule.run Target.roles c
    match error with
    | none => pure ()
    | some e =>
      if p.keepsCycles then Traced.record (.keptOrder c.name e) else throw (.schedule c.name e)
    Traced.record (.done c.name .schedule c.length)
    pure c
  else pure c

/-- One closure through all passes and into the unit of the assembler. -/
def compileClosure (p : Pipeline) (a : Assembler) (c : Closure) :
    Traced ClosureError Assembler := do
  let c ← Traced.lift (.lower c.name) (p.target.lower c)
  Traced.record (.done c.name .lower c.length)
  let c ← p.simplify c
  let c ← p.reorder c
  let a ← Traced.lift (.emit c.name) (a.emitClosure c)
  Traced.record (.done c.name .emit c.length)
  pure a

/-- All closures in order. -/
def compileClosures (p : Pipeline) : Assembler → List Closure → Traced ClosureError Assembler
  | a, [] => pure a
  | a, c :: rest => do p.compileClosures (← p.compileClosure a c) rest

/-- The image of a global in the data section: its value followed by zeros up to its size. -/
def globalImage (g : Global) : List UInt8 := padTo g.size.toNat g.value

/-- Places the globals in the data section in order of declaration. -/
def placeGlobals : CodeUnit → List Global → Except ModuleDefect CodeUnit
  | u, [] => .ok u
  | u, g :: rest =>
    match u.addData g.name (globalImage g) .glob with
    | .ok u => placeGlobals u rest
    | .error e => .error (.global g.name e)

/-- The globals, then the closures, and last the branches left open. -/
def compileParts (p : Pipeline) (m : Module) : Traced ModuleDefect CodeUnit := do
  let u ← Traced.lift id
    (placeGlobals { CodeUnit.empty m.ident with listing := p.listing } m.globals)
  let a ← (p.compileClosures (Assembler.start u p.target.options.plt) m.closures).adapt .closure
  match a.finish with
  | (a, none) => pure a.unit
  | (_, some e) => throw (.finish e)

/-- The unit of a module. -/
def compile (p : Pipeline) (m : Module) : Traced CompileError CodeUnit :=
  (p.compileParts m).adapt (CompileError.mk m.ident)

/-- The unit of a module and its object file. -/
def compileObject (p : Pipeline) (m : Module) : Traced CompileError (CodeUnit × List UInt8) := do
  let u ← p.compile m
  let object ← Traced.lift (fun e => ⟨m.ident, .object e⟩) (ElfObject.encode u)
  pure (u, object)

end Pipeline

/-- The name of the object file of a module: path separators become dots. -/
def objectName (ident : String) : String :=
  String.ofList (ident.toList.map fun c => if c == '/' || c == '\\' then '.' else c) ++ ".o"

end Backend
