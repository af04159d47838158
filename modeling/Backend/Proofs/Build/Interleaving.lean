-- Builds whose jobs run at once. A run is a sequence of steps, each of one job: it starts, it does
-- something to the files, it ends. The first job that fails decides the error of the build and
-- keeps jobs that have not started from starting. What has been noted as written is then taken
-- away.
import Backend.Proofs.Build.Attempt
import Mathlib.Logic.Relation

namespace Backend.Build

/-! ## The end of a build -/

theorem run_forM_perform (steps : List FileStep) (t : FileTree) :
    (steps.forM FileSystem.perform : StateM FileTree Unit).run t =
      ((), steps.foldl FileTree.perform t) := by
  induction steps generalizing t with
  | nil => rfl
  | cons step rest ih => exact ih (t.perform step)

/-- A build gives what its jobs have come to, and takes its files away again after an error. -/
theorem run_conclude {ε : Type} (written : List String) (result : Except ε (List String))
    (t : FileTree) :
    (conclude written result : ExceptT ε (StateM FileTree) _).run.run t =
      (result, if result.isOk then t else (written.map .remove).foldl FileTree.perform t) := by
  cases result with
  | ok paths => rfl
  | error e =>
    have hremove : (written.forM fun path => FileSystem.perform (.remove path) :
        StateM FileTree Unit).run t = ((), (written.map .remove).foldl FileTree.perform t) := by
      rw [← run_forM_perform]
      simp [List.forM_map]
    simp only [conclude, ExceptT.run_bind, ExceptT.run_lift, StateT.run_bind, StateT.run_map,
      hremove]
    rfl

/-! ## Runs -/

/-- How far a job is. A job that runs has some steps before it, and then ends. -/
inductive Progress where
  | waiting
  | running (rest : List FileStep) (outcome : Except Failure String)
  | ended (outcome : Except Failure String)

/-- The state of a build of `n` modules: the files, what was noted as written, the first error, and
of every job how far it is and what it has done. -/
structure State (n : Nat) where
  tree : FileTree
  written : List String
  error : Option Failure
  canceled : Bool
  progress : Fin n → Progress
  did : Fin n → List FileStep

namespace State

variable {n : Nat}

/-- Before the jobs start. -/
def start (n : Nat) (t : FileTree) : State n where
  tree := t
  written := []
  error := none
  canceled := false
  progress := fun _ => .waiting
  did := fun _ => []

/-- A job does a step. -/
def act (s : State n) (i : Fin n) (step : FileStep) (rest : List FileStep)
    (outcome : Except Failure String) : State n :=
  { s with
    tree := s.tree.perform step
    written := s.written ++ step.recorded?.toList
    progress := Function.update s.progress i (.running rest outcome)
    did := Function.update s.did i (s.did i ++ [step]) }

/-- A job ends. The first error stays, and it cancels the build. -/
def finish (s : State n) (i : Fin n) : Except Failure String → State n
  | .ok path => { s with progress := Function.update s.progress i (.ended (.ok path)) }
  | .error e =>
    { s with
      error := some (s.error.getD e)
      canceled := true
      progress := Function.update s.progress i (.ended (.error e)) }

/-- All jobs have ended. -/
def Ended (s : State n) : Prop := ∀ i, ∃ outcome, s.progress i = .ended outcome

/-- The path with which a job has ended. -/
def path (s : State n) (i : Fin n) : String :=
  match s.progress i with
  | .ended (.ok path) => path
  | _ => ""

/-- What the jobs together have come to: the first error, or the paths in the order of the
modules. -/
def outcome (s : State n) : Except Failure (List String) :=
  match s.error with
  | some e => .error e
  | none => .ok (List.ofFn s.path)

/-- What the build gives and the files that it leaves, once its jobs have ended. -/
def concluded (s : State n) : Except Failure (List String) × FileTree :=
  (conclude s.written s.outcome : ExceptT Failure (StateM FileTree) _).run.run s.tree

/-- What the build gives. -/
def result (s : State n) : Except Failure (List String) := s.concluded.1

/-- The files that the build leaves. -/
def settled (s : State n) : FileTree := s.concluded.2

theorem result_eq (s : State n) : s.result = s.outcome :=
  congrArg Prod.fst (run_conclude s.written s.outcome s.tree)

theorem settled_eq (s : State n) :
    s.settled = if s.outcome.isOk then s.tree
      else (s.written.map .remove).foldl FileTree.perform s.tree :=
  congrArg Prod.snd (run_conclude s.written s.outcome s.tree)

end State

/-- One step of a build. A job that starts after the build was canceled ends at once. Anybody may
cancel the build. -/
inductive Step (p : Pipeline) (dir : String) (modules : List Module) :
    State modules.length → State modules.length → Prop
  | start {s : State modules.length} {i : Fin modules.length} {steps : List FileStep}
      {outcome : Except Failure String} (waiting : s.progress i = .waiting)
      (going : s.canceled = false) (attempt : Attempt p dir (modules.get i) steps outcome) :
      Step p dir modules s
        { s with progress := Function.update s.progress i (.running steps outcome) }
  | skip {s : State modules.length} {i : Fin modules.length} (waiting : s.progress i = .waiting)
      (canceled : s.canceled = true) : Step p dir modules s (s.finish i (.error .canceled))
  | act {s : State modules.length} {i : Fin modules.length} {step : FileStep}
      {rest : List FileStep} {outcome : Except Failure String}
      (running : s.progress i = .running (step :: rest) outcome)
      (fresh : step.Admissible s.tree.file?) : Step p dir modules s (s.act i step rest outcome)
  | finish {s : State modules.length} {i : Fin modules.length} {outcome : Except Failure String}
      (running : s.progress i = .running [] outcome) : Step p dir modules s (s.finish i outcome)
  | cancel {s : State modules.length} : Step p dir modules s { s with canceled := true }

/-- The states that a build can be in. -/
abbrev Reached (p : Pipeline) (dir : String) (modules : List Module) (t : FileTree)
    (s : State modules.length) : Prop :=
  Relation.ReflTransGen (Step p dir modules) (State.start modules.length t) s

/-! ## The invariant -/

variable {p : Pipeline} {dir : String} {modules : List Module} {t : FileTree}
  {s s' : State modules.length}

/-- What a job has done fits how far it is. -/
def Fits (p : Pipeline) (dir : String) (m : Module) (did : List FileStep) : Progress → Prop
  | .waiting => did = []
  | .running rest outcome => Attempt p dir m (did ++ rest) outcome
  | .ended outcome =>
    Attempt p dir m did outcome ∨ did = [] ∧ outcome = .error .canceled

/-- In the territory of a module the files are as if its job alone had run, and elsewhere they are
as before the build. -/
structure Invariant (p : Pipeline) (dir : String) (modules : List Module) (t : FileTree)
    (s : State modules.length) : Prop where
  fits : ∀ i, Fits p dir (modules.get i) (s.did i) (s.progress i)
  fresh : ∀ i, Fresh t.file? (s.did i)
  inside : ∀ i, Set.EqOn s.tree.file? (effects t.file? (s.did i))
    (territory dir (modules.get i).ident)
  outside : ∀ x, (∀ i : Fin modules.length, x ∉ territory dir (modules.get i).ident) →
    s.tree.file? x = t.file? x
  written : ∀ path, path ∈ s.written ↔ ∃ i, .record path ∈ s.did i
  failed : ∀ i e, s.progress i = .ended (.error e) → s.error.isSome

theorem Invariant.start : Invariant p dir modules t (State.start modules.length t) where
  fits _ := rfl
  fresh _ := trivial
  inside _ _ _ := rfl
  outside _ _ := rfl
  written := by simp [State.start]
  failed _ _ h := by cases h

theorem admissible_congr {step : FileStep} {paths : Set String} {v w : View}
    (hstep : ∀ path ∈ step.paths, Path.clean path ∈ paths) (h : Set.EqOn v w paths) :
    step.Admissible v ↔ step.Admissible w := by
  cases step with
  | create temp => simp [FileStep.Admissible, h (hstep temp (by simp [FileStep.paths]))]
  | _ => rfl

/-- The invariant says nothing about how a job got on but that this fits what it did. -/
theorem Invariant.advance (inv : Invariant p dir modules t s) {i : Fin modules.length}
    {progress : Progress} {error : Option Failure} {canceled : Bool}
    (hfits : Fits p dir (modules.get i) (s.did i) progress)
    (hkept : s.error.isSome → error.isSome)
    (hfailed : ∀ e, progress = .ended (.error e) → error.isSome) :
    Invariant p dir modules t
      { s with
        progress := Function.update s.progress i progress
        error := error
        canceled := canceled } where
  fits j := by
    by_cases hj : j = i
    · subst hj
      simpa using hfits
    · simpa [Function.update_of_ne hj] using inv.fits j
  fresh := inv.fresh
  inside := inv.inside
  outside := inv.outside
  written := inv.written
  failed j e h := by
    by_cases hj : j = i
    · subst hj
      exact hfailed e (by simpa using h)
    · exact hkept (inv.failed j e (by simpa [Function.update_of_ne hj] using h))

theorem Invariant.finish (inv : Invariant p dir modules t s) {i : Fin modules.length}
    {outcome : Except Failure String}
    (hfits : Fits p dir (modules.get i) (s.did i) (.ended outcome)) :
    Invariant p dir modules t (s.finish i outcome) := by
  cases outcome with
  | ok path => exact inv.advance hfits id (by simp)
  | error e => exact inv.advance hfits (by simp) (by simp)

theorem objectName_ne (names : (modules.map fun m => objectName m.ident).Nodup)
    {i j : Fin modules.length} (h : i ≠ j) :
    objectName (modules.get i).ident ≠ objectName (modules.get j).ident := by
  have hpairs := List.pairwise_iff_getElem.mp (List.pairwise_map.mp names)
  rcases Nat.lt_or_gt_of_ne (Fin.val_ne_of_ne h) with hlt | hlt
  · exact hpairs i j i.isLt j.isLt hlt
  · exact (hpairs j i j.isLt i.isLt hlt).symm

theorem exists_mem_update {n : Nat} {did : Fin n → List FileStep} {i : Fin n}
    {step other : FileStep} :
    (∃ j, other ∈ Function.update did i (did i ++ [step]) j) ↔
      (∃ j, other ∈ did j) ∨ other = step := by
  constructor
  · rintro ⟨j, hj⟩
    by_cases hji : j = i
    · subst hji
      rw [Function.update_self, List.mem_append, List.mem_singleton] at hj
      exact hj.imp (fun h => ⟨j, h⟩) id
    · rw [Function.update_of_ne hji] at hj
      exact .inl ⟨j, hj⟩
  · rintro (⟨j, hj⟩ | rfl)
    · refine ⟨j, ?_⟩
      by_cases hji : j = i
      · subst hji
        simp [hj]
      · rwa [Function.update_of_ne hji]
    · exact ⟨i, by simp⟩

/-- A step of a job changes nothing in the territories of the others. -/
theorem Invariant.act (inv : Invariant p dir modules t s)
    (names : (modules.map fun m => objectName m.ident).Nodup) {i : Fin modules.length}
    {step : FileStep} {rest : List FileStep} {outcome : Except Failure String}
    (running : s.progress i = .running (step :: rest) outcome)
    (admissible : step.Admissible s.tree.file?) :
    Invariant p dir modules t (s.act i step rest outcome) := by
  have hattempt : Attempt p dir (modules.get i) (s.did i ++ step :: rest) outcome := by
    have := inv.fits i
    rwa [running] at this
  have hpaths : ∀ path ∈ step.paths, Path.clean path ∈ territory dir (modules.get i).ident :=
    hattempt.paths step (by simp)
  have hother (j : Fin modules.length) (hj : j ≠ i) (x : String)
      (hx : x ∈ territory dir (modules.get j).ident) :
      step.effect s.tree.file? x = s.tree.file? x := by
    apply FileStep.effect_of_ne
    rintro path hpath rfl
    exact territory_disjoint (objectName_ne names hj) _ hx (hpaths path hpath)
  refine ⟨?fits, ?fresh, ?inside, ?outside, ?written, ?failed⟩
  case fits =>
    intro j
    by_cases hj : j = i
    · subst hj
      simpa [State.act, Fits] using hattempt
    · simpa [State.act, Function.update_of_ne hj] using inv.fits j
  case fresh =>
    intro j
    by_cases hj : j = i
    · subst hj
      have hnew : step.Admissible (effects t.file? (s.did j)) :=
        (admissible_congr hpaths (inv.inside j)).mp admissible
      simpa [State.act, fresh_append, Fresh] using ⟨inv.fresh j, hnew⟩
    · simpa [State.act, Function.update_of_ne hj] using inv.fresh j
  case inside =>
    intro j x hx
    simp only [State.act, FileTree.file?_perform]
    by_cases hj : j = i
    · subst hj
      rw [Function.update_self, effects_append, effects_cons, effects_nil]
      exact FileStep.effect_congr hpaths (inv.inside j) hx
    · rw [Function.update_of_ne hj, hother j hj x hx, inv.inside j hx]
  case outside =>
    intro x hx
    simp only [State.act, FileTree.file?_perform]
    rw [← inv.outside x hx]
    apply FileStep.effect_of_ne
    rintro path hpath rfl
    exact hx i (hpaths path hpath)
  case written =>
    intro path
    have hrecorded : path ∈ step.recorded?.toList ↔ .record path = step := by
      cases step <;> simp [FileStep.recorded?, eq_comm]
    simp only [State.act, List.mem_append, inv.written path, hrecorded, exists_mem_update]
  case failed =>
    intro j e h
    by_cases hj : j = i
    · subst hj
      simp [State.act] at h
    · exact inv.failed j e (by simpa [State.act, Function.update_of_ne hj] using h)

theorem Invariant.step (inv : Invariant p dir modules t s)
    (names : (modules.map fun m => objectName m.ident).Nodup) (h : Step p dir modules s s') :
    Invariant p dir modules t s' := by
  cases h with
  | @start i steps outcome waiting _ attempt =>
    have hnil : s.did i = [] := by
      have := inv.fits i
      rwa [waiting] at this
    exact inv.advance (by simpa [Fits, hnil] using attempt) id (by simp)
  | @skip i waiting _ =>
    have hnil : s.did i = [] := by
      have := inv.fits i
      rwa [waiting] at this
    exact inv.finish (.inr ⟨hnil, rfl⟩)
  | act running admissible => exact inv.act names running admissible
  | @finish i outcome running =>
    have hattempt := inv.fits i
    rw [running] at hattempt
    exact inv.finish (.inl (by simpa [Fits] using hattempt))
  | cancel => exact ⟨inv.fits, inv.fresh, inv.inside, inv.outside, inv.written, inv.failed⟩

/-- The invariant holds in every state that a build can be in. -/
theorem Invariant.of_reached (names : (modules.map fun m => objectName m.ident).Nodup)
    (h : Reached p dir modules t s) : Invariant p dir modules t s := by
  induction h with
  | refl => exact .start
  | tail _ step ih => exact ih.step names step

/-! ## Builds that have ended -/

/-- A job that has ended did all of one of its ways, or nothing. -/
theorem Invariant.attempt_of_ended (inv : Invariant p dir modules t s) (ended : s.Ended)
    (i : Fin modules.length) :
    (∃ outcome, s.progress i = .ended outcome ∧ Attempt p dir (modules.get i) (s.did i) outcome) ∨
      s.did i = [] ∧ s.progress i = .ended (.error .canceled) := by
  obtain ⟨outcome, houtcome⟩ := ended i
  have hfits := inv.fits i
  rw [houtcome] at hfits
  rcases hfits with hattempt | ⟨hnil, rfl⟩
  · exact .inl ⟨outcome, houtcome, hattempt⟩
  · exact .inr ⟨hnil, houtcome⟩

/-- In a build without an error, the job of a module has left its outputs. -/
theorem Invariant.job_of_no_error (inv : Invariant p dir modules t s) (ended : s.Ended)
    (h : s.error = none) (i : Fin modules.length) :
    s.path i = Path.join dir (objectName (modules.get i).ident) ∧
      ∃ built, (p.compileObject (modules.get i)).result.1 = .ok built ∧
        Set.EqOn s.tree.file? (withOutputs p dir (modules.get i) built t.file?)
          (territory dir (modules.get i).ident) := by
  have hsound (e : Failure) : s.progress i ≠ .ended (.error e) := by
    intro he
    have := inv.failed i e he
    simp [h] at this
  rcases inv.attempt_of_ended ended i with ⟨outcome, houtcome, hattempt⟩ | ⟨-, hskip⟩
  · cases outcome with
    | error e => exact absurd houtcome (hsound e)
    | ok path =>
      obtain ⟨hpath, built, hbuilt, heffects⟩ := hattempt.effects_of_ok (inv.fresh i)
      refine ⟨by rw [State.path, houtcome, hpath], built, hbuilt, ?_⟩
      rw [← heffects]
      exact inv.inside i
  · exact absurd hskip (hsound _)

theorem Invariant.paths_of_no_error (inv : Invariant p dir modules t s) (ended : s.Ended)
    (h : s.error = none) :
    List.ofFn s.path = modules.map fun m => Path.join dir (objectName m.ident) := by
  apply List.ext_getElem
  · simp
  · intro i _ hi
    simpa using (inv.job_of_no_error ended h ⟨i, by simpa using hi⟩).1

end Backend.Build
