-- The sequential build goes through states that a build with interleaved jobs can be in: it starts
-- a job, does its steps, and ends it, and after a failure it skips the jobs that are left.
import Backend.Proofs.Build.Interleaving

namespace Backend.Build

variable {p : Pipeline} {dir : String} {modules : List Module} {t : FileTree}
  {s : State modules.length}

/-- Jobs that a build can do from these files, for some modules. -/
def Feasible (p : Pipeline) (dir : String) (t : FileTree) (modules : List Module)
    (jobs : List Job) : Prop :=
  List.Forall₂ (fun m j => Attempt p dir m j.steps (j.outcome.mapError .compile) ∧
    Fresh t.file? j.steps) modules jobs

/-- A job does all its steps. -/
def State.actAll {n : Nat} (s : State n) (i : Fin n) (steps : List FileStep)
    (outcome : Except Failure String) : State n :=
  { s with
    tree := steps.foldl FileTree.perform s.tree
    written := s.written ++ steps.filterMap FileStep.recorded?
    progress := Function.update s.progress i (.running [] outcome)
    did := Function.update s.did i (s.did i ++ steps) }

theorem State.actAll_act {n : Nat} (s : State n) (i : Fin n) (step : FileStep)
    (rest later : List FileStep) (outcome : Except Failure String) :
    (s.act i step later outcome).actAll i rest outcome = s.actAll i (step :: rest) outcome := by
  have hwritten : step.recorded?.toList ++ rest.filterMap FileStep.recorded? =
      (step :: rest).filterMap FileStep.recorded? := by
    cases step <;> simp [FileStep.recorded?, List.filterMap_cons]
  simp [State.act, State.actAll, Function.update_idem, hwritten]

theorem reaches_actAll {i : Fin modules.length} {steps : List FileStep}
    {outcome : Except Failure String} (running : s.progress i = .running steps outcome)
    (fresh : Fresh s.tree.file? steps) :
    Relation.ReflTransGen (Step p dir modules) s (s.actAll i steps outcome) := by
  induction steps generalizing s with
  | nil =>
    have hself : s.actAll i [] outcome = s := by simp [State.actAll, ← running]
    rw [hself]
  | cons step rest ih =>
    obtain ⟨hadmissible, hrest⟩ := fresh
    rw [← State.actAll_act s i step rest rest outcome]
    refine .head (.act running hadmissible) (ih (by simp [State.act]) ?_)
    simpa [State.act, FileTree.file?_perform] using hrest

/-- A job that waits can run from its start to its end. -/
theorem reaches_end {i : Fin modules.length} {steps : List FileStep}
    {outcome : Except Failure String} (waiting : s.progress i = .waiting)
    (going : s.canceled = false) (attempt : Attempt p dir (modules.get i) steps outcome)
    (fresh : Fresh s.tree.file? steps) :
    Relation.ReflTransGen (Step p dir modules) s ((s.actAll i steps outcome).finish i outcome) := by
  have hstarted : { s with progress := Function.update s.progress i (.running steps outcome)
      }.actAll i steps outcome = s.actAll i steps outcome := by
    simp [State.actAll, Function.update_idem]
  have hreach : Relation.ReflTransGen (Step p dir modules)
      { s with progress := Function.update s.progress i (.running steps outcome) }
      ({ s with progress := Function.update s.progress i (.running steps outcome) }.actAll i steps
        outcome) := reaches_actAll (by simp) fresh
  rw [hstarted] at hreach
  exact .head (.start waiting going attempt) (hreach.tail (.finish (by simp [State.actAll])))

/-- The jobs before a place have ended, the others wait. -/
def EndedBelow {n : Nat} (k : Nat) (s : State n) : Prop :=
  ∀ i, (i.val < k → ∃ outcome, s.progress i = .ended outcome) ∧
    (k ≤ i.val → s.progress i = .waiting)

theorem EndedBelow.finish {n : Nat} {k : Nat} {s : State n} (h : EndedBelow k s) {i : Fin n}
    (hi : i.val = k) (s' : State n) {progress : Progress}
    (hprogress : s'.progress = Function.update s.progress i progress)
    (outcome : Except Failure String) : EndedBelow (k + 1) (s'.finish i outcome) := by
  intro j
  have hfinish : (s'.finish i outcome).progress =
      Function.update s.progress i (.ended outcome) := by
    cases outcome <;> simp [State.finish, hprogress, Function.update_idem]
  rw [hfinish]
  by_cases hj : j = i
  · subst hj
    refine ⟨fun _ => ⟨outcome, by simp⟩, fun hle => ?_⟩
    omega
  · have hne : j.val ≠ k := fun e => hj (Fin.ext (by omega))
    rw [Function.update_of_ne hj]
    exact ⟨fun hlt => (h j).1 (by omega), fun hle => (h j).2 (by omega)⟩

/-- After a cancellation, the jobs that wait can only be skipped. -/
theorem reaches_skips {k : Nat} (hk : k ≤ modules.length) (h : EndedBelow k s)
    (canceled : s.canceled = true) (failed : s.error.isSome) :
    ∃ s', Relation.ReflTransGen (Step p dir modules) s s' ∧ s'.Ended ∧
      s'.tree = s.tree ∧ s'.written = s.written ∧ s'.error = s.error := by
  obtain ⟨e, herror⟩ := Option.isSome_iff_exists.mp failed
  induction hn : modules.length - k generalizing k s with
  | zero => exact ⟨s, .refl, fun i => (h i).1 (by omega), rfl, rfl, rfl⟩
  | succ n ih =>
    let i : Fin modules.length := ⟨k, by omega⟩
    obtain ⟨s', hreach, hended, htree, hwritten, herror'⟩ :=
      ih (s := s.finish i (.error .canceled)) (by omega)
        (h.finish (i := i) rfl s (Function.update_eq_self i _).symm _) rfl
        (by simp [State.finish]) (by simp [State.finish, herror]) (by omega)
    refine ⟨s', .head (.skip ((h i).2 le_rfl) canceled) hreach, hended, htree, hwritten, ?_⟩
    rw [herror', State.finish, herror]
    rfl

/-! ## Jobs one after the other -/

theorem run_runJobs_error {j : Job} {e : CompileError} (h : j.outcome = .error e)
    (written : List String) (rest : List Job) (t : FileTree) :
    (runJobs written (j :: rest) : StateM FileTree _).run t =
      ((written ++ j.steps.filterMap FileStep.recorded?, .error e),
        j.steps.foldl FileTree.perform t) := by
  have hsteps := run_forM_perform j.steps t
  simp only [runJobs, h, StateT.run_bind, hsteps]
  rfl

theorem run_runJobs_ok {j : Job} {path : String} (h : j.outcome = .ok path)
    (written : List String) (rest : List Job) (t : FileTree) :
    (runJobs written (j :: rest) : StateM FileTree _).run t =
      let out := (runJobs (written ++ j.steps.filterMap FileStep.recorded?) rest :
        StateM FileTree _).run (j.steps.foldl FileTree.perform t)
      ((out.1.1, out.1.2.map (path :: ·)), out.2) := by
  have hsteps := run_forM_perform j.steps t
  simp only [runJobs, h, StateT.run_bind, hsteps]
  rfl

theorem fresh_congr {steps : List FileStep} {paths : Set String} {v w : View}
    (hsteps : ∀ step ∈ steps, ∀ path ∈ step.paths, Path.clean path ∈ paths)
    (h : Set.EqOn v w paths) : Fresh v steps ↔ Fresh w steps := by
  induction steps generalizing v w with
  | nil => rfl
  | cons step rest ih =>
    have hstep := hsteps step List.mem_cons_self
    rw [Fresh, Fresh, admissible_congr hstep h,
      ih (fun s hs => hsteps s (List.mem_cons_of_mem step hs)) (FileStep.effect_congr hstep h)]

/-- Where a job waits, new temporary names are still new. -/
theorem Invariant.fresh_of_waiting (inv : Invariant p dir modules t s) {i : Fin modules.length}
    (waiting : s.progress i = .waiting) {steps : List FileStep}
    {outcome : Except Failure String} (attempt : Attempt p dir (modules.get i) steps outcome)
    (fresh : Fresh t.file? steps) : Fresh s.tree.file? steps := by
  have hnil : s.did i = [] := by
    have := inv.fits i
    rwa [waiting] at this
  have hinside := inv.inside i
  rw [hnil] at hinside
  exact (fresh_congr attempt.paths hinside).mpr fresh

theorem reached_runJobs (names : (modules.map fun m => objectName m.ident).Nodup) {k : Nat}
    {jobs : List Job} (hk : modules.length = k + jobs.length)
    (feasible : Feasible p dir t (modules.drop k) jobs) (reached : Reached p dir modules t s)
    (below : EndedBelow k s) (going : s.canceled = false) (sound : s.error = none) :
    ∃ s' result, Reached p dir modules t s' ∧ s'.Ended ∧
      (runJobs s.written jobs : StateM FileTree _).run s.tree = ((s'.written, result), s'.tree) ∧
      (s'.error = none ∧
          result = .ok ((modules.drop k).map fun m => Path.join dir (objectName m.ident)) ∨
        ∃ cause, s'.error = some (.compile cause) ∧ result = .error cause) := by
  induction jobs generalizing k s with
  | nil =>
    have hdrop : modules.drop k = [] := List.drop_eq_nil_of_le (by simp [hk])
    exact ⟨s, .ok [], reached, fun i => (below i).1 (by simpa [hk] using i.isLt), rfl,
      .inl ⟨sound, by simp [hdrop]⟩⟩
  | cons j rest ih =>
    have hlt : k < modules.length := by simp [hk]
    let i : Fin modules.length := ⟨k, hlt⟩
    rw [List.drop_eq_getElem_cons hlt] at feasible ⊢
    obtain ⟨⟨attempt, fresh⟩, hrest⟩ := List.forall₂_cons.mp feasible
    have waiting : s.progress i = .waiting := (below i).2 le_rfl
    have fresh' := (Invariant.of_reached names reached).fresh_of_waiting
      (i := i) waiting attempt fresh
    have hreach := reaches_end (i := i) waiting going attempt fresh'
    have hbelow := below.finish (i := i) rfl
      (s.actAll i j.steps (j.outcome.mapError .compile)) rfl (j.outcome.mapError .compile)
    cases hj : j.outcome with
    | error cause =>
      rw [hj] at hreach hbelow
      obtain ⟨s', hskips, hended, htree, hwritten, herror⟩ := reaches_skips hlt hbelow rfl rfl
      refine ⟨s', .error cause, reached.trans (hreach.trans hskips), hended, ?_,
        .inr ⟨cause, ?_, rfl⟩⟩
      · rw [run_runJobs_error hj, hwritten, htree]
        rfl
      · rw [herror]
        simp [State.finish, State.actAll, sound, Except.mapError]
    | ok path =>
      rw [hj] at hreach hbelow attempt
      obtain ⟨s', result, hreached, hended, hrun, hresult⟩ :=
        ih (k := k + 1) (by simp [hk]; omega) hrest (reached.trans hreach) hbelow
          (by simp [State.finish, State.actAll, going, Except.mapError])
          (by simp [State.finish, State.actAll, sound, Except.mapError])
      have hpath : path = Path.join dir (objectName modules[k].ident) :=
        (Attempt.effects_of_ok attempt fresh).1
      have hrun' : (runJobs (s.written ++ j.steps.filterMap FileStep.recorded?) rest :
          StateM FileTree _).run (j.steps.foldl FileTree.perform s.tree) =
          ((s'.written, result), s'.tree) := hrun
      refine ⟨s', result.map (path :: ·), hreached, hended, ?_, ?_⟩
      · rw [run_runJobs_ok hj, hrun']
      · rcases hresult with ⟨hnone, rfl⟩ | ⟨cause, hsome, rfl⟩
        · exact .inl ⟨hnone, by simp only [Except.map, hpath, List.map_cons]⟩
        · exact .inr ⟨cause, hsome, rfl⟩

/-! ## The sequential build -/

/-- A computation that goes well hands its value and its state on. -/
theorem run_bind_of_ok {ε σ α β : Type} {x : ExceptT ε (StateM σ) α}
    {f : α → ExceptT ε (StateM σ) β} {s s' : σ} {a : α} (h : x.run.run s = (.ok a, s')) :
    (x >>= f).run.run s = (f a).run.run s' := by
  simp only [ExceptT.run_bind, StateT.run_bind, h]
  rfl

/-- The jobs of the sequential build. -/
def jobs (p : Pipeline) (dir : String) (modules : List Module) : List Job :=
  modules.zipIdx.map fun numbered => job p dir numbered.2 numbered.1

/-- What a build gives and leaves, from what its jobs give and leave. -/
theorem run_run {t₁ t₂ t₃ : FileTree} {written : List String}
    {result : Except CompileError (List String)}
    (names : checkNames [] (modules.map Module.ident) = .ok ())
    (dirs : t.makeDirs dir = (.ok (), t₁))
    (lock : t₁.touch (Path.join dir lockName) = (.ok (), t₂))
    (hjobs : (runJobs [] (jobs p dir modules) : StateM FileTree _).run t₂ =
      ((written, result), t₃)) :
    (run p dir modules : ExceptT Error (StateM FileTree) _).run.run t =
      (result.mapError .compile,
        if result.isOk then t₃ else (written.map .remove).foldl FileTree.perform t₃) := by
  have hcheck : (ExceptT.mk (return checkNames [] (modules.map Module.ident)) :
      ExceptT Error (StateM FileTree) Unit).run.run t = (.ok (), t) := by
    rw [names]
    rfl
  have hdirs : (ExceptT.mk (do return (← FileSystem.makeDirs dir).mapError .outputDir) :
      ExceptT Error (StateM FileTree) Unit).run.run t = (.ok (), t₁) := by
    have hmake : (FileSystem.makeDirs dir : StateM FileTree _).run t = (.ok (), t₁) := dirs
    simp only [ExceptT.run_mk, StateT.run_bind, hmake]
    rfl
  have hlock : (ExceptT.mk (do
        return (← FileSystem.touch (Path.join dir lockName)).mapError (.lock dir)) :
      ExceptT Error (StateM FileTree) Unit).run.run t₁ = (.ok (), t₂) := by
    have htouch : (FileSystem.touch (Path.join dir lockName) : StateM FileTree _).run t₁ =
      (.ok (), t₂) := lock
    simp only [ExceptT.run_mk, StateT.run_bind, htouch]
    rfl
  have hlift : (ExceptT.lift (runJobs [] (jobs p dir modules)) :
      ExceptT Error (StateM FileTree) _).run.run t₂ = (.ok (written, result), t₃) := by
    simp only [ExceptT.run_lift, StateT.run_map, hjobs]
    rfl
  rw [run, run_bind_of_ok hcheck, run_bind_of_ok hdirs, run_bind_of_ok hlock]
  refine (run_bind_of_ok hlift).trans ((run_conclude written _ t₃).trans ?_)
  cases result <;> rfl

theorem forall₂_zipIdx {α β : Type} {R : α → β → Prop} {f : α × Nat → β}
    (h : ∀ a number, R a (f (a, number))) (l : List α) (first : Nat) :
    List.Forall₂ R l ((l.zipIdx first).map f) := by
  induction l generalizing first with
  | nil => exact .nil
  | cons a rest ih => exact .cons (h a first) (ih (first + 1))

/-- No temporary file lies about. -/
def TempFree (dir : String) (t : FileTree) : Prop :=
  ∀ name number, '/' ∉ name.toList → t.file? (Path.clean (tempName dir name number)) = none

/-- If no temporary file lies about, those of a job are new. -/
theorem fresh_job (free : TempFree dir t) (number : Nat) (m : Module) :
    Fresh t.file? (job p dir number m).steps := by
  have hplace {v : View} (name : String) (bytes : List UInt8)
      (h : v (Path.clean (tempName dir name number)) = none) :
      Fresh v (placeSteps dir name number bytes) := ⟨h, trivial, trivial, trivial, trivial⟩
  have hfree := free (objectName m.ident) number (no_slash_objectName m.ident)
  unfold job
  split
  · exact ⟨hfree, trivial, trivial⟩
  · next unit object _ =>
    have hobject := hplace (objectName m.ident) object hfree
    have hplaced : Placement dir (objectName m.ident) (.ok object)
        (placeSteps dir (objectName m.ident) number object) (.ok ()) := .placed number rfl
    obtain ⟨bytes, -, heffects⟩ := hplaced.effects_of_ok hobject
    dsimp only
    split
    · refine fresh_append.mpr ⟨hobject, hplace _ _ ?_⟩
      rw [heffects, Function.update_of_ne (clean_tempName_ne (.hiddenListing number) .object
        (by simp)), free _ number (no_slash_listingName m.ident)]
    · simpa using hobject

/-- The sequential build goes through states of the interleaved build to one in which all jobs have
ended, and gives and leaves what that state does. -/
theorem reached_run {t₁ t₂ : FileTree}
    (names : checkNames [] (modules.map Module.ident) = .ok ())
    (dirs : t.makeDirs dir = (.ok (), t₁))
    (lock : t₁.touch (Path.join dir lockName) = (.ok (), t₂)) (free : TempFree dir t₂) :
    ∃ (s : State modules.length) (result : Except CompileError (List String)),
      Reached p dir modules t₂ s ∧ s.Ended ∧
      s.result = result.mapError .compile ∧
      (run p dir modules : ExceptT Error (StateM FileTree) _).run.run t =
        (result.mapError .compile, s.settled) := by
  have hnames : (modules.map fun m => objectName m.ident).Nodup := by
    have := (nodup_of_checkNames names).1
    rwa [List.map_map] at this
  have feasible : Feasible p dir t₂ (modules.drop 0) (jobs p dir modules) :=
    forall₂_zipIdx (fun m number => ⟨attempt_job p dir number m, fresh_job free number m⟩) modules 0
  obtain ⟨s, result, reached, ended, hjobs, hresult⟩ :=
    reached_runJobs (s := State.start modules.length t₂) hnames
      (by simp [jobs]) feasible .refl
      (fun i => ⟨fun h => absurd h (by omega), fun _ => rfl⟩) rfl rfl
  refine ⟨s, result, reached, ended, ?_, ?_⟩
  · rcases hresult with ⟨hnone, rfl⟩ | ⟨cause, hsome, rfl⟩
    · have hpaths := (Invariant.of_reached hnames reached).paths_of_no_error ended hnone
      simp [State.result_eq, State.outcome, hnone, hpaths, Except.mapError]
    · simp [State.result_eq, State.outcome, hsome, Except.mapError]
  · rw [run_run names dirs lock hjobs]
    rcases hresult with ⟨hnone, rfl⟩ | ⟨cause, hsome, rfl⟩
    · simp [State.settled_eq, State.outcome, hnone, Except.isOk, Except.toBool]
    · simp [State.settled_eq, State.outcome, hsome, Except.isOk, Except.toBool]

end Backend.Build
