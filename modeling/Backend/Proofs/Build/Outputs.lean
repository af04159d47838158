-- What a build leaves. Main statement: however its jobs interleave and wherever they fail, a failed
-- build leaves nothing that it put into the directory, and a build that succeeds leaves exactly the
-- outputs of its modules. The sequential build is one of the interleavings.
import Backend.Proofs.Build.Sequential

namespace Backend.Build

/-- Nothing of the build is left. The files that are not noted as written are as before. -/
structure Undone {n : Nat} (t : FileTree) (s : State n) : Prop where
  gone : ∀ i, ∀ step ∈ s.did i, ∀ path ∈ step.written, s.settled.file? (Path.clean path) = none
  kept : ∀ x, (∀ path ∈ s.written, x ≠ Path.clean path) → s.settled.file? x = t.file? x

/-- The outputs of all modules are in place, under the given paths, and no temporary file is left.
All other files are as before. -/
structure Delivered (p : Pipeline) (dir : String) (modules : List Module) (t : FileTree)
    (s : State modules.length) (paths : List String) : Prop where
  paths_eq : paths = modules.map fun m => Path.join dir (objectName m.ident)
  nodup : (paths.map Path.clean).Nodup
  outputs : ∀ m ∈ modules, ∃ unit object, (p.compileObject m).result.1 = .ok (unit, object) ∧
    s.settled.file? (Path.clean (Path.join dir (objectName m.ident))) = some object ∧
    (p.listing = true → s.settled.file? (Path.clean (Path.join dir (listingName m.ident))) =
      some (Text.utf8 (CodeUnit.renderLines unit.lines)))
  temps : ∀ i temp, .create temp ∈ s.did i → s.settled.file? (Path.clean temp) = none
  kept : ∀ x, (∀ m ∈ modules, x ≠ Path.clean (Path.join dir (objectName m.ident)) ∧
      (p.listing = true → x ≠ Path.clean (Path.join dir (listingName m.ident)))) →
    s.settled.file? x = t.file? x

variable {p : Pipeline} {dir : String} {modules : List Module} {t : FileTree}
  {s : State modules.length}

/-- The files that a failed build leaves. -/
theorem file?_settled_of_error {n : Nat} {s : State n} {e : Failure} (h : s.error = some e)
    (x : String) :
    s.settled.file? x = if x ∈ s.written.map Path.clean then none else s.tree.file? x := by
  have hfailed : s.outcome = .error e := by simp [State.outcome, h]
  rw [State.settled_eq, hfailed]
  exact (congrFun (FileTree.file?_foldl_perform _ _) x).trans (effects_remove _ _ x)

/-- Outside of what was noted as written, the jobs together have changed nothing. -/
theorem Invariant.file?_of_not_written (inv : Invariant p dir modules t s) (ended : s.Ended)
    {x : String} (hx : ∀ path ∈ s.written, x ≠ Path.clean path) : s.tree.file? x = t.file? x := by
  by_cases howner : ∃ i : Fin modules.length, x ∈ territory dir (modules.get i).ident
  · obtain ⟨i, hi⟩ := howner
    rw [inv.inside i hi]
    rcases inv.attempt_of_ended ended i with ⟨outcome, -, hattempt⟩ | ⟨hnil, -⟩
    · apply hattempt.effects_of_not_recorded (inv.fresh i)
      intro path hpath
      exact hx path ((inv.written path).mpr ⟨i, hpath⟩)
    · rw [hnil, effects_nil]
  · exact inv.outside x (not_exists.mp howner)

/-- Where a job put a temporary file there was none before. -/
theorem Invariant.temp_of_ended (inv : Invariant p dir modules t s) (ended : s.Ended)
    {i : Fin modules.length} {temp : String} (htemp : .create temp ∈ s.did i) :
    (∃ name number, temp = tempName dir name number ∧
      NameOf (modules.get i).ident (hiddenName name number)) ∧
      t.file? (Path.clean temp) = none := by
  rcases inv.attempt_of_ended ended i with ⟨outcome, -, hattempt⟩ | ⟨hnil, -⟩
  · exact hattempt.temp (inv.fresh i) htemp
  · simp [hnil] at htemp

theorem undone_of_error (inv : Invariant p dir modules t s) (ended : s.Ended) {e : Failure}
    (h : s.error = some e) : Undone t s where
  gone i step hstep path hpath := by
    rw [file?_settled_of_error h]
    split
    · rfl
    · next hnot =>
      have hkept : s.tree.file? (Path.clean path) = t.file? (Path.clean path) :=
        inv.file?_of_not_written ended fun other hother heq =>
          hnot (heq ▸ List.mem_map_of_mem hother)
      have hcreate : .create path ∈ s.did i := by
        rcases inv.attempt_of_ended ended i with ⟨outcome, -, hattempt⟩ | ⟨hnil, -⟩
        · refine (hattempt.written step hstep path hpath).resolve_left fun hrecord => hnot ?_
          exact List.mem_map_of_mem ((inv.written path).mpr ⟨i, hrecord⟩)
        · simp [hnil] at hstep
      rw [hkept, (inv.temp_of_ended ended hcreate).2]
  kept x hx := by
    have hnot : x ∉ s.written.map Path.clean := by
      intro hmem
      obtain ⟨path, hpath, rfl⟩ := List.mem_map.mp hmem
      exact hx path hpath rfl
    rw [file?_settled_of_error h, if_neg hnot]
    exact inv.file?_of_not_written ended hx

theorem delivered_of_no_error (names : (modules.map fun m => objectName m.ident).Nodup)
    (inv : Invariant p dir modules t s) (ended : s.Ended) (h : s.error = none) :
    Delivered p dir modules t s (List.ofFn s.path) := by
  have hsettled : s.settled = s.tree := by
    have hsound : s.outcome = .ok (List.ofFn s.path) := by simp [State.outcome, h]
    rw [State.settled_eq, hsound]
    rfl
  have hpaths := inv.paths_of_no_error ended h
  refine ⟨hpaths, ?nodup, ?outputs, ?temps, ?kept⟩
  case nodup =>
    rw [hpaths, List.map_map]
    have hpairs := List.pairwise_map.mp names
    refine List.pairwise_map.mpr (hpairs.imp fun {a b} hne heq => hne ?_)
    exact (Path.clean_join_inj NameOf.object.isName NameOf.object.isName).mp heq
  case outputs =>
    intro m hm
    obtain ⟨i, hi, rfl⟩ := List.mem_iff_getElem.mp hm
    obtain ⟨-, ⟨unit, object⟩, hbuilt, heq⟩ := inv.job_of_no_error ended h ⟨i, hi⟩
    rw [hsettled]
    refine ⟨unit, object, hbuilt, ?_, fun on => ?_⟩
    · exact (heq (mem_territory .object)).trans withOutputs_object
    · exact (heq (mem_territory .listing)).trans (withOutputs_listing on)
  case temps =>
    intro i temp htemp
    obtain ⟨⟨name, number, rfl, hname⟩, hnone⟩ := inv.temp_of_ended ended htemp
    obtain ⟨-, built, -, heq⟩ := inv.job_of_no_error ended h i
    have hterritory : Path.clean (tempName dir name number) ∈ territory dir (modules.get i).ident :=
      mem_territory hname
    rw [hsettled, heq hterritory, withOutputs_of_ne, hnone]
    · exact clean_tempName_ne hname .object (by simp)
    · exact fun _ => clean_tempName_ne hname .listing (by simp)
  case kept =>
    intro x hx
    rw [hsettled]
    by_cases howner : ∃ i : Fin modules.length, x ∈ territory dir (modules.get i).ident
    · obtain ⟨i, hi⟩ := howner
      obtain ⟨-, built, -, heq⟩ := inv.job_of_no_error ended h i
      obtain ⟨hobject, hlisting⟩ := hx (modules.get i) (List.getElem_mem i.isLt)
      rw [heq hi, withOutputs_of_ne hobject hlisting]
    · exact inv.outside x (not_exists.mp howner)

/-- What a build leaves when its jobs have ended, however they interleave and wherever they fail. If
it gives an error it has left nothing behind, and if it gives paths it has left exactly the outputs
of its modules. What `run` gives and leaves is what such a build does. -/
theorem files_of_ended_build (names : checkNames [] (modules.map Module.ident) = .ok ()) :
    (∀ (t : FileTree) (s : State modules.length), Reached p dir modules t s → s.Ended →
      (∀ e, s.result = .error e → Undone t s) ∧
        ∀ paths, s.result = .ok paths → Delivered p dir modules t s paths) ∧
    ∀ t t₁ t₂ : FileTree, t.makeDirs dir = (.ok (), t₁) →
      t₁.touch (Path.join dir lockName) = (.ok (), t₂) → TempFree dir t₂ →
      ∃ (s : State modules.length) (result : Except CompileError (List String)),
        Reached p dir modules t₂ s ∧ s.Ended ∧ s.result = result.mapError .compile ∧
          (run p dir modules : ExceptT Error (StateM FileTree) _).run.run t =
            (result.mapError .compile, s.settled) := by
  have hnames : (modules.map fun m => objectName m.ident).Nodup := by
    have := (nodup_of_checkNames names).1
    rwa [List.map_map] at this
  refine ⟨fun t s reached ended => ?_,
    fun t t₁ t₂ dirs lock free => reached_run names dirs lock free⟩
  have inv := Invariant.of_reached hnames reached
  refine ⟨fun e h => ?_, fun paths h => ?_⟩
  · cases herror : s.error with
    | none => simp [State.result_eq, State.outcome, herror] at h
    | some cause => exact undone_of_error inv ended herror
  · cases herror : s.error with
    | some cause => simp [State.result_eq, State.outcome, herror] at h
    | none =>
      obtain rfl : List.ofFn s.path = paths := by
        simpa [State.result_eq, State.outcome, herror] using h
      exact delivered_of_no_error hnames inv ended herror

/-! ## A build of two modules -/

/-- A pipeline that writes listings. -/
def listingPipeline : Pipeline := ⟨Target.amd64Linux ⟨false, false, []⟩, true, 4, true, false, true⟩

/-- A module with one global. -/
def soundModule : Module := ⟨"lib/sound", [⟨"g", 2, [1]⟩], []⟩

/-- A module that declares a global twice. -/
def brokenModule : Module := ⟨"broken", [⟨"g", 2, [1]⟩, ⟨"g", 2, [1]⟩], []⟩

/-- A directory with nothing in it but the lock of a build. -/
def lockedDir : FileTree := ⟨[("out/.lirc.lock", [])], ["out"]⟩

theorem tempFree_lockedDir : TempFree "out" lockedDir := by
  intro name number h
  have hlock : "out/.lirc.lock" = Path.clean (Path.join "out" lockName) := by decide +kernel
  have hne : Path.clean (tempName "out" name number) ≠ "out/.lirc.lock" := by
    rw [hlock, tempName_eq, Ne, Path.clean_join_inj]
    · intro heq
      have hend := getLast?_hiddenName name number
      rw [heq] at hend
      exact absurd hend (by decide)
    · exact isName_of_getLast? (getLast?_hiddenName name number) (by decide)
        (no_slash_hiddenName h number)
    · exact isName_of_getLast? (c := 'k') (by decide) (by decide) (by decide)
  have hbeq : (Path.clean (tempName "out" name number) == "out/.lirc.lock") = false := by
    simpa using hne
  simp [lockedDir, FileTree.file?, List.lookup_cons, hbeq]

/-- What `run` does in an empty directory. -/
abbrev ranInEmpty (modules : List Module) : Except Error (List String) × FileTree :=
  (run listingPipeline "out" modules : ExceptT Error (StateM FileTree) _).run.run ⟨[], []⟩

/-- A module that does not compile takes the outputs of the other one with it, which are there
without it. -/
theorem files_of_mixed_builds :
    (∃ (s : State [soundModule, brokenModule].length) (cause : CompileError),
      ranInEmpty [soundModule, brokenModule] = (.error (.compile cause), s.settled) ∧
        Undone lockedDir s) ∧
    ∃ (s : State [soundModule].length) (paths : List String),
      ranInEmpty [soundModule] = (.ok paths, s.settled) ∧
        Delivered listingPipeline "out" [soundModule] lockedDir s paths := by
  have hdirs : (⟨[], []⟩ : FileTree).makeDirs "out" = (.ok (), ⟨[], ["out"]⟩) := rfl
  have hlock : (⟨[], ["out"]⟩ : FileTree).touch (Path.join "out" lockName) =
    (.ok (), lockedDir) := rfl
  constructor
  · have hfails : (ranInEmpty [soundModule, brokenModule]).1.isOk = false := by decide +kernel
    obtain ⟨hleft, hrun⟩ := @files_of_ended_build listingPipeline "out"
      [soundModule, brokenModule] rfl
    obtain ⟨s, result, reached, ended, hresult, hran⟩ := hrun _ _ _ hdirs hlock tempFree_lockedDir
    cases result with
    | ok paths => simp [ranInEmpty, hran, Except.mapError, Except.isOk, Except.toBool] at hfails
    | error cause => exact ⟨s, cause, hran, (hleft _ s reached ended).1 _ hresult⟩
  · have hsucceeds : (ranInEmpty [soundModule]).1.isOk = true := by decide +kernel
    obtain ⟨hleft, hrun⟩ := @files_of_ended_build listingPipeline "out" [soundModule] rfl
    obtain ⟨s, result, reached, ended, hresult, hran⟩ := hrun _ _ _ hdirs hlock tempFree_lockedDir
    cases result with
    | ok paths => exact ⟨s, paths, hran, (hleft _ s reached ended).2 _ hresult⟩
    | error cause =>
      simp [ranInEmpty, hran, Except.mapError, Except.isOk, Except.toBool] at hsucceeds

end Backend.Build
