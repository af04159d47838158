-- The job of one module, with all the ways in which it can go: the module may not compile, and
-- creating, filling or closing a file may fail at any point. A job that fails has left nothing but
-- what it noted as written, a job that succeeds has left its outputs. Each step of a job changes
-- the files it names and no other, so steps on different files do not disturb each other.
import Backend.Build.Basic
import Backend.Build.FileTree
import Backend.Proofs.Build.Names
import Mathlib.Data.Set.Function

namespace Backend.Build

/-! ## The effects of steps -/

/-- The paths at which a step puts a file or takes one away. -/
def FileStep.paths : FileStep → List String
  | .create temp | .fill temp _ | .remove temp => [temp]
  | .rename temp target => [temp, target]
  | .record _ => []

/-- The paths at which a step puts a file. -/
def FileStep.written : FileStep → List String
  | .create temp | .fill temp _ => [temp]
  | .rename _ target => [target]
  | .record _ | .remove _ => []

/-- The files of a directory as a function from paths in their shortest form. -/
abbrev View := String → Option (List UInt8)

/-- What a step makes of the files. -/
def FileStep.effect (v : View) : FileStep → View
  | .create temp => Function.update v (Path.clean temp) (some [])
  | .fill temp content => Function.update v (Path.clean temp) (some content)
  | .rename temp target =>
    Function.update (Function.update v (Path.clean temp) none) (Path.clean target)
      (some ((v (Path.clean temp)).getD []))
  | .record _ => v
  | .remove temp => Function.update v (Path.clean temp) none

/-- What steps make of the files, one after the other. -/
def effects (v : View) (steps : List FileStep) : View := steps.foldl FileStep.effect v

@[simp] theorem effects_nil (v : View) : effects v [] = v := rfl

@[simp] theorem effects_cons (v : View) (step : FileStep) (steps : List FileStep) :
    effects v (step :: steps) = effects (step.effect v) steps := rfl

theorem effects_append (v : View) (steps later : List FileStep) :
    effects v (steps ++ later) = effects (effects v steps) later := List.foldl_append

namespace FileTree

theorem file?_put (t : FileTree) (path : String) (content : List UInt8) :
    (t.put path content).file? = Function.update t.file? (Path.clean path) (some content) := by
  funext x
  unfold put file?
  by_cases h : x = Path.clean path
  · subst h
    rw [lookup_assocInsert_self, Function.update_self]
  · rw [Function.update_of_ne h]
    exact lookup_assocInsert_ne h content t.files

theorem lookup_filter_ne {path : String} {p : String × List UInt8 → Bool}
    (hp : ∀ entry, p entry = (entry.1 != path)) (files : List (String × List UInt8)) (x : String) :
    (files.filter p).lookup x = if x = path then none else files.lookup x := by
  induction files with
  | nil => simp
  | cons entry rest ih =>
    rw [List.filter_cons, hp]
    obtain ⟨f, content⟩ := entry
    by_cases hf : f = path
    · subst hf
      by_cases hx : x = f
      · simpa [hx] using ih
      · have hxf : (x == f) = false := by simpa using hx
        simpa [List.lookup_cons, hx, hxf] using ih
    · by_cases hx : x = f
      · subst hx
        simp [hf]
      · have hxf : (x == f) = false := by simpa using hx
        simpa [List.lookup_cons, hf, hxf] using ih

theorem file?_erase (t : FileTree) (path : String) :
    (t.erase path).file? = Function.update t.file? (Path.clean path) none := by
  funext x
  rw [Function.update_apply]
  exact lookup_filter_ne (fun _ => rfl) t.files x

/-- A step on a tree of files does what it does to their view. -/
theorem file?_perform (t : FileTree) (step : FileStep) :
    (t.perform step).file? = step.effect t.file? := by
  cases step <;> simp [perform, FileStep.effect, file?_put, file?_erase]

theorem file?_foldl_perform (t : FileTree) (steps : List FileStep) :
    (steps.foldl perform t).file? = effects t.file? steps := by
  induction steps generalizing t with
  | nil => rfl
  | cons step rest ih => rw [List.foldl_cons, ih, file?_perform, effects_cons]

end FileTree

/-! ## Steps on different files -/

/-- A step leaves the files alone that it does not name. -/
theorem FileStep.effect_of_ne {step : FileStep} {v : View} {x : String}
    (h : ∀ path ∈ step.paths, x ≠ Path.clean path) : step.effect v x = v x := by
  cases step <;> simp_all [FileStep.paths, FileStep.effect, Function.update_of_ne]

/-- What a step leaves at some paths depends on nothing else, if all it names is among them. -/
theorem FileStep.effect_congr {step : FileStep} {paths : Set String} {v w : View}
    (hstep : ∀ path ∈ step.paths, Path.clean path ∈ paths) (h : Set.EqOn v w paths) :
    Set.EqOn (step.effect v) (step.effect w) paths := by
  intro x hx
  cases step with
  | rename temp target =>
    have htemp := h (hstep temp (by simp [FileStep.paths]))
    simp only [FileStep.effect, htemp, Function.update_apply, h hx]
  | _ => simp only [FileStep.effect, Function.update_apply, h hx]

/-- Steps leave the files alone that none of them names. -/
theorem effects_of_ne {steps : List FileStep} {v : View} {x : String}
    (h : ∀ step ∈ steps, ∀ path ∈ step.paths, x ≠ Path.clean path) : effects v steps x = v x := by
  induction steps generalizing v with
  | nil => rfl
  | cons step rest ih =>
    rw [effects_cons, ih fun s hs => h s (List.mem_cons_of_mem step hs)]
    exact FileStep.effect_of_ne (h step List.mem_cons_self)

/-- Steps that take files away leave none of these. -/
theorem effects_remove (v : View) (paths : List String) (x : String) :
    effects v (paths.map .remove) x = if x ∈ paths.map Path.clean then none else v x := by
  induction paths generalizing v with
  | nil => rfl
  | cons path rest ih =>
    rw [List.map_cons, effects_cons, ih, FileStep.effect, Function.update_apply]
    by_cases hx : x = Path.clean path <;> simp [hx]

/-! ## Jobs that may fail -/

/-- Why the job of a module ends without a path. -/
inductive Failure where
  | compile (cause : CompileError)
  | file (cause : FileError)
  | canceled

/-- The content of the object file of a module. -/
def objectContent (p : Pipeline) (m : Module) : Except CompileError (List UInt8) :=
  (p.compileObject m).result.1.map Prod.snd

/-- The content of the listing of a module. -/
def listingContent (p : Pipeline) (m : Module) : Except CompileError (List UInt8) :=
  (p.compileObject m).result.1.map fun built => Text.utf8 (CodeUnit.renderLines built.1.lines)

theorem map_eq_ok {ε α β : Type} {x : Except ε α} {f : α → β} {b : β} :
    x.map f = .ok b ↔ ∃ a, x = .ok a ∧ f a = b := by cases x <;> simp [Except.map]

/-- Gives up a file after some of it was written. -/
def abandonSteps (dir name : String) (number : Nat) (parts : List (List UInt8)) : List FileStep :=
  let temp := tempName dir name number
  .create temp :: parts.map (.fill temp) ++ [.remove temp]

/-- How it can go to put a file into place: there is no temporary file, there is no content, the
content cannot be written, or all goes well. -/
inductive Placement (dir name : String) (content : Except CompileError (List UInt8)) :
    List FileStep → Except Failure Unit → Prop
  | refused (cause : FileError) : Placement dir name content [] (.error (.file cause))
  | rejected (number : Nat) (parts : List (List UInt8)) {cause : CompileError}
      (h : content = .error cause) :
      Placement dir name content (abandonSteps dir name number parts) (.error (.compile cause))
  | broken (number : Nat) (parts : List (List UInt8)) (cause : FileError) :
      Placement dir name content (abandonSteps dir name number parts) (.error (.file cause))
  | placed (number : Nat) {bytes : List UInt8} (h : content = .ok bytes) :
      Placement dir name content (placeSteps dir name number bytes) (.ok ())

/-- How the job of a module can go: the object file first, then the listing if there is to be
one. -/
inductive Attempt (p : Pipeline) (dir : String) (m : Module) :
    List FileStep → Except Failure String → Prop
  | objectFailed {steps : List FileStep} {e : Failure}
      (h : Placement dir (objectName m.ident) (objectContent p m) steps (.error e)) :
      Attempt p dir m steps (.error e)
  | unlisted {steps : List FileStep} (off : p.listing = false)
      (h : Placement dir (objectName m.ident) (objectContent p m) steps (.ok ())) :
      Attempt p dir m steps (.ok (Path.join dir (objectName m.ident)))
  | listed {steps later : List FileStep} {outcome : Except Failure Unit} (on : p.listing = true)
      (h : Placement dir (objectName m.ident) (objectContent p m) steps (.ok ()))
      (hlater : Placement dir (listingName m.ident) (listingContent p m) later outcome) :
      Attempt p dir m (steps ++ later)
        (outcome.map fun _ => Path.join dir (objectName m.ident))

/-- The job of the sequential build is one of the ways. -/
theorem attempt_job (p : Pipeline) (dir : String) (number : Nat) (m : Module) :
    Attempt p dir m (job p dir number m).steps
      ((job p dir number m).outcome.mapError .compile) := by
  unfold job
  split
  · next e he =>
    exact .objectFailed (.rejected number [] (by simp [objectContent, he, Except.map]))
  · next unit object he =>
    have hobject : Placement dir (objectName m.ident) (objectContent p m)
        (placeSteps dir (objectName m.ident) number object) (.ok ()) :=
      .placed number (by simp [objectContent, he, Except.map])
    cases hlisting : p.listing with
    | false => simpa [hlisting, Except.mapError, Except.map] using Attempt.unlisted hlisting hobject
    | true =>
      simpa [hlisting, Except.mapError, Except.map] using Attempt.listed hlisting hobject
        (.placed number (by simp [listingContent, he, Except.map]))

/-! ## Fresh temporary names -/

/-- A temporary file is made where no file is. -/
def FileStep.Admissible (v : View) : FileStep → Prop
  | .create temp => v (Path.clean temp) = none
  | _ => True

/-- All temporary files that the steps make are new. -/
def Fresh : View → List FileStep → Prop
  | _, [] => True
  | v, step :: rest => step.Admissible v ∧ Fresh (step.effect v) rest

theorem fresh_append {v : View} {steps later : List FileStep} :
    Fresh v (steps ++ later) ↔ Fresh v steps ∧ Fresh (effects v steps) later := by
  induction steps generalizing v with
  | nil => simp [Fresh]
  | cons step rest ih => simp [Fresh, ih, and_assoc]

/-! ## Territories -/

/-- The places of the files that the job of a module works with. -/
def territory (dir ident : String) : Set String :=
  {x | ∃ name, NameOf ident name ∧ x = Path.clean (Path.join dir name)}

theorem mem_territory {dir ident name : String} (h : NameOf ident name) :
    Path.clean (Path.join dir name) ∈ territory dir ident := ⟨name, h, rfl⟩

/-- Modules with different object files work in different territories. -/
theorem territory_disjoint {dir a b : String} (h : objectName a ≠ objectName b) :
    ∀ x ∈ territory dir a, x ∉ territory dir b := by
  rintro x ⟨name, hname, rfl⟩ ⟨other, hother, heq⟩
  rw [Path.clean_join_inj hname.isName hother.isName] at heq
  exact h (hname.same_object (heq ▸ hother))

variable {p : Pipeline} {dir name : String} {m : Module} {steps : List FileStep} {v : View}
  {content : Except CompileError (List UInt8)} {outcome : Except Failure Unit}

/-- A placement works with the file and one temporary file. -/
theorem Placement.paths (h : Placement dir name content steps outcome) :
    ∀ step ∈ steps, ∀ path ∈ step.paths,
      path = Path.join dir name ∨ ∃ number, path = tempName dir name number := by
  cases h with
  | refused => simp
  | rejected number | broken number =>
    intro step hstep path hpath
    refine .inr ⟨number, ?_⟩
    simp only [abandonSteps, List.cons_append, List.mem_cons, List.mem_append, List.mem_map,
      List.not_mem_nil, or_false] at hstep
    rcases hstep with rfl | ⟨part, -, rfl⟩ | rfl <;> simpa [FileStep.paths] using hpath
  | placed number =>
    intro step hstep path hpath
    simp only [placeSteps, List.mem_cons, List.not_mem_nil, or_false] at hstep
    rcases hstep with rfl | rfl | rfl | rfl <;> simp [FileStep.paths] at hpath
    · exact .inr ⟨number, hpath⟩
    · exact .inr ⟨number, hpath⟩
    · exact hpath.elim (fun h => .inr ⟨number, h⟩) .inl

/-- A job works in the territory of its module. -/
theorem Attempt.paths {result : Except Failure String} (h : Attempt p dir m steps result) :
    ∀ step ∈ steps, ∀ path ∈ step.paths, Path.clean path ∈ territory dir m.ident := by
  have hobject {content steps outcome}
      (h : Placement dir (objectName m.ident) content steps outcome) :
      ∀ step ∈ steps, ∀ path ∈ step.paths, Path.clean path ∈ territory dir m.ident := by
    intro step hstep path hpath
    rcases h.paths step hstep path hpath with rfl | ⟨number, rfl⟩
    · exact mem_territory .object
    · exact mem_territory (.hiddenObject number)
  cases h with
  | objectFailed h => exact hobject h
  | unlisted _ h => exact hobject h
  | listed _ h hlater =>
    intro step hstep path hpath
    rcases List.mem_append.mp hstep with hstep | hstep
    · exact hobject h step hstep path hpath
    · rcases hlater.paths step hstep path hpath with rfl | ⟨number, rfl⟩
      · exact mem_territory .listing
      · exact mem_territory (.hiddenListing number)

/-! ## What is left -/

/-- A temporary file is another file than an output. -/
theorem clean_tempName_ne {ident other : String} {number : Nat}
    (hhidden : NameOf ident (hiddenName name number)) (hother : NameOf ident other)
    (hend : other.toList.getLast? ≠ some 'p') :
    Path.clean (tempName dir name number) ≠ Path.clean (Path.join dir other) := by
  rw [tempName_eq, Ne, Path.clean_join_inj hhidden.isName hother.isName]
  rintro rfl
  exact hend (getLast?_hiddenName name number)

/-- A file that was put into place has its content, and its temporary file is gone. -/
theorem Placement.effects_of_ok (h : Placement dir name content steps (.ok ()))
    (hfresh : Fresh v steps) : ∃ bytes, content = .ok bytes ∧
      effects v steps = Function.update v (Path.clean (Path.join dir name)) (some bytes) := by
  cases h with
  | @placed number bytes hbytes =>
    refine ⟨bytes, hbytes, ?_⟩
    have hnone : v (Path.clean (tempName dir name number)) = none := hfresh.1
    have hrest : Function.update v (Path.clean (tempName dir name number)) none = v := by
      rw [Function.update_eq_self_iff, hnone]
    simp [placeSteps, FileStep.effect, Function.update_idem, hrest]

/-- A file that was given up is gone. -/
theorem effects_abandonSteps {number : Nat} {parts : List (List UInt8)}
    (hfresh : Fresh v (abandonSteps dir name number parts)) :
    effects v (abandonSteps dir name number parts) = v := by
  have hnone : v (Path.clean (tempName dir name number)) = none := hfresh.1
  funext x
  by_cases hx : x = Path.clean (tempName dir name number)
  · subst hx
    rw [abandonSteps, effects_append, effects_cons, effects_nil, FileStep.effect,
      Function.update_self, hnone]
  · apply effects_of_ne
    intro step hstep path hpath
    simp only [abandonSteps, List.cons_append, List.mem_cons, List.mem_append, List.mem_map,
      List.not_mem_nil, or_false] at hstep
    rcases hstep with rfl | ⟨part, -, rfl⟩ | rfl <;> simp_all [FileStep.paths]

theorem Placement.effects_of_error {e : Failure}
    (h : Placement dir name content steps (.error e)) (hfresh : Fresh v steps) :
    effects v steps = v := by
  cases h with
  | refused => rfl
  | rejected | broken => exact effects_abandonSteps hfresh

/-- Only what was noted as written has changed. -/
theorem Placement.effects_of_not_recorded (h : Placement dir name content steps outcome)
    (hfresh : Fresh v steps) {x : String}
    (hx : ∀ path, .record path ∈ steps → x ≠ Path.clean path) : effects v steps x = v x := by
  cases outcome with
  | error e => rw [h.effects_of_error hfresh]
  | ok =>
    obtain ⟨bytes, -, heffects⟩ := h.effects_of_ok hfresh
    have hne : x ≠ Path.clean (Path.join dir name) := by
      cases h with
      | placed => exact hx _ (by simp [placeSteps])
    rw [heffects, Function.update_of_ne hne]

/-- A file is put at a place that is noted as written or has a temporary file. -/
theorem Placement.written (h : Placement dir name content steps outcome) :
    ∀ step ∈ steps, ∀ path ∈ step.written, .record path ∈ steps ∨ .create path ∈ steps := by
  cases h with
  | refused => simp
  | rejected | broken =>
    intro step hstep path hpath
    simp only [abandonSteps, List.cons_append, List.mem_cons, List.mem_append, List.mem_map,
      List.not_mem_nil, or_false] at hstep
    rcases hstep with rfl | ⟨part, -, rfl⟩ | rfl <;> simp_all [FileStep.written, abandonSteps]
  | placed =>
    intro step hstep path hpath
    simp only [placeSteps, List.mem_cons, List.not_mem_nil, or_false] at hstep
    rcases hstep with rfl | rfl | rfl | rfl <;> simp_all [FileStep.written, placeSteps]

/-- The temporary file of a placement is one for its file, and there was none before. -/
theorem Placement.temp (h : Placement dir name content steps outcome) (hfresh : Fresh v steps)
    {temp : String} (htemp : .create temp ∈ steps) :
    (∃ number, temp = tempName dir name number) ∧ v (Path.clean temp) = none := by
  cases h with
  | refused => simp at htemp
  | rejected number | broken number =>
    obtain rfl : temp = tempName dir name number := by simpa [abandonSteps] using htemp
    exact ⟨⟨number, rfl⟩, hfresh.1⟩
  | placed number =>
    obtain rfl : temp = tempName dir name number := by simpa [placeSteps] using htemp
    exact ⟨⟨number, rfl⟩, hfresh.1⟩

/-! ## Outputs -/

/-- The files with the outputs of a module in place. -/
def withOutputs (p : Pipeline) (dir : String) (m : Module) (built : CodeUnit × List UInt8)
    (v : View) : View :=
  let v := Function.update v (Path.clean (Path.join dir (objectName m.ident))) (some built.2)
  if p.listing then
    Function.update v (Path.clean (Path.join dir (listingName m.ident)))
      (some (Text.utf8 (CodeUnit.renderLines built.1.lines)))
  else v

variable {built : CodeUnit × List UInt8}

theorem object_ne_listing (dir ident : String) :
    Path.clean (Path.join dir (objectName ident)) ≠
      Path.clean (Path.join dir (listingName ident)) := by
  rw [Ne, Path.clean_join_inj NameOf.object.isName NameOf.listing.isName]
  intro h
  simpa using congrArg (fun name => name.toList.getLast?) h

theorem withOutputs_object :
    withOutputs p dir m built v (Path.clean (Path.join dir (objectName m.ident))) =
      some built.2 := by
  cases on : p.listing <;>
    simp [withOutputs, on, Function.update_of_ne (object_ne_listing dir m.ident)]

theorem withOutputs_listing (on : p.listing = true) :
    withOutputs p dir m built v (Path.clean (Path.join dir (listingName m.ident))) =
      some (Text.utf8 (CodeUnit.renderLines built.1.lines)) := by simp [withOutputs, on]

theorem withOutputs_of_ne {x : String}
    (hobject : x ≠ Path.clean (Path.join dir (objectName m.ident)))
    (hlisting : p.listing = true → x ≠ Path.clean (Path.join dir (listingName m.ident))) :
    withOutputs p dir m built v x = v x := by
  cases on : p.listing with
  | false => simp [withOutputs, on, Function.update_of_ne hobject]
  | true =>
    simp [withOutputs, on, Function.update_of_ne hobject, Function.update_of_ne (hlisting on)]

variable {result : Except Failure String}

/-- A job that ends well has compiled the module and left the outputs, and nothing else. -/
theorem Attempt.effects_of_ok {path : String} (h : Attempt p dir m steps (.ok path))
    (hfresh : Fresh v steps) :
    path = Path.join dir (objectName m.ident) ∧
      ∃ built, (p.compileObject m).result.1 = .ok built ∧
        effects v steps = withOutputs p dir m built v := by
  generalize hr : (Except.ok path : Except Failure String) = r at h
  cases h with
  | objectFailed => cases hr
  | unlisted off h =>
    cases hr
    obtain ⟨bytes, hbytes, heffects⟩ := h.effects_of_ok hfresh
    obtain ⟨built, hbuilt, rfl⟩ := map_eq_ok.mp hbytes
    exact ⟨rfl, built, hbuilt, by simp [heffects, withOutputs, off]⟩
  | @listed steps later outcome on h hlater =>
    cases outcome with
    | error => cases hr
    | ok =>
      cases hr
      obtain ⟨hfirst, hlast⟩ := fresh_append.mp hfresh
      obtain ⟨bytes, hbytes, heffects⟩ := h.effects_of_ok hfirst
      obtain ⟨listing, hlisting, heffects'⟩ := hlater.effects_of_ok hlast
      obtain ⟨built, hbuilt, rfl⟩ := map_eq_ok.mp hbytes
      obtain ⟨built', hbuilt', rfl⟩ := map_eq_ok.mp hlisting
      obtain rfl : built = built' := by simpa [hbuilt] using hbuilt'
      refine ⟨rfl, built, hbuilt, ?_⟩
      rw [effects_append, heffects', heffects]
      simp [withOutputs, on]

/-- A job changes nothing but what it notes as written. -/
theorem Attempt.effects_of_not_recorded (h : Attempt p dir m steps result)
    (hfresh : Fresh v steps) {x : String}
    (hx : ∀ path, .record path ∈ steps → x ≠ Path.clean path) : effects v steps x = v x := by
  cases h with
  | objectFailed h | unlisted _ h => exact h.effects_of_not_recorded hfresh hx
  | listed _ h hlater =>
    obtain ⟨hfirst, hlast⟩ := fresh_append.mp hfresh
    rw [effects_append, hlater.effects_of_not_recorded hlast fun path hp => hx path (by simp [hp]),
      h.effects_of_not_recorded hfirst fun path hp => hx path (by simp [hp])]

/-- A job puts files at places that it notes as written or under temporary names. -/
theorem Attempt.written (h : Attempt p dir m steps result) :
    ∀ step ∈ steps, ∀ path ∈ step.written, .record path ∈ steps ∨ .create path ∈ steps := by
  cases h with
  | objectFailed h | unlisted _ h => exact h.written
  | listed _ h hlater =>
    intro step hstep path hpath
    simp only [List.mem_append] at hstep ⊢
    rcases hstep with hstep | hstep
    · exact (h.written step hstep path hpath).imp .inl .inl
    · exact (hlater.written step hstep path hpath).imp .inr .inr

/-- The temporary files of a job are of its own territory and none of its outputs, and there was
none before. -/
theorem Attempt.temp (h : Attempt p dir m steps result) (hfresh : Fresh v steps) {temp : String}
    (htemp : .create temp ∈ steps) :
    (∃ name number, temp = tempName dir name number ∧ NameOf m.ident (hiddenName name number)) ∧
      v (Path.clean temp) = none := by
  have hobject {content steps outcome}
      (h : Placement dir (objectName m.ident) content steps outcome) (hfresh : Fresh v steps)
      (htemp : .create temp ∈ steps) :
      (∃ name number, temp = tempName dir name number ∧ NameOf m.ident (hiddenName name number)) ∧
        v (Path.clean temp) = none := by
    obtain ⟨⟨number, rfl⟩, hnone⟩ := h.temp hfresh htemp
    exact ⟨⟨_, number, rfl, .hiddenObject number⟩, hnone⟩
  cases h with
  | objectFailed h | unlisted _ h => exact hobject h hfresh htemp
  | listed _ h hlater =>
    obtain ⟨hfirst, hlast⟩ := fresh_append.mp hfresh
    rcases List.mem_append.mp htemp with htemp | htemp
    · exact hobject h hfirst htemp
    · obtain ⟨⟨number, rfl⟩, hnone⟩ := hlater.temp hlast htemp
      obtain ⟨bytes, -, heffects⟩ := h.effects_of_ok hfirst
      refine ⟨⟨_, number, rfl, .hiddenListing number⟩, ?_⟩
      -- the object file that was placed in between is another file
      have hne : Path.clean (tempName dir (listingName m.ident) number) ≠
          Path.clean (Path.join dir (objectName m.ident)) :=
        clean_tempName_ne (.hiddenListing number) .object (by simp)
      rwa [heffects, Function.update_of_ne hne] at hnone

end Backend.Build
