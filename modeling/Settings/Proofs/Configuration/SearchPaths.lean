import Settings.Configuration.Recipe

/-! # The search paths of a recipe

While no path is told, what a recipe searches follows from whether its application has a name. The first path that is
added puts an end to that: what is searched until then is written down in front of it, and all later paths go behind.
So a recipe goes through three states, without a name, with one, and with paths written down, and the paths that it ends
with are told by how it got into the last: the application's own directory is among them exactly if the application
is named before the first path is added. The order of the other steps does not count. -/

namespace Settings.Recipe

/-- The name that a step gives the application. -/
def Step.name? : Step → Option String
  | .app name => some name
  | _ => none

/-- The path that a step adds. -/
def Step.added? : Step → Option SearchPath
  | .alsoSearch path => some path
  | _ => none

def names (steps : List Step) : List String := steps.filterMap Step.name?

def additions (steps : List Step) : List SearchPath := steps.filterMap Step.added?

/-- Each step that adds a path has one in front of it that names the application. -/
def NamedFirst (steps : List Step) : Prop :=
  ∀ before path behind, steps = before ++ .alsoSearch path :: behind → ∃ name, .app name ∈ before

/-- The library in which the resources of a recipe are looked up on a host, as it is loaded. -/
def library (r : Recipe) (host : Host) : Library := .ofPaths host r.paths (r.app.getD "")

variable {r : Recipe} {s : Step} {steps : List Step} {paths : List SearchPath}

theorem additions_cons (s : Step) (steps : List Step) : additions (s :: steps) = s.added?.toList ++ additions steps := by
  cases h : s.added? <;> simp [additions, h]

theorem namedFirst_app (name : String) (steps : List Step) : NamedFirst (.app name :: steps) := by
  intro before path behind h
  cases before with
  | nil => cases h
  | cons first before =>
    obtain ⟨rfl, -⟩ := List.cons.inj h
    exact ⟨name, List.mem_cons_self⟩

theorem not_namedFirst_alsoSearch (path : SearchPath) (steps : List Step) : ¬NamedFirst (.alsoSearch path :: steps) := by
  intro h
  obtain ⟨name, hname⟩ := h [] path steps rfl
  cases hname

theorem namedFirst_cons (hname : s.name? = none) (hadded : s.added? = none) :
    NamedFirst (s :: steps) ↔ NamedFirst steps := by
  constructor
  · intro h before path behind hsteps
    obtain ⟨name, hmem⟩ := h (s :: before) path behind (congrArg (s :: ·) hsteps)
    rcases List.mem_cons.mp hmem with rfl | hmem
    · cases hname
    · exact ⟨name, hmem⟩
  · intro h before path behind hsteps
    cases before with
    | nil =>
      obtain ⟨rfl, -⟩ := List.cons.inj hsteps
      cases hadded
    | cons first before =>
      obtain ⟨-, hsteps⟩ := List.cons.inj hsteps
      obtain ⟨name, hmem⟩ := h before path behind hsteps
      exact ⟨name, List.mem_cons_of_mem _ hmem⟩

/-! ### With paths written down -/

theorem searchPaths_follow (h : r.searchPaths = some paths) (hs : ∀ paths, s ≠ .search paths) :
    (r.follow s).searchPaths = some (paths ++ s.added?.toList) := by
  cases s with
  | search paths => exact absurd rfl (hs paths)
  | alsoSearch path => simp [follow, Step.added?, Recipe.paths, h]
  | app _ | resource _ | text _ | dialect _ | catalog _ => simpa [follow, Step.added?] using h

theorem searchPaths_run (h : r.searchPaths = some paths) (untold : ∀ s ∈ steps, ∀ paths, s ≠ .search paths) :
    (steps.foldl follow r).searchPaths = some (paths ++ additions steps) := by
  induction steps generalizing r paths with
  | nil => simpa [additions] using h
  | cons s steps ih =>
    obtain ⟨hs, untold⟩ := List.forall_mem_cons.mp untold
    rw [List.foldl_cons, ih (searchPaths_follow h hs) untold, additions_cons, List.append_assoc]

theorem paths_run (h : r.searchPaths = some paths) (untold : ∀ s ∈ steps, ∀ paths, s ≠ .search paths) :
    (steps.foldl follow r).paths = paths ++ additions steps := by
  rw [Recipe.paths, searchPaths_run h untold, Option.getD_some]

/-- Paths that are told replace all that were there, and those that are added later go behind them. -/
theorem paths_told (before : List Step) (untold : ∀ s ∈ steps, ∀ paths, s ≠ .search paths) :
    (ofSteps (before ++ .search paths :: steps)).paths = paths ++ additions steps := by
  rw [ofSteps, List.foldl_append, List.foldl_cons]
  exact paths_run rfl untold

/-! ### Before any path is written down -/

theorem paths_run_alsoSearch (path : SearchPath) (untold : ∀ s ∈ steps, ∀ paths, s ≠ .search paths) :
    ((.alsoSearch path :: steps).foldl follow r).paths = r.paths ++ additions (.alsoSearch path :: steps) := by
  rw [List.foldl_cons, paths_run rfl untold, additions_cons, List.append_assoc]
  rfl

theorem paths_of_named (hname : r.app.isSome) (h : r.searchPaths = none) : r.paths = [.cwd, .platform] := by
  simp [Recipe.paths, h, hname]

theorem paths_of_unnamed (hname : r.app = none) (h : r.searchPaths = none) : r.paths = [.cwd] := by
  simp [Recipe.paths, h, hname]

theorem paths_run_named (hname : r.app.isSome) (h : r.searchPaths = none)
    (untold : ∀ s ∈ steps, ∀ paths, s ≠ .search paths) :
    (steps.foldl follow r).paths = .cwd :: .platform :: additions steps := by
  induction steps generalizing r with
  | nil => exact paths_of_named hname h
  | cons s steps ih =>
    obtain ⟨hs, hrest⟩ := List.forall_mem_cons.mp untold
    cases s with
    | search paths => exact absurd rfl (hs paths)
    | alsoSearch path =>
      -- The paths are written down here, with the application's own directory, and no longer follow from the name.
      rw [paths_run_alsoSearch path hrest, paths_of_named hname h]
      rfl
    | app name => exact ih rfl h hrest
    | resource _ | text _ | dialect _ | catalog _ => exact ih hname h hrest

/-- From a recipe without a name it counts what comes first, the name or a path. -/
theorem paths_run_unnamed (hname : r.app = none) (h : r.searchPaths = none) (named : ∃ name, .app name ∈ steps)
    (untold : ∀ s ∈ steps, ∀ paths, s ≠ .search paths) :
    (NamedFirst steps → (steps.foldl follow r).paths = .cwd :: .platform :: additions steps) ∧
      (¬NamedFirst steps → (steps.foldl follow r).paths = .cwd :: additions steps) := by
  induction steps generalizing r with
  | nil => obtain ⟨name, hmem⟩ := named; cases hmem
  | cons s steps ih =>
    obtain ⟨hs, hrest⟩ := List.forall_mem_cons.mp untold
    cases s with
    | search paths => exact absurd rfl (hs paths)
    | alsoSearch path =>
      -- The paths are written down before there is a name: that a name comes later no longer counts.
      refine ⟨fun hfirst => absurd hfirst (not_namedFirst_alsoSearch path steps), fun _ => ?_⟩
      rw [paths_run_alsoSearch path hrest, paths_of_unnamed hname h]
      rfl
    | app name =>
      refine ⟨fun _ => ?_, fun hlate => absurd (namedFirst_app name steps) hlate⟩
      exact paths_run_named (r := r.follow (.app name)) rfl h hrest
    | resource _ | text _ | dialect _ | catalog _ =>
      obtain ⟨name, hmem⟩ := named
      have hmem := (List.mem_cons.mp hmem).resolve_left nofun
      rw [namedFirst_cons rfl rfl]
      exact ih hname h ⟨name, hmem⟩ hrest

/-! ### The order of the steps -/

theorem app_run (steps : List Step) (r : Recipe) : (steps.foldl follow r).app = (names steps).getLast?.or r.app := by
  induction steps generalizing r with
  | nil => rfl
  | cons s steps ih =>
    rw [List.foldl_cons, ih]
    cases s with
    | app name =>
      have hcons : names (.app name :: steps) = name :: names steps := rfl
      rw [hcons, List.getLast?_cons]
      cases (names steps).getLast? <;> rfl
    | resource _ | text _ | dialect _ | search _ | alsoSearch _ | catalog _ => rfl

theorem paths_ofSteps (named : ∃ name, .app name ∈ steps) (untold : ∀ s ∈ steps, ∀ paths, s ≠ .search paths) :
    ((ofSteps steps).paths = .cwd :: .platform :: additions steps ↔ NamedFirst steps) ∧
      ((ofSteps steps).paths = .cwd :: additions steps ↔ ¬NamedFirst steps) := by
  obtain ⟨hfirst, hlate⟩ := paths_run_unnamed (r := empty) rfl rfl named untold
  have hne : SearchPath.cwd :: .platform :: additions steps ≠ .cwd :: additions steps := by simp
  by_cases h : NamedFirst steps
  · exact ⟨iff_of_true (hfirst h) h, iff_of_false (hfirst h ▸ hne) (not_not_intro h)⟩
  · exact ⟨iff_of_false (hlate h ▸ hne.symm) h, iff_of_true (hlate h) h⟩

/-- Steps that name the application and tell no list of paths lead to the working directory, the application's own
    directory and the added paths in their order if and only if the application is named before the first path is added;
    otherwise the application's directory is left out, and only that. So another order of the steps in which the paths
    are added in the same order searches the same paths if and only if it is like the first one in this, and then it
    searches the same directories on every host, unless another name comes last. -/
theorem paths_reordered (named : ∃ name, .app name ∈ steps) (untold : ∀ s ∈ steps, ∀ paths, s ≠ .search paths) :
    ((ofSteps steps).paths = .cwd :: .platform :: additions steps ↔ NamedFirst steps) ∧
    ((ofSteps steps).paths = .cwd :: additions steps ↔ ¬NamedFirst steps) ∧
    ∀ other : List Step, other.Perm steps → additions other = additions steps →
      ((ofSteps other).paths = (ofSteps steps).paths ↔ (NamedFirst other ↔ NamedFirst steps)) ∧
      ((NamedFirst other ↔ NamedFirst steps) → (names other).getLast? = (names steps).getLast? →
        ∀ host, (ofSteps other).library host = (ofSteps steps).library host) := by
  obtain ⟨hfirst, hlate⟩ := paths_ofSteps named untold
  refine ⟨hfirst, hlate, fun other hperm hadded => ?_⟩
  obtain ⟨name, hmem⟩ := named
  have hother := paths_ofSteps ⟨name, hperm.mem_iff.mpr hmem⟩ fun s hs => untold s (hperm.mem_iff.mp hs)
  rw [hadded] at hother
  have hpaths : (ofSteps other).paths = (ofSteps steps).paths ↔ (NamedFirst other ↔ NamedFirst steps) := by
    by_cases h : NamedFirst steps
    · rw [hfirst.mpr h, hother.1, iff_true_right h]
    · rw [hlate.mpr h, hother.2, iff_false_right h]
  refine ⟨hpaths, fun hsame hlast host => ?_⟩
  have happ : (ofSteps other).app = (ofSteps steps).app := by rw [ofSteps, ofSteps, app_run, app_run, hlast]
  rw [library, library, hpaths.mpr hsame, happ]

theorem paths_reordered_resource :
    let steps : List Step := [.resource "main.conf", .app "plat", .alsoSearch (.home "cfg"), .alsoSearch (.path "lib")]
    let moved : List Step := [.app "plat", .alsoSearch (.home "cfg"), .resource "main.conf", .alsoSearch (.path "lib")]
    let late : List Step := [.resource "main.conf", .alsoSearch (.home "cfg"), .app "plat", .alsoSearch (.path "lib")]
    (∃ name, .app name ∈ steps) ∧ (∀ s ∈ steps, ∀ paths, s ≠ .search paths) ∧
      (ofSteps steps).paths = [.cwd, .platform, .home "cfg", .path "lib"] ∧
      moved.Perm steps ∧ (∀ host, (ofSteps moved).library host = (ofSteps steps).library host) ∧
      late.Perm steps ∧ (ofSteps late).paths ≠ (ofSteps steps).paths := by
  intro steps moved late
  have named : ∃ name, .app name ∈ steps := ⟨"plat", by simp [steps]⟩
  have untold : ∀ s ∈ steps, ∀ paths, s ≠ .search paths := by simp [steps]
  have hsteps : NamedFirst steps := (namedFirst_cons rfl rfl).mpr (namedFirst_app _ _)
  have hmoved : NamedFirst moved := namedFirst_app _ _
  have hlate : ¬NamedFirst late := fun h => not_namedFirst_alsoSearch _ _ ((namedFirst_cons rfl rfl).mp h)
  have hpermMoved : moved.Perm steps :=
    @List.perm_middle Step (.resource "main.conf") [.app "plat", .alsoSearch (.home "cfg")] [.alsoSearch (.path "lib")]
  have hpermLate : late.Perm steps := (List.Perm.swap _ _ _).cons _
  obtain ⟨hpaths, -, hother⟩ := paths_reordered named untold
  refine ⟨named, untold, hpaths.mpr hsteps, hpermMoved, ?_, hpermLate, fun h => ?_⟩
  · exact (hother moved hpermMoved rfl).2 (iff_of_true hmoved hsteps) rfl
  · exact hlate (((hother late hpermLate rfl).1.mp h).mpr hsteps)

/-- A path that is added before the application is named costs the application's own directory. -/
theorem paths_lateName :
    let steps : List Step := [.app "plat", .alsoSearch (.path "lib")]
    let late : List Step := [.alsoSearch (.path "lib"), .app "plat"]
    (∀ s ∈ late, ∀ paths, s ≠ .search paths) ∧ late.Perm steps ∧ additions late = additions steps ∧
      (ofSteps late).paths = [.cwd, .path "lib"] ∧ (ofSteps late).paths ≠ .cwd :: .platform :: additions late ∧
      (ofSteps late).paths ≠ (ofSteps steps).paths :=
  ⟨by simp, .swap _ _ _, rfl, rfl, by decide, by decide⟩

end Settings.Recipe
