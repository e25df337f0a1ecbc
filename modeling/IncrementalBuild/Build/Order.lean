import IncrementalBuild.Workspace.Project

/-!
The order projects are built in: dependencies before what depends on them. The search goes from a
project to its dependencies in the order they are declared; it fails where it meets a project it
came through, or a name that no project has.
-/

namespace IncrementalBuild.Build

/-- The project of a name. -/
def projectOf? (projects : List Project) (name : String) : Option Project :=
  projects.find? fun p => p.name = name

/-- The projects that a search did not come through. -/
def notOnPath (projects : List Project) (path : List String) : List Project :=
  projects.filter fun p => !path.contains p.name

/-- A project that the search comes through next is one fewer that it did not come through. -/
theorem length_notOnPath_lt {projects : List Project} {path : List String} {name : String}
    {p : Project} (hp : projectOf? projects name = some p) (hnew : ¬ name ∈ path) :
    (notOnPath projects (path ++ [name])).length < (notOnPath projects path).length := by
  have hmem : p ∈ projects := List.mem_of_find?_eq_some hp
  have hname : p.name = name := by simpa using List.find?_some hp
  have hsub : notOnPath projects (path ++ [name]) =
      (notOnPath projects path).filter fun q => q.name ≠ name := by
    simp only [notOnPath, List.filter_filter]
    refine List.filter_congr fun q _ => ?_
    by_cases h : q.name = name <;> simp [h]
  rw [hsub]
  refine List.length_filter_lt_length_iff_exists.2 ⟨p, ?_, by simp [hname]⟩
  simp [notOnPath, hmem, hname, hnew]

/-- The projects in `found`, and behind them those that `name` needs and the search has not found
yet, each behind its dependencies. `path` is how the search came to `name`. -/
def search (projects : List Project) (workspace : String) (path : List String) (name : String)
    (found : List Project) : Except Failure (List Project) :=
  if found.any fun p => p.name = name then .ok found
  else if _hnew : name ∈ path then .error (.projectCycle (path ++ [name]))
  else match _hp : projectOf? projects name with
    | none => .error (.unknownProject name workspace)
    | some p => do
      let found ← p.dependencies.foldlM
        (fun found dependency =>
          (search projects workspace (path ++ [name]) dependency found).mapError
            (.dependencies name)) found
      return found ++ [p]
termination_by (notOnPath projects path).length
decreasing_by exact length_notOnPath_lt _hp _hnew

/-- What a project needs, in the order it is built, and then the project itself. -/
def buildOrder (projects : List Project) (workspace name : String) :
    Except Failure (List Project) :=
  search projects workspace [] name []

/-- The projects that building some of them needs, in the order they are built. -/
def buildOrderOfAll (projects : List Project) (workspace : String) :
    (selected : List Project) → List String → Except Failure (List Project)
  | selected, [] => .ok selected
  | selected, name :: names => do
    let order ← buildOrder projects workspace name
    let selected := order.foldl (fun selected p =>
      if selected.any fun q => q.name = p.name then selected else selected ++ [p]) selected
    buildOrderOfAll projects workspace selected names

end IncrementalBuild.Build
