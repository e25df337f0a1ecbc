import IncrementalBuild.Workspace.Loading

/-!
Workspaces: the configurations and platforms they declare, and the projects they list. A workspace
is read once to choose the target, where none is asked for, and resolved again with it.
-/

namespace IncrementalBuild

/-- A workspace as its description file declares it. -/
structure Workspace where
  /-- The description file, as it was given. -/
  path : Path
  /-- Where the description file lies, from the root. -/
  directory : Path
  name : String
  configurations : List String
  platforms : List String
  /-- The description files of the projects, from the root. -/
  projects : List Path
  /-- The resolved description, which every project is layered over. -/
  settings : Settings.Model
  deriving Inhabited

namespace Workspace

/-- What is asked for, or the first that is declared if nothing is. -/
def pick (requested : String) (declared : Option String) : String :=
  if requested.isEmpty then declared.getD "" else requested

/-- A description as it is shared by a workspace's parts, resolved for a target. -/
def settingsFor (d : Disk) (path directory : Path) (target : Target) (m : Settings.Model) :
    Except Failure Settings.Model := do
  let m ← injectTarget d target m
  let m ← injectPlace "Workspace" path directory m
  return m.resolve

/-- The workspace a resolved description declares, for a target that it has to declare. -/
def ofSettings (path directory : Path) (target : Target) (m : Settings.Model) :
    Except Failure Workspace := do
  let name ← nameOf m path "Workspace"
  let configurations := m.valuesOf "Configurations" "Configuration"
  let platforms := m.valuesOf "Platforms" "Platform"
  if !configurations.contains target.configuration then
    throw (.undeclared "configuration" target.configuration name configurations)
  if !platforms.contains target.platform then
    throw (.undeclared "platform" target.platform name platforms)
  match platforms.find? fun p => (Platform.ofName? p).isNone with
  | some bad => throw (.unknownPlatformIn path bad)
  | none =>
    let projects := (m.valuesOf "Projects" "Project").map (rooted directory)
    return { path, directory, name, configurations, platforms, projects, settings := m }

/-- Loads a workspace for a target, and completes the target. -/
def load {ν : Type} (path : Path) (requested : Target) : Action ν (Workspace × Target) := do
  let d ← Action.disk
  let directory ← Action.ofExcept (directoryOf d path)
  let declared := (← Action.ofExcept (readDescription d path)).resolve
  let target : Target :=
    ⟨pick requested.configuration (declared.value? "Configurations" "Configuration"),
      pick requested.platform (declared.value? "Platforms" "Platform")⟩
  let m ← Action.ofExcept (settingsFor d path directory target declared)
  Action.tell (·.diagnostics m.path m.diagnostics)
  let workspace ← Action.ofExcept (ofSettings path directory target m)
  return (workspace, target)

end Workspace

end IncrementalBuild
