import IncrementalBuild.Build.Order
import IncrementalBuild.Digest.Sha256
import IncrementalBuild.State.Stamp

/-!
A loaded workspace with its projects, and which of them a build is about. The fingerprint of a
project changes with the target, with the place of its description, and with the time that
description or the workspace's was last written.
-/

namespace IncrementalBuild

open Workspace Build

/-- A workspace and its projects, loaded for a target. -/
structure Builder where
  workspace : Workspace
  target : Target
  /-- The projects, in the order the workspace lists them. -/
  projects : List Project
  deriving Inhabited

namespace Builder

/-- Loads the projects of a workspace, behind those that are loaded. -/
def loadProjects {ν : Type} (workspace : Workspace) (target : Target) :
    (loaded : List Project) → List Path → Action ν (List Project)
  | loaded, [] => return loaded
  | loaded, path :: paths => do
    let p ← Action.phase ("load " ++ path.text) do
      let p ← Action.within (.loadProject path) (Project.load path workspace target)
      if loaded.any fun q => q.name = p.name then throw (.duplicateProject p.name workspace.name)
      else return p
    loadProjects workspace target (loaded ++ [p]) paths

/-- Loads a workspace and all its projects. -/
def load {ν : Type} (path : Path) (requested : Target) : Action ν Builder := do
  let (workspace, target) ← Action.phase "load workspace" (Workspace.load path requested)
  let projects ← loadProjects workspace target [] workspace.projects
  return { workspace, target, projects }

/-- The project of a name. -/
def project (b : Builder) (name : String) : Except Failure Project :=
  match projectOf? b.projects name with
  | some p => .ok p
  | none => .error (.unknownProject name b.workspace.name)

/-- The time a file was last written, as eight bytes; a missing file counts as zero. -/
def timeBytes (d : Disk) (p : Path) : ByteArray :=
  Digest.bytesOf (Digest.littleEndian ((d.modified? p).getD 0))

/-- What the outputs of a project depend on beside its files. -/
def fingerprint (b : Builder) (d : Disk) (p : Project) : UInt64 :=
  let parts := [b.target.configuration.toUTF8, b.target.platform.toUTF8, p.path.text.toUTF8,
    timeBytes d p.path, timeBytes d b.workspace.path]
  parts.foldl Digest.hash64 0

/-- What a project needs, in the order it is built, and then the project itself. -/
def order (b : Builder) (name : String) : Except Failure (List Project) :=
  buildOrder b.projects b.workspace.name name

/-- The projects that are meant by a name, or all; with what they need, or without. -/
def selection (b : Builder) (name : Option String) (withDependencies : Bool) :
    Except Failure (List Project) :=
  let names := match name with
    | some n => [n]
    | none => b.projects.map Project.name
  if withDependencies then buildOrderOfAll b.projects b.workspace.name [] names
  else names.mapM b.project

/-- The libraries that a project is linked against, each before those that it needs itself. -/
def dependencyOutputs (b : Builder) (p : Project) : Except Failure (List Path) := do
  let order ← b.order p.name
  return (order.reverse.filter fun q => q.name ≠ p.name && q.outputType.isLibrary).map
    Project.outputFile

end Builder

end IncrementalBuild
