import IncrementalBuild.Build.Task
import IncrementalBuild.Workspace.Project

/-!
Toolchains: what turns the units of a project into tasks. A build knows of a toolchain only what is
said here, so any other one can take the place of a compiler.
-/

namespace IncrementalBuild.Build

/-- What a toolchain is asked to build. -/
structure Request where
  project : Project
  /-- The artifacts the project is linked against, dependents first. -/
  dependencyOutputs : List Path
  deriving Inhabited

/-- A toolchain that is ready to be used. -/
structure Toolchain (ν : Type) where
  /-- Its name and version. -/
  description : String
  /-- Whether each source is compiled on its own, into an output that is recorded. -/
  compileStep : Bool
  /-- The extension of what a source is compiled into. -/
  objectExtension : String
  /-- The tasks that bring an artifact up to date: only stale units have to be compiled, but all are
  linked. -/
  tasks : (units : List State.CompileUnit) → (fingerprint : UInt64) → (output : Path) →
    (version : Option String) → List (Task ν)

/-- How a build comes by a toolchain: it is chosen, and then made ready. -/
abbrev ToolchainChoice (ν : Type) := Request → Except Failure (Action ν (Toolchain ν))

end IncrementalBuild.Build
