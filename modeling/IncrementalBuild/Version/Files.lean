import IncrementalBuild.Version.Info
import IncrementalBuild.Workspace.Project

/-!
Writing the version files of a project. The last change is the time of the project's description, so
the files change only when the project does; they are written only where their contents differ.
-/

namespace IncrementalBuild.Version

/-- The version a project declares. -/
def Info.ofProject (d : Disk) (p : Project) : Except Failure Info :=
  match p.versionSource with
  | .sourceControl => .error (.versionFromSourceControl p.name)
  | .none =>
    let modified := ((d.metadata? p.path).map Prod.fst).getD 0
    let declared := p.version.getD ""
    .ok ⟨declared, declared, Date.ofSeconds (modified / 1000000000), 0⟩

/-- Writes a file unless it has these contents already, and says whether it was written. -/
def writeIfChanged {ν : Type} (p : Path) (contents : String) : Action ν Bool := do
  let d ← Action.disk
  if (d.readText p).toOption == some contents then return false
  Action.createParent p
  Action.onDisk (.write p) (·.write p contents.toUTF8)
  return true

/-- Writes the version files of a project that declares them, and says whether either was
written. -/
def writeFiles {ν : Type} (p : Project) : Action ν Bool := do
  match p.versionHeader, p.versionSourceFile with
  | none, none => return false
  | some header, some source =>
    let info ← Action.ofExcept (Info.ofProject (← Action.disk) p)
    match header.fileName? with
    | none => throw (.versionHeaderName header)
    | some headerName =>
      let wroteHeader ← writeIfChanged header (info.header p.language)
      let wroteSource ← writeIfChanged source (info.source p.language headerName)
      return wroteHeader || wroteSource
  | _, _ => throw (.versionFilesApart p.name)

end IncrementalBuild.Version
