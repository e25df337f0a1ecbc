import IncrementalBuild.Settings.Resolution
import IncrementalBuild.Workspace.Options
import IncrementalBuild.Workspace.Pattern
import IncrementalBuild.World

/-!
What loading workspaces and projects has in common: description files read from the disk, settings
put into them from outside, and values read out of them.
-/

namespace IncrementalBuild

namespace Path

/-- A path seen from the root, with `.` and repeated separators left out. The empty path has no
place. -/
def absolute? (workingDirectory p : Path) : Option Path :=
  if p.text.isEmpty then none
  else
    let written := p.components.filter fun c => c != .current
    let start := if p.isAbsolute then [] else workingDirectory.components
    let full := ofComponents (start ++ written)
    let doubled := p.text.startsWith "//" && !p.text.startsWith "///"
    let full : Path := if doubled then ⟨"/" ++ full.text⟩ else full
    some (if p.text.endsWith "/" then full.join ⟨""⟩ else full)

end Path

namespace Workspace

/-- The configuration and the platform a build is for, as the workspace names them. -/
structure Target where
  configuration : String
  platform : String
  deriving DecidableEq, Repr, Inhabited

/-- The directory of a file, seen from the root. -/
def directoryOf (d : Disk) (file : Path) : Except Failure Path :=
  match Path.absolute? d.workingPath file with
  | none => .error (.unresolvablePath file)
  | some full => .ok (full.parent?.getD ⟨""⟩)

/-- The description in a file. -/
def readDescription (d : Disk) (file : Path) : Except Failure Settings.Model :=
  match d.readText file with
  | .error fault => .error (.description (.unreadable file fault.message))
  | .ok source => (Settings.Model.ofSource file source).mapError .description

/-- Puts a setting into a description. -/
def inject (m : Settings.Model) (group key value : String) : Except Failure Settings.Model :=
  (m.set group key value).mapError (.setting group key)

/-- Puts the target and the host into a description. -/
def injectTarget (d : Disk) (target : Target) (m : Settings.Model) :
    Except Failure Settings.Model := do
  let m ← inject m "Target" "Configuration" target.configuration
  let m ← inject m "Target" "Platform" target.platform
  let m ← inject m "Host" "Platform" Platform.hostName
  inject m "Host" "Directory" d.workingPath.text

/-- Puts the place of a description into it. -/
def injectPlace (kind : String) (file directory : Path) (m : Settings.Model) :
    Except Failure Settings.Model := do
  let m ← inject m kind "File" file.text
  inject m kind "Directory" directory.text

/-- The choice a setting names, if it is set. -/
def choiceOf {α : Type} (m : Settings.Model) (group key : String) (choices : Choices α) :
    Except Failure (Option α) :=
  match m.value? group key with
  | none => .ok none
  | some value =>
    match choice? choices (Text.trimmed value) with
    | some c => .ok (some c)
    | none => .error (.unknownChoice m.path value group key (choices.map Prod.fst))

/-- The choice a setting names, or a default if it is not set. -/
def choiceOr {α : Type} (m : Settings.Model) (group key : String) (choices : Choices α)
    (fallback : α) : Except Failure α := do
  return (← choiceOf m group key choices).getD fallback

/-- The name of what a description describes, which must be set. -/
def nameOf (m : Settings.Model) (file : Path) (kind : String) : Except Failure String :=
  match m.value? kind "Name" with
  | some name => .ok name
  | none => .error (.nameNotSet file (kind ++ ".Name"))

end Workspace

end IncrementalBuild
