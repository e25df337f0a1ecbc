import IncrementalBuild.State.CompileUnit

/-!
Where objects go. Sources keep their places below the deepest directory that holds all of them, and
their objects lie in the same places below the output directory; steps that would lead out of it are
left out.
-/

namespace IncrementalBuild

namespace Path

/-- The components two lists start with together. -/
def sharedInitial : List Component → List Component → List Component
  | a :: as, b :: bs => if a = b then a :: sharedInitial as bs else []
  | _, _ => []

/-- The deepest directory that holds all paths which lie in one. -/
def commonRoot (ps : List Path) : Path :=
  match (ps.filterMap parent?).map components with
  | [] => ⟨""⟩
  | first :: rest => ofComponents (rest.foldl sharedInitial first)

/-- The path of the ordinary names of a path. -/
def namesOnly (p : Path) : Path :=
  ofComponents <| p.components.filter fun c =>
    match c with
    | .name _ => true
    | _ => false

end Path

namespace State

/-- Where the object of a source goes: at its place below `root`, or by its name alone if it lies
elsewhere. -/
def objectPath (root directory : Path) (extension : String) (source : Path) : Path :=
  let relative := (source.relativeTo? root).getD <|
    ((source.fileName?).map fun n => (⟨n⟩ : Path)).getD source
  (directory.join relative.namesOnly).withExtension extension

/-- The units of a list of sources, with their verdicts. -/
def checkedUnits (d : Disk) (sources : List Path) (root directory : Path) (fingerprint : UInt64)
    (compileStep : Bool) (manifest : Manifest) (extension : String) : List CompileUnit :=
  sources.map fun source =>
    (CompileUnit.make source (objectPath root directory extension source)).check d fingerprint
      compileStep manifest

end State

end IncrementalBuild
