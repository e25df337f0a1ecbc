import IncrementalBuild.State.CompilerMessage
import IncrementalBuild.State.Manifest

/-!
Compile units and whether they have to be built again. A unit is fresh when its output exists, its
record has the current fingerprint, and no recorded input differs from its stamp; the first check
that fails is the reason it is stale.
-/

namespace IncrementalBuild.State

/-- Why an output has to be built again. -/
inductive StaleReason where
  | outputMissing
  | noRecord
  | configurationChanged
  | source (m : Mismatch)
  | dependency (m : Mismatch)
  | inputSetChanged
  deriving Repr, Inhabited

/-- A reason as messages show it. -/
def StaleReason.text : StaleReason → String
  | outputMissing => "output missing"
  | noRecord => "no manifest record"
  | configurationChanged => "configuration changed"
  | source m => "source " ++ m.text
  | dependency m => "dependency " ++ m.text
  | inputSetChanged => "input set changed"

/-- The result of a check. -/
inductive Verdict where
  | fresh
  | stale (reason : StaleReason)
  deriving Repr, Inhabited

/-- The reason of a verdict, if it is one against the output. -/
def Verdict.reason? : Verdict → Option StaleReason
  | fresh => none
  | stale r => some r

/-- A source with what is built from it. For the artifact of a project, the source is the project's
description. -/
structure CompileUnit where
  source : Path
  output : Path
  /-- The dependency file the compiler writes beside the output. -/
  dependencyFile : Path
  /-- The fingerprint with the source's time and length folded in, once the unit is checked. -/
  inputHash : UInt64
  /-- The last check's verdict. -/
  verdict : Option Verdict
  /-- The secondary inputs on record. -/
  dependencies : List Path
  /-- What the compiler said about the unit. -/
  messages : List CompilerMessage
  deriving Repr, Inhabited

namespace CompileUnit

/-- A unit that has not been checked. -/
def make (source output : Path) : CompileUnit where
  source
  output
  dependencyFile := output.withExtension "d"
  inputHash := 0
  verdict := none
  dependencies := []
  messages := []

/-- Whether the output has to be built again. A unit that has not been checked has to. -/
def isStale (u : CompileUnit) : Bool :=
  match u.verdict with
  | some .fresh => false
  | _ => true

/-- Why the output has to be built again, if a check said so. -/
def staleReason? (u : CompileUnit) : Option StaleReason :=
  u.verdict.bind Verdict.reason?

end CompileUnit

/-- The first recorded input of a list that differs from its stamp. -/
def firstMismatch? (d : Disk) (rs : List DependencyRecord) : Option Mismatch :=
  rs.findSome? fun r => r.stamp.mismatch? d r.path

/-- Whether an output that exists and was built from a source with the hash `current` is as its
record says. Where the hash is the recorded one, the source is not looked at. -/
def Record.verdict (r : Record) (d : Disk) (fingerprint current : UInt64) (source : Path) :
    Verdict :=
  if r.fingerprint ≠ fingerprint then .stale .configurationChanged
  else match if r.inputHash ≠ current then r.source.mismatch? d source else none with
    | some m => .stale (.source m)
    | none =>
      match firstMismatch? d r.dependencies with
      | some m => .stale (.dependency m)
      | none => .fresh

/-- A unit with its verdict. Without a compile step the output has only to exist. -/
def CompileUnit.check (u : CompileUnit) (d : Disk) (fingerprint : UInt64) (compileStep : Bool)
    (manifest : Manifest) : CompileUnit :=
  let current := State.inputHash d fingerprint u.source
  let u := { u with inputHash := current }
  if !d.present u.output then { u with verdict := some (.stale .outputMissing) }
  else if !compileStep then { u with verdict := some .fresh }
  else match manifest.get? u.output with
    | none => { u with verdict := some (.stale .noRecord) }
    | some r => { u with
        dependencies := r.dependencies.map DependencyRecord.path
        verdict := some (r.verdict d fingerprint current u.source) }

/-- A fresh unit with a verdict against it where its recorded inputs are not exactly `inputs`. -/
def CompileUnit.checkInputs (u : CompileUnit) (inputs : List Path) : CompileUnit :=
  if u.isStale || u.dependencies == inputs then u
  else { u with verdict := some (.stale .inputSetChanged) }

/-- Units with the messages of their sources, which leave the log. -/
def attachMessages : List CompileUnit → MessageLog → List CompileUnit × MessageLog
  | [], log => ([], log)
  | u :: us, log =>
    let (found, log) := log.take u.source
    let (us, log) := attachMessages us log
    (match found with
      | some messages => { u with messages }
      | none => u) :: us |> (·, log)

end IncrementalBuild.State
