import IncrementalBuild.State.Stamp

/-!
What is known of the outputs of a project: for each, the fingerprint and the inputs it was built
from. Records are kept in the order of their output paths, and two spellings of a path are one
output.
-/

namespace IncrementalBuild.State

/-- A secondary input and its state when it was recorded. -/
structure DependencyRecord where
  path : Path
  stamp : Stamp
  deriving Repr, Inhabited

/-- What is known of one output. -/
structure Record where
  /-- The configuration it was built for. -/
  fingerprint : UInt64
  /-- The fingerprint with the source's time and length folded in. -/
  inputHash : UInt64
  source : Stamp
  /-- The secondary inputs, in the order they were found. -/
  dependencies : List DependencyRecord
  deriving Repr, Inhabited

/-- The records of a project's outputs. -/
structure Manifest where
  version : Nat
  records : SortedMap Path Record
  deriving Repr, Inhabited

/-- The fingerprint with the time and length of a source folded in; a missing source counts as
zero. -/
def inputHash (d : Disk) (fingerprint : UInt64) (source : Path) : UInt64 :=
  Digest.hash64 fingerprint <| Digest.bytesOf <|
    Digest.littleEndian ((d.metadataHash? source).getD 0)

namespace Manifest

/-- The version of the form manifests are kept in. -/
def currentVersion : Nat := 1

/-- The manifest without records. -/
def empty : Manifest := ⟨currentVersion, .empty⟩

/-- What is known of an output. -/
def get? (m : Manifest) (output : Path) : Option Record :=
  m.records.get? Path.order output

/-- The stamps of secondary inputs as they are on the disk. -/
def captureAll (d : Disk) : List Path → Except Failure (List DependencyRecord)
  | [] => .ok []
  | p :: ps => do
    let stamp ← Stamp.capture d p
    return ⟨p, stamp⟩ :: (← captureAll d ps)

/-- The manifest in which `output` is recorded as built from `source` and `dependencies`, as they
are on the disk. The source is not recorded among the dependencies. -/
def record (m : Manifest) (d : Disk) (source output : Path) (fingerprint : UInt64)
    (dependencies : List Path) : Except Failure Manifest := do
  let stamp ← Stamp.capture d source
  let recorded ← captureAll d (dependencies.filter fun p => !(p == source))
  let entry : Record := ⟨fingerprint, inputHash d fingerprint source, stamp, recorded⟩
  return { m with records := m.records.insert Path.order output entry }

/-- The manifest without the outputs that are not among `outputs`. -/
def retain (m : Manifest) (outputs : List Path) : Manifest :=
  { m with records := m.records.keep fun p => outputs.any fun q => q == p }

end Manifest

end IncrementalBuild.State
