import IncrementalBuild.Digest.Sha256
import IncrementalBuild.Failure

/-!
Stamps of files. A stamp holds a hash of a file's time and length and a digest of its contents, so a
file whose time and length are as they were needs not be read, and one that was only touched is
still the same.
-/

namespace IncrementalBuild

namespace Disk

/-- When a file was last written, in nanoseconds since 1970, if that is a number of sixty-four
bits. -/
def modified? (d : Disk) (p : Path) : Option UInt64 :=
  (d.metadata? p).bind fun (modified, _) =>
    if 0 ≤ modified ∧ modified < UInt64.size then some (UInt64.ofNat modified.toNat) else none

/-- The hash of a file's time and length. -/
def metadataHash? (d : Disk) (p : Path) : Option UInt64 := do
  let (_, length) ← d.metadata? p
  let modified ← d.modified? p
  return Digest.hash64 0 <| Digest.bytesOf <|
    Digest.littleEndian modified ++ Digest.littleEndian (UInt64.ofNat length)

/-- The digest of a file's contents. -/
def contentHash (d : Disk) (p : Path) : Except Failure String :=
  match d.read p with
  | .ok bytes => .ok (Digest.contentHash bytes)
  | .error fault => .error (.hash p fault)

end Disk

namespace State

/-- The state of a file when it was recorded. -/
structure Stamp where
  metadata : UInt64
  contentHash : String
  deriving DecidableEq, Repr, Inhabited

/-- How a file differs from its stamp. -/
inductive Mismatch where
  | missing (p : Path)
  | changed (p : Path)
  /-- Its time or length differ, and it cannot be read. -/
  | unreadable (p : Path)
  deriving Repr, Inhabited

/-- A mismatch as messages show it. -/
def Mismatch.text : Mismatch → String
  | missing p => "missing: " ++ p.text
  | changed p => "changed: " ++ p.text
  | unreadable p => "failed to hash: " ++ p.text

namespace Stamp

/-- The stamp of a file as it is on the disk. -/
def capture (d : Disk) (p : Path) : Except Failure Stamp :=
  match d.metadataHash? p with
  | none => .error (.stat p)
  | some metadata => do return ⟨metadata, ← d.contentHash p⟩

/-- How the file on the disk differs from the stamp, if it does. A file whose time and length are
those of the stamp is not read. -/
def mismatch? (s : Stamp) (d : Disk) (p : Path) : Option Mismatch :=
  match d.metadataHash? p with
  | none => some (.missing p)
  | some metadata =>
    if metadata = s.metadata then none
    else match d.contentHash p with
      | .ok h => if h = s.contentHash then none else some (.changed p)
      | .error _ => some (.unreadable p)

end Stamp

end State

end IncrementalBuild
