import IncrementalBuild.Proofs.Disk.Frame
import IncrementalBuild.State.CompileUnit

/-!
What a verdict says of the files it is about: those of a unit that is fresh have the contents they
had when the unit was recorded.
-/

namespace IncrementalBuild

namespace Disk

variable {d e : Disk} {p : Path}

theorem contentHash_eq_ok {h : String} (hhash : d.contentHash p = .ok h) :
    ∃ f, d.lookup p = .ok (.file f) ∧ h = Digest.contentHash f.bytes := by
  unfold contentHash at hhash
  split at hhash
  next bytes hread =>
    cases hhash
    obtain ⟨f, hf, rfl⟩ := read_eq_ok_iff.1 hread
    exact ⟨f, hf, rfl⟩
  · cases hhash

/-- What a stamp holds of the files at a path on two disks tells them apart: time or length
change where the contents do, and what is hashed is the same where the hashes are. -/
structure Tells (d e : Disk) (p : Path) : Prop where
  contents_eq : d.metadata? p = e.metadata? p → d.contents? p = e.contents? p
  metadata_eq : ∀ h, d.metadataHash? p = some h → e.metadataHash? p = some h →
    d.metadata? p = e.metadata? p
  digest_eq : ∀ h, d.contentHash p = .ok h → e.contentHash p = .ok h →
    d.contents? p = e.contents? p

namespace KeepsFile

theorem metadataHash? (h : d.KeepsFile e p) {f : FileNode} (hf : d.lookup p = .ok (.file f)) :
    e.metadataHash? p = d.metadataHash? p := by
  simp only [Disk.metadataHash?, modified?, metadata?, hf, h f hf]

end KeepsFile

end Disk

namespace State

open Disk

variable {d e : Disk} {p : Path}

theorem Stamp.capture_eq_ok {s : Stamp} (h : Stamp.capture d p = .ok s) :
    d.metadataHash? p = some s.metadata ∧ d.contentHash p = .ok s.contentHash := by
  unfold Stamp.capture at h
  split at h
  · cases h
  next metadata hmetadata =>
    obtain ⟨digest, hdigest, h⟩ := bind_eq_ok_iff.1 h
    cases h
    exact ⟨hmetadata, hdigest⟩

/-- Only of a file is a stamp taken. -/
theorem Stamp.file_of_capture {s : Stamp} (h : Stamp.capture d p = .ok s) :
    ∃ f, d.lookup p = .ok (.file f) := by
  obtain ⟨f, hf, -⟩ := contentHash_eq_ok (Stamp.capture_eq_ok h).2
  exact ⟨f, hf⟩

theorem Stamp.contents?_of_capture {s : Stamp} (h : Stamp.capture d p = .ok s) :
    ∃ bytes, d.contents? p = some bytes := by
  obtain ⟨f, hf⟩ := Stamp.file_of_capture h
  exact ⟨f.bytes, contents?_eq_some_iff.2 ⟨f, hf, rfl⟩⟩

/-- The stamp of a file is the same where the file is. -/
theorem Stamp.capture_keeps {s : Stamp} (hkeeps : d.KeepsFile e p)
    (h : Stamp.capture d p = .ok s) : Stamp.capture e p = .ok s := by
  obtain ⟨f, hf⟩ := Stamp.file_of_capture h
  unfold Stamp.capture at h ⊢
  rw [hkeeps.metadataHash? hf]
  simpa only [Disk.contentHash, Disk.read, hkeeps f hf, hf] using h

theorem inputHash_keeps {s : Stamp} (hkeeps : d.KeepsFile e p)
    (h : Stamp.capture d p = .ok s) (fingerprint : UInt64) :
    inputHash e fingerprint p = inputHash d fingerprint p := by
  obtain ⟨f, hf⟩ := Stamp.file_of_capture h
  rw [inputHash, inputHash, hkeeps.metadataHash? hf]

/-- A file that does not differ from its stamp has the contents it had when the stamp was taken. -/
theorem Stamp.contents?_eq_of_mismatch? {s : Stamp} (hcapture : Stamp.capture d p = .ok s)
    (htells : d.Tells e p) (h : s.mismatch? e p = none) : e.contents? p = d.contents? p := by
  obtain ⟨hmetadata, hdigest⟩ := Stamp.capture_eq_ok hcapture
  unfold Stamp.mismatch? at h
  split at h
  · cases h
  next metadata hnow =>
    split at h
    next heq =>
      subst heq
      exact (htells.contents_eq (htells.metadata_eq _ hmetadata hnow)).symm
    next =>
      split at h
      next digest hdigestNow =>
        split at h
        next heq =>
          subst heq
          exact (htells.digest_eq _ hdigest hdigestNow).symm
        · cases h
      · cases h

theorem firstMismatch?_eq_none_iff {rs : List DependencyRecord} :
    firstMismatch? d rs = none ↔ ∀ r ∈ rs, r.stamp.mismatch? d r.path = none :=
  List.findSome?_eq_none_iff

theorem Record.verdict_eq_fresh_iff {r : Record} {fingerprint current : UInt64} :
    r.verdict d fingerprint current p = .fresh ↔
      r.fingerprint = fingerprint ∧ (r.inputHash = current ∨ r.source.mismatch? d p = none) ∧
        ∀ x ∈ r.dependencies, x.stamp.mismatch? d x.path = none := by
  rw [← firstMismatch?_eq_none_iff, Record.verdict]
  by_cases hfingerprint : r.fingerprint = fingerprint
  · by_cases hhash : r.inputHash = current
    · cases firstMismatch? d r.dependencies <;> simp [hfingerprint, hhash]
    · cases r.source.mismatch? d p <;> cases firstMismatch? d r.dependencies <;>
        simp [hfingerprint, hhash]
  · simp [hfingerprint]

/-- A unit that is found fresh has a record whose verdict it is. -/
theorem CompileUnit.record_of_fresh {source output : Path} {fingerprint : UInt64} {m : Manifest}
    (h : ((make source output).check d fingerprint true m).isStale = false) :
    ∃ r, m.get? output = some r ∧
      r.verdict d fingerprint (State.inputHash d fingerprint source) source = .fresh := by
  unfold CompileUnit.check make at h
  dsimp only at h
  split at h
  · cases h
  rw [Bool.not_true, if_neg Bool.false_ne_true] at h
  split at h
  · cases h
  next r hr =>
    refine ⟨r, hr, ?_⟩
    unfold CompileUnit.isStale at h
    dsimp only at h
    split at h
    next hfresh => exact Option.some.inj hfresh
    · cases h

theorem CompileUnit.fresh_of_checkInputs {u : CompileUnit} {inputs : List Path}
    (h : (u.checkInputs inputs).isStale = false) : u.isStale = false := by
  unfold CompileUnit.checkInputs at h
  split at h
  · exact h
  · cases h

/-- What a check leaves as it is. -/
theorem CompileUnit.check_make (source output : Path) (d : Disk) (fingerprint : UInt64)
    (compileStep : Bool) (m : Manifest) :
    ((make source output).check d fingerprint compileStep m).source = source ∧
      ((make source output).check d fingerprint compileStep m).output = output ∧
      ((make source output).check d fingerprint compileStep m).dependencyFile =
        output.withExtension "d" := by
  unfold CompileUnit.check
  dsimp only
  split
  · exact ⟨rfl, rfl, rfl⟩
  · split
    · exact ⟨rfl, rfl, rfl⟩
    · split <;> exact ⟨rfl, rfl, rfl⟩

end State

end IncrementalBuild
