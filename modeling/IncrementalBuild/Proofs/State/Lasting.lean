import IncrementalBuild.Proofs.Disk.Leaves
import IncrementalBuild.Proofs.State.Recording
import IncrementalBuild.Proofs.State.RoundTrip

/-!
How long a verdict lasts. A record that was just taken holds, and it holds as long as the files it
is about are left alone; a unit with such a record is fresh as long as its output is there.
-/

namespace IncrementalBuild

namespace Disk

variable {d e : Disk} {p : Path}

theorem present_of_metadataHash? (h : (d.metadataHash? p).isSome) : d.present p = true := by
  unfold metadataHash? metadata? at h
  unfold present
  cases hlookup : d.lookup p with
  | ok n => rfl
  | error fault => simp [hlookup] at h

namespace KeepsNode

theorem modified? (h : d.KeepsNode e p) (hd : d.present p = true) :
    e.modified? p = d.modified? p := by
  simp only [Disk.modified?, metadata?, h.lookup_eq hd]

theorem metadataHash? (h : d.KeepsNode e p) (hd : d.present p = true) :
    e.metadataHash? p = d.metadataHash? p := by
  simp only [Disk.metadataHash?, Disk.modified?, metadata?, h.lookup_eq hd]

theorem contentHash (h : d.KeepsNode e p) (hd : d.present p = true) :
    e.contentHash p = d.contentHash p := by
  simp only [Disk.contentHash, read, h.lookup_eq hd]

end KeepsNode

end Disk

namespace State

open Disk

variable {d e : Disk} {p source : Path} {fingerprint : UInt64}

theorem Stamp.present_of_mismatch? {s : Stamp} (h : s.mismatch? d p = none) :
    d.present p = true := by
  apply present_of_metadataHash?
  unfold mismatch? at h
  split at h
  · cases h
  next hsome => rw [hsome, Option.isSome_some]

/-- A file that did not differ from its stamp does not differ from it while it is left alone. -/
theorem Stamp.mismatch?_keeps {s : Stamp} (hkeeps : d.KeepsNode e p)
    (h : s.mismatch? d p = none) : s.mismatch? e p = none := by
  have hpresent := present_of_mismatch? h
  unfold mismatch? at h ⊢
  rwa [hkeeps.metadataHash? hpresent, hkeeps.contentHash hpresent]

theorem Stamp.mismatch?_capture {s : Stamp} (h : Stamp.capture d p = .ok s) :
    s.mismatch? d p = none := by
  obtain ⟨hmetadata, -⟩ := capture_eq_ok h
  simp [mismatch?, hmetadata]

/-- The source is there, and the verdict of the record is for the unit. -/
structure Record.Holds (r : Record) (d : Disk) (fingerprint : UInt64) (source : Path) : Prop where
  source_isSome : (d.metadataHash? source).isSome
  verdict_eq : r.verdict d fingerprint (State.inputHash d fingerprint source) source = .fresh

/-- The record does not have the hash that a missing source counts as. -/
def Record.OfSource (r : Record) : Prop :=
  r.inputHash ≠ Digest.hash64 r.fingerprint (Digest.bytesOf (Digest.littleEndian 0))

namespace Record

variable {r : Record}

theorem Taken.holds {dependencies : List Path} (h : r.Taken d source dependencies)
    (hfingerprint : r.fingerprint = fingerprint) : r.Holds d fingerprint source := by
  refine ⟨by rw [(Stamp.capture_eq_ok h.source_eq).1]; rfl, verdict_eq_fresh_iff.2 ⟨hfingerprint,
    .inl ?_, fun x hx => Stamp.mismatch?_capture (h.stamps_eq x hx)⟩⟩
  rw [h.inputHash_eq, hfingerprint]

theorem OfSource.holds (h : r.OfSource)
    (hfresh : r.verdict d fingerprint (State.inputHash d fingerprint source) source = .fresh) :
    r.Holds d fingerprint source := by
  refine ⟨?_, hfresh⟩
  obtain ⟨rfl, hhash | hstamp, -⟩ := verdict_eq_fresh_iff.1 hfresh
  · cases hmetadata : d.metadataHash? source with
    | some metadata => rfl
    | none =>
      rw [State.inputHash, hmetadata, Option.getD_none] at hhash
      exact absurd hhash h
  · cases hmetadata : d.metadataHash? source with
    | some metadata => rfl
    | none => simp [Stamp.mismatch?, hmetadata] at hstamp

/-- A record holds as long as the source and the recorded dependencies are left alone. -/
theorem Holds.keeps (h : r.Holds d fingerprint source) (hsource : d.KeepsNode e source)
    (hdependencies : ∀ x ∈ r.dependencies, d.KeepsNode e x.path) :
    r.Holds e fingerprint source := by
  have hmetadata := hsource.metadataHash? (present_of_metadataHash? h.source_isSome)
  refine ⟨hmetadata ▸ h.source_isSome, ?_⟩
  obtain ⟨hfingerprint, hsourceSame, hstamps⟩ := verdict_eq_fresh_iff.1 h.verdict_eq
  rw [verdict_eq_fresh_iff, State.inputHash, hmetadata]
  refine ⟨hfingerprint, hsourceSame.imp_right (Stamp.mismatch?_keeps hsource), fun x hx => ?_⟩
  exact Stamp.mismatch?_keeps (hdependencies x hx) (hstamps x hx)

end Record

/-- A unit is found fresh exactly if its output is there and, where it has to be compiled, the
verdict of its record is for it. -/
theorem CompileUnit.isStale_check {output : Path} {compileStep : Bool} {m : Manifest} :
    ((make source output).check d fingerprint compileStep m).isStale = false ↔
      d.present output = true ∧ (compileStep = true → ∃ r, m.get? output = some r ∧
        r.verdict d fingerprint (State.inputHash d fingerprint source) source = .fresh) := by
  unfold check make
  dsimp only
  cases hpresent : d.present output with
  | false => simp [isStale]
  | true =>
    cases compileStep with
    | false => simp [isStale]
    | true =>
      cases hget : m.get? output with
      | none => simp [isStale]
      | some r =>
        simp only [isStale, Option.some.injEq, exists_eq_left', forall_const, true_and]
        cases r.verdict d fingerprint (State.inputHash d fingerprint source) source <;> simp

/-- The dependencies of a unit that has to be compiled and is fresh are those on record. -/
theorem CompileUnit.dependencies_check {output : Path} {m : Manifest} {r : Record}
    (hpresent : d.present output = true) (hget : m.get? output = some r) :
    ((make source output).check d fingerprint true m).dependencies =
      r.dependencies.map DependencyRecord.path := by
  simp [check, make, hpresent, hget]

theorem CompileUnit.isStale_checkInputs {u : CompileUnit} {inputs : List Path} :
    (u.checkInputs inputs).isStale = false ↔
      u.isStale = false ∧ (u.dependencies == inputs) = true := by
  unfold checkInputs
  split
  next h => rcases Bool.or_eq_true_iff.1 h with hstale | hinputs <;> simp_all
  next h =>
    obtain ⟨-, hinputs⟩ := Bool.or_eq_false_iff.1 (Bool.eq_false_iff.2 h)
    simp [isStale, hinputs]

namespace Manifest

variable {m : Manifest}

/-- A manifest with records is read as long as its file is left alone. -/
theorem read_keeps {output : Path} {r : Record} (h : read d p = .ok m)
    (hget : m.get? output = some r) (hkeeps : d.KeepsNode e p) : read e p = .ok m := by
  unfold read at h ⊢
  split at h
  · cases h
    cases hget
  · cases h
  next text hread =>
    rw [hkeeps.readText hread]
    exact h

/-- Keeping a manifest writes the file and the temporary one. -/
theorem leaves_of_write (hd : d.Grounded) (h : m.write p d = (.ok (), e))
    (Watched : Path → Prop) : d.Leaves Watched [temporary p, p] e := by
  obtain ⟨made, written, hmade, hwrite, hrename⟩ := write_eq_ok h
  have hfurnished := hmade.leaves hd Watched [temporary p, p]
  have hwritten := (Disk.placed_of_write hwrite).leaves hfurnished.grounded Watched
  have hmoved := (Disk.moved_of_rename hrename).leaves hwritten.grounded Watched
  exact (hfurnished.trans (hwritten.mono (by simp))).trans hmoved

end Manifest

end State

end IncrementalBuild
