import IncrementalBuild.Proofs.Disk.Spelling
import IncrementalBuild.Proofs.State.Recording

/-!
What a verdict means. A unit that has been recorded is fresh exactly as long as its output is there,
the configuration is the recorded one, and all files it was built from are unchanged.
-/

namespace IncrementalBuild

namespace Disk

variable {d e : Disk} {p q : Path}

/-- The file that the path led to on `d` can be looked at on `e`, and has the time and length it
had, or the contents it had. -/
def Unchanged (d e : Disk) (p : Path) : Prop :=
  (e.modified? p).isSome ∧ (e.metadata? p = d.metadata? p ∨ e.contents? p = d.contents? p)

theorem metadataHash?_isSome_iff :
    (d.metadataHash? p).isSome ↔ (d.modified? p).isSome := by
  unfold metadataHash? modified?
  cases d.metadata? p with
  | none => simp
  | some found =>
    obtain ⟨modified, length⟩ := found
    dsimp only [Option.bind_some]
    split <;> simp

theorem metadataHash?_congr (h : e.metadata? p = d.metadata? p) :
    e.metadataHash? p = d.metadataHash? p := by
  simp only [metadataHash?, modified?, h]

theorem contentHash_congr (h : e.contents? p = d.contents? p) {hash : String}
    (hd : d.contentHash p = .ok hash) : e.contentHash p = .ok hash := by
  obtain ⟨f, hf, rfl⟩ := contentHash_eq_ok hd
  have hcontents : e.contents? p = some f.bytes :=
    h.trans (contents?_eq_some_iff.2 ⟨f, hf, rfl⟩)
  obtain ⟨g, hg, hbytes⟩ := contents?_eq_some_iff.1 hcontents
  rw [contentHash, read_eq_ok_iff.2 ⟨g, hg, hbytes⟩]

/-- Two spellings of a path that led to files are unchanged together. -/
theorem unchanged_congr {f g : FileNode} (h : (p == q) = true)
    (hp : d.lookup p = .ok (.file f)) (hq : d.lookup q = .ok (.file g)) :
    d.Unchanged e p ↔ d.Unchanged e q := by
  have hd := lookup_eq_of_beq h hp hq d
  have he := lookup_eq_of_beq h hp hq e
  simp only [Unchanged, modified?, metadata?, contents?, read, hd, he]

/-- No two of the hashes that are compared at a path agree by accident. -/
structure Discerns (d e : Disk) (p : Path) : Prop where
  metadata_eq : ∀ hash, d.metadataHash? p = some hash → e.metadataHash? p = some hash →
    e.metadata? p = d.metadata? p
  contents_eq : ∀ hash, d.contentHash p = .ok hash → e.contentHash p = .ok hash →
    e.contents? p = d.contents? p

end Disk

namespace State

open Disk

variable {d e : Disk} {p : Path}

/-- A file does not differ from its stamp exactly if it is unchanged. -/
theorem Stamp.mismatch?_eq_none_iff {s : Stamp} (hcapture : Stamp.capture d p = .ok s)
    (hdiscerns : d.Discerns e p) : s.mismatch? e p = none ↔ d.Unchanged e p := by
  obtain ⟨hmetadata, hcontents⟩ := Stamp.capture_eq_ok hcapture
  rw [Unchanged, ← metadataHash?_isSome_iff, mismatch?]
  cases hnow : e.metadataHash? p with
  | none => simp
  | some now =>
    simp only [Option.isSome_some, true_and]
    by_cases hsame : now = s.metadata
    · rw [if_pos hsame]
      rw [hsame] at hnow
      exact iff_of_true rfl (.inl (hdiscerns.metadata_eq _ hmetadata hnow))
    · -- The time or the length is another, so it is up to the contents.
      rw [if_neg hsame]
      have hmoved : e.metadata? p ≠ d.metadata? p := fun heq => hsame <| by
        rw [metadataHash?_congr heq, hmetadata] at hnow
        exact (Option.some.inj hnow).symm
      simp only [hmoved, false_or]
      constructor
      · intro h
        split at h
        next digest hdigest =>
          split at h
          next heq =>
            subst heq
            exact hdiscerns.contents_eq _ hcontents hdigest
          · cases h
        · cases h
      · intro h
        simp [contentHash_congr h hcontents]

/-- What the hashes that a check compares are relied on for: none of them agree by accident, nor is
the hash that a missing source counts as one that a source had. -/
structure Collisionless (d e : Disk) (fingerprint : UInt64) (source : Path)
    (dependencies : List Path) : Prop where
  discerns : ∀ q ∈ source :: dependencies, d.Discerns e q
  inputHash_inj : State.inputHash d fingerprint source = State.inputHash e fingerprint source →
    (d.metadataHash? source).getD 0 = (e.metadataHash? source).getD 0
  hash_ne_zero : d.metadataHash? source ≠ some 0

/-- Where the combined hash is the recorded one, the source is unchanged as well: the check that is
passed over would have found nothing. -/
theorem Collisionless.mismatch?_eq_none {fingerprint : UInt64} {source : Path}
    {dependencies : List Path} {s : Stamp}
    (h : Collisionless d e fingerprint source dependencies)
    (hcapture : Stamp.capture d source = .ok s)
    (hsame : State.inputHash d fingerprint source = State.inputHash e fingerprint source) :
    s.mismatch? e source = none := by
  obtain ⟨hmetadata, -⟩ := Stamp.capture_eq_ok hcapture
  have hword := h.inputHash_inj hsame
  rw [hmetadata, Option.getD_some] at hword
  unfold Stamp.mismatch?
  cases hnow : e.metadataHash? source with
  | none =>
    rw [hnow, Option.getD_none] at hword
    exact absurd (hmetadata.trans (congrArg some hword)) h.hash_ne_zero
  | some now =>
    rw [hnow, Option.getD_some] at hword
    simp [hword]

/-- The verdict of a record is for the unit exactly if all files it was taken of are unchanged. -/
theorem Record.Taken.verdict_eq_fresh_iff {r : Record} {source : Path} {dependencies : List Path}
    (h : r.Taken d source dependencies)
    (hhashes : Collisionless d e r.fingerprint source dependencies) (fingerprint : UInt64) :
    r.verdict e fingerprint (State.inputHash e fingerprint source) source = .fresh ↔
      fingerprint = r.fingerprint ∧ d.Unchanged e source ∧
        ∀ q ∈ dependencies, (q == source) = false → d.Unchanged e q := by
  rw [State.Record.verdict_eq_fresh_iff, eq_comm]
  refine and_congr_right fun hfingerprint => ?_
  subst hfingerprint
  have hsource := Stamp.mismatch?_eq_none_iff h.source_eq (hhashes.discerns source (by simp))
  rw [h.inputHash_eq, or_iff_right_of_imp (hhashes.mismatch?_eq_none h.source_eq), hsource]
  refine and_congr_right fun _ => ?_
  constructor
  · intro hstamps q hq hne
    obtain ⟨s, hs, hcapture⟩ := h.stamp_of_mem hq hne
    have hdiscerns := hhashes.discerns q (List.mem_cons_of_mem _ hq)
    exact (Stamp.mismatch?_eq_none_iff hcapture hdiscerns).1 (hstamps ⟨q, s⟩ hs)
  · intro hunchanged x hx
    have hmem : x.path ∈ r.dependencies.map DependencyRecord.path := List.mem_map_of_mem hx
    rw [h.paths_eq, List.mem_filter, Bool.not_eq_true'] at hmem
    obtain ⟨hq, hne⟩ := hmem
    have hdiscerns := hhashes.discerns _ (List.mem_cons_of_mem _ hq)
    exact (Stamp.mismatch?_eq_none_iff (h.stamps_eq x hx) hdiscerns).2 (hunchanged _ hq hne)

/-- Spellings of the source among the dependencies ask for nothing more: where one leads to a file
at all, that file is the source. -/
theorem Record.Taken.forall_unchanged_iff {r : Record} {source : Path} {dependencies : List Path}
    (h : r.Taken d source dependencies) :
    (d.Unchanged e source ∧ ∀ q ∈ dependencies, (q == source) = false → d.Unchanged e q) ↔
      ∀ q ∈ source :: dependencies, d.isFile q = true → d.Unchanged e q := by
  obtain ⟨f, hf⟩ := Stamp.file_of_capture h.source_eq
  have hisFile {q : Path} (g : FileNode) (hg : d.lookup q = .ok (.file g)) :
      d.isFile q = true := by
    rw [isFile, hg]
  constructor
  · rintro ⟨hsource, hdependencies⟩ q hq hfile
    rcases List.mem_cons.1 hq with rfl | hq
    · exact hsource
    · cases hne : q == source with
      | false => exact hdependencies q hq hne
      | true =>
        unfold isFile at hfile
        split at hfile
        next g hg => exact (unchanged_congr hne hg hf).2 hsource
        · cases hfile
  · intro hall
    refine ⟨hall source List.mem_cons_self (hisFile f hf), fun q hq hne => ?_⟩
    obtain ⟨s, -, hcapture⟩ := h.stamp_of_mem hq hne
    obtain ⟨g, hg⟩ := Stamp.file_of_capture hcapture
    exact hall q (List.mem_cons_of_mem _ hq) (hisFile g hg)

/-- What the verdict on a unit is that has to be compiled, and whose output is on record. -/
theorem CompileUnit.verdict_check {u : CompileUnit} {m : Manifest} {r : Record}
    (hget : m.get? u.output = some r) (fingerprint : UInt64) :
    (u.check e fingerprint true m).verdict = some .fresh ↔
      e.present u.output = true ∧
        r.verdict e fingerprint (State.inputHash e fingerprint u.source) u.source = .fresh := by
  unfold CompileUnit.check
  cases hpresent : e.present u.output with
  | false => simp [hpresent]
  | true => simp [hpresent, hget]

/-- A unit that was recorded is found fresh exactly if its output is there, the configuration is the
recorded one, and each file among its source and its dependencies can be looked at and has the time
and length, or the contents, it was recorded with. -/
theorem CompileUnit.fresh_iff_unchanged {m n : Manifest} {u : CompileUnit} {fingerprint : UInt64}
    {dependencies : List Path}
    (hrecord : m.record d u.source u.output fingerprint dependencies = .ok n)
    (hhashes : Collisionless d e fingerprint u.source dependencies) (fingerprint' : UInt64) :
    (u.check e fingerprint' true n).verdict = some .fresh ↔
      e.present u.output = true ∧ fingerprint' = fingerprint ∧
        ∀ q ∈ u.source :: dependencies, d.isFile q = true → d.Unchanged e q := by
  obtain ⟨⟨r, hget, rfl, htaken⟩, -⟩ := Manifest.record_eq_ok hrecord
  rw [CompileUnit.verdict_check hget, htaken.verdict_eq_fresh_iff hhashes,
    htaken.forall_unchanged_iff]

/-- A source and its object, with a header that was written at some time. -/
def touchedDisk (headerTime : Int) : Disk where
  nodes := ⟨[(["w"], .directory), (["w", "a.c"], .file ⟨"one".toUTF8, 1, false⟩),
    (["w", "a.h"], .file ⟨"two".toUTF8, headerTime, false⟩),
    (["w", "a.o"], .file ⟨.empty, 1, false⟩)]⟩
  workingDirectory := ["w"]
  clock := 3

/-- The header twice, and the source in three spellings, the last of which leads nowhere. -/
def touchedDependencies : List Path :=
  [⟨"a.h"⟩, ⟨"a.c"⟩, ⟨"a.h"⟩, ⟨".//a.c"⟩, ⟨"a.c/"⟩]

theorem metadataHash?_source_ne_zero : (touchedDisk 1).metadataHash? ⟨"a.c"⟩ ≠ some 0 := by
  decide +kernel

theorem metadataHash?_header_ne :
    (touchedDisk 1).metadataHash? ⟨"a.h"⟩ ≠ (touchedDisk 2).metadataHash? ⟨"a.h"⟩ := by
  decide +kernel

theorem touched_eq : ∀ q ∈ ⟨"a.c"⟩ :: touchedDependencies,
    (q.text = "a.h" ∨ (touchedDisk 2).metadata? q = (touchedDisk 1).metadata? q) ∧
      (touchedDisk 2).contents? q = (touchedDisk 1).contents? q := by
  decide +kernel

theorem touched_collisionless :
    Collisionless (touchedDisk 1) (touchedDisk 2) 7 ⟨"a.c"⟩ touchedDependencies := by
  refine ⟨fun q hq => ⟨fun hash hd he => ?_, fun _ _ _ => (touched_eq q hq).2⟩, fun _ => ?_,
    metadataHash?_source_ne_zero⟩
  · obtain ⟨text⟩ := q
    rcases (touched_eq _ hq).1 with rfl | hsame
    · exact absurd (hd.trans he.symm) metadataHash?_header_ne
    · exact hsame
  · have hsame : (touchedDisk 2).metadata? ⟨"a.c"⟩ = (touchedDisk 1).metadata? ⟨"a.c"⟩ := by
      decide +kernel
    rw [metadataHash?_congr hsame]

/-- A unit whose header was touched is fresh: the header has another time, but its contents are
those that were recorded. -/
theorem touched_fresh : ∃ n,
    Manifest.empty.record (touchedDisk 1) ⟨"a.c"⟩ ⟨"a.o"⟩ 7 touchedDependencies = .ok n ∧
      Collisionless (touchedDisk 1) (touchedDisk 2) 7 ⟨"a.c"⟩ touchedDependencies ∧
      (touchedDisk 2).metadata? ⟨"a.h"⟩ ≠ (touchedDisk 1).metadata? ⟨"a.h"⟩ ∧
      ((CompileUnit.make ⟨"a.c"⟩ ⟨"a.o"⟩).check (touchedDisk 2) 7 true n).verdict =
        some .fresh := by
  have hsome : (Manifest.empty.record (touchedDisk 1) ⟨"a.c"⟩ ⟨"a.o"⟩ 7
      touchedDependencies).toOption.isSome = true := by decide +kernel
  cases hrecord : Manifest.empty.record (touchedDisk 1) ⟨"a.c"⟩ ⟨"a.o"⟩ 7 touchedDependencies with
  | error f =>
    rw [hrecord] at hsome
    cases hsome
  | ok n =>
    have hunchanged : (touchedDisk 2).present ⟨"a.o"⟩ = true ∧
        ∀ q ∈ ⟨"a.c"⟩ :: touchedDependencies, (touchedDisk 1).isFile q = true →
          (touchedDisk 1).Unchanged (touchedDisk 2) q := by
      unfold Unchanged
      decide +kernel
    refine ⟨n, rfl, touched_collisionless, by decide +kernel, ?_⟩
    exact (CompileUnit.fresh_iff_unchanged (u := .make ⟨"a.c"⟩ ⟨"a.o"⟩) hrecord
      touched_collisionless 7).2 ⟨hunchanged.1, rfl, hunchanged.2⟩

end State

end IncrementalBuild
