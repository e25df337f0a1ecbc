import IncrementalBuild.Build.Run
import IncrementalBuild.Proofs.State.Freshness
import IncrementalBuild.Proofs.State.Manifest
import Mathlib.Data.List.Pairwise

/-!
What a manifest says after a build has been recorded in it: the units that were stale, and the
artifact, are recorded as they are on the disk, and what was fresh keeps its record.
-/

namespace IncrementalBuild

namespace State

open Disk

variable {d e : Disk}

/-- The record was taken of a source and its dependencies as they are on the disk. -/
structure Record.Taken (r : Record) (d : Disk) (source : Path) (dependencies : List Path) :
    Prop where
  inputHash_eq : r.inputHash = State.inputHash d r.fingerprint source
  source_eq : Stamp.capture d source = .ok r.source
  paths_eq : r.dependencies.map DependencyRecord.path =
    dependencies.filter fun p => !(p == source)
  stamps_eq : ∀ x ∈ r.dependencies, Stamp.capture d x.path = .ok x.stamp

namespace Record.Taken

variable {r : Record} {source : Path} {dependencies : List Path}

theorem stamp_of_mem (h : r.Taken d source dependencies) {q : Path} (hq : q ∈ dependencies)
    (hne : (q == source) = false) :
    ∃ s, ⟨q, s⟩ ∈ r.dependencies ∧ Stamp.capture d q = .ok s := by
  have hmem : q ∈ r.dependencies.map DependencyRecord.path := by
    rw [h.paths_eq]
    exact List.mem_filter.2 ⟨hq, by simp [hne]⟩
  obtain ⟨x, hx, rfl⟩ := List.mem_map.1 hmem
  exact ⟨x.stamp, hx, h.stamps_eq x hx⟩

/-- A record of files that are kept is one of the disk they are kept on. -/
theorem keeps (h : r.Taken d source dependencies) (hsource : d.KeepsFile e source)
    (hdependencies : ∀ q ∈ dependencies, d.KeepsFile e q) : r.Taken e source dependencies where
  inputHash_eq := by rw [h.inputHash_eq, inputHash_keeps hsource h.source_eq]
  source_eq := Stamp.capture_keeps hsource h.source_eq
  paths_eq := h.paths_eq
  stamps_eq x hx := by
    have hmem : x.path ∈ r.dependencies.map DependencyRecord.path := List.mem_map_of_mem hx
    rw [h.paths_eq] at hmem
    exact Stamp.capture_keeps (hdependencies _ (List.mem_filter.1 hmem).1) (h.stamps_eq x hx)

/-- The source of a fresh unit has the contents it had when the unit was recorded. -/
theorem contents?_source_eq (h : r.Taken d source dependencies) {fingerprint : UInt64}
    (hfresh : r.verdict e fingerprint (State.inputHash e fingerprint source) source = .fresh)
    (hhashed : State.inputHash d fingerprint source = State.inputHash e fingerprint source →
      d.metadataHash? source = e.metadataHash? source)
    (htells : d.Tells e source) : e.contents? source = d.contents? source := by
  obtain ⟨rfl, hhash | hstamp, -⟩ := Record.verdict_eq_fresh_iff.1 hfresh
  · rw [h.inputHash_eq] at hhash
    have hmetadata := (Stamp.capture_eq_ok h.source_eq).1
    have hnow := hhashed hhash
    rw [hmetadata] at hnow
    exact (htells.contents_eq (htells.metadata_eq _ hmetadata hnow.symm)).symm
  · exact Stamp.contents?_eq_of_mismatch? h.source_eq htells hstamp

/-- So have its dependencies. -/
theorem contents?_eq (h : r.Taken d source dependencies) {fingerprint current : UInt64}
    {p : Path} (hfresh : r.verdict e fingerprint current p = .fresh) {q : Path}
    (hq : q ∈ dependencies) (hne : (q == source) = false) (htells : d.Tells e q) :
    e.contents? q = d.contents? q := by
  obtain ⟨-, -, hdependencies⟩ := Record.verdict_eq_fresh_iff.1 hfresh
  obtain ⟨s, hs, hcapture⟩ := h.stamp_of_mem hq hne
  exact Stamp.contents?_eq_of_mismatch? hcapture htells (hdependencies ⟨q, s⟩ hs)

end Record.Taken

/-- The units of sources have the objects of these, in their order. -/
theorem map_output_checkedUnits (sources : List Path) (root directory : Path)
    (fingerprint : UInt64) (compileStep : Bool) (m : Manifest) (extension : String) :
    (checkedUnits d sources root directory fingerprint compileStep m extension).map
      CompileUnit.output = sources.map (objectPath root directory extension) := by
  rw [checkedUnits, List.map_map]
  exact List.map_congr_left fun s _ => (CompileUnit.check_make s _ _ _ _ _).2.1

/-- Where outputs are distinct, different units have different ones. -/
theorem CompileUnit.output_ne {us : List CompileUnit}
    (hdistinct : us.Pairwise fun u v => (u.output == v.output) = false) {u v : CompileUnit}
    (hu : u ∈ us) (hv : v ∈ us) (hne : u ≠ v) : (u.output == v.output) = false := by
  have hsymm : Std.Symm fun u v : CompileUnit => (u.output == v.output) = false :=
    ⟨fun _ _ hxy => by rwa [Path.beq_comm]⟩
  exact hdistinct.forall hu hv hne

theorem CompileUnit.eq_of_output {us : List CompileUnit}
    (hdistinct : us.Pairwise fun u v => (u.output == v.output) = false) {u v : CompileUnit}
    (hu : u ∈ us) (hv : v ∈ us) (heq : (u.output == v.output) = true) : u = v := by
  by_contra hne
  rw [output_ne hdistinct hu hv hne] at heq
  cases heq

namespace Manifest

theorem captureAll_eq_ok {ps : List Path} {rs : List DependencyRecord}
    (h : captureAll d ps = .ok rs) :
    rs.map DependencyRecord.path = ps ∧ ∀ r ∈ rs, Stamp.capture d r.path = .ok r.stamp := by
  induction ps generalizing rs with
  | nil =>
    cases h
    simp
  | cons p ps ih =>
    obtain ⟨stamp, hstamp, h⟩ := bind_eq_ok_iff.1 h
    obtain ⟨rest, hrest, h⟩ := bind_eq_ok_iff.1 h
    cases h
    obtain ⟨hpaths, hstamps⟩ := ih hrest
    refine ⟨by simp [hpaths], fun r hr => ?_⟩
    rcases List.mem_cons.1 hr with rfl | hr
    · exact hstamp
    · exact hstamps r hr

theorem get?_insert_of_ne {m : Manifest} {o output : Path} (r : Record)
    (hne : (o == output) = false) :
    ({ m with records := m.records.insert Path.order output r } : Manifest).get? o =
      m.get? o := by
  have hcomponents : o.components ≠ output.components := by
    intro heq
    have htrue : (o == output) = true := decide_eq_true heq
    rw [hne] at htrue
    cases htrue
  refine SortedMap.get?_insert_of_ne r ?_ ?_
  · rwa [ne_eq, Path.order_eq_iff]
  · intro k hk
    rw [Path.order_eq_iff] at hk
    rwa [ne_eq, Path.order_eq_iff, ← hk]

/-- Recording an output takes its record, and leaves those of others. -/
theorem record_eq_ok {m n : Manifest} {source output : Path} {fingerprint : UInt64}
    {dependencies : List Path} (h : m.record d source output fingerprint dependencies = .ok n) :
    (∃ r, n.get? output = some r ∧ r.fingerprint = fingerprint ∧
        r.Taken d source dependencies) ∧
      ∀ o, (o == output) = false → n.get? o = m.get? o := by
  obtain ⟨stamp, hstamp, h⟩ := bind_eq_ok_iff.1 h
  obtain ⟨recorded, hrecorded, h⟩ := bind_eq_ok_iff.1 h
  cases h
  obtain ⟨hpaths, hstamps⟩ := captureAll_eq_ok hrecorded
  refine ⟨⟨_, SortedMap.get?_insert_self _ (Path.order_eq_iff.2 rfl), rfl, ?_⟩, ?_⟩
  · exact ⟨rfl, hstamp, hpaths, hstamps⟩
  · exact fun o ho => get?_insert_of_ne _ ho

theorem get?_retain {m : Manifest} {outputs : List Path} {o : Path} (ho : o ∈ outputs) :
    (m.retain outputs).get? o = m.get? o := by
  refine SortedMap.get?_keep fun k hk => ?_
  exact List.any_eq_true.2 ⟨o, ho, Path.order_eq_iff_beq.1 hk⟩

end Manifest

end State

namespace Builder

open State

variable {d : Disk} {fingerprint : UInt64} {m n : Manifest}

/-- The dependencies that are recorded of a unit: those in its dependency file, if there is one. -/
def listedDependencies (d : Disk) (u : CompileUnit) : Except Failure (List Path) :=
  if d.present u.dependencyFile then readDependencies d u.dependencyFile else .ok []

theorem listedDependencies_eq {u : CompileUnit} {found : List Path}
    (h : readDependencies d u.dependencyFile = .ok found) :
    listedDependencies d u = .ok found := by
  have hpresent : d.present u.dependencyFile = true := by
    unfold readDependencies at h
    split at h
    next text htext =>
      obtain ⟨f, hf, -⟩ := Disk.readText_eq_ok htext
      simp [Disk.present, hf]
    · cases h
  rw [listedDependencies, if_pos hpresent, h]

/-- What is recorded of a unit that was stale. -/
def Recorded (d : Disk) (fingerprint : UInt64) (n : Manifest) (u : CompileUnit) : Prop :=
  ∃ r found, n.get? u.output = some r ∧ listedDependencies d u = .ok found ∧
    r.fingerprint = fingerprint ∧ r.Taken d u.source found

theorem recordUnits_of_stale {u : CompileUnit} (hstale : u.isStale = true)
    (us : List CompileUnit) : recordUnits d fingerprint m (u :: us) =
      listedDependencies d u >>= fun found =>
        m.record d u.source u.output fingerprint found >>= fun m =>
          recordUnits d fingerprint m us := by
  rw [recordUnits, if_pos hstale, listedDependencies]
  split <;> rfl

/-- Recording units leaves what is recorded of all but the outputs of stale ones. -/
theorem recordUnits_others {us : List CompileUnit} (h : recordUnits d fingerprint m us = .ok n) :
    (m.Valid → n.Valid) ∧
      ∀ o, (∀ u ∈ us, u.isStale = true → (o == u.output) = false) → n.get? o = m.get? o := by
  induction us generalizing m with
  | nil =>
    cases h
    exact ⟨id, fun _ _ => rfl⟩
  | cons u us ih =>
    by_cases hstale : u.isStale = true
    · rw [recordUnits_of_stale hstale] at h
      obtain ⟨_, -, h⟩ := bind_eq_ok_iff.1 h
      obtain ⟨m', hrecord, h⟩ := bind_eq_ok_iff.1 h
      obtain ⟨-, hothers⟩ := Manifest.record_eq_ok hrecord
      obtain ⟨hvalid, hsame⟩ := ih h
      refine ⟨fun hm => hvalid (hm.record hrecord), fun o ho => ?_⟩
      rw [hsame o fun v hv => ho v (List.mem_cons_of_mem _ hv),
        hothers o (ho u List.mem_cons_self hstale)]
    · rw [recordUnits, if_neg hstale] at h
      obtain ⟨hvalid, hsame⟩ := ih h
      exact ⟨hvalid, fun o ho => hsame o fun v hv => ho v (List.mem_cons_of_mem _ hv)⟩

/-- A stale unit whose output is that of no other unit is recorded, and not overwritten. -/
theorem recorded_of_recordUnits {us : List CompileUnit} {u : CompileUnit}
    (hstale : u.isStale = true) (hown : ∀ x ∈ us, (x.output == u.output) = true → x = u)
    (h : recordUnits d fingerprint m us = .ok n) (hu : u ∈ us ∨ Recorded d fingerprint m u) :
    Recorded d fingerprint n u := by
  induction us generalizing m with
  | nil =>
    cases h
    exact hu.resolve_left (by simp)
  | cons x us ih =>
    have hown' : ∀ y ∈ us, (y.output == u.output) = true → y = u := fun y hy =>
      hown y (List.mem_cons_of_mem _ hy)
    by_cases hx : x = u
    · subst hx
      rw [recordUnits_of_stale hstale] at h
      obtain ⟨found, hfound, h⟩ := bind_eq_ok_iff.1 h
      obtain ⟨m', hrecord, h⟩ := bind_eq_ok_iff.1 h
      obtain ⟨⟨r, hr, hrest⟩, -⟩ := Manifest.record_eq_ok hrecord
      exact ih hown' h (.inr ⟨r, found, hr, hfound, hrest⟩)
    · have hu' : u ∈ us ∨ Recorded d fingerprint m u :=
        hu.imp_left fun hmem => (List.mem_cons.1 hmem).resolve_left (Ne.symm hx)
      by_cases hxstale : x.isStale = true
      · rw [recordUnits_of_stale hxstale] at h
        obtain ⟨_, -, h⟩ := bind_eq_ok_iff.1 h
        obtain ⟨m', hrecord, h⟩ := bind_eq_ok_iff.1 h
        obtain ⟨-, hothers⟩ := Manifest.record_eq_ok hrecord
        have hne : (u.output == x.output) = false := by
          rw [Path.beq_comm, ← Bool.not_eq_true]
          exact fun heq => hx (hown x List.mem_cons_self heq)
        refine ih hown' h (hu'.imp_right ?_)
        rintro ⟨r, found, hr, hrest⟩
        exact ⟨r, found, by rw [hothers _ hne, hr], hrest⟩
      · rw [recordUnits, if_neg hxstale] at h
        exact ih hown' h hu'

/-- What a build records of a stale unit stays as it is recorded, where its output is that of no
other unit, and not the artifact. -/
theorem recorded_of_recordBuild {p : Project} {request : Build.Request} {us : List CompileUnit}
    {u : CompileUnit} (hstale : u.isStale = true) (hu : u ∈ us)
    (hown : ∀ x ∈ us, (x.output == u.output) = true → x = u)
    (hartifact : (u.output == p.outputFile) = false)
    (h : recordBuild d p request fingerprint m us = .ok n) : Recorded d fingerprint n u := by
  obtain ⟨m₁, hrecordUnits, h⟩ := bind_eq_ok_iff.1 h
  obtain ⟨m₂, hrecord, h⟩ := bind_eq_ok_iff.1 h
  cases h
  obtain ⟨r, found, hr, hrest⟩ := recorded_of_recordUnits hstale hown hrecordUnits (.inl hu)
  obtain ⟨-, hothers⟩ := Manifest.record_eq_ok hrecord
  refine ⟨r, found, ?_, hrest⟩
  rw [Manifest.get?_retain (List.mem_append_left _ (List.mem_map_of_mem hu)),
    hothers _ hartifact, hr]

theorem valid_of_recordBuild {p : Project} {request : Build.Request} {us : List CompileUnit}
    (hm : m.Valid) (h : recordBuild d p request fingerprint m us = .ok n) : n.Valid := by
  obtain ⟨m₁, hunits, h⟩ := bind_eq_ok_iff.1 h
  obtain ⟨m₂, hartifact, h⟩ := bind_eq_ok_iff.1 h
  cases h
  exact (((recordUnits_others hunits).1 hm).record hartifact).retain _

/-- What a build records: stale units and the artifact as they are on the disk, and fresh units as
they were recorded before. -/
theorem recordBuild_eq_ok {p : Project} {request : Build.Request} {us : List CompileUnit}
    (hdistinct : (us.map CompileUnit.output ++ [p.outputFile]).Pairwise fun o o' =>
      (o == o') = false)
    (h : recordBuild d p request fingerprint m us = .ok n) :
    (m.Valid → n.Valid) ∧
      (∀ u ∈ us, u.isStale = false → n.get? u.output = m.get? u.output) ∧
      (∀ u ∈ us, u.isStale = true → Recorded d fingerprint n u) ∧
      ∃ r, n.get? p.outputFile = some r ∧ r.fingerprint = fingerprint ∧
        r.Taken d p.path (artifactInputs us request) := by
  obtain ⟨hunits, -, hartifact⟩ := List.pairwise_append.1 hdistinct
  rw [List.pairwise_map] at hunits
  have hne (u : CompileUnit) (hu : u ∈ us) : (u.output == p.outputFile) = false :=
    hartifact _ (List.mem_map_of_mem hu) _ List.mem_cons_self
  have hrecorded : ∀ u ∈ us, u.isStale = true → Recorded d fingerprint n u :=
    fun u hu hstale => recorded_of_recordBuild hstale hu
      (fun x hx => CompileUnit.eq_of_output hunits hx hu) (hne u hu) h
  have hvalid : m.Valid → n.Valid := fun hm => valid_of_recordBuild hm h
  obtain ⟨m₁, hrecordUnits, h⟩ := bind_eq_ok_iff.1 h
  obtain ⟨m₂, hrecord, h⟩ := bind_eq_ok_iff.1 h
  cases h
  obtain ⟨⟨r, hr, hfingerprint, htaken⟩, hothers⟩ := Manifest.record_eq_ok hrecord
  refine ⟨hvalid, fun u hu hfresh => ?_, hrecorded, r, ?_, hfingerprint, htaken⟩
  · rw [Manifest.get?_retain (List.mem_append_left _ (List.mem_map_of_mem hu)),
      hothers _ (hne u hu)]
    refine (recordUnits_others hrecordUnits).2 _ fun v hv hstale => ?_
    apply CompileUnit.output_ne hunits hu hv
    rintro rfl
    rw [hfresh] at hstale
    cases hstale
  · rw [Manifest.get?_retain (by simp), hr]

end Builder

end IncrementalBuild
