import IncrementalBuild.Proofs.Build.Commitment
import IncrementalBuild.Proofs.Build.Repetition
import IncrementalBuild.Proofs.Disk.Removal
import IncrementalBuild.Proofs.State.RoundTrip
import IncrementalBuild.Tool.Gnu

/-!
Whether a build succeeds whose work has succeeded. Between the last task and the end of the build
stamps are taken: of the description, of what was compiled and what it depends on, of all objects,
and of the libraries of the project, whether its tasks have used these or not. A build is as good as
done just if all of these can be taken.
-/

namespace IncrementalBuild

open Build State

namespace Disk

/-- A stamp can be taken of what the path leads to: it is a file, and the time it was last written
is one that stamps can hold. -/
structure Stampable (d : Disk) (p : Path) : Prop where
  isFile : d.isFile p = true
  modified : (d.modified? p).isSome = true

end Disk

variable {d : Disk} {p : Path}

namespace State

theorem Stamp.exists_capture_iff : (∃ s, Stamp.capture d p = .ok s) ↔ d.Stampable p := by
  constructor
  · rintro ⟨s, hs⟩
    refine ⟨Disk.isFile_iff.2 (Stamp.file_of_capture hs), ?_⟩
    rw [← Disk.metadataHash?_isSome_iff, (Stamp.capture_eq_ok hs).1]
    rfl
  · rintro ⟨hfile, hmodified⟩
    obtain ⟨f, hf⟩ := Disk.isFile_iff.1 hfile
    obtain ⟨metadata, hmetadata⟩ :=
      Option.isSome_iff_exists.1 (Disk.metadataHash?_isSome_iff.2 hmodified)
    have hhash : d.contentHash p = .ok (Digest.contentHash f.bytes) := by
      rw [Disk.contentHash, Disk.read_eq_ok_iff.2 ⟨f, hf, rfl⟩]
    refine ⟨⟨metadata, Digest.contentHash f.bytes⟩, ?_⟩
    rw [Stamp.capture, hmetadata]
    exact bind_eq_ok_iff.2 ⟨_, hhash, rfl⟩

namespace Manifest

theorem exists_captureAll_iff {ps : List Path} :
    (∃ rs, captureAll d ps = .ok rs) ↔ ∀ p ∈ ps, d.Stampable p := by
  induction ps with
  | nil => exact iff_of_true ⟨[], rfl⟩ nofun
  | cons p ps ih =>
    rw [List.forall_mem_cons, ← ih, ← Stamp.exists_capture_iff]
    constructor
    · rintro ⟨rs, hrs⟩
      obtain ⟨s, hs, hrs⟩ := bind_eq_ok_iff.1 hrs
      obtain ⟨rest, hrest, -⟩ := bind_eq_ok_iff.1 hrs
      exact ⟨⟨s, hs⟩, rest, hrest⟩
    · rintro ⟨⟨s, hs⟩, rest, hrest⟩
      exact ⟨_, bind_eq_ok_iff.2 ⟨s, hs, bind_eq_ok_iff.2 ⟨rest, hrest, rfl⟩⟩⟩

theorem exists_record_iff {m : Manifest} {source output : Path} {fingerprint : UInt64}
    {dependencies : List Path} :
    (∃ n, m.record d source output fingerprint dependencies = .ok n) ↔
      d.Stampable source ∧ ∀ q ∈ dependencies, (q == source) = false → d.Stampable q := by
  have hdependencies : (∀ q ∈ dependencies, (q == source) = false → d.Stampable q) ↔
      ∃ rs, captureAll d (dependencies.filter fun q => !(q == source)) = .ok rs := by
    rw [exists_captureAll_iff]
    simp [List.mem_filter]
  rw [hdependencies, ← Stamp.exists_capture_iff]
  constructor
  · rintro ⟨n, hn⟩
    obtain ⟨s, hs, hn⟩ := bind_eq_ok_iff.1 hn
    obtain ⟨rs, hrs, -⟩ := bind_eq_ok_iff.1 hn
    exact ⟨⟨s, hs⟩, rs, hrs⟩
  · rintro ⟨⟨s, hs⟩, rs, hrs⟩
    exact ⟨_, bind_eq_ok_iff.2 ⟨s, hs, bind_eq_ok_iff.2 ⟨rs, hrs, rfl⟩⟩⟩

end Manifest

end State

namespace Builder

variable {ν : Type} {choose : ToolchainChoice ν} {b : Builder} {project : Project}
  {request : Request} {w v announced begun ended : World ν} {c : Checked ν} {fingerprint : UInt64}
  {m : Manifest} {us : List CompileUnit}

/-- Units can be recorded just if their dependency files can be read, and stamps can be taken of
their sources and of what is listed for them. -/
theorem exists_recordUnits_iff : (∃ n, recordUnits d fingerprint m us = .ok n) ↔
    ∀ u ∈ us, u.isStale = true → ∃ found, listedDependencies d u = .ok found ∧
      d.Stampable u.source ∧ ∀ q ∈ found, (q == u.source) = false → d.Stampable q := by
  induction us generalizing m with
  | nil => exact iff_of_true ⟨m, rfl⟩ nofun
  | cons u us ih =>
    rw [List.forall_mem_cons]
    by_cases hstale : u.isStale = true
    · rw [recordUnits_of_stale hstale]
      constructor
      · rintro ⟨n, hn⟩
        obtain ⟨found, hfound, hn⟩ := bind_eq_ok_iff.1 hn
        obtain ⟨m', hm', hn⟩ := bind_eq_ok_iff.1 hn
        exact ⟨fun _ => ⟨found, hfound, Manifest.exists_record_iff.1 ⟨m', hm'⟩⟩, ih.1 ⟨n, hn⟩⟩
      · rintro ⟨hunit, hrest⟩
        obtain ⟨found, hfound, hstampable⟩ := hunit hstale
        obtain ⟨m', hm'⟩ := Manifest.exists_record_iff.2 hstampable
        obtain ⟨n, hn⟩ := ih.2 hrest
        exact ⟨n, bind_eq_ok_iff.2 ⟨found, hfound, bind_eq_ok_iff.2 ⟨m', hm', hn⟩⟩⟩
    · rw [recordUnits, if_neg hstale, ih]
      exact (and_iff_right fun h => absurd h hstale).symm

/-- The files that stamps are taken of when a build is recorded. -/
inductive Stamps (d : Disk) (project : Project) (c : Checked ν) : Path → Prop where
  | description : Stamps d project c project.path
  | source {u : CompileUnit} : u ∈ c.units → u.isStale = true → Stamps d project c u.source
  | listed {u : CompileUnit} {found : List Path} {q : Path} : u ∈ c.units → u.isStale = true →
      listedDependencies d u = .ok found → q ∈ found → (q == u.source) = false →
        Stamps d project c q
  | object {u : CompileUnit} : u ∈ c.units → (u.output == project.path) = false →
      Stamps d project c u.output
  | library {q : Path} : q ∈ c.request.dependencyOutputs → (q == project.path) = false →
      Stamps d project c q

/-- A build can be recorded just if dependency files can be read and stamps can be taken. -/
theorem exists_recordBuild_iff :
    (∃ n, recordBuild d project c.request fingerprint m c.units = .ok n) ↔
      (∀ u ∈ c.units, u.isStale = true → ∃ found, listedDependencies d u = .ok found) ∧
        ∀ q, Stamps d project c q → d.Stampable q := by
  constructor
  · rintro ⟨n, hn⟩
    obtain ⟨m₁, hunits, hn⟩ := bind_eq_ok_iff.1 hn
    obtain ⟨m₂, hartifact, -⟩ := bind_eq_ok_iff.1 hn
    have hunit := exists_recordUnits_iff.1 ⟨m₁, hunits⟩
    obtain ⟨hdescription, hinputs⟩ := Manifest.exists_record_iff.1 ⟨m₂, hartifact⟩
    refine ⟨fun u hu hstale => ?_, fun q hq => ?_⟩
    · obtain ⟨found, hfound, -⟩ := hunit u hu hstale
      exact ⟨found, hfound⟩
    · cases hq with
      | description => exact hdescription
      | source hu hstale =>
        obtain ⟨-, -, hsource, -⟩ := hunit _ hu hstale
        exact hsource
      | listed hu hstale hfound hmem hne =>
        obtain ⟨found, hfound', -, hlisted⟩ := hunit _ hu hstale
        obtain rfl := Except.ok.inj (hfound.symm.trans hfound')
        exact hlisted q hmem hne
      | object hu hne =>
        exact hinputs _ (List.mem_append_left _ (List.mem_map_of_mem hu)) hne
      | library hmem hne => exact hinputs q (List.mem_append_right _ hmem) hne
  · rintro ⟨hread, hstampable⟩
    obtain ⟨m₁, hunits⟩ : ∃ n, recordUnits d fingerprint m c.units = .ok n := by
      refine exists_recordUnits_iff.2 fun u hu hstale => ?_
      obtain ⟨found, hfound⟩ := hread u hu hstale
      exact ⟨found, hfound, hstampable _ (.source hu hstale), fun q hmem hne =>
        hstampable q (.listed hu hstale hfound hmem hne)⟩
    have hinputs : ∀ q ∈ artifactInputs c.units c.request, (q == project.path) = false →
        d.Stampable q := by
      intro q hmem hne
      rcases List.mem_append.1 hmem with hmem | hmem
      · obtain ⟨u, hu, rfl⟩ := List.mem_map.1 hmem
        exact hstampable _ (.object hu hne)
      · exact hstampable q (.library hmem hne)
    obtain ⟨m₂, hartifact⟩ : ∃ n, m₁.record d project.path project.outputFile fingerprint
        (artifactInputs c.units c.request) = .ok n :=
      Manifest.exists_record_iff.2 ⟨hstampable _ .description, hinputs⟩
    exact ⟨_, bind_eq_ok_iff.2 ⟨m₁, hunits, bind_eq_ok_iff.2 ⟨m₂, hartifact, rfl⟩⟩⟩

/-- How a build goes as far as its last task: it is announced and checked, something is stale, and
all tasks and commands run from the world `begun` to the world `ended`. -/
structure Worked (choose : ToolchainChoice ν) (b : Builder) (project : Project)
    (w announced begun ended : World ν) (c : Checked ν) : Prop where
  announce_eq : (b.announce project).runIn w = (.ok (), announced)
  buildable : project.outputType ≠ .container
  check_eq : (b.checkArtifact choose project).runIn announced = (.ok c, begun)
  stale : c.isFresh = false
  tasks_eq : (runTasks (c.tasks project)).runIn begun = (.ok (), ended)

/-- What is left of a build is to record what its tasks have left, and to write the manifest. -/
theorem Worked.runIn_refresh (h : Worked choose b project w announced begun ended c) :
    ∃ told, told.disk = ended.disk ∧ (refresh project c).runIn begun =
      match recordBuild ended.disk project c.request c.fingerprint c.manifest c.units with
      | .error f => (.error f, told)
      | .ok n => ((n.write project.manifestFile ended.disk).1,
          { told with disk := (n.write project.manifestFile ended.disk).2 }) := by
  obtain ⟨result, reported, hreport⟩ : ∃ result reported,
      (runAndReport c.units (c.tasks project)).runIn begun = (result, reported) := ⟨_, _, rfl⟩
  obtain ⟨x, hx, hdisk, -⟩ := of_runIn_runAndReport hreport
  rw [h.tasks_eq] at hx
  obtain ⟨rfl, rfl⟩ := Prod.mk.inj hx
  obtain ⟨console, hphase⟩ := Action.runIn_phase ("scheduled build (" ++ project.name ++ ")")
    (runAndReport c.units (c.tasks project)) begun
  rw [hreport] at hphase
  refine ⟨{ reported with console }, hdisk, ?_⟩
  unfold refresh
  rw [Action.runIn_bind, hphase]
  dsimp only
  rw [Action.runIn_bind, Action.runIn_disk]
  dsimp only
  rw [hdisk, Action.runIn_bind, Action.runIn_ofExcept]
  cases recordBuild ended.disk project c.request c.fingerprint c.manifest c.units with
  | error f => rfl
  | ok n =>
    dsimp only
    rw [runIn_writeManifest]

/-- After that a build only shows how long it took. -/
theorem Worked.runIn_buildProject (h : Worked choose b project w announced begun ended c) :
    ∃ console, (b.buildProject choose project).runIn w =
      match (refresh project c).runIn begun with
      | (.ok (), v) => (.ok .built, { v with console })
      | (.error f, v) => (.error f, v) := by
  unfold buildProject buildArtifact
  rw [Action.runIn_bind, h.announce_eq]
  dsimp only
  rw [if_neg h.buildable, Action.runIn_bind, Action.runIn_disk]
  dsimp only
  rw [Action.runIn_bind, h.check_eq]
  dsimp only
  rw [if_neg (by simp [h.stale]), Action.runIn_bind]
  generalize (refresh project c).runIn begun = r
  obtain ⟨result, v⟩ := r
  cases result with
  | error f => exact ⟨v.console, rfl⟩
  | ok _ => exact ⟨_, rfl⟩

/-- What a build is to leave where its work is done: the description, the sources and the objects
are files, all that is listed in dependency files are files, and the manifest can be written. Of the
artifact nothing is asked. -/
structure Finished (d : Disk) (project : Project) (c : Checked ν) : Prop where
  description : d.isFile project.path = true
  source : ∀ u ∈ c.units, d.isFile u.source = true
  object : ∀ u ∈ c.units, d.isFile u.output = true
  listed : ∀ u ∈ c.units, d.present u.dependencyFile = true →
    ∃ found, readDependencies d u.dependencyFile = .ok found ∧ ∀ q ∈ found, d.isFile q = true
  room : Manifest.Room d project.manifestFile

/-- What else it takes: the libraries that the project depends on are files, and no file of which a
stamp is taken was written at a time that stamps cannot hold. -/
structure Recordable (d : Disk) (project : Project) (c : Checked ν) : Prop where
  library : ∀ q ∈ c.request.dependencyOutputs, (q == project.path) = false → d.isFile q = true
  modified : ∀ q, Stamps d project c q → (d.modified? q).isSome = true

theorem Finished.exists_listedDependencies (h : Finished d project c) {u : CompileUnit}
    (hu : u ∈ c.units) : ∃ found, listedDependencies d u = .ok found ∧
      ∀ q ∈ found, d.isFile q = true := by
  unfold listedDependencies
  split
  next hpresent => exact h.listed u hu hpresent
  next => exact ⟨[], rfl, nofun⟩

/-- Where the work is done, recording it depends on nothing else. -/
theorem Finished.exists_recordBuild_iff (h : Finished d project c) :
    (∃ n, recordBuild d project c.request fingerprint m c.units = .ok n) ↔
      Recordable d project c := by
  rw [Builder.exists_recordBuild_iff]
  constructor
  · rintro ⟨-, hstampable⟩
    exact ⟨fun q hq hne => (hstampable q (.library hq hne)).isFile,
      fun q hq => (hstampable q hq).modified⟩
  · intro hrecordable
    refine ⟨fun u hu _ => ?_, fun q hq => ⟨?_, hrecordable.modified q hq⟩⟩
    · obtain ⟨found, hfound, -⟩ := h.exists_listedDependencies hu
      exact ⟨found, hfound⟩
    · cases hq with
      | description => exact h.description
      | source hu _ => exact h.source _ hu
      | listed hu _ hfound hmem _ =>
        obtain ⟨found, hfound', hlisted⟩ := h.exists_listedDependencies hu
        obtain rfl := Except.ok.inj (hfound.symm.trans hfound')
        exact hlisted q hmem
      | object hu _ => exact h.object _ hu
      | library hmem hne => exact hrecordable.library q hmem hne

/-- A build whose tasks and commands have all succeeded, and whose work is done, succeeds and
commits what it has made just if that can be recorded: if the libraries of the project are there,
whether a task has used them or not. Otherwise it fails, and commits nothing. -/
theorem built_iff_recordable (h : Worked choose b project w announced begun ended c)
    (hfinished : Finished ended.disk project c) :
    ((∃ v n f, (b.buildProject choose project).runIn w = (.ok .built, v) ∧
        recordBuild ended.disk project c.request c.fingerprint c.manifest c.units = .ok n ∧
        v.disk.standing project.manifestFile = some (.file f) ∧
        Manifest.ofBytes? f.bytes = some n) ↔
      Recordable ended.disk project c) ∧
    (¬ Recordable ended.disk project c →
      ∃ f v, (b.buildProject choose project).runIn w = (.error f, v) ∧ v.disk = ended.disk) := by
  have hrecord : (∃ n, recordBuild ended.disk project c.request c.fingerprint c.manifest c.units =
      .ok n) ↔ Recordable ended.disk project c := hfinished.exists_recordBuild_iff
  obtain ⟨told, hdisk, hrefresh⟩ := h.runIn_refresh
  obtain ⟨console, hrun⟩ := h.runIn_buildProject
  refine ⟨⟨fun ⟨_, n, _, _, hn, _⟩ => hrecord.1 ⟨n, hn⟩, fun hrecordable => ?_⟩,
    fun hnot => ?_⟩
  · obtain ⟨n, hn⟩ := hrecord.2 hrecordable
    obtain ⟨kept, hkept⟩ := hfinished.room.exists_write n
    obtain ⟨versioned, ready, hchecking⟩ := exists_checking h.check_eq
    have hvalid : n.Valid :=
      valid_of_recordBuild (Manifest.valid_of_empty_or_read hchecking.manifest_standing) hn
    obtain ⟨f, hf, hbytes⟩ := hvalid.exists_standing_of_write hkept
    rw [hn] at hrefresh
    simp only [hkept] at hrefresh
    rw [hrefresh] at hrun
    exact ⟨_, n, f, hrun, hn, hf, hbytes⟩
  · cases hn : recordBuild ended.disk project c.request c.fingerprint c.manifest c.units with
    | ok n => exact absurd (hrecord.1 ⟨n, hn⟩) hnot
    | error f =>
      rw [hn] at hrefresh
      simp only at hrefresh
      rw [hrefresh] at hrun
      exact ⟨f, told, hrun, hdisk⟩

/-- A build as far as its last task, with what it leaves. -/
def work (choose : ToolchainChoice ν) (b : Builder) (project : Project) :
    Action ν (Checked ν × Disk) := do
  b.announce project
  let c ← b.checkArtifact choose project
  runTasks (c.tasks project)
  return (c, ← Action.disk)

theorem exists_worked (hbuildable : project.outputType ≠ .container)
    (h : (work choose b project).runIn w = (.ok (c, d), v)) (hstale : c.isFresh = false) :
    ∃ announced begun ended, Worked choose b project w announced begun ended c ∧ ended.disk = d := by
  obtain ⟨_, announced, hannounce, h⟩ := Action.runIn_bind_eq_ok.1 h
  obtain ⟨c', begun, hcheck, h⟩ := Action.runIn_bind_eq_ok.1 h
  obtain ⟨_, ended, htasks, h⟩ := Action.runIn_bind_eq_ok.1 h
  obtain ⟨d', _, hdisk, h⟩ := Action.runIn_bind_eq_ok.1 h
  rw [Action.runIn_disk] at hdisk
  cases hdisk
  cases h
  exact ⟨announced, begun, _, ⟨hannounce, hbuildable, hcheck, hstale, htasks⟩, rfl⟩

end Builder

namespace Tool.Gnu

/-- The tasks that make a static library do not use the libraries it depends on. -/
theorem tasks_of_staticLibrary {ν : Type} {g : Gnu}
    (h : g.request.project.outputType = .staticLibrary) (libraries : List Path)
    (units : List CompileUnit) (output : Path) (version : Option String) :
    ({ g with request.dependencyOutputs := libraries } : Gnu).tasks units output version =
      (g.tasks units output version : List (Build.Task ν)) := by
  rw [tasks, tasks, artifactTask, artifactTask, if_pos h, if_pos h]
  rfl

end Tool.Gnu

namespace Build.Plant

/-- A library that depends on another one, which archiving it does not need. -/
def stackedLibrary : Project :=
  { linkedApplication with outputType := .staticLibrary }

/-- A workspace of these, built by copying. -/
def stacked : Plant Unit :=
  copying { linked.builder with projects := [stackedLibrary, versionedLibrary] }

/-- All is there that the work of the library is to leave, but the other library has not been built.
-/
theorem stacked_finished :
    ((Builder.work stacked.choose stacked.builder stackedLibrary).runIn linkedWorld).1.toOption.any
      (fun (c, d) => c.isFresh = false ∧ d.isFile stackedLibrary.path = true ∧
        (∀ u ∈ c.units, d.isFile u.source = true ∧ d.isFile u.output = true ∧
          (readDependencies d u.dependencyFile).toOption.any (·.all d.isFile) = true) ∧
        stackedLibrary.manifestFile.parent?.all d.isDirectory = true ∧
        (∀ q ∈ [stackedLibrary.manifestFile, Manifest.temporary stackedLibrary.manifestFile],
          (d.writable q).toOption.isSome = true) ∧
        ∃ q ∈ c.request.dependencyOutputs, (q == stackedLibrary.path) = false ∧
          d.isFile q = false) = true := by
  decide +kernel

/-- The work of the library succeeds, and yet its build fails and commits nothing. -/
theorem stacked_not_committed : ∃ announced begun ended c,
    Builder.Worked stacked.choose stacked.builder stackedLibrary linkedWorld announced begun ended
      c ∧ Builder.Finished ended.disk stackedLibrary c ∧
    ∃ f v, (stacked.builder.buildProject stacked.choose stackedLibrary).runIn linkedWorld =
      (.error f, v) ∧ v.disk = ended.disk := by
  obtain ⟨⟨c, d⟩, hwork, hfacts⟩ := (Option.any_eq_true _ _).1 stacked_finished
  obtain ⟨hstale, hdescription, hunits, hparent, hwritable, q, hq, hne, hmissing⟩ :=
    of_decide_eq_true hfacts
  obtain ⟨announced, begun, ended, hworked, rfl⟩ := Builder.exists_worked (by decide)
    (Prod.ext (toOption_eq_some_iff.1 hwork) rfl) hstale
  have hfinished : Builder.Finished ended.disk stackedLibrary c := by
    refine ⟨hdescription, fun u hu => (hunits u hu).1, fun u hu => (hunits u hu).2.1,
      fun u hu _ => ?_, ?_⟩
    · obtain ⟨found, hfound, hall⟩ := (Option.any_eq_true _ _).1 (hunits u hu).2.2
      exact ⟨found, toOption_eq_some_iff.1 hfound, List.all_eq_true.1 hall⟩
    · have hexists (q : Path) (hq : (ended.disk.writable q).toOption.isSome = true) :
          ∃ l, ended.disk.writable q = .ok l := by
        obtain ⟨l, hl⟩ := Option.isSome_iff_exists.1 hq
        exact ⟨l, toOption_eq_some_iff.1 hl⟩
      refine ⟨fun directory hdirectory => .inr ?_, hexists _ (hwritable _ List.mem_cons_self),
        hexists _ (hwritable _ (List.mem_cons_of_mem _ List.mem_cons_self))⟩
      simpa [hdirectory] using hparent
  refine ⟨announced, begun, ended, c, hworked, hfinished,
    (Builder.built_iff_recordable hworked hfinished).2 fun hrecordable => ?_⟩
  rw [hrecordable.library q hq hne] at hmissing
  cases hmissing

end Build.Plant

end IncrementalBuild
