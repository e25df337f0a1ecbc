import IncrementalBuild.Proofs.Build.Check

/-!
What a build does once something is stale. If it fails, a manifest that is there is the old one. If
it succeeds, the new manifest stands in its file, and its records of the objects that were compiled
and of the artifact were taken where these are right.
-/

namespace IncrementalBuild

open Build State

variable {ν : Type}

namespace Builder

/-- Reporting what compilers said only changes what was said and what is shown. -/
theorem of_runIn_runAndReport {units : List CompileUnit} {tasks : List (Build.Task ν)}
    {w v : World ν} {r : Except Failure Unit} (h : (runAndReport units tasks).runIn w = (r, v)) :
    ∃ u, (runTasks tasks).runIn w = (r, u) ∧ v.disk = u.disk ∧ v.scheduler = u.scheduler ∧
      v.searchPath = u.searchPath := by
  simp only [runAndReport, Action.runIn, ExceptT.run_mk, StateT.run_bind] at h
  cases h
  exact ⟨_, rfl, rfl, rfl, rfl⟩

theorem runIn_writeManifest (project : Project) (m : Manifest) (w : World ν) :
    (writeManifest project m).runIn w =
      ((m.write project.manifestFile w.disk).1,
        { w with disk := (m.write project.manifestFile w.disk).2 }) := by
  rw [writeManifest, Action.runIn_bind, Action.runIn_get]
  dsimp only
  rw [Action.runIn_bind, Action.runIn_set]
  dsimp only
  rw [Action.runIn_ofExcept]

/-- Whether or not it succeeds, a build that has found something stale runs tasks, and after them it
only writes the manifest, or does not come to that. -/
theorem cases_of_refresh {p : Project} {c : Checked ν} {v u : World ν}
    {result : Except Failure Unit} (h : (refresh p c).runIn v = (result, u)) :
    ∃ r x, (runTasks (c.tasks p)).runIn v = (r, x) ∧ u.scheduler = x.scheduler ∧
      (result ≠ .ok () ∧ u.disk = x.disk ∨
        ∃ n : Manifest, n.write p.manifestFile x.disk = (result, u.disk)) := by
  unfold refresh at h
  rw [Action.runIn_bind] at h
  split at h
  next v₁ hphase =>
    obtain ⟨v₀, console, hreport, rfl⟩ := Action.of_runIn_phase hphase
    obtain ⟨x, htasks, hdisk, hscheduler, -⟩ := of_runIn_runAndReport hreport
    rw [Action.runIn_bind, Action.runIn_disk] at h
    dsimp only at h
    rw [Action.runIn_bind, Action.runIn_ofExcept] at h
    split at h
    next n v₂ hrecord =>
      obtain ⟨-, rfl⟩ := Prod.mk.inj hrecord
      rw [runIn_writeManifest] at h
      obtain ⟨hwrite, rfl⟩ := Prod.mk.inj h
      exact ⟨_, x, htasks, hscheduler, .inr ⟨n, hdisk ▸ Prod.ext hwrite rfl⟩⟩
    next v₂ hrecord =>
      obtain ⟨-, rfl⟩ := Prod.mk.inj hrecord
      cases h
      exact ⟨_, x, htasks, hscheduler, .inl ⟨by simp, hdisk⟩⟩
  next v₁ hphase =>
    obtain ⟨v₀, console, hreport, rfl⟩ := Action.of_runIn_phase hphase
    obtain ⟨x, htasks, hdisk, hscheduler, -⟩ := of_runIn_runAndReport hreport
    cases h
    exact ⟨_, x, htasks, hscheduler, .inl ⟨by simp, hdisk⟩⟩

/-- A build that succeeds runs all of its tasks, records what is there then, and writes that. -/
theorem exists_of_refresh {p : Project} {c : Checked ν} {v u : World ν}
    (h : (refresh p c).runIn v = (.ok (), u)) :
    ∃ x n, (runTasks (c.tasks p)).runIn v = (.ok (), x) ∧
      recordBuild x.disk p c.request c.fingerprint c.manifest c.units = .ok n ∧
      n.write p.manifestFile x.disk = (.ok (), u.disk) ∧ u.scheduler = x.scheduler ∧
      u.searchPath = x.searchPath := by
  unfold refresh at h
  obtain ⟨_, v₁, hphase, h⟩ := Action.runIn_bind_eq_ok.1 h
  obtain ⟨v₀, console, hreport, rfl⟩ := Action.of_runIn_phase hphase
  obtain ⟨x, htasks, hdisk, hscheduler, hpath⟩ := of_runIn_runAndReport hreport
  obtain ⟨_, v₂, hdiskRun, h⟩ := Action.runIn_bind_eq_ok.1 h
  cases hdiskRun
  obtain ⟨n, v₃, hrecordRun, h⟩ := Action.runIn_bind_eq_ok.1 h
  rw [Action.runIn_ofExcept] at hrecordRun
  obtain ⟨hrecord, rfl⟩ := Prod.mk.inj hrecordRun
  rw [runIn_writeManifest] at h
  obtain ⟨hwrite, rfl⟩ := Prod.mk.inj h
  refine ⟨x, n, htasks, hdisk ▸ hrecord, ?_, hscheduler, hpath⟩
  rw [← hdisk]
  exact Prod.ext hwrite rfl

/-- How a build goes that has found something stale and succeeds. Its tasks are executed stage by
stage and end in the world `built`, what they made is recorded as it is there, and the manifest is
written. -/
structure Refreshing (p : Project) (c : Checked ν) (v u : World ν) (tasks : List (Build.Task ν))
    (built : World ν) (n : Manifest) : Prop where
  executed : Executed tasks v built
  mem_iff : ∀ t, t ∈ tasks ↔ t ∈ c.tasks p
  sorted : tasks.Pairwise fun a b => a.stage.rank ≤ b.stage.rank
  record_eq : recordBuild built.disk p c.request c.fingerprint c.manifest c.units = .ok n
  write_eq : n.write p.manifestFile built.disk = (.ok (), u.disk)
  searchPath_eq : u.searchPath = built.searchPath
  settled : u.scheduler.Settled

theorem exists_refreshing {p : Project} {c : Checked ν} {v u : World ν}
    (hsettled : v.scheduler.Settled) (h : (refresh p c).runIn v = (.ok (), u)) :
    ∃ tasks built n, Refreshing p c v u tasks built n := by
  obtain ⟨x, n, htasks, hrecord, hwrite, hscheduler, hpath⟩ := exists_of_refresh h
  obtain ⟨tasks, built, hexecuted, hend, hmem, hsorted⟩ := executed_of_runTasks hsettled htasks
  have hkept : KeptBy (fun _ _ => True) (c.tasks p) :=
    ⟨fun _ => trivial, fun _ _ => trivial, fun _ _ _ _ => trivial⟩
  have hbuilt : x.disk = built.disk := by rw [hend]
  refine ⟨tasks, built, n, hexecuted, hmem, hsorted, hbuilt ▸ hrecord, hbuilt ▸ hwrite, ?_, ?_⟩
  · rw [hpath, hend]
  · rw [hscheduler]
    exact (runTasks_kept hkept hsettled htasks).2

end Builder

namespace Build.Site

variable {site : Site ν}

/-- The record of an object was taken where the object is right. -/
structure ObjectMade (site : Site ν) (d : Disk) (s : Path) (r : Record) : Prop where
  right : site.ObjectRight d s
  taken : r.Taken d s (site.compiler.headers d s)

/-- The record of the artifact was taken where it is right, and holds the stamps of all objects. -/
structure ArtifactMade (site : Site ν) (d : Disk) (r : Record) : Prop where
  right : site.ArtifactRight d
  stamps : ∀ s ∈ site.sources, ∃ stamp, ⟨site.object s, stamp⟩ ∈ r.dependencies ∧
    Stamp.capture d (site.object s) = .ok stamp

variable {d e : Disk} {s : Path} {r : Record}

theorem ObjectMade.keeps (h : site.ObjectMade d s r) (hlawful : site.Lawful)
    (hs : s ∈ site.sources) (hkeeps : ∀ q, site.Input q ∨ q ∈ site.outputs → d.KeepsFile e q) :
    site.ObjectMade e s r := by
  have hsource := hkeeps s (.inl (hlawful.input_source s hs))
  have hheader (q : Path) (hq : q ∈ site.compiler.headers d s) : d.KeepsFile e q :=
    hkeeps q (.inl (hlawful.input_header d s hs q hq))
  have hobject : d.KeepsFile e (site.object s) :=
    hkeeps _ (.inr (List.mem_append_left _ (List.mem_map_of_mem hs)))
  obtain ⟨bytes, hbytes⟩ := Stamp.contents?_of_capture h.taken.source_eq
  obtain ⟨hheaders, hsame⟩ := site.compiler.determined d e s
    ((hsource.contents? hbytes).trans hbytes.symm) fun q hq hne => by
      obtain ⟨stamp, -, hcapture⟩ := h.taken.stamp_of_mem hq hne
      obtain ⟨bytes, hbytes⟩ := Stamp.contents?_of_capture hcapture
      exact ((hheader q hq).contents? hbytes).trans hbytes.symm
  refine ⟨?_, ?_⟩
  · rw [ObjectRight, hsame]
    exact hobject.contents? h.right
  · rw [hheaders]
    exact h.taken.keeps hsource hheader

theorem ArtifactMade.keeps (h : site.ArtifactMade d r)
    (hkeeps : ∀ q ∈ site.outputs, d.KeepsFile e q) : site.ArtifactMade e r := by
  have hobject (s : Path) (hs : s ∈ site.sources) : d.KeepsFile e (site.object s) :=
    hkeeps _ (List.mem_append_left _ (List.mem_map_of_mem hs))
  have hobjects : site.objects e = site.objects d := by
    apply List.map_congr_left
    intro s hs
    obtain ⟨stamp, -, hcapture⟩ := h.stamps s hs
    obtain ⟨bytes, hbytes⟩ := Stamp.contents?_of_capture hcapture
    exact ((hobject s hs).contents? hbytes).trans hbytes.symm
  refine ⟨?_, fun s hs => ?_⟩
  · rw [ArtifactRight, hobjects]
    exact (hkeeps _ (List.mem_append_right _ List.mem_cons_self)).contents? h.right
  · obtain ⟨stamp, hstamp, hcapture⟩ := h.stamps s hs
    exact ⟨stamp, hstamp, Stamp.capture_keeps (hobject s hs) hcapture⟩

/-- Where an object is fresh, the compiler still makes of its source what it made when the object
was recorded. -/
theorem ObjectMade.object_eq_of_fresh (h : site.ObjectMade d s r) (hlawful : site.Lawful)
    (hs : s ∈ site.sources) {fingerprint : UInt64}
    (hfresh : r.verdict e fingerprint (State.inputHash e fingerprint s) s = .fresh)
    (hhashed : State.inputHash d fingerprint s = State.inputHash e fingerprint s →
      d.metadataHash? s = e.metadataHash? s)
    (htells : ∀ q ∈ s :: site.compiler.headers d s, d.Tells e q) {f : Disk}
    (hkept : ∀ q, site.Input q → ∀ bytes, e.contents? q = some bytes →
      f.contents? q = some bytes) :
    site.compiler.object f s = site.compiler.object d s := by
  have hsame (q : Path) (hq : site.Input q) (heq : e.contents? q = d.contents? q)
      (hsome : ∃ bytes, d.contents? q = some bytes) : f.contents? q = d.contents? q := by
    obtain ⟨bytes, hbytes⟩ := hsome
    rw [hkept q hq bytes (heq.trans hbytes), hbytes]
  refine (site.compiler.determined d f s ?_ fun q hq hne => ?_).2
  · have hnow := h.taken.contents?_source_eq hfresh hhashed (htells s List.mem_cons_self)
    exact hsame s (hlawful.input_source s hs) hnow (Stamp.contents?_of_capture h.taken.source_eq)
  · have hinput := hlawful.input_header d s hs q hq
    obtain ⟨stamp, -, hcapture⟩ := h.taken.stamp_of_mem hq hne
    have hnow := h.taken.contents?_eq hfresh hq hne (htells q (List.mem_cons_of_mem _ hq))
    exact hsame q hinput hnow (Stamp.contents?_of_capture hcapture)

/-- Where the artifact is fresh, the objects are those it was linked from. -/
theorem ArtifactMade.objects_eq_of_fresh (h : site.ArtifactMade d r) {fingerprint current : UInt64}
    {p : Path} (hfresh : r.verdict e fingerprint current p = .fresh)
    (htells : ∀ s ∈ site.sources, d.Tells e (site.object s)) :
    site.objects e = site.objects d := by
  obtain ⟨-, -, hdependencies⟩ := Record.verdict_eq_fresh_iff.1 hfresh
  apply List.map_congr_left
  intro s hs
  obtain ⟨stamp, hstamp, hcapture⟩ := h.stamps s hs
  have hsame := hdependencies ⟨site.object s, stamp⟩ hstamp
  dsimp only at hsame
  exact Stamp.contents?_eq_of_mismatch? hcapture (htells s hs) hsame

namespace Found

variable {w : World ν} {c : Builder.Checked ν}

theorem exists_source (h : site.Found w c d) {u : CompileUnit} (hu : u ∈ c.units) :
    ∃ s ∈ site.sources, u = (CompileUnit.make s (site.object s)).check d c.fingerprint true
      c.manifest := by
  rw [h.units_eq] at hu
  obtain ⟨s, hs, heq⟩ := List.mem_map.1 hu
  exact ⟨s, hs, heq.symm⟩

theorem isUnit (h : site.Found w c d) {u : CompileUnit} (hu : u ∈ c.units) :
    site.IsUnit u ∧ u.dependencyFile = site.dependencyFile u.source := by
  obtain ⟨s, hs, heq⟩ := h.exists_source hu
  obtain ⟨hsource, houtput, hdependency⟩ :=
    CompileUnit.check_make s (site.object s) d c.fingerprint true c.manifest
  rw [← heq] at hsource houtput hdependency
  rw [IsUnit, houtput, hdependency, hsource, dependencyFile]
  exact ⟨⟨hs, rfl⟩, rfl⟩

theorem map_output_eq (h : site.Found w c d) :
    c.units.map CompileUnit.output = site.sources.map site.object := by
  rw [h.units_eq, map_output_checkedUnits]
  rfl

/-- The tasks of a build compile what is stale, link, or come after that. -/
theorem role (h : site.Found w c d) (hlawful : site.Lawful) :
    ∀ t ∈ c.tasks site.project,
      site.Role (fun s => ∃ u ∈ c.units, u.isStale = true ∧ u.source = s) t := by
  intro t ht
  rcases List.mem_append.1 ht with ht | ht
  · rcases h.serves.compiles_or_links c.units _ _ (fun u hu => (h.isUnit hu).1) t ht with
      ⟨u, hu, hstale, hcompiles⟩ | hlinks
    · exact .compiles u.source ⟨u, hu, hstale, rfl⟩ hcompiles
    · exact .links hlinks
  · obtain ⟨line, hline, rfl⟩ := List.mem_map.1 ht
    exact .follows (hlawful.postBuild line hline)

/-- Whatever becomes of a build, no job is left at work. If it fails, a manifest that is there is
the old one. -/
theorem kept_of_refresh (h : site.Found w c d) (hlawful : site.Lawful) {v u : World ν}
    {result : Except Failure Unit} (hsettled : v.scheduler.Settled)
    (hrun : (Builder.refresh site.project c).runIn v = (result, u)) :
    u.scheduler.Settled ∧ (result ≠ .ok () → v.disk.Inherits u.disk site.manifest) := by
  obtain ⟨r, x, htasks, hscheduler, hend⟩ := Builder.cases_of_refresh hrun
  have hkept : KeptBy (site.Leaves fun _ => False) (c.tasks site.project) :=
    keptBy_leaves (h.role hlawful) fun _ _ _ hfalse => hfalse.elim
  obtain ⟨hleaves, hsettled⟩ := runTasks_kept hkept hsettled htasks
  refine ⟨hscheduler ▸ hsettled, fun hfailed => ?_⟩
  obtain ⟨-, hdisk⟩ | ⟨n, hwrite⟩ := hend
  · rw [hdisk]
    exact hleaves.inherits
  · cases result with
    | ok x => exact absurd rfl hfailed
    | error f => exact hleaves.inherits.trans (Manifest.inherits_of_write hwrite)

/-- How a build goes that succeeds: its tasks leave the disk `d`, what was built is recorded as it
is there, and then the manifest is written. -/
theorem exists_recorded (h : site.Found w c d) (hlawful : site.Lawful) {v u : World ν}
    (hsettled : v.scheduler.Settled)
    (hrun : (Builder.refresh site.project c).runIn v = (.ok (), u)) :
    ∃ built n, site.Leaves (fun _ => False) v.disk built ∧
      (∀ x ∈ c.units, x.isStale = true → site.ObjectRight built x.source ∧
        readDependencies built (site.dependencyFile x.source) =
          .ok (site.compiler.headers built x.source)) ∧
      site.ArtifactRight built ∧
      Builder.recordBuild built site.project c.request c.fingerprint c.manifest c.units = .ok n ∧
      n.write site.manifest built = (.ok (), u.disk) := by
  obtain ⟨executed, built, n, hrefreshing⟩ := Builder.exists_refreshing hsettled hrun
  have hroles : ∀ t ∈ executed,
      site.Role (fun s => ∃ u ∈ c.units, u.isStale = true ∧ u.source = s) t :=
    fun t ht => h.role hlawful t ((hrefreshing.mem_iff t).1 ht)
  have hunits : ∀ u ∈ c.units, site.IsUnit u := fun u hu => (h.isUnit hu).1
  have hkept : KeptBy (site.Leaves fun _ => False) executed :=
    keptBy_leaves hroles fun _ _ _ hfalse => hfalse.elim
  refine ⟨built.disk, n, hrefreshing.executed.kept hkept, ?_, ?_, hrefreshing.record_eq,
    hrefreshing.write_eq⟩
  · intro z hz hstale
    obtain ⟨t, ht, hcompiles⟩ := h.serves.exists_compiles c.units c.fingerprint
      site.project.version hunits z hz hstale
    have ht' : t ∈ executed := (hrefreshing.mem_iff t).2 (List.mem_append_left _ ht)
    exact compiled_of_executed hlawful hrefreshing.executed hroles (hunits z hz).1
      ⟨t, ht', hcompiles⟩
  · obtain ⟨t, ht, hlinks⟩ :=
      h.serves.exists_links c.units c.fingerprint site.project.version hunits
    have ht' : t ∈ executed := (hrefreshing.mem_iff t).2 (List.mem_append_left _ ht)
    exact linked_of_executed hrefreshing.executed hroles hrefreshing.sorted ⟨t, ht', hlinks⟩

end Found

/-- What a build that succeeds leaves: the manifest `n`, the records of which are those of before
for what was fresh, and were taken where the outputs are right for what was not. -/
structure Renewed (site : Site ν) (c : Builder.Checked ν) (before after : Disk) (n : Manifest) :
    Prop where
  valid : n.Valid
  bytes_eq : ∀ f, after.standing site.manifest = some (.file f) → f.bytes = n.toText.toUTF8
  kept : ∀ q, site.Input q → ∀ bytes, before.contents? q = some bytes →
    after.contents? q = some bytes
  fresh : ∀ u ∈ c.units, u.isStale = false → n.get? u.output = c.manifest.get? u.output
  stale : ∀ u ∈ c.units, u.isStale = true →
    ∃ r, n.get? u.output = some r ∧ site.ObjectMade after u.source r
  artifact : ∃ r, n.get? site.artifact = some r ∧ site.ArtifactMade after r

theorem Found.renewed {w v u : World ν} {c : Builder.Checked ν} (h : site.Found w c v.disk)
    (hlawful : site.Lawful) (hsettled : v.scheduler.Settled)
    (hrun : (Builder.refresh site.project c).runIn v = (.ok (), u)) :
    ∃ n, site.Renewed c v.disk u.disk n := by
  obtain ⟨built, n, hleaves, hobjects, hartifact, hrecord, hwrite⟩ :=
    h.exists_recorded hlawful hsettled hrun
  have hkeeps (q : Path) (hq : site.Input q ∨ q ∈ site.outputs) : built.KeepsFile u.disk q :=
    Manifest.keepsFile_of_write hwrite (hlawful.avoids q hq).1 (hlawful.avoids q hq).2
  have hdistinct := hlawful.distinct
  rw [outputs, ← h.map_output_eq] at hdistinct
  obtain ⟨hvalid, hfresh, hstale, r, hr, -, htaken⟩ := Builder.recordBuild_eq_ok hdistinct hrecord
  refine ⟨n, hvalid h.manifest_valid, fun f hf => Manifest.standing_of_write hwrite hf, ?_, hfresh,
    ?_, r, hr, ?_⟩
  · intro q hq bytes hbytes
    exact (hkeeps q (.inl hq)).contents? ((hleaves.input_eq q hq).trans hbytes)
  · intro x hx hxstale
    obtain ⟨r, found, hr, hfound, -, htaken⟩ := hstale x hx hxstale
    obtain ⟨hright, hdependencies⟩ := hobjects x hx hxstale
    obtain ⟨⟨hsource, -⟩, hfile⟩ := h.isUnit hx
    rw [← hfile] at hdependencies
    rw [Builder.listedDependencies_eq hdependencies, Except.ok.injEq] at hfound
    rw [← hfound] at htaken
    exact ⟨r, hr, ObjectMade.keeps ⟨hright, htaken⟩ hlawful hsource hkeeps⟩
  · refine ArtifactMade.keeps ⟨hartifact, fun s hs => ?_⟩ fun q hq => hkeeps q (.inr hq)
    have hmem : site.object s ∈ Builder.artifactInputs c.units c.request := by
      rw [Builder.artifactInputs, h.map_output_eq]
      exact List.mem_append_left _ (List.mem_map_of_mem hs)
    exact htaken.stamp_of_mem hmem (hlawful.description_ne s hs)

end Build.Site

end IncrementalBuild
