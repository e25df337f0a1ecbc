import IncrementalBuild.Proofs.Build.Check
import IncrementalBuild.Proofs.Build.Plant

/-!
Projects that are up to date: all that was made is there, and the records hold of it. A project
stays up to date as long as what it was built from and what was made of it are left alone, and a
build that finds it so does nothing.
-/

namespace IncrementalBuild

open Build State

namespace Builder

variable {ν : Type} {d e : Disk} {b : Builder} {p : Project}

theorem fingerprint_keeps (hpath : d.KeepsNode e p.path) (hpathThere : d.present p.path = true)
    (hworkspace : d.KeepsNode e b.workspace.path)
    (hworkspaceThere : d.present b.workspace.path = true) :
    b.fingerprint e p = b.fingerprint d p := by
  simp only [fingerprint, timeBytes, hpath.modified? hpathThere,
    hworkspace.modified? hworkspaceThere]

/-- Without commands that come first, a build is only announced. -/
theorem runIn_announce (hnone : p.preBuildCommands = []) (w : World ν) :
    ∃ console, (b.announce p).runIn w = (.ok (), { w with console }) := by
  unfold announce runPreBuild
  rw [hnone, Action.runIn_bind]
  exact ⟨_, rfl⟩

/-- Version files that are in place are not written. -/
theorem runIn_writeVersionFiles {w : World ν} (h : Version.InPlace w.disk p) :
    (writeVersionFiles p).runIn w = (.ok (), w) := by
  rw [writeVersionFiles, Action.runIn_bind, h.runIn_writeFiles]
  rfl

/-- How a build goes that succeeds, once it has been announced: the project groups others, or a check
finds everything fresh, or what was checked is refreshed. -/
inductive Course (choose : ToolchainChoice ν) (b : Builder) (p : Project) (w : World ν) :
    BuildOutcome → World ν → Prop where
  | skipped {v : World ν} : p.outputType = .container → w.Unmoved v → Course choose b p w .skipped v
  | upToDate {a x v : World ν} {c : Checked ν} : p.outputType ≠ .container → w.Unmoved a →
      (b.checkArtifact choose p).runIn a = (.ok c, x) → c.isFresh = true → x.Unmoved v →
      Course choose b p w .upToDate v
  | built {a x y v : World ν} {c : Checked ν} : p.outputType ≠ .container → w.Unmoved a →
      (b.checkArtifact choose p).runIn a = (.ok c, x) → (refresh p c).runIn x = (.ok (), y) →
      y.Unmoved v → Course choose b p w .built v

variable {choose : ToolchainChoice ν} {w u v : World ν} {outcome : BuildOutcome}

theorem Course.of_unmoved (h : Course choose b p u outcome v) (hw : w.Unmoved u) :
    Course choose b p w outcome v := by
  cases h with
  | skipped hcontainer hend => exact .skipped hcontainer (hw.trans hend)
  | upToDate hmade hstart hcheck hfresh hend =>
    exact .upToDate hmade (hw.trans hstart) hcheck hfresh hend
  | built hmade hstart hcheck hrefresh hend =>
    exact .built hmade (hw.trans hstart) hcheck hrefresh hend

theorem exists_course (h : (b.buildProject choose p).runIn w = (.ok outcome, v)) :
    ∃ u, (b.announce p).runIn w = (.ok (), u) ∧ Course choose b p u outcome v := by
  unfold buildProject buildArtifact at h
  obtain ⟨_, u, hannounce, h⟩ := Action.runIn_bind_eq_ok.1 h
  refine ⟨u, hannounce, ?_⟩
  split at h
  next hcontainer =>
    obtain ⟨_, x, htell, h⟩ := Action.runIn_bind_eq_ok.1 h
    cases h
    exact .skipped hcontainer (Action.of_runIn_tell htell)
  next hmade =>
    rw [Action.runIn_bind, Action.runIn_disk] at h
    dsimp only at h
    obtain ⟨c, x, hcheck, h⟩ := Action.runIn_bind_eq_ok.1 h
    split at h
    next hfresh =>
      obtain ⟨_, y, htell, h⟩ := Action.runIn_bind_eq_ok.1 h
      cases h
      exact .upToDate hmade (.refl u) hcheck hfresh (Action.of_runIn_tell htell)
    next =>
      obtain ⟨_, y, hrefresh, h⟩ := Action.runIn_bind_eq_ok.1 h
      obtain ⟨time, y', htime, h⟩ := Action.runIn_bind_eq_ok.1 h
      cases htime
      obtain ⟨_, y', htell, h⟩ := Action.runIn_bind_eq_ok.1 h
      cases h
      exact .built hmade (.refl u) hcheck hrefresh (Action.of_runIn_tell htell)

/-- Without commands that come first, all of a build is in its course. -/
theorem course_of_buildProject (hfirst : p.preBuildCommands = [])
    (h : (b.buildProject choose p).runIn w = (.ok outcome, v)) :
    Course choose b p w outcome v := by
  obtain ⟨u, hannounce, hcourse⟩ := exists_course h
  obtain ⟨console, hshown⟩ := b.runIn_announce hfirst w
  rw [hshown] at hannounce
  cases hannounce
  exact hcourse.of_unmoved ⟨rfl, rfl, rfl, rfl⟩

end Builder

namespace Build.Plant

variable {ν : Type} {plant : Plant ν} {ps : List Project} {p : Project}
  {d e : Disk} {w v : World ν} {s : Path}

/-- The toolchain of a project was made ready in a world since which the files that are looked at
for it have been left alone. -/
def Ready (plant : Plant ν) (p : Project) (w : World ν) : Prop :=
  ∃ libraries makeReady v t, plant.builder.dependencyOutputs p = .ok libraries ∧
    plant.choose ⟨p, libraries⟩ = .ok makeReady ∧ (makeReady.runIn v).1 = .ok t ∧
      w.searchPath = v.searchPath ∧ ∀ q, plant.Tool q → v.disk.KeepsNode w.disk q

/-- The records of all outputs of a project hold, and they are of its headers and of what its
artifact is made from. -/
structure Recorded (plant : Plant ν) (p : Project) (d : Disk) (m : Manifest) : Prop where
  object : ∀ s ∈ p.sourceFiles, ∃ r, m.get? (plant.object p s) = some r ∧
    r.Holds d (plant.builder.fingerprint d p) s ∧ ∀ x ∈ r.dependencies, plant.Header p x.path
  artifact : ∃ r libraries, m.get? p.outputFile = some r ∧
    r.Holds d (plant.builder.fingerprint d p) p.path ∧
      plant.builder.dependencyOutputs p = .ok libraries ∧
        (r.dependencies.map DependencyRecord.path ==
          p.sourceFiles.map (plant.object p) ++ libraries) = true

/-- All that a build of the project makes is there, and with a compile step the records hold. -/
structure Current (plant : Plant ν) (p : Project) (w : World ν) : Prop where
  ready : plant.Ready p w
  workspace : w.disk.present plant.builder.workspace.path = true
  description : w.disk.present p.path = true
  directories : ∀ q ∈ [p.outputDirectory, p.intermediateDirectory],
    q.ancestors = [] ∨ w.disk.isDirectory q = true
  versionFiles : Version.InPlace w.disk p
  outputs : ∀ o ∈ plant.outputs p, w.disk.present o = true
  recorded : plant.compileStep p = true →
    ∃ m, Manifest.read w.disk p.manifestFile = .ok m ∧ plant.Recorded p w.disk m

/-- What a project rests on once it is built, in any spelling. -/
def Concerns (plant : Plant ν) (p : Project) (q : Path) : Prop :=
  ∃ q', (q == q') = true ∧ (plant.Reads p q' ∨ q' ∈ plant.products p)

theorem concerns_reads {q : Path} (h : plant.Reads p q) : plant.Concerns p q :=
  ⟨q, Path.beq_self q, .inl h⟩

theorem concerns_product {q : Path} (h : q ∈ plant.products p) : plant.Concerns p q :=
  ⟨q, Path.beq_self q, .inr h⟩

theorem output_product {q : Path} (h : q ∈ plant.outputs p) : q ∈ plant.products p :=
  taskFile_product (List.mem_append_left _ h)

theorem Ready.leaves {Watched : Path → Prop} {written : List Path} (h : plant.Ready p w)
    (hleaves : w.Leaves Watched written v)
    (hkeeps : ∀ q, plant.Tool q → w.disk.KeepsNode v.disk q) : plant.Ready p v := by
  obtain ⟨libraries, makeReady, x, t, hlibraries, hchoose, hready, hpath, htools⟩ := h
  exact ⟨libraries, makeReady, x, t, hlibraries, hchoose, hready,
    hleaves.searchPath_eq.trans hpath, fun q hq => (htools q hq).trans (hkeeps q hq)⟩

/-- In two lists of paths that agree, each path of the one is spelled somehow in the other. -/
theorem exists_beq_of_beq {qs qs' : List Path} (h : (qs == qs') = true) {q : Path} (hq : q ∈ qs) :
    ∃ q' ∈ qs', (q == q') = true := by
  induction qs generalizing qs' with
  | nil => cases hq
  | cons a qs ih =>
    cases qs' with
    | nil => cases h
    | cons a' qs' =>
      obtain ⟨ha, hrest⟩ := Bool.and_eq_true_iff.1 h
      rcases List.mem_cons.1 hq with rfl | hq
      · exact ⟨a', List.mem_cons_self, ha⟩
      · obtain ⟨q', hq', heq⟩ := ih hrest hq
        exact ⟨q', List.mem_cons_of_mem _ hq', heq⟩

theorem Recorded.keeps {m : Manifest} (h : plant.Recorded p d m)
    (hfingerprint : plant.builder.fingerprint e p = plant.builder.fingerprint d p)
    (hkeeps : ∀ q q', (q == q') = true → plant.Reads p q' ∨ q' ∈ plant.outputs p →
      d.KeepsNode e q) : plant.Recorded p e m := by
  have hreads {q : Path} (hq : plant.Reads p q) : d.KeepsNode e q :=
    hkeeps q q (Path.beq_self q) (.inl hq)
  refine ⟨fun s hs => ?_, ?_⟩
  · obtain ⟨r, hr, hholds, hheaders⟩ := h.object s hs
    refine ⟨r, hr, ?_, hheaders⟩
    rw [hfingerprint]
    exact hholds.keeps (hreads (.source hs)) fun x hx => hreads (.header (hheaders x hx))
  · obtain ⟨r, libraries, hr, hholds, hlibraries, hpaths⟩ := h.artifact
    refine ⟨r, libraries, hr, ?_, hlibraries, hpaths⟩
    rw [hfingerprint]
    refine hholds.keeps (hreads .description) fun x hx => ?_
    obtain ⟨q, hq, heq⟩ := exists_beq_of_beq hpaths (List.mem_map_of_mem hx)
    refine hkeeps _ q heq ?_
    rcases List.mem_append.1 hq with hq | hq
    · exact .inr (List.mem_append_left _ hq)
    · exact .inl (.library hlibraries hq)

/-- A project stays up to date while all that it rests on is left alone. -/
theorem Current.leaves {Watched : Path → Prop} {written : List Path} (h : plant.Current p w)
    (hleaves : w.Leaves Watched written v)
    (hdirectories : ∀ q ∈ [p.outputDirectory, p.intermediateDirectory], Watched q)
    (hkeeps : ∀ q, plant.Concerns p q → w.disk.KeepsNode v.disk q) : plant.Current p v := by
  have hworkspace := hkeeps _ (concerns_reads .workspace)
  have hdescription := hkeeps _ (concerns_reads .description)
  have hproduct (q : Path) (hq : q ∈ plant.products p) : w.disk.KeepsNode v.disk q :=
    hkeeps q (concerns_product hq)
  refine ⟨h.ready.leaves hleaves fun q hq => hkeeps q (concerns_reads (.tool hq)),
    hworkspace.present h.workspace, hdescription.present h.description, fun q hq => ?_, ?_,
    fun o ho => (hproduct o (output_product ho)).present (h.outputs o ho), fun hstep => ?_⟩
  · exact (h.directories q hq).imp_right (hleaves.disk.isDirectory q (hdirectories q hq))
  · exact h.versionFiles.keeps h.description hdescription
      fun q hq => hproduct q (List.mem_append_left _ hq)
  · obtain ⟨m, hm, hrecorded⟩ := h.recorded hstep
    obtain ⟨r, -, hr, -⟩ := hrecorded.artifact
    have hmanifest : p.manifestFile ∈ plant.products p := by simp [products, made]
    refine ⟨m, Manifest.read_keeps hm hr (hproduct _ hmanifest), hrecorded.keeps ?_ ?_⟩
    · exact Builder.fingerprint_keeps hdescription h.description hworkspace h.workspace
    · exact fun q q' heq hq => hkeeps q ⟨q', heq, hq.imp_right output_product⟩

theorem Current.unmoved (h : plant.Current p w) (hv : w.Unmoved v) : plant.Current p v := by
  obtain ⟨libraries, makeReady, x, t, hlibraries, hchoose, hready, hpath, htools⟩ := h.ready
  refine ⟨⟨libraries, makeReady, x, t, hlibraries, hchoose, hready,
    hv.searchPath_eq.trans hpath, hv.disk_eq ▸ htools⟩, ?_, ?_, ?_, ?_, ?_, ?_⟩ <;> rw [hv.disk_eq]
  exacts [h.workspace, h.description, h.directories, h.versionFiles, h.outputs, h.recorded]

/-- What a check finds out about a project that looks at the disk `d`. -/
structure Looked (plant : Plant ν) (ps : List Project) (p : Project) (d : Disk)
    (c : Builder.Checked ν) : Prop where
  serves : plant.Serves ps p c.toolchain
  request_eq : ∃ libraries, plant.builder.dependencyOutputs p = .ok libraries ∧
    c.request = ⟨p, libraries⟩
  fingerprint_eq : c.fingerprint = plant.builder.fingerprint d p
  manifest_standing : c.manifest = .empty ∨ Manifest.read d p.manifestFile = .ok c.manifest
  manifest_eq : ∀ m, Manifest.read d p.manifestFile = .ok m → c.manifest = m
  checked_eq : (c.units, c.artifact) =
    Builder.checkProject d p c.request c.toolchain c.fingerprint c.manifest

namespace Looked

variable {c : Builder.Checked ν}

theorem units_eq (h : plant.Looked ps p d c) : c.units = p.sourceFiles.map fun s =>
    (CompileUnit.make s (plant.object p s)).check d c.fingerprint (plant.compileStep p)
      c.manifest := by
  have hunits := congrArg Prod.fst h.checked_eq
  dsimp only [Builder.checkProject] at hunits
  rw [hunits, h.serves.compileStep_eq, h.serves.objectExtension_eq]
  rfl

theorem map_output_eq (h : plant.Looked ps p d c) :
    c.units.map CompileUnit.output = p.sourceFiles.map (plant.object p) := by
  rw [h.units_eq]
  exact map_output_checkedUnits ..

theorem isUnit (h : plant.Looked ps p d c) {u : CompileUnit} (hu : u ∈ c.units) :
    plant.IsUnit p u := by
  rw [h.units_eq] at hu
  obtain ⟨s, hs, rfl⟩ := List.mem_map.1 hu
  exact isUnit_check hs

/-- A source has a unit, and that is fresh exactly if the object is there and, with a compile step,
the verdict of its record is for it. -/
theorem exists_unit (h : plant.Looked ps p d c) (hs : s ∈ p.sourceFiles) :
    ∃ u ∈ c.units, u.source = s ∧ u.output = plant.object p s ∧
      u.dependencyFile = plant.dependencyFile p s ∧ (u.isStale = false ↔
        d.present (plant.object p s) = true ∧ (plant.compileStep p = true →
          ∃ r, c.manifest.get? (plant.object p s) = some r ∧
            r.verdict d c.fingerprint (State.inputHash d c.fingerprint s) s = .fresh)) := by
  obtain ⟨hsource, houtput, hdependencyFile⟩ := CompileUnit.check_make s (plant.object p s) d
    c.fingerprint (plant.compileStep p) c.manifest
  refine ⟨_, ?_, hsource, houtput, hdependencyFile, CompileUnit.isStale_check⟩
  rw [h.units_eq]
  exact List.mem_map_of_mem hs

/-- All sources are fresh exactly if this holds of each of them. -/
theorem isStale_unit (h : plant.Looked ps p d c) :
    (∀ u ∈ c.units, u.isStale = false) ↔ ∀ s ∈ p.sourceFiles,
      d.present (plant.object p s) = true ∧ (plant.compileStep p = true →
        ∃ r, c.manifest.get? (plant.object p s) = some r ∧
          r.verdict d c.fingerprint (State.inputHash d c.fingerprint s) s = .fresh) := by
  rw [h.units_eq, List.forall_mem_map]
  exact forall₂_congr fun _ _ => CompileUnit.isStale_check

/-- The artifact is fresh if it is there and, with a compile step, the verdict of its record is for
it and the record is of what it is made from. -/
theorem isStale_artifact (h : plant.Looked ps p d c) :
    c.artifact.isStale = false ↔ d.present p.outputFile = true ∧ (plant.compileStep p = true →
      ∃ r, c.manifest.get? p.outputFile = some r ∧
        r.verdict d c.fingerprint (State.inputHash d c.fingerprint p.path) p.path = .fresh ∧
          (r.dependencies.map DependencyRecord.path ==
            p.sourceFiles.map (plant.object p) ++ c.request.dependencyOutputs) = true) := by
  have hartifact := congrArg Prod.snd h.checked_eq
  have hinputs : Builder.artifactInputs c.units c.request =
      p.sourceFiles.map (plant.object p) ++ c.request.dependencyOutputs := by
    rw [Builder.artifactInputs, h.map_output_eq]
  have hunits := congrArg Prod.fst h.checked_eq
  dsimp only [Builder.checkProject] at hartifact hunits
  rw [← hunits, hinputs, h.serves.compileStep_eq] at hartifact
  rw [hartifact]
  cases plant.compileStep p with
  | false => simp [CompileUnit.isStale_check]
  | true =>
    rw [if_pos rfl, CompileUnit.isStale_checkInputs, CompileUnit.isStale_check]
    constructor
    · rintro ⟨⟨hpresent, hrecord⟩, hsame⟩
      obtain ⟨r, hr, hverdict⟩ := hrecord rfl
      rw [CompileUnit.dependencies_check hpresent hr] at hsame
      exact ⟨hpresent, fun _ => ⟨r, hr, hverdict, hsame⟩⟩
    · rintro ⟨hpresent, hrecord⟩
      obtain ⟨r, hr, hverdict, hsame⟩ := hrecord rfl
      rw [CompileUnit.dependencies_check hpresent hr]
      exact ⟨⟨hpresent, fun _ => ⟨r, hr, hverdict⟩⟩, hsame⟩

theorem isFresh_iff : c.isFresh = true ↔
    (∀ u ∈ c.units, u.isStale = false) ∧ c.artifact.isStale = false := by
  simp [Builder.Checked.isFresh]

end Looked

/-- How a check goes that succeeds: once the directories and the version files are there, it only
looks. -/
theorem looked_of_checkArtifact {c : Builder.Checked ν} (horderly : plant.Orderly ps) (hp : p ∈ ps)
    (h : (plant.builder.checkArtifact plant.choose p).runIn w = (.ok c, v)) :
    ∃ w₁ w₂ x, (Action.createDirectories p.outputDirectory).runIn w = (.ok (), w₁) ∧
      (Action.createDirectories p.intermediateDirectory).runIn w₁ = (.ok (), w₂) ∧
      (Builder.writeVersionFiles p).runIn w₂ = (.ok (), x) ∧ x.Unmoved v ∧ plant.Ready p v ∧
      plant.Looked ps p x.disk c := by
  obtain ⟨versioned, ready, hchecking⟩ := Builder.exists_checking h
  obtain ⟨w₁, w₂, h₁, h₂, h₃⟩ := hchecking.made
  obtain ⟨libraries, makeReady, console, hlibraries, hrequest, hchoose, hready⟩ := hchecking.chosen
  rw [hrequest] at hchoose
  have hprepares := horderly.toolchain p hp libraries makeReady hlibraries hchoose
  have hmade : versioned.Unmoved ready := by
    have hsame := hprepares.unmoved { versioned with console, messages := .empty }
    rw [hready] at hsame
    exact ⟨hsame.disk_eq, hsame.scheduler_eq, hsame.searchPath_eq, hsame.notes_eq⟩
  have hunmoved := hmade.trans hchecking.unmoved
  refine ⟨w₁, w₂, versioned, h₁, h₂, h₃, hunmoved, ?_, ?_⟩
  · refine ⟨libraries, makeReady, _, c.toolchain, hlibraries, hchoose, congrArg Prod.fst hready,
      hunmoved.searchPath_eq, fun q _ => ?_⟩
    exact hunmoved.disk_eq.symm ▸ .refl versioned.disk q
  · refine ⟨hprepares.serves _ _ (congrArg Prod.fst hready), ⟨libraries, hlibraries, hrequest⟩, ?_,
      hchecking.manifest_standing, hchecking.manifest_eq, ?_⟩
    · rw [← hunmoved.disk_eq]
      exact hchecking.fingerprint_eq
    · rw [← hunmoved.disk_eq]
      exact hchecking.checked_eq

/-- A check of a project that is up to date succeeds. -/
theorem Current.exists_checkArtifact (h : plant.Current p w) (horderly : plant.Orderly ps)
    (hp : p ∈ ps) :
    ∃ c v, (plant.builder.checkArtifact plant.choose p).runIn w = (.ok c, v) := by
  obtain ⟨libraries, makeReady, x, t, hlibraries, hchoose, hready, hpath, htools⟩ := h.ready
  have hprepares := horderly.toolchain p hp libraries makeReady hlibraries hchoose
  have houtput := Action.runIn_createDirectories_of_isDirectory
    (h.directories p.outputDirectory (by simp))
  have hintermediate := Action.runIn_createDirectories_of_isDirectory
    (h.directories p.intermediateDirectory (by simp))
  obtain ⟨m, console, hmanifest, -⟩ := Builder.runIn_readManifest p w
  obtain ⟨t', ht'⟩ := hprepares.again x { w with console, messages := .empty } t hready hpath htools
  unfold Builder.checkArtifact
  refine Action.exists_runIn_bind houtput (Action.exists_runIn_bind hintermediate ?_)
  refine Action.exists_runIn_bind (Builder.runIn_writeVersionFiles h.versionFiles) ?_
  refine Action.exists_runIn_bind hmanifest ?_
  refine Action.exists_runIn_bind ((Action.runIn_ofExcept _ _).trans (Prod.ext hlibraries rfl)) ?_
  refine Action.exists_runIn_bind rfl ?_
  refine Action.exists_runIn_bind ((Action.runIn_ofExcept _ _).trans (Prod.ext hchoose rfl)) ?_
  refine Action.exists_runIn_bind (Action.runIn_within_eq_ok.2 (Prod.ext ht' rfl)) ?_
  refine Action.exists_runIn_bind rfl (Action.exists_runIn_bind (Action.runIn_disk _) ?_)
  refine Action.exists_runIn_bind rfl ?_
  obtain ⟨console', hphase⟩ := Action.runIn_phase _ _ _
  refine Action.exists_runIn_bind hphase ?_
  obtain ⟨console'', hexplain⟩ := Builder.runIn_each_explain _ _
  exact Action.exists_runIn_bind hexplain ⟨_, _, rfl⟩

/-- What is looked at of a project that is up to date is fresh. -/
theorem Current.isFresh {c : Builder.Checked ν} (h : plant.Current p w)
    (hlooked : plant.Looked ps p w.disk c) : c.isFresh = true := by
  have hobject (s : Path) (hs : s ∈ p.sourceFiles) : plant.object p s ∈ plant.outputs p :=
    List.mem_append_left _ (List.mem_map_of_mem hs)
  have hartifact : p.outputFile ∈ plant.outputs p := List.mem_append_right _ List.mem_cons_self
  rw [Looked.isFresh_iff, hlooked.isStale_unit, hlooked.isStale_artifact, hlooked.fingerprint_eq]
  refine ⟨fun s hs => ⟨h.outputs _ (hobject s hs), fun hstep => ?_⟩, h.outputs _ hartifact,
    fun hstep => ?_⟩
  · obtain ⟨m, hm, hrecorded⟩ := h.recorded hstep
    obtain ⟨r, hr, hholds, -⟩ := hrecorded.object s hs
    rw [hlooked.manifest_eq m hm]
    exact ⟨r, hr, hholds.verdict_eq⟩
  · obtain ⟨m, hm, hrecorded⟩ := h.recorded hstep
    obtain ⟨r, libraries, hr, hholds, hlibraries, hpaths⟩ := hrecorded.artifact
    obtain ⟨libraries', hlibraries', hrequest⟩ := hlooked.request_eq
    rw [hlibraries, Except.ok.injEq] at hlibraries'
    rw [hlooked.manifest_eq m hm, hrequest, ← hlibraries']
    exact ⟨r, hr, hholds.verdict_eq, hpaths⟩

/-- Where the directories and the version files are in place, a check only looks. -/
theorem looked_of_inPlace {c : Builder.Checked ν} (horderly : plant.Orderly ps) (hp : p ∈ ps)
    (hdirectories : ∀ q ∈ [p.outputDirectory, p.intermediateDirectory],
      q.ancestors = [] ∨ w.disk.isDirectory q = true)
    (hversionFiles : Version.InPlace w.disk p)
    (h : (plant.builder.checkArtifact plant.choose p).runIn w = (.ok c, v)) :
    w.Unmoved v ∧ plant.Looked ps p w.disk c := by
  obtain ⟨w₁, w₂, x, h₁, h₂, h₃, hunmoved, -, hlooked⟩ := looked_of_checkArtifact horderly hp h
  rw [Action.runIn_createDirectories_of_isDirectory
    (hdirectories p.outputDirectory (by simp))] at h₁
  obtain ⟨-, rfl⟩ := Prod.mk.inj h₁
  rw [Action.runIn_createDirectories_of_isDirectory
    (hdirectories p.intermediateDirectory (by simp))] at h₂
  obtain ⟨-, rfl⟩ := Prod.mk.inj h₂
  rw [Builder.runIn_writeVersionFiles hversionFiles] at h₃
  obtain ⟨-, rfl⟩ := Prod.mk.inj h₃
  exact ⟨hunmoved, hlooked⟩

/-- A build of a project that is up to date finds it so, and changes nothing. -/
theorem Current.runIn_buildProject (h : plant.Current p w) (horderly : plant.Orderly ps)
    (hp : p ∈ ps) (hfirst : p.preBuildCommands = []) (hmade : p.outputType ≠ .container) :
    ∃ v, (plant.builder.buildProject plant.choose p).runIn w = (.ok .upToDate, v) ∧
      w.Unmoved v := by
  obtain ⟨console, hannounce⟩ := plant.builder.runIn_announce hfirst w
  have hannounced : w.Unmoved { w with console } := ⟨rfl, rfl, rfl, rfl⟩
  have hcurrent := h.unmoved hannounced
  obtain ⟨c, v, hcheck⟩ := hcurrent.exists_checkArtifact horderly hp
  obtain ⟨hunmoved, hlooked⟩ :=
    looked_of_inPlace horderly hp hcurrent.directories hcurrent.versionFiles hcheck
  have htold := Action.of_runIn_tell
    (rfl : (Action.status ("  " ++ p.name ++ " is up to date")).runIn v = (.ok (), _))
  refine ⟨_, ?_, (hannounced.trans hunmoved).trans htold⟩
  unfold Builder.buildProject Builder.buildArtifact
  refine Action.runIn_bind_eq_ok.2 ⟨_, _, hannounce, ?_⟩
  rw [if_neg hmade]
  refine Action.runIn_bind_eq_ok.2 ⟨_, _, Action.runIn_disk _, ?_⟩
  refine Action.runIn_bind_eq_ok.2 ⟨_, _, hcheck, ?_⟩
  rw [if_pos (hcurrent.isFresh hlooked)]
  exact Action.runIn_bind_eq_ok.2 ⟨_, _, rfl, rfl⟩

/-- A build that finds a project up to date has seen its artifact. -/
theorem present_of_upToDate (horderly : plant.Orderly ps) (hp : p ∈ ps)
    (hfirst : p.preBuildCommands = [])
    (hdirectories : ∀ q ∈ [p.outputDirectory, p.intermediateDirectory],
      q.ancestors = [] ∨ w.disk.isDirectory q = true)
    (hversionFiles : Version.InPlace w.disk p)
    (h : (plant.builder.buildProject plant.choose p).runIn w = (.ok .upToDate, v)) :
    w.disk.present p.outputFile = true := by
  cases Builder.course_of_buildProject hfirst h with
  | upToDate _ hannounced hcheck hfresh _ =>
    rw [← hannounced.disk_eq] at hdirectories hversionFiles ⊢
    obtain ⟨-, hlooked⟩ := looked_of_inPlace horderly hp hdirectories hversionFiles hcheck
    exact (hlooked.isStale_artifact.1 (Looked.isFresh_iff.1 hfresh).2).1

end Build.Plant

end IncrementalBuild
