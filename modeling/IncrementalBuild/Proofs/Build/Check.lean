import IncrementalBuild.Proofs.Build.Site
import IncrementalBuild.Proofs.Version.Files

/-!
What a build finds out before its tasks run. It looks at the manifest that stood in its file at the
beginning, and nothing it does changes the manifest or leaves a job at work.
-/

namespace IncrementalBuild

open Build State

variable {ν : Type} {p : Path}

theorem scheduler_runLine (line : String) (directory : Path) (w : World ν) :
    ((runLine line directory).runIn w).2.scheduler = w.scheduler := by
  rw [runLine, Action.runIn_bind, Action.runIn_get]
  dsimp only
  split
  · rfl
  · rw [Action.runIn_bind, Action.runIn_set]
    dsimp only
    split <;> rfl

/-- A shell goes where it likes, but relative paths start where they did once it has ended. -/
theorem workingDirectory_runLine (line : String) (directory : Path) (w : World ν) :
    ((runLine line directory).runIn w).2.disk.workingDirectory = w.disk.workingDirectory := by
  rw [runLine, Action.runIn_bind, Action.runIn_get]
  dsimp only
  split
  · rfl
  next done hstart =>
    have hworking : done.disk.workingDirectory = w.disk.workingDirectory := by
      unfold Shell.start at hstart
      split at hstart
      · cases hstart
      obtain ⟨l, -, hstart⟩ := bind_eq_ok_iff.1 hstart
      split at hstart
      · cases hstart
      · cases hstart
      · obtain ⟨⟨s, status⟩, -, hstart⟩ := bind_eq_ok_iff.1 hstart
        cases hstart
        rfl
    rw [Action.runIn_bind, Action.runIn_set]
    dsimp only
    split <;> exact hworking

namespace Builder

variable {R : World ν → World ν → Prop}

/-- Announcing a build runs the commands that come first, and does nothing else but show lines. -/
theorem keeps_announce (hR : World.Frame R) (b : Builder) {project : Project}
    (hline : ∀ line ∈ project.preBuildCommands,
      (runLine line project.directory : Action ν Unit).Keeps R) :
    (b.announce project : Action ν Unit).Keeps R := by
  unfold announce runPreBuild
  refine .bind hR (.tell hR _) fun _ => .each hR fun line hmem => ?_
  exact .bind hR (.tell hR _) fun _ => .within (hline line hmem) _

theorem keeps_writeVersionFiles (hR : World.Frame R) {project : Project}
    (h : (Version.writeFiles project : Action ν Bool).Keeps R) :
    (writeVersionFiles project : Action ν Unit).Keeps R := by
  unfold writeVersionFiles
  refine .bind hR h fun wrote => ?_
  split
  · exact .tell hR _
  · exact .pure hR _

theorem keeps_readManifest (hR : World.Frame R) (project : Project) :
    (readManifest project : Action ν Manifest).Keeps R := by
  unfold readManifest
  refine .bind hR (.disk hR) fun d => ?_
  split
  · exact .pure hR _
  · exact .bind hR (.tell hR _) fun _ => .pure hR _

/-- Reading a manifest changes nothing, and one that can be read is used. -/
theorem runIn_readManifest (p : Project) (w : World ν) :
    ∃ m console, (readManifest p).runIn w = (.ok m, { w with console }) ∧
      ∀ n, Manifest.read w.disk p.manifestFile = .ok n → m = n := by
  unfold readManifest
  rw [Action.runIn_bind, Action.runIn_disk]
  dsimp only
  cases hread : Manifest.read w.disk p.manifestFile with
  | ok m => exact ⟨m, w.console, rfl, fun n hn => Except.ok.inj hn⟩
  | error f => exact ⟨_, _, rfl, fun n hn => (nomatch hn)⟩

theorem keeps_explain (hR : World.Frame R) (u : CompileUnit) :
    (explain u : Action ν Unit).Keeps R := by
  unfold explain
  split
  · exact .tell hR _
  · exact .pure hR _

/-- Makes the directories of a project, and its version files. -/
def furnish (project : Project) : Action ν Unit := do
  Action.createDirectories project.outputDirectory
  Action.createDirectories project.intermediateDirectory
  writeVersionFiles project

/-- What a check does but look is to make directories and version files, and then to make the
toolchain ready in the world that these have led to. -/
theorem kept_of_checkArtifact (hR : World.Frame R) {choose : ToolchainChoice ν} {b : Builder}
    {project : Project} {w : World ν} (hfurnish : R w ((furnish project).runIn w).2)
    (hready : ∀ versioned console libraries makeReady,
      (furnish project).runIn w = (.ok (), versioned) →
      b.dependencyOutputs project = .ok libraries → choose ⟨project, libraries⟩ = .ok makeReady →
      R { versioned with console, messages := .empty }
        (makeReady.runIn { versioned with console, messages := .empty }).2) :
    R w ((b.checkArtifact choose project).runIn w).2 := by
  unfold checkArtifact
  rw [← bind_assoc, ← bind_assoc, bind_assoc (Action.createDirectories project.outputDirectory)]
  refine Action.kept_bind hR hfurnish fun _ versioned hversioned => ?_
  refine Action.kept_bind hR (keeps_readManifest hR _ versioned) fun m x hread => ?_
  obtain ⟨_, console, hmanifest, -⟩ := runIn_readManifest project versioned
  rw [hmanifest] at hread
  obtain ⟨-, rfl⟩ := Prod.mk.inj hread
  rw [Action.runIn_bind, Action.runIn_ofExcept]
  cases hlibraries : b.dependencyOutputs project with
  | error f => exact hR.refl _
  | ok libraries =>
    refine Action.kept_bind hR (hR.told _ console .empty) fun _ y hforget => ?_
    cases hforget
    rw [Action.runIn_bind, Action.runIn_ofExcept]
    cases hchoose : choose ⟨project, libraries⟩ with
    | error f => exact hR.refl _
    | ok makeReady =>
      refine Action.kept_bind hR ?_ fun t z _ => ?_
      · rw [Action.runIn_within]
        exact hready versioned console libraries makeReady hversioned hlibraries hchoose
      · -- From here on the check only shows something.
        refine Action.Keeps.bind hR (.tell hR _) (fun _ => .bind hR (.disk hR) fun d => ?_) z
        refine .bind hR (.tell hR _) fun _ => ?_
        refine .bind hR (.phase hR (.bind hR (.disk hR) fun _ => .pure hR _) _) fun checked => ?_
        obtain ⟨units, artifact⟩ := checked
        exact .bind hR (.each hR fun u _ => keeps_explain hR u) fun _ => .pure hR _

theorem keeps_checkArtifact (hR : World.Frame R) {choose : ToolchainChoice ν} {b : Builder}
    {project : Project}
    (hdirectory : ∀ q ∈ [project.outputDirectory, project.intermediateDirectory],
      (Action.createDirectories q : Action ν Unit).Keeps R)
    (hversion : (Version.writeFiles project : Action ν Bool).Keeps R)
    (hready : ∀ libraries makeReady, b.dependencyOutputs project = .ok libraries →
      choose ⟨project, libraries⟩ = .ok makeReady → makeReady.Keeps R) :
    (b.checkArtifact choose project).Keeps R := by
  have hfurnish : (furnish project : Action ν Unit).Keeps R := by
    refine .bind hR (hdirectory _ List.mem_cons_self) fun _ => ?_
    refine .bind hR (hdirectory _ (List.mem_cons_of_mem _ List.mem_cons_self)) fun _ => ?_
    exact keeps_writeVersionFiles hR hversion
  exact fun w => kept_of_checkArtifact hR (hfurnish w)
    fun _ _ _ _ _ hlibraries hchoose => hready _ _ hlibraries hchoose _

/-- The manifest of a project is one that can be read, or has no records. -/
theorem read_of_readManifest {project : Project} {w v : World ν} {m : Manifest}
    (h : (readManifest project).runIn w = (.ok m, v)) :
    m = .empty ∨ Manifest.read w.disk project.manifestFile = .ok m := by
  unfold readManifest at h
  rw [Action.runIn_bind, Action.runIn_disk] at h
  dsimp only at h
  split at h
  next m' hread =>
    cases h
    exact .inr hread
  next =>
    rw [Action.runIn_bind] at h
    cases h
    exact .inl rfl

/-- Explaining verdicts only adds to what is shown. -/
theorem runIn_each_explain (us : List CompileUnit) (w : World ν) :
    ∃ console, (Action.each explain us).runIn w = (.ok (), { w with console }) := by
  induction us generalizing w with
  | nil => exact ⟨w.console, rfl⟩
  | cons u us ih =>
    have hone : ∃ console, (explain u).runIn w = (.ok (), { w with console }) := by
      unfold explain
      split
      · exact ⟨_, rfl⟩
      · exact ⟨w.console, rfl⟩
    obtain ⟨console, hone⟩ := hone
    rw [Action.each, Action.runIn_bind, hone]
    exact ih _

/-- How a check goes that succeeds. Once the directories and the version files have been made, in
the world `versioned`, it only looks, but for what it does to make the toolchain ready, which ends
in `ready`. -/
structure Checking (choose : ToolchainChoice ν) (b : Builder) (p : Project) (w v : World ν)
    (c : Checked ν) (versioned ready : World ν) : Prop where
  made : ∃ w₁ w₂, (Action.createDirectories p.outputDirectory).runIn w = (.ok (), w₁) ∧
    (Action.createDirectories p.intermediateDirectory).runIn w₁ = (.ok (), w₂) ∧
    (writeVersionFiles p).runIn w₂ = (.ok (), versioned)
  manifest_standing : c.manifest = .empty ∨
    Manifest.read versioned.disk p.manifestFile = .ok c.manifest
  manifest_eq : ∀ m, Manifest.read versioned.disk p.manifestFile = .ok m → c.manifest = m
  chosen : ∃ libraries makeReady console, b.dependencyOutputs p = .ok libraries ∧
    c.request = ⟨p, libraries⟩ ∧ choose c.request = .ok makeReady ∧
    makeReady.runIn { versioned with console, messages := .empty } = (.ok c.toolchain, ready)
  unmoved : ready.Unmoved v
  fingerprint_eq : c.fingerprint = b.fingerprint v.disk p
  checked_eq : (c.units, c.artifact) =
    checkProject v.disk p c.request c.toolchain c.fingerprint c.manifest

theorem exists_checking {choose : ToolchainChoice ν} {b : Builder} {p : Project} {w v : World ν}
    {c : Checked ν} (h : (b.checkArtifact choose p).runIn w = (.ok c, v)) :
    ∃ versioned ready, Checking choose b p w v c versioned ready := by
  unfold checkArtifact at h
  obtain ⟨_, w₁, h₁, h⟩ := Action.runIn_bind_eq_ok.1 h
  obtain ⟨_, w₂, h₂, h⟩ := Action.runIn_bind_eq_ok.1 h
  obtain ⟨_, x, h₃, h⟩ := Action.runIn_bind_eq_ok.1 h
  obtain ⟨m, w₄, h₄, h⟩ := Action.runIn_bind_eq_ok.1 h
  obtain ⟨libraries, w₅, h₅, h⟩ := Action.runIn_bind_eq_ok.1 h
  obtain ⟨_, w₆, h₆, h⟩ := Action.runIn_bind_eq_ok.1 h
  obtain ⟨makeReady, w₇, h₇, h⟩ := Action.runIn_bind_eq_ok.1 h
  obtain ⟨t, w₈, h₈, h⟩ := Action.runIn_bind_eq_ok.1 h
  obtain ⟨_, w₉, h₉, h⟩ := Action.runIn_bind_eq_ok.1 h
  obtain ⟨d, w₁₀, h₁₀, h⟩ := Action.runIn_bind_eq_ok.1 h
  obtain ⟨_, w₁₁, h₁₁, h⟩ := Action.runIn_bind_eq_ok.1 h
  obtain ⟨⟨units, artifact⟩, w₁₂, h₁₂, h⟩ := Action.runIn_bind_eq_ok.1 h
  obtain ⟨_, w₁₃, h₁₃, h⟩ := Action.runIn_bind_eq_ok.1 h
  obtain ⟨hc, rfl⟩ := Prod.mk.inj h
  obtain rfl := Except.ok.inj hc
  obtain ⟨_, console, hmanifest, hread⟩ := runIn_readManifest p x
  have hstanding := read_of_readManifest h₄
  rw [hmanifest] at h₄
  obtain ⟨hm, rfl⟩ := Prod.mk.inj h₄
  obtain rfl := Except.ok.inj hm
  rw [Action.runIn_ofExcept] at h₅ h₇
  obtain ⟨hlibraries, rfl⟩ := Prod.mk.inj h₅
  obtain ⟨-, rfl⟩ := Prod.mk.inj h₆
  obtain ⟨hchoose, rfl⟩ := Prod.mk.inj h₇
  have hready := Action.runIn_within_eq_ok.1 h₈
  -- From here on the check only shows something.
  have htold := Action.of_runIn_tell h₉
  rw [Action.runIn_disk] at h₁₀
  obtain ⟨hd, rfl⟩ := Prod.mk.inj h₁₀
  obtain rfl := Except.ok.inj hd
  have htold' := htold.trans (Action.of_runIn_tell h₁₁)
  obtain ⟨u, console', hproject, rfl⟩ := Action.of_runIn_phase h₁₂
  rw [Action.runIn_bind, Action.runIn_disk] at hproject
  obtain ⟨hchecked, rfl⟩ := Prod.mk.inj hproject
  obtain ⟨console'', hexplain⟩ := runIn_each_explain (_ ++ [_]) _
  rw [hexplain] at h₁₃
  obtain ⟨-, rfl⟩ := Prod.mk.inj h₁₃
  refine ⟨x, w₈, ⟨w₁, w₂, h₁, h₂, h₃⟩, hstanding, hread,
    ⟨libraries, makeReady, console, hlibraries, rfl, hchoose, hready⟩,
    ⟨htold'.disk_eq, htold'.scheduler_eq, htold'.searchPath_eq, htold'.notes_eq⟩, ?_,
    (Except.ok.inj hchecked).symm⟩
  exact congrArg (b.fingerprint · p) (htold.disk_eq.trans htold'.disk_eq.symm)

end Builder

namespace Build.Site

variable {site : Site ν}

theorem Lawful.spares_announce (hlawful : site.Lawful) :
    (site.builder.announce site.project : Action ν Unit).Keeps (World.Spares site.manifest) :=
  Builder.keeps_announce (World.Spares.frame _) site.builder fun line hline w =>
    ⟨scheduler_runLine _ _ w, hlawful.preBuild line hline w⟩

theorem Lawful.spares_writeFiles (hlawful : site.Lawful) :
    (Version.writeFiles site.project : Action ν Bool).Keeps (World.Spares site.manifest) := by
  refine Version.keeps_writeFiles (World.Spares.frame _)
    (fun q _ => Action.createParent_spares q)
    fun q hq => Action.write_spares (hlawful.versionFile_ne q ?_)
  simpa [Project.versionFiles] using hq

theorem Lawful.spares_checkArtifact (hlawful : site.Lawful) :
    (site.builder.checkArtifact site.choose site.project : Action ν (Builder.Checked ν)).Keeps
      (World.Spares site.manifest) :=
  Builder.keeps_checkArtifact (World.Spares.frame _)
    (fun q _ => Action.createDirectories_spares q) hlawful.spares_writeFiles
    fun _ _ _ hchoose => (hlawful.toolchain _ _ hchoose).1

/-- Announces a build of the project, and checks it. -/
def check (site : Site ν) : Action ν (Builder.Checked ν) := do
  site.builder.announce site.project
  site.builder.checkArtifact site.choose site.project

theorem Lawful.spares_check (hlawful : site.Lawful) :
    site.check.Keeps (World.Spares site.manifest) :=
  .bind (World.Spares.frame _) hlawful.spares_announce fun _ => hlawful.spares_checkArtifact

/-- What is found out by a check that begins in the world `w` and ends on the disk `d`. -/
structure Found (site : Site ν) (w : World ν) (c : Builder.Checked ν) (d : Disk) : Prop where
  manifest_valid : c.manifest.Valid
  manifest_standing : c.manifest = .empty ∨
    ∃ f, w.disk.standing site.manifest = some (.file f) ∧
      Manifest.ofBytes? f.bytes = some c.manifest
  serves : site.Serves c.toolchain
  fingerprint_eq : c.fingerprint = site.builder.fingerprint d site.project
  units_eq : c.units = checkedUnits d site.sources (Path.commonRoot site.sources)
    site.project.intermediateDirectory c.fingerprint true c.manifest site.objectExtension
  record_of_fresh : c.artifact.isStale = false → ∃ r, c.manifest.get? site.artifact = some r ∧
    r.verdict d c.fingerprint (State.inputHash d c.fingerprint site.project.path)
      site.project.path = .fresh

theorem found_of_check (hlawful : site.Lawful) {w v : World ν} {c : Builder.Checked ν}
    (h : site.check.runIn w = (.ok c, v)) : site.Found w c v.disk := by
  obtain ⟨_, w₁, h₁, h⟩ := Action.runIn_bind_eq_ok.1 h
  obtain ⟨versioned, ready, hchecking⟩ := Builder.exists_checking h
  obtain ⟨w₂, w₃, h₂, h₃, h₄⟩ := hchecking.made
  obtain ⟨libraries, makeReady, console, -, -, hchoose, hready⟩ := hchecking.chosen
  have hserves : site.Serves c.toolchain :=
    (hlawful.toolchain _ _ hchoose).2 _ _ (congrArg Prod.fst hready)
  have hspares : w.Spares site.manifest versioned := by
    have hannounced := hlawful.spares_announce.of_runIn h₁
    have hmade : w₁.Spares site.manifest w₂ := (Action.createDirectories_spares _).of_runIn h₂
    have hmade' : w₂.Spares site.manifest w₃ := (Action.createDirectories_spares _).of_runIn h₃
    have hversion : w₃.Spares site.manifest versioned :=
      (Builder.keeps_writeVersionFiles (World.Spares.frame _)
        hlawful.spares_writeFiles).of_runIn h₄
    exact ((hannounced.trans hmade).trans hmade').trans hversion
  refine ⟨Manifest.valid_of_empty_or_read hchecking.manifest_standing, ?_, hserves,
    hchecking.fingerprint_eq, ?_, ?_⟩
  · rcases hchecking.manifest_standing with heq | hread
    · exact .inl heq
    · rcases Manifest.standing_of_read hread with heq | ⟨f, hf, hbytes⟩
      · exact .inl heq
      · exact .inr ⟨f, hspares.inherits f hf, hbytes⟩
  · have hunits := congrArg Prod.fst hchecking.checked_eq
    rwa [Builder.checkProject, hserves.compileStep_eq, hserves.objectExtension_eq] at hunits
  · intro hfresh
    have hartifact := congrArg Prod.snd hchecking.checked_eq
    dsimp only [Builder.checkProject] at hartifact
    rw [hartifact, hserves.compileStep_eq, if_pos rfl] at hfresh
    exact CompileUnit.record_of_fresh (CompileUnit.fresh_of_checkInputs hfresh)

end Build.Site

end IncrementalBuild
