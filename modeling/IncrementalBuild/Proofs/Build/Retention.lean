import IncrementalBuild.Proofs.Build.Soundness

/-!
What a build that fails leaves of the manifest. The last that can fail in a build is to keep the new
manifest, and where this fails the old one is still in its place; before that, a build itself writes
nothing but version files. What it leaves to others, commands and the tasks of a toolchain, is
relied on not to touch the manifest in the worlds that the build comes to.
-/

namespace IncrementalBuild

open Build State

variable {ν : Type}

namespace World

/-- The worlds that steps lead to, one after another, while something is shown and said. -/
inductive Leads (Step : World ν → World ν → Prop) : World ν → World ν → Prop where
  | told (w : World ν) (console : Console) (messages : MessageLog) :
      Leads Step w { w with console, messages }
  | step {w v : World ν} : Step w v → Leads Step w v
  | trans {w v u : World ν} : Leads Step w v → Leads Step v u → Leads Step w u

/-- What is stored at the place of a path is changed by no step that is taken where steps lead to
from a world. -/
def Untouched (Step : World ν → World ν → Prop) (q : Path) (w : World ν) : Prop :=
  ∀ x y, Leads Step w x → Step x y → y.disk.stored? q = x.disk.stored? q

/-- What is stored at the place of a path is the same. -/
def Retains (q : Path) (w v : World ν) : Prop :=
  v.disk.stored? q = w.disk.stored? q

/-- What is stored at the place of a path is the same, if relative paths start at a location, and
then they still do. -/
def RetainsAt (l : Location) (q : Path) (w v : World ν) : Prop :=
  w.disk.workingDirectory = l → v.disk.workingDirectory = l ∧ w.Retains q v

variable {Step : World ν → World ν → Prop} {q : Path} {l : Location} {w v : World ν}

theorem Leads.frame (Step : World ν → World ν → Prop) : World.Frame (Leads Step) :=
  ⟨.told, .trans⟩

theorem Retains.frame (q : Path) : World.Frame (Retains q : World ν → World ν → Prop) :=
  ⟨fun _ _ _ => rfl, fun h₁ h₂ => h₂.trans h₁⟩

theorem RetainsAt.frame (l : Location) (q : Path) :
    World.Frame (RetainsAt l q : World ν → World ν → Prop) where
  told _ _ _ hl := ⟨hl, rfl⟩
  trans h₁ h₂ hl := by
    obtain ⟨hworking, hretains⟩ := h₁ hl
    obtain ⟨hworking', hretains'⟩ := h₂ hworking
    exact ⟨hworking', (Retains.frame q).trans hretains hretains'⟩

theorem Leads.retains (h : Leads Step w v) (huntouched : Untouched Step q w) : w.Retains q v := by
  induction h with
  | told => rfl
  | @step w v hstep => exact huntouched w v ((Leads.frame Step).refl w) hstep
  | trans hfirst _ ih₁ ih₂ =>
    have hlater := ih₂ fun x y hx => huntouched x y (hfirst.trans hx)
    exact (Retains.frame q).trans (ih₁ huntouched) hlater

end World

namespace Action

variable {l : Location} {q o : Path}

theorem createDirectories_retains (l : Location) (q o : Path) :
    (createDirectories o : Action ν Unit).Keeps (World.RetainsAt l q) := by
  intro w hl
  have hmade := Disk.furnished_createDirectories w.disk o
  rw [createDirectories, runIn_throughDisk]
  exact ⟨hmade.working_eq.trans hl, hmade.stored?_eq q⟩

theorem createParent_retains (l : Location) (q o : Path) :
    (createParent o : Action ν Unit).Keeps (World.RetainsAt l q) := by
  unfold createParent
  split
  · exact createDirectories_retains l q _
  · exact .pure (World.RetainsAt.frame l q) ()

theorem write_retains (hplace : q.location l ≠ o.location l) (wrap : Fault → Failure)
    (bytes : ByteArray) : (onDisk wrap (·.write o bytes) : Action ν Unit).Keeps
      (World.RetainsAt l q) := by
  intro w hl
  rw [runIn_onDisk]
  split
  next e hwrite =>
    have hplaced := Disk.placed_of_write hwrite
    subst hl
    exact ⟨hplaced.working_eq, hplaced.stored?_eq hplace⟩
  next => exact ⟨hl, rfl⟩

end Action

namespace Builder

variable {choose : ToolchainChoice ν} {b : Builder} {p : Project} {w announced begun v : World ν}
  {c : Checked ν}

theorem furnish_retains {l : Location} {q : Path}
    (hplace : ∀ o ∈ p.versionFiles, q.location l ≠ o.location l) :
    (furnish p : Action ν Unit).Keeps (World.RetainsAt l q) := by
  have hR := World.RetainsAt.frame (ν := ν) l q
  refine .bind hR (Action.createDirectories_retains l q _) fun _ => ?_
  refine .bind hR (Action.createDirectories_retains l q _) fun _ => ?_
  exact keeps_writeVersionFiles hR (Version.keeps_writeFiles hR
    (fun o _ => Action.createParent_retains l q o) fun o ho => Action.write_retains (hplace o ho))

/-- One of the commands is run that come before anything else. -/
def RunsCommand (p : Project) (x y : World ν) : Prop :=
  ∃ line ∈ p.preBuildCommands, ((runLine line p.directory).runIn x).2 = y

/-- One of some tasks is executed, and told a position or none. -/
def Executes (tasks : List (Build.Task ν)) (x y : World ν) : Prop :=
  ∃ t ∈ tasks, ∃ position, (t.execute position x).2 = y

/-- What a build in the world `w` is relied on for: the commands that come first, what makes the
toolchain ready, and then the tasks, among which are the commands that come last, do not touch the
manifest of the project. It does not matter what any of them would do in worlds that this build does
not come to. -/
structure Abiding (choose : ToolchainChoice ν) (b : Builder) (p : Project) (w : World ν) :
    Prop where
  commands : World.Untouched (RunsCommand p) p.manifestFile w
  toolchain : ∀ announced versioned console libraries makeReady,
    (b.announce p).runIn w = (.ok (), announced) →
    (furnish p).runIn announced = (.ok (), versioned) →
    b.dependencyOutputs p = .ok libraries → choose ⟨p, libraries⟩ = .ok makeReady →
    World.Retains p.manifestFile { versioned with console, messages := .empty }
      (makeReady.runIn { versioned with console, messages := .empty }).2
  tasks : ∀ announced c begun, (b.announce p).runIn w = (.ok (), announced) →
    (b.checkArtifact choose p).runIn announced = (.ok c, begun) →
    World.Untouched (Executes (c.tasks p)) p.manifestFile begun

namespace Abiding

theorem retains_announce (h : Abiding choose b p w) :
    w.RetainsAt w.disk.workingDirectory p.manifestFile ((b.announce p).runIn w).2 := by
  have hworking : World.Frame fun x y : World ν =>
      y.disk.workingDirectory = x.disk.workingDirectory :=
    ⟨fun _ _ _ => rfl, fun h₁ h₂ => h₂.trans h₁⟩
  have hleads : (b.announce p).Keeps (World.Leads (RunsCommand p) : World ν → World ν → Prop) :=
    keeps_announce (World.Leads.frame _) b fun line hline _ => .step ⟨line, hline, rfl⟩
  have hstays : (b.announce p).Keeps fun x y : World ν =>
      y.disk.workingDirectory = x.disk.workingDirectory :=
    keeps_announce hworking b fun line _ => workingDirectory_runLine line p.directory
  exact fun _ => ⟨hstays w, (hleads w).retains h.commands⟩

theorem retains_checkArtifact (h : Abiding choose b p w)
    (hplace : ∀ o ∈ p.versionFiles, p.manifestFile.location w.disk.workingDirectory ≠
      o.location w.disk.workingDirectory)
    (hannounce : (b.announce p).runIn w = (.ok (), announced)) :
    announced.Retains p.manifestFile ((b.checkArtifact choose p).runIn announced).2 := by
  obtain ⟨hworking, -⟩ := h.retains_announce rfl
  rw [hannounce] at hworking
  exact kept_of_checkArtifact (World.Retains.frame _) (furnish_retains hplace announced hworking).2
    fun versioned console libraries makeReady => h.toolchain announced versioned console _ _ hannounce

/-- Where what comes after a check fails, whether it is a task or to record what was made, the
manifest is as it was. -/
theorem retains_of_refresh (h : World.Untouched (Executes (c.tasks p)) p.manifestFile begun)
    {f : Failure} (hrefresh : (refresh p c).runIn begun = (.error f, v)) :
    begun.Retains p.manifestFile v := by
  obtain ⟨r, x, htasks, -, hend⟩ := cases_of_refresh hrefresh
  obtain ⟨y, hleads, hy⟩ := runTasks_keeps (World.Leads.frame (Executes (c.tasks p)))
    (fun t ht position w => .step ⟨t, ht, position, rfl⟩) htasks
  have hdisk : x.disk = y.disk := by rw [hy]
  have hx : x.disk.stored? p.manifestFile = begun.disk.stored? p.manifestFile :=
    hdisk ▸ hleads.retains h
  obtain ⟨-, hv⟩ | ⟨n, hwrite⟩ := hend
  · exact (congrArg (·.stored? p.manifestFile) hv).trans hx
  · exact (Manifest.stored?_of_write hwrite).trans hx

end Abiding

/-- A build that fails leaves the manifest as it was, with the contents it had or not there at all,
whatever it is that fails, as long as neither version file has the place of the manifest. -/
theorem retains_of_failed (h : Abiding choose b p w)
    (hplace : ∀ o ∈ p.versionFiles, p.manifestFile.location w.disk.workingDirectory ≠
      o.location w.disk.workingDirectory)
    {f : Failure} (hbuild : (b.buildProject choose p).runIn w = (.error f, v)) :
    v.disk.stored? p.manifestFile = w.disk.stored? p.manifestFile := by
  obtain ⟨-, hannounced⟩ := h.retains_announce rfl
  unfold buildProject at hbuild
  rw [Action.runIn_bind] at hbuild
  split at hbuild
  next announced hannounce =>
    rw [hannounce] at hannounced
    split at hbuild
    · cases hbuild
    unfold buildArtifact at hbuild
    rw [Action.runIn_bind, Action.runIn_disk] at hbuild
    dsimp only at hbuild
    have hchecked := h.retains_checkArtifact hplace hannounce
    rw [Action.runIn_bind] at hbuild
    split at hbuild
    next c begun hcheck =>
      rw [hcheck] at hchecked
      split at hbuild
      · cases hbuild
      rw [Action.runIn_bind] at hbuild
      split at hbuild
      · cases hbuild
      next hrefresh =>
        cases hbuild
        have hfailed := Abiding.retains_of_refresh (h.tasks _ c begun hannounce hcheck) hrefresh
        exact (hfailed.trans hchecked).trans hannounced
    next hcheck =>
      cases hbuild
      rw [hcheck] at hchecked
      exact hchecked.trans hannounced
  next hannounce =>
    cases hbuild
    rwa [hannounce] at hannounced

end Builder

namespace Build.Site

/-- Copying and joining leave the manifest alone, whatever there is on the disk. -/
theorem copying_retains {units : List CompileUnit} (hunits : ∀ u ∈ units, copied.IsUnit u)
    {fingerprint : UInt64} {version : Option String} {t : Build.Task Unit}
    (ht : t ∈ copying.tasks units fingerprint copied.artifact version) (position : Option Position)
    (w : World Unit) : w.Retains copied.manifest (t.execute position w).2 := by
  let R (d e : Disk) : Prop := e.stored? copied.manifest = d.stored? copied.manifest
  have hrefl (d : Disk) : R d d := rfl
  have hwrite (o : Path) (ho : copied.manifest.Apart o) (d e bytes) (h : d.write o bytes = .ok e) :
      R d e := (Disk.placed_of_write h).stored?_eq (ho.location_ne _)
  rcases List.mem_append.1 ht with ht | ht
  · obtain ⟨u, hu, rfl⟩ := List.mem_map.1 ht
    obtain ⟨hsource, houtput⟩ := hunits u (List.mem_filter.1 hu).1
    rw [houtput]
    exact copyTask_keeps (R := R) hrefl (fun h₁ h₂ => h₂.trans h₁)
      (fun o ho => hwrite o ((copied_apart _ hsource).2 o ho).1) position w
  · obtain rfl := List.mem_singleton.1 ht
    exact joinTask_keeps (R := R) hrefl (hwrite _ artifact_apart.1) position w

/-- Nothing that a build of the project leaves to others touches the manifest. -/
theorem abiding_copied (w : World Unit) :
    Builder.Abiding copied.choose copied.builder copied.project w where
  commands := by
    rintro x y - ⟨line, hline, -⟩
    cases hline
  toolchain announced versioned console libraries makeReady _ _ _ hchoose := by
    cases hchoose
    rfl
  tasks announced c begun hannounce hcheck := by
    have hrun : copied.check.runIn w = (.ok c, begun) :=
      Action.runIn_bind_eq_ok.2 ⟨_, announced, hannounce, hcheck⟩
    have hfound := found_of_check lawful_copied hrun
    obtain ⟨versioned, ready, hchecking⟩ := Builder.exists_checking hcheck
    obtain ⟨libraries, makeReady, console, -, -, hchoose, hready⟩ := hchecking.chosen
    cases hchoose
    have htoolchain : copying = c.toolchain := Except.ok.inj (Prod.mk.inj hready).1
    rintro x y - ⟨t, ht, position, rfl⟩
    rw [Builder.Checked.tasks, ← htoolchain] at ht
    rcases List.mem_append.1 ht with ht | hline
    · exact copying_retains (fun u hu => (hfound.isUnit hu).1) ht position x
    · cases hline

/-- A manifest without records. -/
def bareText : String :=
  "\x7b\"version\":1,\"records\":\x7b\x7d\x7d"

/-- The sources that are copied, one of which is missing, beside a manifest. -/
def missingWorld : World Unit :=
  { copiedWorld with
    disk := (copiedWorld.disk.erase ["w", "b.c"]).put ["w", "P.manifest"]
      (.file ⟨bareText.toUTF8, 1, false⟩) }

theorem missing_failed : (copied.build.runIn missingWorld).1.toOption = none ∧
    missingWorld.disk.stored? copied.project.manifestFile = some bareText.toUTF8 := by
  decide +kernel

/-- Where a source cannot be copied, the manifest is the one that was there. -/
theorem missing_retained :
    Builder.Abiding copied.choose copied.builder copied.project missingWorld ∧
      (∀ o ∈ copied.project.versionFiles,
        copied.project.manifestFile.location missingWorld.disk.workingDirectory ≠
          o.location missingWorld.disk.workingDirectory) ∧
      ∃ f v, (copied.builder.buildProject copied.choose copied.project).runIn missingWorld =
          (.error f, v) ∧
        v.disk.stored? copied.project.manifestFile = some bareText.toUTF8 := by
  have hplace : ∀ o ∈ copied.project.versionFiles,
      copied.project.manifestFile.location missingWorld.disk.workingDirectory ≠
        o.location missingWorld.disk.workingDirectory := nofun
  obtain ⟨hfailed, hstored⟩ := missing_failed
  obtain ⟨f, hrun⟩ := Action.runIn_eq_error hfailed
  exact ⟨abiding_copied _, hplace, f, _, hrun,
    (Builder.retains_of_failed (abiding_copied _) hplace hrun).trans hstored⟩

/-- The project that is copied, with a version header in the place of its manifest, and a directory
in that of the other version file. -/
def overlaidProject : Project :=
  { copiedProject with
    versionHeader := some copiedProject.manifestFile
    versionSourceFile := some copiedProject.directory }

/-- No toolchain can be had. -/
def unavailable : ToolchainChoice Unit :=
  fun _ => .error (.external ["no compiler"])

theorem overlaid_failed :
    ((copied.builder.buildProject unavailable overlaidProject).runIn missingWorld).1.toOption =
        none ∧
      ((copied.builder.buildProject unavailable overlaidProject).runIn missingWorld).2.disk.stored?
          overlaidProject.manifestFile ≠
        missingWorld.disk.stored? overlaidProject.manifestFile := by
  decide +kernel

/-- A version header in the place of the manifest is written over it by a build that fails when it
comes to the other version file, though nothing else touches the manifest. -/
theorem overlaid_not_retained :
    Builder.Abiding unavailable copied.builder overlaidProject missingWorld ∧
      ∃ f v, (copied.builder.buildProject unavailable overlaidProject).runIn missingWorld =
          (.error f, v) ∧
        v.disk.stored? overlaidProject.manifestFile ≠
          missingWorld.disk.stored? overlaidProject.manifestFile := by
  obtain ⟨hfailed, hstored⟩ := overlaid_failed
  obtain ⟨f, hrun⟩ := Action.runIn_eq_error hfailed
  refine ⟨⟨?_, ?_, fun announced c begun _ hcheck => ?_⟩, f, _, hrun, hstored⟩
  · rintro x y - ⟨line, hline, -⟩
    cases hline
  · intro announced versioned console libraries makeReady _ _ _ hchoose
    cases hchoose
  · obtain ⟨versioned, ready, hchecking⟩ := Builder.exists_checking hcheck
    obtain ⟨libraries, makeReady, console, -, -, hchoose, -⟩ := hchecking.chosen
    cases hchoose

end Build.Site

end IncrementalBuild
