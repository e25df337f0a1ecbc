import IncrementalBuild.Proofs.Build.Cleaning
import IncrementalBuild.Proofs.Build.Repetition

/-!
Rebuilding. Cleaning makes one world of two that differ only in what earlier builds have left, so
that a rebuild does in both the same. A project that has its artifact or its manifest to itself is
built whatever was left, since nothing stands there until the project is checked. If paths lead
through what is taken away, a rebuild may remember earlier builds.
-/

namespace IncrementalBuild

open Build State

/-- Nothing stands at a place, and relative paths start where they are expected to. -/
structure Disk.Bare (l k : Location) (d : Disk) : Prop where
  working_eq : d.workingDirectory = l
  node?_eq : d.node? k = none

theorem Disk.Adds.bare_of_bare {added : List Path} {l k : Location} {d e : Disk}
    (h : d.Adds added e) (hk : ∀ o ∈ added, k ∉ o.trail l) (hd : d.Bare l k) : e.Bare l k :=
  ⟨h.working_eq.trans hd.working_eq, h.bare k hd.node?_eq (hd.working_eq.symm ▸ hk)⟩

/-- The scheduler is as it was, and a place that was bare is. -/
structure World.KeepsBare {ν : Type} (l k : Location) (w v : World ν) : Prop where
  scheduler_eq : v.scheduler = w.scheduler
  bare : w.disk.Bare l k → v.disk.Bare l k

variable {ν : Type} {l k : Location} {q : Path}

theorem World.KeepsBare.frame : World.Frame (World.KeepsBare l k : World ν → World ν → Prop) where
  told _ _ _ := ⟨rfl, id⟩
  trans h₁ h₂ := ⟨h₂.scheduler_eq.trans h₁.scheduler_eq, h₂.bare ∘ h₁.bare⟩

theorem World.Unmoved.keepsBare {w v : World ν} (h : w.Unmoved v) : w.KeepsBare l k v :=
  ⟨h.scheduler_eq, fun hw => h.disk_eq.symm ▸ hw⟩

namespace Action

theorem createDirectories_keepsBare (hk : k ∉ q.trail l) :
    (createDirectories q : Action ν Unit).Keeps (World.KeepsBare l k) := by
  intro w
  rw [createDirectories, runIn_throughDisk]
  exact ⟨rfl, (Disk.adds_createDirectories w.disk q).bare_of_bare (List.forall_mem_singleton.2 hk)⟩

theorem createParent_keepsBare (hk : k ∉ q.trail l) :
    (createParent q : Action ν Unit).Keeps (World.KeepsBare l k) := by
  unfold createParent
  split
  next holder hparent =>
    refine createDirectories_keepsBare fun hmem => hk (List.mem_append_left _ ?_)
    exact Path.trail_subset_of_parent? hparent l hmem
  next => exact .pure World.KeepsBare.frame ()

theorem write_keepsBare (hk : k ∉ q.trail l) (wrap : Fault → Failure) (bytes : ByteArray) :
    (onDisk wrap (·.write q bytes) : Action ν Unit).Keeps (World.KeepsBare l k) := by
  intro w
  rw [runIn_onDisk]
  split
  next d hwrite =>
    exact ⟨rfl, (Disk.placed_of_write hwrite).adds.bare_of_bare (List.forall_mem_singleton.2 hk)⟩
  next => exact World.KeepsBare.frame.refl w

end Action

namespace Build.Plant

variable {plant : Plant ν} {ps done rest : List Project} {p : Project}
  {w v u versioned ready : World ν} {c : Builder.Checked ν}

/-- A toolchain with a compile step, whose tasks write nothing but objects, dependency files and the
artifact of a project, and make no directories but those that these lie in. -/
structure Confines (plant : Plant ν) (p : Project) (t : Toolchain ν) : Prop where
  compileStep_eq : t.compileStep = true
  objectExtension_eq : t.objectExtension = plant.objectExtension p
  adds : ∀ units fingerprint, (∀ u ∈ units, plant.IsUnit p u) →
    ∀ task ∈ t.tasks units fingerprint p.outputFile p.version, ∀ position (w : World ν),
      w.disk.Adds (plant.taskFiles p) (task.execute position w).2.disk

/-- Neither commands nor making toolchains ready puts anything at the place `k`, and tasks write
what is theirs. -/
structure Confined (plant : Plant ν) (ps : List Project) (l k : Location) : Prop where
  command : ∀ p ∈ ps, ∀ line ∈ p.preBuildCommands ++ p.postBuildCommands, ∀ w : World ν,
    w.disk.Bare l k → ((runLine line p.directory).runIn w).2.disk.node? k = none
  toolchain : ∀ p ∈ productive ps, ∀ libraries makeReady,
    plant.builder.dependencyOutputs p = .ok libraries →
      plant.choose ⟨p, libraries⟩ = .ok makeReady →
        makeReady.Keeps (World.KeepsBare l k) ∧
          ∀ w t, (makeReady.runIn w).1 = .ok t → plant.Confines p t

/-- What a build of a project makes before it looks for what is stale. -/
def furnishings (p : Project) : List Path :=
  p.outputDirectory :: p.intermediateDirectory :: p.versionFiles

/-- All that a build of a project makes. -/
def places (plant : Plant ν) (p : Project) : List Path :=
  p.outputDirectory :: p.intermediateDirectory :: plant.products p

theorem furnishings_subset (plant : Plant ν) (p : Project) : furnishings p ⊆ plant.places p :=
  List.cons_subset_cons _ (List.cons_subset_cons _ (List.subset_append_left _ _))

/-- The project has its artifact or its manifest to itself, so that a check tells by it whether the
project was built. It is taken away when the projects are cleaned, and nothing is made where it lies
until the project is checked, neither by builds of earlier projects nor by its own. -/
structure Traces (plant : Plant ν) (ps : List Project) (l : Location) (p : Project) (q : Path) :
    Prop where
  mem : q ∈ [p.outputFile, p.manifestFile]
  cleared : ∃ r ∈ ps, r.clears l (q.location l) = true
  own : ∀ o ∈ furnishings p, q.location l ∉ o.trail l
  apart : ∀ earlier later, ps = earlier ++ p :: later → ∀ r ∈ productive earlier,
    ∀ o ∈ plant.places r, q.location l ∉ o.trail l

/-- What a rebuild reports of a project: something is built of all but containers, surely so of
those with a trace. -/
structure Rebuilt (plant : Plant ν) (ps : List Project) (l : Location) (p : Project)
    (o : String × BuildOutcome) : Prop where
  name_eq : o.1 = p.name
  skipped_iff : o.2 = .skipped ↔ p.outputType = .container
  built : p.outputType ≠ .container → ∀ q, plant.Traces ps l p q →
    plant.Confined ps l (q.location l) → o.2 = .built

theorem writeFiles_keepsBare (hk : ∀ o ∈ p.versionFiles, k ∉ o.trail l) :
    (Version.writeFiles p : Action ν Bool).Keeps (World.KeepsBare l k) :=
  Version.keeps_writeFiles World.KeepsBare.frame
    (fun q hq => Action.createParent_keepsBare (hk q hq))
    fun q hq => Action.write_keepsBare (hk q hq)

theorem bare_of_furnished {choose : ToolchainChoice ν} {b : Builder}
    (hchecking : Builder.Checking choose b p w v c versioned ready)
    (hk : ∀ o ∈ furnishings p, k ∉ o.trail l) (hw : w.disk.Bare l k) :
    versioned.disk.Bare l k := by
  obtain ⟨houtput, hintermediate, hversion⟩ : k ∉ p.outputDirectory.trail l ∧
      k ∉ p.intermediateDirectory.trail l ∧ ∀ o ∈ p.versionFiles, k ∉ o.trail l := by
    simpa [furnishings] using hk
  obtain ⟨w₁, w₂, h₁, h₂, h₃⟩ := hchecking.made
  have hfirst := ((Action.createDirectories_keepsBare houtput).of_runIn h₁).bare hw
  have hsecond := ((Action.createDirectories_keepsBare hintermediate).of_runIn h₂).bare hfirst
  have hwritten : (Builder.writeVersionFiles p : Action ν Unit).Keeps (World.KeepsBare l k) :=
    Builder.keeps_writeVersionFiles World.KeepsBare.frame (writeFiles_keepsBare hversion)
  exact (hwritten.of_runIn h₃).bare hsecond

namespace Confined

theorem runLine_keepsBare (h : plant.Confined ps l k) (hp : p ∈ ps) {line : String}
    (hline : line ∈ p.preBuildCommands ++ p.postBuildCommands) :
    (runLine line p.directory : Action ν Unit).Keeps (World.KeepsBare l k) := fun w =>
  ⟨scheduler_runLine line _ w, fun hw =>
    ⟨(workingDirectory_runLine line _ w).trans hw.working_eq, h.command p hp line hline w hw⟩⟩

theorem announce_keepsBare (h : plant.Confined ps l k) (hp : p ∈ ps) :
    (plant.builder.announce p : Action ν Unit).Keeps (World.KeepsBare l k) :=
  Builder.keeps_announce World.KeepsBare.frame plant.builder fun _ hline =>
    h.runLine_keepsBare hp (List.mem_append_left _ hline)

theorem checkArtifact_keepsBare (h : plant.Confined ps l k) (hp : p ∈ productive ps)
    (hk : ∀ o ∈ furnishings p, k ∉ o.trail l) :
    (plant.builder.checkArtifact plant.choose p).Keeps (World.KeepsBare l k) := by
  refine Builder.keeps_checkArtifact World.KeepsBare.frame (fun o ho => ?_)
    (writeFiles_keepsBare fun o ho => hk o ?_) fun libraries makeReady hlibraries hchoose =>
      (h.toolchain p hp libraries makeReady hlibraries hchoose).1
  · refine Action.createDirectories_keepsBare (hk o ?_)
    exact List.cons_subset_cons _ (List.cons_subset_cons _ (List.nil_subset _)) ho
  · exact List.mem_cons_of_mem _ (List.mem_cons_of_mem _ ho)

theorem confines (h : plant.Confined ps l k) (hp : p ∈ productive ps)
    (hchecking : Builder.Checking plant.choose plant.builder p w v c versioned ready) :
    plant.Confines p c.toolchain := by
  obtain ⟨libraries, makeReady, console, hlibraries, hrequest, hchoose, hready⟩ := hchecking.chosen
  rw [hrequest] at hchoose
  exact (h.toolchain p hp libraries makeReady hlibraries hchoose).2 _ _ (congrArg Prod.fst hready)

/-- The tasks that follow a check put nothing at a place that is none of the project's. -/
theorem tasks_keepBare (h : plant.Confined ps l k) (hp : p ∈ productive ps)
    (hk : ∀ o ∈ plant.taskFiles p, k ∉ o.trail l)
    (hcheck : (plant.builder.checkArtifact plant.choose p).runIn w = (.ok c, v)) :
    ∀ t ∈ c.tasks p, ∀ position (w : World ν), w.disk.Bare l k →
      (t.execute position w).2.disk.Bare l k := by
  obtain ⟨versioned, ready, hchecking⟩ := Builder.exists_checking hcheck
  have hconfines := h.confines hp hchecking
  have hunits : ∀ u ∈ c.units, plant.IsUnit p u := by
    intro u hu
    have hchecked := congrArg Prod.fst hchecking.checked_eq
    dsimp only [Builder.checkProject] at hchecked
    rw [hchecked, hconfines.objectExtension_eq] at hu
    obtain ⟨s, hs, rfl⟩ := List.mem_map.1 hu
    exact isUnit_check hs
  intro t ht position w hw
  rcases List.mem_append.1 ht with ht | ht
  · exact (hconfines.adds c.units c.fingerprint hunits t ht position w).bare_of_bare hk hw
  · obtain ⟨line, hline, rfl⟩ := List.mem_map.1 ht
    have hrun := h.runLine_keepsBare (mem_productive.1 hp).1 (List.mem_append_right _ hline)
    have haction := Action.Keeps.bind World.KeepsBare.frame
      (Action.Keeps.tell World.KeepsBare.frame (·.status ("  Running " ++ line))) (fun _ => hrun) w
    exact Task.snd_ofAction _ position w ▸ haction.bare hw

/-- A build that has found something stale adds nothing but what its project makes. -/
theorem bare_of_refresh (h : plant.Confined ps l k) (hp : p ∈ productive ps)
    (hk : ∀ o ∈ plant.places p, k ∉ o.trail l)
    (hcheck : (plant.builder.checkArtifact plant.choose p).runIn w = (.ok c, v))
    (hsettled : v.scheduler.Settled) (hrun : (Builder.refresh p c).runIn v = (.ok (), u))
    (hbare : v.disk.Bare l k) : u.disk.Bare l k := by
  have hmade : ∀ o ∈ plant.made p, k ∉ o.trail l := fun o ho =>
    hk o (List.mem_cons_of_mem _ (List.mem_cons_of_mem _ (List.mem_append_right _ ho)))
  obtain ⟨tasks, built, n, hrefreshing⟩ := Builder.exists_refreshing hsettled hrun
  have hkept : KeptBy (fun d e => d.Bare l k → e.Bare l k) tasks :=
    ⟨fun _ => id, fun h₁ h₂ => h₂ ∘ h₁, fun t ht => h.tasks_keepBare hp
      (fun o ho => hmade o (List.mem_append_left _ ho)) hcheck t ((hrefreshing.mem_iff t).1 ht)⟩
  have hbuilt := hrefreshing.executed.kept hkept hbare
  refine (Manifest.adds_of_write hrefreshing.write_eq).bare_of_bare (fun o ho => ?_) hbuilt
  exact hmade o (List.mem_append_right _ ho)

end Confined

/-- Where the trace of a project is missing, a check finds something stale. -/
theorem Traces.isFresh_eq_false {q : Path} (h : plant.Traces ps l p q)
    (hconfined : plant.Confined ps l (q.location l)) (hp : p ∈ productive ps)
    (hbare : w.disk.Bare l (q.location l))
    (hcheck : (plant.builder.checkArtifact plant.choose p).runIn w = (.ok c, v)) :
    c.isFresh = false := by
  rw [Bool.eq_false_iff]
  intro hfresh
  obtain ⟨versioned, ready, hchecking⟩ := Builder.exists_checking hcheck
  have hartifact : ((CompileUnit.make p.path p.outputFile).check v.disk c.fingerprint true
      c.manifest).isStale = false := by
    have hchecked := congrArg Prod.snd hchecking.checked_eq
    dsimp only [Builder.checkProject] at hchecked
    rw [(hconfined.confines hp hchecking).compileStep_eq, if_pos rfl] at hchecked
    have hstale : c.artifact.isStale = false := by
      simpa using List.all_eq_true.1 hfresh c.artifact (by simp)
    exact CompileUnit.fresh_of_checkInputs (hchecked ▸ hstale)
  rcases List.mem_pair.1 h.mem with rfl | rfl
  · -- The artifact is still missing when the check looks for it.
    have hkept := ((hconfined.checkArtifact_keepsBare hp h.own).of_runIn hcheck).bare hbare
    obtain ⟨n, hn⟩ := Disk.lookup_of_present (CompileUnit.isStale_check.1 hartifact).1
    have hstanding := (Disk.lookup_eq_ok hn).1
    rw [Disk.standing, hkept.working_eq, hkept.node?_eq] at hstanding
    cases hstanding
  · -- Without a manifest there is no record of the artifact.
    have hversioned := bare_of_furnished hchecking h.own hbare
    have hmanifest : c.manifest = .empty := by
      rcases hchecking.manifest_standing with heq | hread
      · exact heq
      rcases Manifest.standing_of_read hread with heq | ⟨f, hstanding, -⟩
      · exact heq
      · rw [Disk.standing, hversioned.working_eq, hversioned.node?_eq] at hstanding
        cases hstanding
    obtain ⟨r, hr, -⟩ := CompileUnit.record_of_fresh hartifact
    rw [hmanifest] at hr
    cases hr

/-- No job is at work, and nothing stands at the place `k`. -/
structure Vacant (l k : Location) (w : World ν) : Prop where
  settled : w.scheduler.Settled
  bare : w.disk.Bare l k

theorem Vacant.keepsBare (hw : Vacant l k w) (h : w.KeepsBare l k v) : Vacant l k v :=
  ⟨h.scheduler_eq.symm ▸ hw.settled, h.bare hw.bare⟩

/-- A build leaves a place vacant if its project makes nothing there. -/
theorem Confined.vacant_of_buildProject {outcome : BuildOutcome} (h : plant.Confined ps l k)
    (hp : p ∈ ps) (hk : p.outputType ≠ .container → ∀ o ∈ plant.places p, k ∉ o.trail l)
    (hrun : (plant.builder.buildProject plant.choose p).runIn w = (.ok outcome, v))
    (hw : Vacant l k w) : Vacant l k v := by
  obtain ⟨u, hannounce, hcourse⟩ := Builder.exists_course hrun
  have hannounced := hw.keepsBare ((h.announce_keepsBare hp).of_runIn hannounce)
  have hchecked {a x : World ν} {c : Builder.Checked ν} (hmade : p.outputType ≠ .container)
      (hstart : u.Unmoved a)
      (hcheck : (plant.builder.checkArtifact plant.choose p).runIn a = (.ok c, x)) :
      Vacant l k x :=
    (hannounced.keepsBare hstart.keepsBare).keepsBare
      ((h.checkArtifact_keepsBare (mem_productive.2 ⟨hp, hmade⟩) fun o ho =>
        hk hmade o (plant.furnishings_subset p ho)).of_runIn hcheck)
  cases hcourse with
  | skipped _ hend => exact hannounced.keepsBare hend.keepsBare
  | upToDate hmade hstart hcheck _ hend =>
    exact (hchecked hmade hstart hcheck).keepsBare hend.keepsBare
  | @built a x y _ c hmade hstart hcheck hrefresh hend =>
    have hready := hchecked hmade hstart hcheck
    obtain ⟨tasks, built, n, hrefreshing⟩ := Builder.exists_refreshing hready.settled hrefresh
    refine Vacant.keepsBare ⟨hrefreshing.settled, ?_⟩ hend.keepsBare
    exact h.bare_of_refresh (mem_productive.2 ⟨hp, hmade⟩) (hk hmade) hcheck hready.settled
      hrefresh hready.bare

/-- A build skips containers and nothing else, and where the trace is missing it does not find the
project up to date. -/
theorem rebuilt_of_buildProject {outcome : BuildOutcome} (hp : p ∈ ps)
    (hw : p.outputType ≠ .container → ∀ q, plant.Traces ps l p q →
      plant.Confined ps l (q.location l) → Vacant l (q.location l) w)
    (hrun : (plant.builder.buildProject plant.choose p).runIn w = (.ok outcome, v)) :
    plant.Rebuilt ps l p (p.name, outcome) := by
  obtain ⟨u, hannounce, hcourse⟩ := Builder.exists_course hrun
  cases hcourse with
  | skipped hcontainer _ =>
    exact ⟨rfl, iff_of_true rfl hcontainer, fun hmade => absurd hcontainer hmade⟩
  | @upToDate a x _ c hmade hstart hcheck hfresh _ =>
    refine ⟨rfl, iff_of_false nofun hmade, fun _ q htraces hconfined => ?_⟩
    have hannounced := (hw hmade q htraces hconfined).keepsBare
      ((hconfined.announce_keepsBare hp).of_runIn hannounce)
    rw [htraces.isFresh_eq_false hconfined (mem_productive.2 ⟨hp, hmade⟩)
      (hannounced.keepsBare hstart.keepsBare).bare hcheck] at hfresh
    cases hfresh
  | built hmade => exact ⟨rfl, iff_of_false nofun hmade, fun _ _ _ _ => rfl⟩

/-- While projects are built that have been cleaned, traces of those that are still to be built are
missing. -/
theorem rebuilt_of_buildAll {outcomes : List (String × BuildOutcome)} (hps : ps = done ++ rest)
    (hw : ∀ p ∈ productive rest, ∀ q, plant.Traces ps l p q → plant.Confined ps l (q.location l) →
      Vacant l (q.location l) w)
    (hrun : (plant.builder.buildAll plant.choose rest).runIn w = (.ok outcomes, v)) :
    List.Forall₂ (plant.Rebuilt ps l) rest outcomes := by
  induction rest generalizing done w outcomes with
  | nil =>
    cases hrun
    exact .nil
  | cons p rest ih =>
    unfold Builder.buildAll at hrun
    obtain ⟨outcome, x, hproject, hrun⟩ := Action.runIn_bind_eq_ok.1 hrun
    obtain ⟨others, y, hothers, hrun⟩ := Action.runIn_bind_eq_ok.1 hrun
    cases hrun
    rw [Action.runIn_within_eq_ok] at hproject
    have hp : p ∈ ps := by simp [hps]
    refine .cons (rebuilt_of_buildProject hp (fun hmade q => hw p ?_ q) hproject) ?_
    · exact mem_productive.2 ⟨List.mem_cons_self, hmade⟩
    have hrest : ps = (done ++ [p]) ++ rest := by simp [hps]
    refine ih hrest (fun r hr q htraces hconfined => ?_) hothers
    obtain ⟨hmem, hmade⟩ := mem_productive.1 hr
    have hvacant := hw r (mem_productive.2 ⟨List.mem_cons_of_mem _ hmem, hmade⟩) q htraces hconfined
    refine hconfined.vacant_of_buildProject hp (fun hpmade => ?_) hproject hvacant
    -- What this project makes lies elsewhere than traces of later ones.
    obtain ⟨amid, later, rfl⟩ := List.append_of_mem hmem
    exact htraces.apart (done ++ p :: amid) later (by simp [hps]) p
      (mem_productive.2 ⟨by simp, hpmade⟩)

/-- Copies stale sources, and joins all objects and what a project is linked against. -/
def linker (libraries : List Path) : Toolchain Unit where
  description := "linking"
  compileStep := true
  objectExtension := "o"
  tasks units _ output _ :=
    (units.filter CompileUnit.isStale).map (fun u => copyTask u.source u.output) ++
      [joinTask (units.map CompileUnit.output ++ libraries) output]

/-- A workspace in the root directory, of which all projects are built by copying and linking. -/
def linking (projects : List Project) : Plant Unit :=
  { copying {
      workspace := { (default : Workspace) with path := ⟨"/w.kiln"⟩ }
      target := default
      projects } with
    choose request := .ok (pure (linker request.dependencyOutputs)) }

theorem adds_copyTask (source object : Path) (position : Option Position) (w : World Unit) :
    w.disk.Adds [object, object.withExtension "d"]
      ((copyTask source object).execute position w).2.disk := by
  unfold copyTask
  dsimp only
  split
  · exact .refl _ _
  split
  · exact .refl _ _
  next d hobject =>
  have hcopied := (Disk.placed_of_write hobject).adds.of_subset
    (List.cons_subset_cons object (List.nil_subset [object.withExtension "d"]))
  split
  · exact hcopied
  next e hlisted =>
  exact hcopied.trans ((Disk.placed_of_write hlisted).adds.of_subset (List.subset_cons_self _ _))

theorem adds_joinTask (objects : List Path) (artifact : Path) (position : Option Position)
    (w : World Unit) :
    w.disk.Adds [artifact] ((joinTask objects artifact).execute position w).2.disk := by
  unfold joinTask
  dsimp only
  split
  · exact .refl _ _
  next d hwrite => exact (Disk.placed_of_write hwrite).adds

theorem confines_linker (projects : List Project) (p : Project) (libraries : List Path) :
    (linking projects).Confines p (linker libraries) where
  compileStep_eq := rfl
  objectExtension_eq := rfl
  adds units fingerprint hunits task htask position w := by
    rcases List.mem_append.1 htask with htask | htask
    · obtain ⟨u, hu, rfl⟩ := List.mem_map.1 htask
      obtain ⟨hsource, houtput⟩ := hunits u (List.mem_filter.1 hu).1
      refine (adds_copyTask u.source u.output position w).of_subset ?_
      rw [houtput]
      exact List.cons_subset.2 ⟨object_mem hsource,
        List.cons_subset.2 ⟨dependencyFile_mem hsource, List.nil_subset _⟩⟩
    · obtain rfl := List.mem_singleton.1 htask
      refine (adds_joinTask _ p.outputFile position w).of_subset ?_
      exact List.cons_subset.2 ⟨artifact_mem _ p, List.nil_subset _⟩

/-- Without commands nothing is put anywhere but by the tasks. -/
theorem confined_linking {projects : List Project}
    (hcommands : ∀ p ∈ ps, p.preBuildCommands ++ p.postBuildCommands = []) :
    (linking projects).Confined ps l k where
  command p hp line hline := by
    rw [hcommands p hp] at hline
    cases hline
  toolchain p _ libraries makeReady _ hchoose := by
    cases hchoose
    refine ⟨.pure World.KeepsBare.frame _, fun w t ht => ?_⟩
    cases ht
    exact confines_linker projects p libraries

/-- Where all projects have names of their own, there is only one split before a project. -/
theorem Traces.of_names {earlier later : List Project} {q : Path} (hps : ps = earlier ++ p :: later)
    (hnames : ∀ r ∈ earlier ++ later, r.name ≠ p.name) (hmem : q ∈ [p.outputFile, p.manifestFile])
    (hcleared : ∃ r ∈ ps, r.clears l (q.location l) = true)
    (hapart : ∀ o ∈ furnishings p ++ (productive earlier).flatMap plant.places,
      q.location l ∉ o.trail l) : plant.Traces ps l p q where
  mem := hmem
  cleared := hcleared
  own o ho := hapart o (List.mem_append_left _ ho)
  apart earlier' later' hsplit r hr o ho := by
    have hnot (r) (hr : r ∈ earlier ++ later) : r ≠ p := fun heq => hnames r hr (heq ▸ rfl)
    have hbefore : p ∉ earlier := fun h => hnot p (List.mem_append_left _ h) rfl
    have hbehind : p ∉ later := fun h => hnot p (List.mem_append_right _ h) rfl
    obtain ⟨rfl, -⟩ :=
      (List.append_cons_inj_of_notMem hbefore hbehind).1 (hps.symm.trans hsplit)
    exact hapart o (List.mem_append_right _ (List.mem_flatMap.2 ⟨r, hr, ho⟩))

/-- How a rebuild of all projects goes on a disk. -/
def rebuildOn (projects : List Project) (withDependencies : Bool) (d : Disk) :
    Except Failure (List (String × BuildOutcome)) × World Unit :=
  ((linking projects).builder.rebuild (linking projects).choose none withDependencies).runIn
    { rootWorld [] with disk := d }

/-- The disk with more on it, which has been there since the beginning. -/
def strewn (d : Disk) (directories : List Location) (files : List (Location × String)) : Disk :=
  files.foldl (fun d (l, text) => d.put l (.file ⟨text.toUTF8, 1, false⟩))
    (directories.foldl (fun d l => d.put l .directory) d)

/-- The application, with an intermediate directory of its own. -/
def asideApplication : Project := { linkedApplication with intermediateDirectory := ⟨"/k"⟩ }

/-- The library, the application, and a project that groups them. -/
def asideProjects : List Project :=
  [versionedLibrary, asideApplication, { groupingProject with intermediateDirectory := ⟨"/g"⟩ }]

/-- What is left of earlier builds: an artifact, a manifest that cannot be read, an object that is
no copy, and a directory where the dependency file belongs. -/
def strewnDisk : Disk :=
  strewn linkedWorld.disk [["k"], ["k", "a.d"], ["o"]]
    [(["app"], "old"), (["k", "App.manifest"], "junk"), (["o", "v.o"], "junk")]

/-- The library has its manifest to itself, and the application its artifact. -/
theorem traces_aside :
    (linking asideProjects).Traces asideProjects [] versionedLibrary
        versionedLibrary.manifestFile ∧
      (linking asideProjects).Traces asideProjects [] asideApplication
        asideApplication.outputFile :=
  ⟨.of_names (List.nil_append _).symm (by decide +kernel) (by simp) (by decide +kernel)
      (by decide +kernel),
    .of_names (List.singleton_append ..).symm (by decide +kernel) (by simp) (by decide +kernel)
      (by decide +kernel)⟩

/-- What is asked of two disks and of a toolchain, when nothing is asked of where projects lie. -/
structure Unplaced (projects : List Project) (withDependencies : Bool) (d e : Disk) : Prop where
  selection_eq : (linking projects).builder.selection none withDependencies = .ok projects
  leftover : d.Leftover projects e
  confined : ∀ k, (linking projects).Confined projects d.workingDirectory k

/-- A source with descriptions of two projects and of the workspace. -/
def placedDisk : Disk :=
  (rootWorld [("a.c", "one"), ("a.kiln", ""), ("b.kiln", ""), ("w.kiln", "")]).disk

/-- A project of the source. -/
def placed (name output intermediate : String) : Project :=
  { (default : Project) with
    path := ⟨"/a.kiln"⟩
    name := name
    language := .c
    outputName := name
    outputDirectory := ⟨output⟩
    intermediateDirectory := ⟨intermediate⟩
    files := [⟨"/a.c"⟩] }

theorem unplaced_linking {projects : List Project} {withDependencies : Bool} {d e : Disk}
    (hselection : (linking projects).builder.selection none withDependencies = .ok projects)
    (hleft : d.Leftover projects e)
    (hcommands : ∀ p ∈ projects, p.preBuildCommands ++ p.postBuildCommands = []) :
    Unplaced projects withDependencies d e :=
  ⟨hselection, hleft, fun _ => confined_linking hcommands⟩

/-- A project with a path to its intermediate directory that ends in a dot. -/
def dotted : List Project := [placed "A" "/o" "/o/."]

def dottedDisk : Disk := strewn placedDisk [["o"]] []

/-- Two projects with a path to the intermediate directory of the second that leads through the one
of the first. -/
def crossing : List Project := [placed "A" "/" "/o", placed "B" "/" "/o/../k"]

/-- A directory stands where an object of the second project belongs. -/
def crossingDisk : Disk := strewn placedDisk [["k"], ["k", "a.o"], ["o"]] []

/-- A project listed before what it is linked against, with a path to the artifact of the latter
that leads through the intermediate directory. -/
def early : List Project :=
  [{ placed "A" "/o" "/k" with dependencies := ["B"] },
    { placed "B" "/o/.." "/o" with outputType := .staticLibrary }]

/-- What is linked against has been built before. -/
def earlyDisk : Disk := strewn placedDisk [["o"]] [(["B"], "old")]

/-- Two projects with one artifact, the second of them without sources and with its manifest beside
the intermediate directory. -/
def sharing : List Project :=
  [placed "A" "/" "/o",
    { placed "../B" "/" "/o" with path := ⟨"/b.kiln"⟩, outputName := "A", files := [] }]

/-- The manifest has a record of the artifact. -/
def sharingDisk : Disk :=
  strewn placedDisk [] [(["B.manifest"],
    "\x7b\"version\":1,\"records\":\x7b\"/A\":\x7b\"fingerprint\":2362281983055413638," ++
      "\"input_hash\":8959582427724487426,\"source\":\x7b\"metadata\":0,\"content_hash\":\"\"\x7d," ++
      "\"dependencies\":[]\x7d\x7d\x7d")]

/-- The second of these projects. -/
def sourceless : Project :=
  { placed "../B" "/" "/o" with path := ⟨"/b.kiln"⟩, outputName := "A", files := [] }

/-- The world when both projects have been cleaned. -/
def sharingCleaned : World Unit :=
  ((Action.each Builder.cleanProject sharing).runIn { rootWorld [] with disk := sharingDisk }).2

/-- The world when then the first has been built. -/
def sharingBuilt : World Unit :=
  (((linking sharing).builder.buildProject (linking sharing).choose (placed "A" "/" "/o")).runIn
    sharingCleaned).2

/-- The hashes on record are those of the second project and of its description. -/
theorem sharingBuilt_hashes :
    (linking sharing).builder.fingerprint sharingBuilt.disk sourceless = 2362281983055413638 ∧
      State.inputHash sharingBuilt.disk 2362281983055413638 sourceless.path =
        8959582427724487426 := by
  have hmetadata : sharingBuilt.disk.metadata? ⟨"/b.kiln"⟩ = some (1, 0) ∧
      sharingBuilt.disk.metadata? ⟨"/w.kiln"⟩ = some (1, 0) := by
    decide +kernel
  obtain ⟨hdescription, hworkspace⟩ := hmetadata
  constructor
  · rw [Builder.fingerprint, Builder.timeBytes, Builder.timeBytes, Disk.modified?, Disk.modified?]
    rw [show sourceless.path = ⟨"/b.kiln"⟩ from rfl, hdescription]
    rw [show (linking sharing).builder.workspace.path = ⟨"/w.kiln"⟩ from rfl, hworkspace]
    decide +kernel
  · rw [State.inputHash, Disk.metadataHash?, Disk.modified?]
    rw [show sourceless.path = ⟨"/b.kiln"⟩ from rfl, hdescription]
    decide +kernel

/-- With what the manifest has on record, the second project is up to date. -/
theorem sharingBuilt_current : (linking sharing).Current sourceless sharingBuilt := by
  have hthere : (∀ q ∈ [(linking sharing).builder.workspace.path, sourceless.path,
        sourceless.outputFile], sharingBuilt.disk.present q = true) ∧
      (∀ q ∈ [sourceless.outputDirectory, sourceless.intermediateDirectory],
        sharingBuilt.disk.isDirectory q = true) ∧
      (sharingBuilt.disk.metadataHash? sourceless.path).isSome = true := by
    decide +kernel
  obtain ⟨hpresent, hdirectories, hmetadata⟩ := hthere
  have hrecord : ((Manifest.read sharingBuilt.disk sourceless.manifestFile).toOption.bind
      (·.get? sourceless.outputFile)).map (fun r => (r.fingerprint, r.inputHash,
        r.dependencies.length)) = some (2362281983055413638, 8959582427724487426, 0) := by
    decide +kernel
  obtain ⟨r, hr, hrecorded⟩ := Option.map_eq_some_iff.1 hrecord
  obtain ⟨m, hm, hr⟩ := Option.bind_eq_some_iff.1 hr
  simp only [Prod.mk.injEq, List.length_eq_zero_iff] at hrecorded
  obtain ⟨hfingerprint, hhash, hdependencies⟩ := hrecorded
  refine {
    ready := ⟨[], pure (linker []), sharingBuilt, linker [], by cbv, rfl, rfl, rfl,
      fun _ => False.elim⟩
    workspace := hpresent _ (by simp)
    description := hpresent _ (by simp)
    directories := fun q hq => .inr (hdirectories q hq)
    versionFiles := .none rfl rfl
    outputs := fun o ho => hpresent o ?_
    recorded := fun _ => ⟨m, toOption_eq_some_iff.1 hm, ?_⟩ }
  · have hone : (linking sharing).outputs sourceless = [sourceless.outputFile] := rfl
    rw [hone, List.mem_singleton] at ho
    simp [ho]
  · refine ⟨fun _ hs => absurd hs List.not_mem_nil, r, [], hr, ⟨hmetadata, ?_⟩, by cbv, ?_⟩
    · obtain ⟨hfingerprintNow, hhashNow⟩ := sharingBuilt_hashes
      rw [hfingerprintNow, Record.verdict_eq_fresh_iff, hhashNow]
      exact ⟨hfingerprint, .inl hhash, by simp [hdependencies]⟩
    · rw [hdependencies]
      rfl

/-- The manifest stays, and when the first project has been built the second is up to date. -/
theorem sharing_remembers : Unplaced sharing true sharingDisk sharingDisk ∧
    (rebuildOn sharing true sharingDisk).1.toOption =
      some [("A", .built), ("../B", .upToDate)] := by
  have hselection : (linking sharing).builder.selection none true = .ok sharing := by cbv
  refine ⟨unplaced_linking hselection (by decide +kernel) (by decide +kernel), ?_⟩
  have hcleaned : (Action.each Builder.cleanProject sharing).runIn
      { rootWorld [] with disk := sharingDisk } = (.ok (), sharingCleaned) :=
    Action.runIn_eq_ok (by decide +kernel)
  have hbuilt : ((linking sharing).builder.buildProject (linking sharing).choose
      (placed "A" "/" "/o")).runIn sharingCleaned = (.ok .built, sharingBuilt) :=
    Action.runIn_eq_ok (by decide +kernel)
  have horderly : (linking sharing).Orderly [sourceless] := by
    refine ⟨fun p hp line hline => ?_, fun p hp libraries makeReady _ hchoose => ?_⟩
    · obtain rfl := List.mem_singleton.1 hp
      cases hline
    · obtain rfl := List.mem_singleton.1 hp
      cases hchoose
      exact prepares_pure (serves_of_tasks rfl rfl (fun _ _ _ _ => rfl)
        fun _ h => absurd h List.not_mem_nil)
  obtain ⟨v, hcurrent, -⟩ : ∃ v, ((linking sharing).builder.buildAll (linking sharing).choose
      [sourceless]).runIn sharingBuilt = (.ok [("../B", .upToDate)], v) ∧
        sharingBuilt.Unmoved v :=
    runIn_buildAll_of_current horderly (List.Subset.refl _) (List.forall_mem_singleton.2 rfl)
      (List.forall_mem_singleton.2 sharingBuilt_current)
  have hrebuilt : rebuildOn sharing true sharingDisk =
      (.ok [("A", .built), ("../B", .upToDate)], v) := by
    refine Action.runIn_bind_eq_ok.2 ⟨sharing, _,
      (Action.runIn_ofExcept _ _).trans (Prod.ext hselection rfl), ?_⟩
    refine Action.runIn_bind_eq_ok.2 ⟨(), _, hcleaned, ?_⟩
    rw [Builder.runIn_build hselection]
    refine Action.runIn_bind_eq_ok.2 ⟨.built, _, Action.runIn_within_eq_ok.2 hbuilt, ?_⟩
    exact Action.runIn_bind_eq_ok.2 ⟨_, v, hcurrent, rfl⟩
  rw [hrebuilt]
  rfl

end Build.Plant

end IncrementalBuild
