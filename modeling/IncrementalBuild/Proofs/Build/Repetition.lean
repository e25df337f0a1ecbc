import IncrementalBuild.Proofs.Build.Copier
import IncrementalBuild.Proofs.Build.ProjectOrder
import IncrementalBuild.Proofs.Build.Renewal

/-!
Building a second time. A build of several projects keeps those up to date that it has built before,
so that after it all of them are, and a build of projects that are up to date does nothing.
-/

namespace IncrementalBuild

open Build State ProjectOrder

/-- The projects of an order that something is built of. -/
def productive (order : List Project) : List Project :=
  order.filter fun p => p.outputType ≠ .container

/-- What a build that has nothing to do reports of a project. -/
def idleOutcome (p : Project) : String × BuildOutcome :=
  (p.name, if p.outputType = .container then .skipped else .upToDate)

theorem mem_productive {order : List Project} {p : Project} :
    p ∈ productive order ↔ p ∈ order ∧ p.outputType ≠ .container := by
  simp [productive]

theorem productive_cons (p : Project) (order : List Project) :
    productive (p :: order) =
      if p.outputType = .container then productive order else p :: productive order := by
  by_cases h : p.outputType = .container <;> simp [productive, h]

namespace Builder

variable {ν : Type} {b : Builder} {choose : ToolchainChoice ν} {p : Project}

theorem runIn_build {name : Option String} {withDependencies : Bool} {order : List Project}
    (hselection : b.selection name withDependencies = .ok order) (w : World ν) :
    (b.build choose name withDependencies).runIn w = (b.buildAll choose order).runIn w := by
  rw [build, Action.runIn_bind, Action.runIn_ofExcept, hselection]

/-- Of a project that groups others nothing is built. -/
theorem runIn_buildProject_container (hfirst : p.preBuildCommands = [])
    (hcontainer : p.outputType = .container) (w : World ν) :
    ∃ v, (b.buildProject choose p).runIn w = (.ok .skipped, v) ∧ w.Unmoved v := by
  obtain ⟨console, hannounce⟩ := b.runIn_announce hfirst w
  unfold buildProject
  rw [Action.runIn_bind, hannounce]
  dsimp only
  rw [if_pos hcontainer]
  exact ⟨_, rfl, rfl, rfl, rfl, rfl⟩

end Builder

namespace Build.Plant

variable {ν : Type} {plant : Plant ν} {earlier later done rest order ps : List Project}
  {p q : Project} {l : Location} {w v : World ν}

/-- In the order of a selection, a project is linked against artifacts of projects before it. -/
theorem amid_of_ordered (hunique : (plant.builder.projects.map Project.name).Nodup)
    (hordered : Ordered plant.builder.projects order)
    (hlawful : plant.Lawful (productive order) l)
    (hsplit : productive order = earlier ++ p :: later) : plant.Amid earlier p later l := by
  refine ⟨hsplit ▸ hlawful, fun libraries hlibraries q hq => ?_⟩
  have hp : p ∈ order := (mem_productive.1 (hsplit ▸ mem_amid earlier p later)).1
  obtain ⟨libraries, rfl, hlink⟩ :=
    Builder.linkOrder_of_dependencyOutputs hunique (hordered.subset p hp) hlibraries
  obtain ⟨r, hr, rfl⟩ := List.mem_map.1 hq
  obtain ⟨hr, hlibrary, hneeds⟩ := (hlink.mem_iff r).1 hr
  -- The library is in the order, and there is no place for it but before the project.
  obtain ⟨hpairwise, hacyclic⟩ := hordered.pairwise hunique
  obtain ⟨r', hr', hname⟩ := hordered.exists_of_reaches hunique hp hneeds.to_reflTransGen
  obtain rfl := eq_of_name_eq hunique (hordered.subset r' hr') hr hname
  have hmem : r' ∈ earlier ++ p :: later := by
    rw [← hsplit, mem_productive]
    refine ⟨hr', fun hcontainer => ?_⟩
    rw [hcontainer] at hlibrary
    cases hlibrary
  have hlater : ∀ q ∈ later, ¬ Needs plant.builder.projects p.name q.name := by
    have hsub := hpairwise.sublist (List.filter_sublist (p := fun p => p.outputType ≠ .container))
    rw [← productive, hsplit] at hsub
    exact (List.pairwise_cons.1 (List.pairwise_append.1 hsub).2.1).1
  rcases List.mem_append.1 hmem with hearlier | hrest
  · refine List.mem_flatMap.2 ⟨r', hearlier, ?_⟩
    exact output_product (artifact_output plant r')
  · rcases List.mem_cons.1 hrest with rfl | hrest
    · exact absurd hneeds (hacyclic _ hp)
    · exact absurd hneeds (hlater _ hrest)

/-- What a project rests on once it is built stays while later projects are built. -/
theorem Amid.keeps_concerns (h : plant.Amid earlier p later w.disk.workingDirectory)
    {written : List Path}
    (hleaves : w.Leaves (plant.Watched (earlier ++ p :: later)) written v)
    (hsub : written ⊆ later.flatMap plant.products) {q : Path} (hq : plant.Concerns p q) :
    w.disk.KeepsNode v.disk q := by
  obtain ⟨q', heq, hreads | hproduct⟩ := hq
  · have hsub' := List.Subset.trans hsub (List.subset_append_right (plant.made p) _)
    exact h.keeps_reads hleaves hsub' heq hreads
  · refine hleaves.disk.keepsNode q
      ⟨p, mem_amid earlier p later, q', heq, .inr (.inl hproduct)⟩ ?_
    exact ((h.distinct.2.1 q' hproduct).mono hsub).of_beq heq

/-- What is relied on where a build begins is still so when another project was built before. -/
theorem Start.leaves (h : plant.Start q w)
    (hlawful : plant.Lawful (earlier ++ p :: later) w.disk.workingDirectory) (hq : q ∈ later)
    (hleaves : w.Leaves (plant.Watched (earlier ++ p :: later)) (plant.products p) v)
    (hsettled : v.scheduler.Settled) : plant.Start q v := by
  have hp := mem_amid earlier p later
  have hqs : q ∈ earlier ++ p :: later :=
    List.mem_append_right _ (List.mem_cons_of_mem _ hq)
  have hsub : plant.products p ⊆ (earlier ++ p :: later).flatMap plant.products :=
    fun o ho => List.mem_flatMap.2 ⟨p, hp, ho⟩
  have hgiven (o) (ho : o = plant.builder.workspace.path ∨ o = q.path ∨ plant.Tool o)
      (hreads : plant.Reads q o) : w.disk.KeepsNode v.disk o :=
    hleaves.disk.keepsNode o ⟨q, hqs, o, Path.beq_self o, .inl hreads⟩
      ((hlawful.given q hqs o ho).mono hsub)
  have hmanifest : q.manifestFile.ApartFrom (plant.products p) w.disk.workingDirectory := by
    have hall := hlawful.distinct
    rw [List.flatMap_append, List.flatMap_cons] at hall
    have hlater := (List.pairwise_append.1 (List.pairwise_append.1 hall).2.1).2.2
    exact fun o ho => (hlater o ho q.manifestFile
      (List.mem_flatMap.2 ⟨q, hq, manifestFile_product plant q⟩)).symm
  refine ⟨hleaves.disk.grounded, hsettled, (hgiven _ (.inl rfl) .workspace).present h.workspace,
    (hgiven _ (.inr (.inl rfl)) .description).present h.description, fun f m hf hbytes => ?_⟩
  have hwatched := watched_product plant hqs (manifestFile_product plant q)
  exact h.honest f m (hleaves.disk.inherits _ hwatched hmanifest f hf) hbytes

/-- What is known while the projects of an order are built: those that were built are up to date,
and the others can be built. -/
structure Progressing (plant : Plant ν) (done todo : List Project) (w : World ν) : Prop where
  amid : ∀ earlier p later, done ++ todo = earlier ++ p :: later →
    plant.Amid earlier p later w.disk.workingDirectory
  start : ∀ p ∈ todo, plant.Start p w
  current : ∀ p ∈ done, plant.Current p w

theorem Progressing.unmoved (h : plant.Progressing done rest w) (hv : w.Unmoved v) :
    plant.Progressing done rest v where
  amid := hv.disk_eq.symm ▸ h.amid
  start p hp := (h.start p hp).unmoved hv
  current p hp := (h.current p hp).unmoved hv

/-- Building a project keeps what was built before up to date. -/
theorem Progressing.step {outcome : BuildOutcome} (h : plant.Progressing done (p :: rest) w)
    (hfirst : p.preBuildCommands = []) (hmade : p.outputType ≠ .container)
    (hrun : (plant.builder.buildProject plant.choose p).runIn w = (.ok outcome, v)) :
    plant.Progressing (done ++ [p]) rest v := by
  have hamid := h.amid done p rest rfl
  obtain ⟨hleaves, hsettled, hcurrent⟩ :=
    current_of_buildProject hamid (h.start p List.mem_cons_self) hfirst hmade hrun
  refine ⟨fun earlier q later hsplit => ?_, fun q hq => ?_, fun q hq => ?_⟩
  · rw [hleaves.disk.working_eq]
    exact h.amid earlier q later (by rw [← hsplit, List.append_assoc, List.singleton_append])
  · exact (h.start q (List.mem_cons_of_mem _ hq)).leaves hamid.lawful hq hleaves hsettled
  · rcases List.mem_append.1 hq with hq | hq
    · -- What is built now comes later in the order than `q`, which therefore rests on none of it.
      obtain ⟨before, after, rfl⟩ := List.append_of_mem hq
      have hsplit : (before ++ q :: after) ++ p :: rest = before ++ q :: (after ++ p :: rest) := by
        simp
      have hqamid := h.amid before q (after ++ p :: rest) hsplit
      rw [hsplit] at hleaves
      refine (h.current q hq).leaves hleaves (fun o ho => ?_) fun o ho => ?_
      · exact watched_directory plant (mem_amid before q _) ho
      · refine hqamid.keeps_concerns hleaves (fun o ho => ?_) ho
        exact List.mem_flatMap.2 ⟨p, by simp, ho⟩
    · exact List.mem_singleton.1 hq ▸ hcurrent

/-- After a build of some projects that succeeds, all that it has built are up to date. -/
theorem Progressing.current_of_buildAll {outcomes : List (String × BuildOutcome)}
    (h : plant.Progressing done (productive rest) w)
    (hfirst : ∀ p ∈ rest, p.preBuildCommands = [])
    (hrun : (plant.builder.buildAll plant.choose rest).runIn w = (.ok outcomes, v)) :
    (∀ p ∈ done, plant.Current p v) ∧ ∀ p ∈ productive rest, plant.Current p v := by
  induction rest generalizing done w outcomes with
  | nil =>
    cases hrun
    exact ⟨h.current, by simp [productive]⟩
  | cons p rest ih =>
    unfold Builder.buildAll at hrun
    obtain ⟨outcome, x, hproject, hrun⟩ := Action.runIn_bind_eq_ok.1 hrun
    obtain ⟨others, y, hothers, hrun⟩ := Action.runIn_bind_eq_ok.1 hrun
    cases hrun
    rw [Action.runIn_within_eq_ok] at hproject
    have hrest : ∀ q ∈ rest, q.preBuildCommands = [] :=
      fun q hq => hfirst q (List.mem_cons_of_mem _ hq)
    have hnone := hfirst p List.mem_cons_self
    rw [productive_cons] at h ⊢
    by_cases hcontainer : p.outputType = .container
    · obtain ⟨x', hskipped, hunmoved⟩ :=
        plant.builder.runIn_buildProject_container hnone hcontainer w
      rw [hskipped] at hproject
      cases hproject
      rw [if_pos hcontainer] at h ⊢
      exact ih (h.unmoved hunmoved) hrest hothers
    · rw [if_neg hcontainer] at h ⊢
      obtain ⟨hdone, hall⟩ := ih (h.step hnone hcontainer hproject) hrest hothers
      refine ⟨fun q hq => hdone q (List.mem_append_left _ hq), fun q hq => ?_⟩
      rcases List.mem_cons.1 hq with rfl | hq
      · exact hdone _ (List.mem_append_right _ List.mem_cons_self)
      · exact hall q hq

/-- A build of projects that are up to date does nothing. -/
theorem runIn_buildAll_of_current (horderly : plant.Orderly ps) (hsub : productive rest ⊆ ps)
    (hfirst : ∀ p ∈ rest, p.preBuildCommands = [])
    (hcurrent : ∀ p ∈ productive rest, plant.Current p w) :
    ∃ v, (plant.builder.buildAll plant.choose rest).runIn w = (.ok (rest.map idleOutcome), v) ∧
      w.Unmoved v := by
  induction rest generalizing w with
  | nil => exact ⟨w, rfl, .refl w⟩
  | cons p rest ih =>
    obtain ⟨x, hproject, hunmoved⟩ : ∃ x, (plant.builder.buildProject plant.choose p).runIn w =
        (.ok (idleOutcome p).2, x) ∧ w.Unmoved x := by
      by_cases hcontainer : p.outputType = .container
      · rw [idleOutcome, if_pos hcontainer]
        exact plant.builder.runIn_buildProject_container (hfirst p List.mem_cons_self) hcontainer w
      · have hp : p ∈ productive (p :: rest) :=
          mem_productive.2 ⟨List.mem_cons_self, hcontainer⟩
        rw [idleOutcome, if_neg hcontainer]
        exact (hcurrent p hp).runIn_buildProject horderly (hsub hp) (hfirst p List.mem_cons_self)
          hcontainer
    have hmem (q) (hq : q ∈ productive rest) : q ∈ productive (p :: rest) := by
      obtain ⟨hq, hmade⟩ := mem_productive.1 hq
      exact mem_productive.2 ⟨List.mem_cons_of_mem _ hq, hmade⟩
    obtain ⟨v, hrest, hunmoved'⟩ := ih (fun q hq => hsub (hmem q hq))
      (fun q hq => hfirst q (List.mem_cons_of_mem _ hq))
      fun q hq => (hcurrent q (hmem q hq)).unmoved hunmoved
    refine ⟨v, ?_, hunmoved.trans hunmoved'⟩
    unfold Builder.buildAll
    refine Action.runIn_bind_eq_ok.2 ⟨_, x, Action.runIn_within_eq_ok.2 hproject, ?_⟩
    exact Action.runIn_bind_eq_ok.2 ⟨_, v, hrest, rfl⟩

/-- A build right after one that has succeeded does nothing: it finds every project up to date that
something is built of, makes no job for a task, and leaves the disk as it is. -/
theorem build_of_built {name : Option String} {outcomes : List (String × BuildOutcome)}
    (hunique : (plant.builder.projects.map Project.name).Nodup)
    (hselection : plant.builder.selection name true = .ok order)
    (hfirst : ∀ p ∈ order, p.preBuildCommands = [])
    (hlawful : plant.Lawful (productive order) w.disk.workingDirectory)
    (hstart : ∀ p ∈ productive order, plant.Start p w)
    (h : (plant.builder.build plant.choose name true).runIn w = (.ok outcomes, v)) :
    ∃ u, (plant.builder.build plant.choose name true).runIn v =
      (.ok (order.map idleOutcome), u) ∧ v.Unmoved u := by
  have hordered := Builder.ordered_of_selection hunique hselection
  rw [Builder.runIn_build hselection] at h ⊢
  have hprogressing : plant.Progressing [] (productive order) w :=
    ⟨fun _ _ _ hsplit => amid_of_ordered hunique hordered hlawful hsplit, hstart, by simp⟩
  obtain ⟨-, hcurrent⟩ := hprogressing.current_of_buildAll hfirst h
  exact runIn_buildAll_of_current hlawful.toOrderly (List.Subset.refl _) hfirst hcurrent

/-- A library that compiles the version file generated for it, in a directory of its own. -/
def versionedLibrary : Project :=
  { (default : Project) with
    path := ⟨"/l.kiln"⟩
    name := "Lib"
    language := .c
    outputType := .staticLibrary
    outputName := "lib"
    outputDirectory := ⟨"/"⟩
    intermediateDirectory := ⟨"/o"⟩
    versionHeader := some ⟨"/v.h"⟩
    versionSourceFile := some ⟨"/v.c"⟩
    files := [⟨"/v.c"⟩] }

/-- An application that is linked against the library. -/
def linkedApplication : Project :=
  { (default : Project) with
    path := ⟨"/a.kiln"⟩
    name := "App"
    language := .c
    outputName := "app"
    outputDirectory := ⟨"/"⟩
    intermediateDirectory := ⟨"/"⟩
    dependencies := ["Lib"]
    files := [⟨"/a.c"⟩] }

/-- A project that groups the others. -/
def groupingProject : Project :=
  { (default : Project) with name := "All", outputType := .container, dependencies := ["App"] }

/-- A workspace of these, built by copying. -/
def linked : Plant Unit :=
  copying {
    workspace := { (default : Workspace) with path := ⟨"/w.kiln"⟩ }
    target := default
    projects := [groupingProject, linkedApplication, versionedLibrary] }

/-- Files in the root directory, and nothing else. -/
def rootWorld (files : List (String × String)) : World Unit where
  disk := {
    nodes := ⟨files.map fun (name, text) => ([name], .file ⟨text.toUTF8, 1, false⟩)⟩
    workingDirectory := []
    clock := 2 }
  console := default
  messages := .empty
  scheduler := .empty
  searchPath := []
  notes := ()

def linkedWorld : World Unit :=
  rootWorld [("a.c", "one"), ("a.kiln", ""), ("l.kiln", ""), ("w.kiln", "")]

theorem lawful_linked : linked.Lawful [versionedLibrary, linkedApplication] [] where
  distinct := by decide +kernel
  given p hp q hq := by
    have hall : ∀ p ∈ [versionedLibrary, linkedApplication],
        ∀ q ∈ [linked.builder.workspace.path, p.path],
          q.ApartFrom ([versionedLibrary, linkedApplication].flatMap linked.products) [] := by
      decide +kernel
    rcases hq with rfl | rfl | hfalse
    · exact hall p hp _ List.mem_cons_self
    · exact hall p hp _ (List.mem_cons_of_mem _ List.mem_cons_self)
    · exact hfalse.elim
  input earlier p later hsplit q hq := by
    have hlibrary : ∀ q ∈ versionedLibrary.sourceFiles, q.ApartFrom
        (linked.made versionedLibrary ++ [linkedApplication].flatMap linked.products) [] := by
      decide +kernel
    have happlication : ∀ q ∈ linkedApplication.sourceFiles,
        q.ApartFrom (linked.made linkedApplication ++ [].flatMap linked.products) [] := by
      decide +kernel
    have hq : q ∈ p.sourceFiles := hq.elim id fun hfalse => hfalse.elim
    rcases earlier with _ | ⟨_, _ | ⟨_, earlier⟩⟩
    · cases hsplit
      exact hlibrary q hq
    · cases hsplit
      exact happlication q hq
    · simp at hsplit
  postBuild p hp line hline := by
    have hnone : ∀ p ∈ [versionedLibrary, linkedApplication], p.postBuildCommands = [] := by
      decide +kernel
    rw [hnone p hp] at hline
    cases hline
  toolchain p hp libraries makeReady _ hchoose := by
    have happart : ∀ p ∈ [versionedLibrary, linkedApplication], ∀ s ∈ p.sourceFiles,
        (linked.object p s).Apart (linked.dependencyFile p s) := by
      decide +kernel
    cases hchoose
    exact prepares_copier (happart p hp)

theorem start_rootWorld {files : List (String × String)} {plant : Plant Unit}
    (hworkspace : (rootWorld files).disk.present plant.builder.workspace.path = true)
    (hps : ∀ p ∈ ps, (rootWorld files).disk.present p.path = true ∧
      (rootWorld files).disk.standing p.manifestFile = none) :
    ∀ p ∈ ps, plant.Start p (rootWorld files) := by
  intro p hp
  obtain ⟨hdescription, hnone⟩ := hps p hp
  refine ⟨fun l hl => ?_, Jobs.Scheduler.settled_empty, hworkspace, hdescription, fun f m hf => ?_⟩
  · rw [List.prefix_nil.1 hl]
    rfl
  · rw [hnone] at hf
    cases hf

/-- The library is built, then the application; a second build finds both up to date. -/
theorem linked_build_of_built :
    ∃ v u, (linked.builder.build linked.choose none true).runIn linkedWorld =
        (.ok [("Lib", .built), ("App", .built), ("All", .skipped)], v) ∧
      (linked.builder.build linked.choose none true).runIn v =
        (.ok [("Lib", .upToDate), ("App", .upToDate), ("All", .skipped)], u) ∧ v.Unmoved u := by
  have hselection : linked.builder.selection none true =
      .ok [versionedLibrary, linkedApplication, groupingProject] := by
    cbv
  have hstart : ∀ p ∈ [versionedLibrary, linkedApplication], linked.Start p linkedWorld :=
    start_rootWorld (by decide +kernel) (by decide +kernel)
  have hproductive : productive [versionedLibrary, linkedApplication, groupingProject] =
      [versionedLibrary, linkedApplication] := rfl
  have hbuilt : ((linked.builder.build linked.choose none true).runIn linkedWorld).1.toOption =
      some [("Lib", .built), ("App", .built), ("All", .skipped)] := by
    decide +kernel
  obtain ⟨u, hagain, hunmoved⟩ := build_of_built (by decide) hselection (by decide)
    (hproductive ▸ lawful_linked) (hproductive ▸ hstart) (Action.runIn_eq_ok hbuilt)
  exact ⟨_, u, Action.runIn_eq_ok hbuilt, hagain, hunmoved⟩

/-- Less than what is relied on: a place of its own is not asked for the temporary file of a
manifest, and the sources of a project may be version files of any other. -/
structure Loose (plant : Plant ν) (ps : List Project) (l : Location) : Prop
    extends plant.Orderly ps where
  distinct : (ps.flatMap fun p => p.versionFiles ++ plant.taskFiles p ++ [p.manifestFile]).Pairwise
    fun q q' => q.location l ≠ q'.location l
  given : ∀ p ∈ ps, ∀ q, q = plant.builder.workspace.path ∨ q = p.path ∨ plant.Tool q →
    q.ApartFrom (ps.flatMap fun p => p.versionFiles ++ plant.taskFiles p ++ [p.manifestFile]) l
  input : ∀ p ∈ ps, ∀ q, q ∈ p.sourceFiles ∨ plant.Header p q →
    q.ApartFrom (ps.flatMap fun p => plant.taskFiles p ++ [p.manifestFile]) l

/-- A project the artifact of which is named as the temporary file of its manifest is. -/
def overlappingProject : Project :=
  { (default : Project) with
    path := ⟨"/a.kiln"⟩
    name := "App"
    language := .c
    outputName := "App.manifest"
    outputExtension := "tmp"
    outputDirectory := ⟨"/"⟩
    intermediateDirectory := ⟨"/"⟩
    files := [⟨"/a.c"⟩] }

def overlapping : Plant Unit :=
  copying {
    workspace := { (default : Workspace) with path := ⟨"/w.kiln"⟩ }
    target := default
    projects := [overlappingProject] }

def overlappingWorld : World Unit :=
  rootWorld [("a.c", "one"), ("a.kiln", ""), ("w.kiln", "")]

theorem loose_overlapping : overlapping.Loose [overlappingProject] [] where
  distinct := by decide +kernel
  given p hp q hq := by
    obtain rfl := List.mem_singleton.1 hp
    have hall : ∀ q ∈ [overlapping.builder.workspace.path, overlappingProject.path],
        q.ApartFrom ([overlappingProject].flatMap fun p =>
          p.versionFiles ++ overlapping.taskFiles p ++ [p.manifestFile]) [] := by
      decide +kernel
    rcases hq with rfl | rfl | hfalse
    · exact hall _ List.mem_cons_self
    · exact hall _ (List.mem_cons_of_mem _ List.mem_cons_self)
    · exact hfalse.elim
  input p hp q hq := by
    obtain rfl := List.mem_singleton.1 hp
    have hall : ∀ q ∈ overlappingProject.sourceFiles, q.ApartFrom
        ([overlappingProject].flatMap fun p => overlapping.taskFiles p ++ [p.manifestFile]) [] := by
      decide +kernel
    exact hq.elim (hall q) fun hfalse => hfalse.elim
  postBuild p hp line hline := by
    obtain rfl := List.mem_singleton.1 hp
    cases hline
  toolchain p hp libraries makeReady _ hchoose := by
    obtain rfl := List.mem_singleton.1 hp
    cases hchoose
    exact prepares_copier (by decide +kernel)

/-- The manifest takes the artifact with it when its temporary file is renamed, so a second build
does not find the project up to date. -/
theorem overlapping_rebuilt : overlapping.Loose [overlappingProject] [] ∧
    overlappingProject.preBuildCommands = [] ∧
    (∀ p ∈ [overlappingProject], overlapping.Start p overlappingWorld) ∧
    ∃ v, (overlapping.builder.build overlapping.choose none true).runIn overlappingWorld =
        (.ok [("App", .built)], v) ∧
      ∀ u, (overlapping.builder.build overlapping.choose none true).runIn v ≠
        (.ok [("App", .upToDate)], u) := by
  have hselection : overlapping.builder.selection none true = .ok [overlappingProject] := by cbv
  have hbuilt : ((overlapping.builder.build overlapping.choose none true).runIn
      overlappingWorld).1.toOption = some [("App", .built)] ∧
      ((overlapping.builder.build overlapping.choose none true).runIn
        overlappingWorld).2.disk.present overlappingProject.outputFile = false := by
    decide +kernel
  obtain ⟨v, hrun, hmissing⟩ : ∃ v, (overlapping.builder.build overlapping.choose none true).runIn
      overlappingWorld = (.ok [("App", .built)], v) ∧
        v.disk.present overlappingProject.outputFile = false :=
    ⟨_, Action.runIn_eq_ok hbuilt.1, hbuilt.2⟩
  refine ⟨loose_overlapping, rfl, start_rootWorld (by decide +kernel) (by decide +kernel), v, hrun,
    fun u hagain => ?_⟩
  rw [Builder.runIn_build hselection] at hagain
  obtain ⟨outcome, x, hproject, hagain⟩ := Action.runIn_bind_eq_ok.1 hagain
  cases hagain
  have hroot : ∀ q ∈ [overlappingProject.outputDirectory, overlappingProject.intermediateDirectory],
      q.ancestors = [] := by
    decide +kernel
  have hpresent := present_of_upToDate loose_overlapping.toOrderly List.mem_cons_self rfl
    (fun q hq => .inl (hroot q hq)) (.none rfl rfl) (Action.runIn_within_eq_ok.1 hproject)
  rw [hmissing] at hpresent
  cases hpresent

end Build.Plant

end IncrementalBuild
