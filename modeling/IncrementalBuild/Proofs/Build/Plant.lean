import IncrementalBuild.Proofs.Build.Tasks
import IncrementalBuild.Proofs.Version.Files

/-!
The projects of a workspace with the toolchains they are built with. What the build of a project
writes lies at places of its own, and no file that a project was built from is written once the
project has been checked.
-/

namespace IncrementalBuild.Build

open State

/-- A workspace with the toolchains that its projects are built with. -/
structure Plant (ν : Type) where
  builder : Builder
  choose : ToolchainChoice ν
  /-- Whether the toolchain of a project compiles each source on its own. -/
  compileStep : Project → Bool
  objectExtension : Project → String
  /-- Whether a file may be a header of a project. -/
  Header : Project → Path → Prop
  /-- Whether toolchains look at a file when they are made ready. -/
  Tool : Path → Prop

namespace Plant

variable {ν : Type}

/-- What a source is compiled into. -/
def object (plant : Plant ν) (p : Project) (source : Path) : Path :=
  objectPath (Path.commonRoot p.sourceFiles) p.intermediateDirectory (plant.objectExtension p)
    source

/-- Where the compiler lists the headers of a source. -/
def dependencyFile (plant : Plant ν) (p : Project) (source : Path) : Path :=
  (plant.object p source).withExtension "d"

/-- The objects of a project and its artifact. -/
def outputs (plant : Plant ν) (p : Project) : List Path :=
  p.sourceFiles.map (plant.object p) ++ [p.outputFile]

/-- What the tasks of a project write. -/
def taskFiles (plant : Plant ν) (p : Project) : List Path :=
  plant.outputs p ++ p.sourceFiles.map (plant.dependencyFile p)

/-- What a build of a project writes once the project has been checked. -/
def made (plant : Plant ν) (p : Project) : List Path :=
  plant.taskFiles p ++ [Manifest.temporary p.manifestFile, p.manifestFile]

/-- All that a build of a project writes. -/
def products (plant : Plant ν) (p : Project) : List Path :=
  p.versionFiles ++ plant.made p

/-- What a build of a project looks at that it does not write itself. -/
inductive Reads (plant : Plant ν) (p : Project) : Path → Prop where
  | workspace : Reads plant p plant.builder.workspace.path
  | description : Reads plant p p.path
  | tool {q : Path} : plant.Tool q → Reads plant p q
  | source {q : Path} : q ∈ p.sourceFiles → Reads plant p q
  | header {q : Path} : plant.Header p q → Reads plant p q
  | library {libraries : List Path} {q : Path} :
      plant.builder.dependencyOutputs p = .ok libraries → q ∈ libraries → Reads plant p q

/-- What the builds of some projects are about: what they read and write, in any spelling, and the
directories they write to. -/
def Watched (plant : Plant ν) (ps : List Project) (q : Path) : Prop :=
  ∃ p ∈ ps, ∃ q', (q == q') = true ∧
    (plant.Reads p q' ∨ q' ∈ plant.products p ∨ q' = p.outputDirectory ∨
      q' = p.intermediateDirectory)

/-- The dependency file of a source, if there is one, lists beside the source only headers. -/
def Lists (plant : Plant ν) (p : Project) (source : Path) (d : Disk) : Prop :=
  ∀ f text, d.standing (plant.dependencyFile p source) = some (.file f) →
    String.fromUTF8? f.bytes = some text →
    ∀ q ∈ dependenciesOf text, (q == source) = false → plant.Header p q

/-- A task that compiles a source: it writes nothing but the object and the dependency file, and if
it succeeds the object is there. -/
structure Compiles (plant : Plant ν) (ps : List Project) (p : Project) (t : Build.Task ν)
    (source : Path) : Prop where
  leaves : ∀ position (w : World ν), w.disk.Grounded → w.Leaves (plant.Watched ps)
    [plant.object p source, plant.dependencyFile p source] (t.execute position w).2
  made : ∀ position (w v : World ν), w.disk.Grounded → t.execute position w = (.done, v) →
    v.disk.present (plant.object p source) = true ∧ plant.Lists p source v.disk

/-- A task that makes the artifact, and writes nothing else. -/
structure Links (plant : Plant ν) (ps : List Project) (p : Project) (t : Build.Task ν) : Prop where
  leaves : ∀ position (w : World ν), w.disk.Grounded →
    w.Leaves (plant.Watched ps) [p.outputFile] (t.execute position w).2
  made : ∀ position (w v : World ν), w.disk.Grounded → t.execute position w = (.done, v) →
    v.disk.present p.outputFile = true

/-- A task that writes nothing the builds of the projects are about. -/
def Follows (plant : Plant ν) (ps : List Project) (t : Build.Task ν) : Prop :=
  ∀ position (w : World ν), w.disk.Grounded →
    w.Leaves (plant.Watched ps) [] (t.execute position w).2

/-- A unit of a project. -/
def IsUnit (plant : Plant ν) (p : Project) (u : CompileUnit) : Prop :=
  u.source ∈ p.sourceFiles ∧ u.output = plant.object p u.source

theorem isUnit_check {plant : Plant ν} {p : Project} {s : Path} (hs : s ∈ p.sourceFiles) {d : Disk}
    {fingerprint : UInt64} {compileStep : Bool} {m : Manifest} :
    plant.IsUnit p
      ((CompileUnit.make s (plant.object p s)).check d fingerprint compileStep m) := by
  obtain ⟨hsource, houtput, -⟩ :=
    CompileUnit.check_make s (plant.object p s) d fingerprint compileStep m
  rw [IsUnit, houtput, hsource]
  exact ⟨hs, rfl⟩

/-- A toolchain each of whose tasks compiles a unit or links. All that is stale is compiled, and the
artifact is linked. -/
structure Serves (plant : Plant ν) (ps : List Project) (p : Project) (t : Toolchain ν) : Prop where
  compileStep_eq : t.compileStep = plant.compileStep p
  objectExtension_eq : t.objectExtension = plant.objectExtension p
  compiles_or_links : ∀ units fingerprint, (∀ u ∈ units, plant.IsUnit p u) →
    ∀ task ∈ t.tasks units fingerprint p.outputFile p.version,
      (∃ u ∈ units, plant.Compiles ps p task u.source) ∨ plant.Links ps p task
  exists_compiles : ∀ units fingerprint, (∀ u ∈ units, plant.IsUnit p u) →
    ∀ u ∈ units, u.isStale = true →
      ∃ task ∈ t.tasks units fingerprint p.outputFile p.version, plant.Compiles ps p task u.source
  exists_links : ∀ units fingerprint, (∀ u ∈ units, plant.IsUnit p u) →
    ∃ task ∈ t.tasks units fingerprint p.outputFile p.version, plant.Links ps p task

/-- How the toolchain of a project is made ready: nothing is written by it, and what was made ready
once can be made ready again as long as the files that are looked at are left alone. -/
structure Prepares (plant : Plant ν) (ps : List Project) (p : Project)
    (makeReady : Action ν (Toolchain ν)) : Prop where
  unmoved : ∀ w : World ν, w.Unmoved (makeReady.runIn w).2
  serves : ∀ w t, (makeReady.runIn w).1 = .ok t → plant.Serves ps p t
  again : ∀ w v t, (makeReady.runIn w).1 = .ok t → v.searchPath = w.searchPath →
    (∀ q, plant.Tool q → w.disk.KeepsNode v.disk q) → ∃ t', (makeReady.runIn v).1 = .ok t'

/-- Commands that come last write nothing that the builds of the projects are about, and toolchains
are made ready as is relied on. -/
structure Orderly (plant : Plant ν) (ps : List Project) : Prop where
  postBuild : ∀ p ∈ ps, ∀ line ∈ p.postBuildCommands,
    plant.Follows ps (.ofLine .postBuild line p.directory)
  toolchain : ∀ p ∈ ps, ∀ libraries makeReady,
    plant.builder.dependencyOutputs p = .ok libraries →
      plant.choose ⟨p, libraries⟩ = .ok makeReady → plant.Prepares ps p makeReady

/-- What is relied on, seen from a working directory, of projects that are built in this order. All
that their builds write lies at different places, where no description lies and no file that
toolchains look at. Sources and headers of a project are not written after it has been checked, by
its own build or by later ones. -/
structure Lawful (plant : Plant ν) (ps : List Project) (l : Location) : Prop
    extends plant.Orderly ps where
  distinct : (ps.flatMap plant.products).Pairwise fun q q' => q.location l ≠ q'.location l
  given : ∀ p ∈ ps, ∀ q, q = plant.builder.workspace.path ∨ q = p.path ∨ plant.Tool q →
    q.ApartFrom (ps.flatMap plant.products) l
  input : ∀ earlier p later, ps = earlier ++ p :: later →
    ∀ q, q ∈ p.sourceFiles ∨ plant.Header p q →
      q.ApartFrom (plant.made p ++ later.flatMap plant.products) l

/-- What the build of one project makes lies at different places. -/
structure Separate (plant : Plant ν) (p : Project) (l : Location) : Prop where
  object_ne : ∀ s ∈ p.sourceFiles, ∀ s' ∈ p.sourceFiles, s ≠ s' →
    (plant.object p s).location l ≠ (plant.object p s').location l
  dependencyFile_ne : ∀ s ∈ p.sourceFiles, ∀ s' ∈ p.sourceFiles, s ≠ s' →
    (plant.dependencyFile p s).location l ≠ (plant.dependencyFile p s').location l
  object_dependencyFile_ne : ∀ s ∈ p.sourceFiles, ∀ s' ∈ p.sourceFiles,
    (plant.object p s).location l ≠ (plant.dependencyFile p s').location l
  object_artifact_ne : ∀ s ∈ p.sourceFiles,
    (plant.object p s).location l ≠ p.outputFile.location l
  artifact_dependencyFile_ne : ∀ s ∈ p.sourceFiles,
    p.outputFile.location l ≠ (plant.dependencyFile p s).location l
  taskFile_apart : ∀ q ∈ plant.taskFiles p,
    q.ApartFrom [Manifest.temporary p.manifestFile, p.manifestFile] l

variable {plant : Plant ν} {ps : List Project} {p : Project} {l : Location} {s : Path}

theorem location_ne_of_pairwise {f : Path → Path} {ss : List Path}
    (h : (ss.map f).Pairwise fun q q' => q.location l ≠ q'.location l) {s s' : Path} (hs : s ∈ ss)
    (hs' : s' ∈ ss) (hne : s ≠ s') : (f s).location l ≠ (f s').location l := by
  have hsymm : Std.Symm fun s s' : Path => (f s).location l ≠ (f s').location l :=
    ⟨fun _ _ => Ne.symm⟩
  exact (List.pairwise_map.1 h).forall hs hs' hne

theorem separate_of_pairwise
    (h : (plant.made p).Pairwise fun q q' => q.location l ≠ q'.location l) :
    plant.Separate p l := by
  obtain ⟨htaskFiles, -, hkept⟩ := List.pairwise_append.1 h
  obtain ⟨houtputs, hdependencyFiles, hbetween⟩ := List.pairwise_append.1 htaskFiles
  obtain ⟨hobjects, -, hartifact⟩ := List.pairwise_append.1 houtputs
  have hobject (s : Path) (hs : s ∈ p.sourceFiles) : plant.object p s ∈ plant.outputs p :=
    List.mem_append_left _ (List.mem_map_of_mem hs)
  have hself : p.outputFile ∈ plant.outputs p := List.mem_append_right _ List.mem_cons_self
  exact {
    object_ne := fun s hs s' hs' => location_ne_of_pairwise hobjects hs hs'
    dependencyFile_ne := fun s hs s' hs' => location_ne_of_pairwise hdependencyFiles hs hs'
    object_dependencyFile_ne := fun s hs s' hs' =>
      hbetween _ (hobject s hs) _ (List.mem_map_of_mem hs')
    object_artifact_ne := fun s hs => hartifact _ (List.mem_map_of_mem hs) _ List.mem_cons_self
    artifact_dependencyFile_ne := fun s hs => hbetween _ hself _ (List.mem_map_of_mem hs)
    taskFile_apart := fun q hq => hkept q hq }

/-- What tasks of a build do. -/
inductive Role (plant : Plant ν) (ps : List Project) (p : Project) (t : Build.Task ν) : Prop where
  | compiles {s : Path} : s ∈ p.sourceFiles → plant.Compiles ps p t s → Role plant ps p t
  | links : plant.Links ps p t → Role plant ps p t
  | follows : plant.Follows ps t → Role plant ps p t

theorem object_mem (hs : s ∈ p.sourceFiles) : plant.object p s ∈ plant.taskFiles p :=
  List.mem_append_left _ (List.mem_append_left _ (List.mem_map_of_mem hs))

theorem dependencyFile_mem (hs : s ∈ p.sourceFiles) :
    plant.dependencyFile p s ∈ plant.taskFiles p :=
  List.mem_append_right _ (List.mem_map_of_mem hs)

theorem artifact_mem (plant : Plant ν) (p : Project) : p.outputFile ∈ plant.taskFiles p :=
  List.mem_append_left _ (List.mem_append_right _ List.mem_cons_self)

namespace Role

variable {t : Build.Task ν} {position : Option Position} {w : World ν}

theorem leaves (h : plant.Role ps p t) (hw : w.disk.Grounded) :
    w.Leaves (plant.Watched ps) (plant.taskFiles p) (t.execute position w).2 := by
  cases h with
  | compiles hs hcompiles =>
    exact (hcompiles.leaves position w hw).mono
      (List.cons_subset.2 ⟨object_mem hs,
        List.cons_subset.2 ⟨dependencyFile_mem hs, List.nil_subset _⟩⟩)
  | links hlinks =>
    exact (hlinks.leaves position w hw).mono
      (List.cons_subset.2 ⟨artifact_mem plant p, List.nil_subset _⟩)
  | follows hfollows => exact (hfollows position w hw).mono (List.nil_subset _)

/-- A task that does not compile a source leaves what was compiled of it. -/
theorem leaves_source (h : plant.Role ps p t) (hseparate : plant.Separate p l)
    (hs : s ∈ p.sourceFiles) (hnot : ¬ plant.Compiles ps p t s) (hw : w.disk.Grounded) :
    ∃ written, w.Leaves (plant.Watched ps) written (t.execute position w).2 ∧
      (plant.object p s).ApartFrom written l ∧ (plant.dependencyFile p s).ApartFrom written l := by
  cases h with
  | @compiles s' hs' hcompiles =>
    have hne : s ≠ s' := by
      rintro rfl
      exact hnot hcompiles
    exact ⟨_, hcompiles.leaves position w hw,
      Path.apartFrom_pair.2 ⟨hseparate.object_ne s hs s' hs' hne,
        hseparate.object_dependencyFile_ne s hs s' hs'⟩,
      Path.apartFrom_pair.2 ⟨(hseparate.object_dependencyFile_ne s' hs' s hs).symm,
        hseparate.dependencyFile_ne s hs s' hs' hne⟩⟩
  | links hlinks =>
    refine ⟨_, hlinks.leaves position w hw, ?_, ?_⟩
    · exact List.forall_mem_singleton.2 (hseparate.object_artifact_ne s hs)
    · exact List.forall_mem_singleton.2 (hseparate.artifact_dependencyFile_ne s hs).symm
  | follows hfollows =>
    exact ⟨_, hfollows position w hw, List.forall_mem_nil _, List.forall_mem_nil _⟩

/-- A task that does not link leaves the artifact. -/
theorem leaves_artifact (h : plant.Role ps p t) (hseparate : plant.Separate p l)
    (hnot : ¬ plant.Links ps p t) (hw : w.disk.Grounded) :
    ∃ written, w.Leaves (plant.Watched ps) written (t.execute position w).2 ∧
      p.outputFile.ApartFrom written l := by
  cases h with
  | @compiles s hs hcompiles =>
    exact ⟨_, hcompiles.leaves position w hw,
      Path.apartFrom_pair.2 ⟨(hseparate.object_artifact_ne s hs).symm,
        hseparate.artifact_dependencyFile_ne s hs⟩⟩
  | links hlinks => exact absurd hlinks hnot
  | follows hfollows => exact ⟨_, hfollows position w hw, List.forall_mem_nil _⟩

end Role

end Plant

variable {ν : Type} {tasks : List (Build.Task ν)} {w u : World ν}

/-- What every task leaves is left when all of them have been executed. -/
theorem Executed.leaves {Watched : Path → Prop} {written : List Path} (h : Executed tasks w u)
    (hw : w.disk.Grounded) (hleaves : ∀ t ∈ tasks, ∀ position (w : World ν), w.disk.Grounded →
      w.Leaves Watched written (t.execute position w).2) : w.Leaves Watched written u := by
  induction h with
  | nil => exact .refl hw
  | @cons t ts position w v u hexecute _ ih =>
    have hfirst := hleaves t List.mem_cons_self position w hw
    rw [hexecute] at hfirst
    exact hfirst.trans (ih hfirst.disk.grounded fun t ht => hleaves t (List.mem_cons_of_mem _ ht))

/-- What some tasks establish and all others preserve holds when they have been executed, if one of
them is among these. -/
theorem Executed.established {Watched : Path → Prop} {written : List Path} {l : Location}
    {P : Disk → Prop} {M : Build.Task ν → Prop} (h : Executed tasks w u) (hw : w.disk.Grounded)
    (hl : w.disk.workingDirectory = l)
    (hleaves : ∀ t ∈ tasks, ∀ position (w : World ν), w.disk.Grounded →
      w.Leaves Watched written (t.execute position w).2)
    (hstep : ∀ t ∈ tasks, ∀ position x y, x.disk.Grounded → x.disk.workingDirectory = l →
      t.execute position x = (.done, y) → M t ∨ P x.disk → P y.disk)
    (hmade : P w.disk ∨ ∃ t ∈ tasks, M t) : P u.disk := by
  induction h with
  | nil => simpa using hmade
  | @cons t ts position w v u hexecute _ ih =>
    have hfirst := hleaves t List.mem_cons_self position w hw
    have hholds := hstep t List.mem_cons_self position w v hw hl hexecute
    rw [hexecute] at hfirst
    refine ih hfirst.disk.grounded (hfirst.disk.working_eq.trans hl)
      (fun t ht => hleaves t (List.mem_cons_of_mem _ ht))
      (fun t ht => hstep t (List.mem_cons_of_mem _ ht)) ?_
    rcases hmade with hP | ⟨t', ht', hM⟩
    · exact .inl (hholds (.inr hP))
    · rcases List.mem_cons.1 ht' with rfl | ht'
      · exact .inl (hholds (.inl hM))
      · exact .inr ⟨t', ht', hM⟩

namespace Plant

variable {plant : Plant ν} {ps : List Project} {p : Project} {l : Location} {s : Path}

theorem watched_product (plant : Plant ν) (hp : p ∈ ps) {q : Path} (hq : q ∈ plant.products p) :
    plant.Watched ps q :=
  ⟨p, hp, q, Path.beq_self q, .inr (.inl hq)⟩

theorem taskFile_product {q : Path} (hq : q ∈ plant.taskFiles p) : q ∈ plant.products p :=
  List.mem_append_right _ (List.mem_append_left _ hq)

/-- What is said of one product holds after the tasks of a build, if it held before or one of them
makes it hold and the others write somewhere else. -/
theorem established_of_apart {P : Disk → Prop} {M : Build.Task ν → Prop} {q : Path}
    (h : Executed tasks w u) (hroles : ∀ t ∈ tasks, plant.Role ps p t) (hw : w.disk.Grounded)
    (hmakes : ∀ t ∈ tasks, M t → ∀ position x y, x.disk.Grounded →
      t.execute position x = (.done, y) → P y.disk)
    (hothers : ∀ t ∈ tasks, ¬ M t → ∀ position (x : World ν), x.disk.Grounded →
      ∃ written, x.Leaves (plant.Watched ps) written (t.execute position x).2 ∧
        q.ApartFrom written w.disk.workingDirectory)
    (hkeeps : ∀ written (d e : Disk), d.Leaves (plant.Watched ps) written e →
      q.ApartFrom written d.workingDirectory → P d → P e)
    (hmade : P w.disk ∨ ∃ t ∈ tasks, M t) : P u.disk := by
  refine h.established hw rfl (fun t ht position x hx => (hroles t ht).leaves hx) ?_ hmade
  intro t ht position x y hx hl hexecute hholds
  by_cases hM : M t
  · exact hmakes t ht hM position x y hx hexecute
  obtain ⟨written, hleaves, hapart⟩ := hothers t ht hM position x hx
  rw [hexecute] at hleaves
  rw [← hl] at hapart
  exact hkeeps written x.disk y.disk hleaves.disk hapart (hholds.resolve_left hM)

/-- After the tasks of a build an object is there that was there before or was compiled. -/
theorem present_object_of_executed (h : Executed tasks w u)
    (hroles : ∀ t ∈ tasks, plant.Role ps p t) (hp : p ∈ ps)
    (hseparate : plant.Separate p w.disk.workingDirectory) (hw : w.disk.Grounded)
    (hs : s ∈ p.sourceFiles) (hmade : w.disk.present (plant.object p s) = true ∨
      ∃ t ∈ tasks, plant.Compiles ps p t s) : u.disk.present (plant.object p s) = true := by
  have hwatched := watched_product plant hp (taskFile_product (object_mem hs))
  refine established_of_apart (P := fun d => d.present (plant.object p s) = true) h hroles hw
    (fun t _ hcompiles position x y hx hexecute => (hcompiles.made position x y hx hexecute).1)
    (fun t ht hnot position x hx => ?_)
    (fun written d e hleaves hapart => (hleaves.keepsNode _ hwatched hapart).present) hmade
  obtain ⟨written, hleaves, hapart, -⟩ := (hroles t ht).leaves_source hseparate hs hnot hx
  exact ⟨written, hleaves, hapart⟩

/-- What was compiled has a dependency file that lists only headers, if it has one. -/
theorem lists_of_executed (h : Executed tasks w u) (hroles : ∀ t ∈ tasks, plant.Role ps p t)
    (hp : p ∈ ps) (hseparate : plant.Separate p w.disk.workingDirectory) (hw : w.disk.Grounded)
    (hs : s ∈ p.sourceFiles) (hmade : ∃ t ∈ tasks, plant.Compiles ps p t s) :
    plant.Lists p s u.disk := by
  have hwatched := watched_product plant hp (taskFile_product (dependencyFile_mem hs))
  refine established_of_apart h hroles hw
    (fun t _ hcompiles position x y hx hexecute => (hcompiles.made position x y hx hexecute).2)
    (fun t ht hnot position x hx => ?_)
    (fun written d e hleaves hapart hlists f text hf =>
      hlists f text (hleaves.inherits _ hwatched hapart f hf)) (.inr hmade)
  obtain ⟨written, hleaves, -, hapart⟩ := (hroles t ht).leaves_source hseparate hs hnot hx
  exact ⟨written, hleaves, hapart⟩

/-- After the tasks of a build that link the artifact is there. -/
theorem present_artifact_of_executed (h : Executed tasks w u)
    (hroles : ∀ t ∈ tasks, plant.Role ps p t) (hp : p ∈ ps)
    (hseparate : plant.Separate p w.disk.workingDirectory) (hw : w.disk.Grounded)
    (hmade : ∃ t ∈ tasks, plant.Links ps p t) : u.disk.present p.outputFile = true := by
  have hwatched := watched_product plant hp (taskFile_product (artifact_mem plant p))
  exact established_of_apart (P := fun d => d.present p.outputFile = true) h hroles hw
    (fun t _ hlinks => hlinks.made)
    (fun t ht hnot position x hx => (hroles t ht).leaves_artifact hseparate hnot hx)
    (fun written d e hleaves hapart => (hleaves.keepsNode _ hwatched hapart).present) (.inr hmade)

end Plant

end IncrementalBuild.Build
