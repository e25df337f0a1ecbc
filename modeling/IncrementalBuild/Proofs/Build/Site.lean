import IncrementalBuild.Proofs.Build.Tasks
import IncrementalBuild.Proofs.State.Recording
import IncrementalBuild.Proofs.State.Store

/-!
A project with a toolchain that compiles each source and links the objects, and what such a
toolchain is relied on for. If all its tasks succeed, the objects of the units that were compiled
are what the compiler makes of their sources, and the artifact is linked from the objects.
-/

namespace IncrementalBuild.Build

open State

/-- What compilers and linkers make: which headers a source needs, and its object, is determined by
the contents of the source and of those headers, and an artifact by the contents of the objects. -/
structure Compiler where
  headers : Disk → Path → List Path
  object : Disk → Path → ByteArray
  link : List (Option ByteArray) → ByteArray
  determined : ∀ d e source, e.contents? source = d.contents? source →
    (∀ h ∈ headers d source, (h == source) = false → e.contents? h = d.contents? h) →
    headers e source = headers d source ∧ object e source = object d source

/-- A project, and what builds it. -/
structure Site (ν : Type) where
  builder : Builder
  project : Project
  choose : ToolchainChoice ν
  compiler : Compiler
  objectExtension : String
  /-- Whether a file is a source, or may be a header. -/
  Input : Path → Prop

namespace Site

variable {ν : Type}

/-- What is compiled. -/
def sources (site : Site ν) : List Path :=
  site.project.sourceFiles

/-- What a source is compiled into. -/
def object (site : Site ν) (source : Path) : Path :=
  objectPath (Path.commonRoot site.sources) site.project.intermediateDirectory site.objectExtension
    source

/-- Where the compiler lists the headers of a source. -/
def dependencyFile (site : Site ν) (source : Path) : Path :=
  (site.object source).withExtension "d"

/-- What is linked. -/
def artifact (site : Site ν) : Path :=
  site.project.outputFile

/-- The objects and the artifact. -/
def outputs (site : Site ν) : List Path :=
  site.sources.map site.object ++ [site.artifact]

/-- Where the records of the project are kept. -/
def manifest (site : Site ν) : Path :=
  site.project.manifestFile

/-- The contents of the objects. -/
def objects (site : Site ν) (d : Disk) : List (Option ByteArray) :=
  site.sources.map fun s => d.contents? (site.object s)

/-- The object of a source is what the compiler makes of the source as it is. -/
def ObjectRight (site : Site ν) (d : Disk) (source : Path) : Prop :=
  d.contents? (site.object source) = some (site.compiler.object d source)

/-- The artifact is linked from the objects as they are. -/
def ArtifactRight (site : Site ν) (d : Disk) : Prop :=
  d.contents? site.artifact = some (site.compiler.link (site.objects d))

/-- What tasks leave as it is: sources and headers, the manifest, and what was compiled of the
sources that are spared. -/
structure Leaves (site : Site ν) (Spared : Path → Prop) (d e : Disk) : Prop where
  input_eq : ∀ q, site.Input q → e.contents? q = d.contents? q
  object_eq : ∀ s ∈ site.sources, Spared s →
    e.contents? (site.object s) = d.contents? (site.object s)
  dependencyFile_eq : ∀ s ∈ site.sources, Spared s →
    e.contents? (site.dependencyFile s) = d.contents? (site.dependencyFile s)
  inherits : d.Inherits e site.manifest

/-- A task that compiles a source: whether or not it succeeds, it changes no input and nothing that
is made of another source, and if it succeeds, the object and the dependency file are those of the
source. -/
structure Compiles (site : Site ν) (t : Build.Task ν) (source : Path) : Prop where
  stage_eq : t.stage = .compile
  leaves : ∀ position w, site.Leaves (· ≠ source) w.disk (t.execute position w).2.disk
  made : ∀ position w v, t.execute position w = (.done, v) →
    v.disk.contents? (site.object source) = some (site.compiler.object w.disk source) ∧
      readDependencies v.disk (site.dependencyFile source) =
        .ok (site.compiler.headers w.disk source)

/-- A task that links the objects. -/
structure Links (site : Site ν) (t : Build.Task ν) : Prop where
  stage_eq : t.stage = .link
  leaves : ∀ position w, site.Leaves (fun _ => True) w.disk (t.execute position w).2.disk
  made : ∀ position w v, t.execute position w = (.done, v) →
    v.disk.contents? site.artifact = some (site.compiler.link (site.objects w.disk))

/-- A task that comes after the link, and changes nothing that was made. -/
structure Follows (site : Site ν) (t : Build.Task ν) : Prop where
  leaves : ∀ position w, site.Leaves (fun _ => True) w.disk (t.execute position w).2.disk
  artifact_eq : ∀ position w, (t.execute position w).2.disk.contents? site.artifact =
    w.disk.contents? site.artifact

/-- A unit of the project. -/
def IsUnit (site : Site ν) (u : CompileUnit) : Prop :=
  u.source ∈ site.sources ∧ u.output = site.object u.source

/-- A toolchain with a compile step, each of whose tasks compiles a stale unit or links. -/
structure Serves (site : Site ν) (t : Toolchain ν) : Prop where
  compileStep_eq : t.compileStep = true
  objectExtension_eq : t.objectExtension = site.objectExtension
  compiles_or_links : ∀ units fingerprint version, (∀ u ∈ units, site.IsUnit u) →
    ∀ task ∈ t.tasks units fingerprint site.artifact version,
      (∃ u ∈ units, u.isStale = true ∧ site.Compiles task u.source) ∨ site.Links task
  exists_compiles : ∀ units fingerprint version, (∀ u ∈ units, site.IsUnit u) →
    ∀ u ∈ units, u.isStale = true →
      ∃ task ∈ t.tasks units fingerprint site.artifact version, site.Compiles task u.source
  exists_links : ∀ units fingerprint version, (∀ u ∈ units, site.IsUnit u) →
    ∃ task ∈ t.tasks units fingerprint site.artifact version, site.Links task

/-- What is relied on. No two outputs are one file, no file that is looked at or made lies where the
manifest is kept, and the commands of the project leave what is not theirs. -/
structure Lawful (site : Site ν) : Prop where
  distinct : site.outputs.Pairwise fun o o' => (o == o') = false
  description_ne : ∀ s ∈ site.sources, (site.object s == site.project.path) = false
  input_source : ∀ s ∈ site.sources, site.Input s
  input_header : ∀ d, ∀ s ∈ site.sources, ∀ h ∈ site.compiler.headers d s, site.Input h
  avoids : ∀ q, site.Input q ∨ q ∈ site.outputs →
    q.Avoids (Manifest.temporary site.manifest) ∧ q.Avoids site.manifest
  versionFile_ne : ∀ q, q ∈ site.project.versionHeader ∨ q ∈ site.project.versionSourceFile →
    ∀ workingDirectory, site.manifest.location workingDirectory ≠ q.location workingDirectory
  preBuild : ∀ line ∈ site.project.preBuildCommands, ∀ w : World ν,
    w.disk.Inherits ((runLine line site.project.directory).runIn w).2.disk site.manifest
  postBuild : ∀ line ∈ site.project.postBuildCommands,
    site.Follows (.ofLine .postBuild line site.project.directory)
  toolchain : ∀ request makeReady, site.choose request = .ok makeReady →
    makeReady.Spares site.manifest ∧ ∀ w t, (makeReady.runIn w).1 = .ok t → site.Serves t

namespace Leaves

variable {site : Site ν} {Spared Spared' : Path → Prop} {d e f : Disk}

theorem refl (site : Site ν) (Spared : Path → Prop) (d : Disk) : site.Leaves Spared d d :=
  ⟨fun _ _ => rfl, fun _ _ _ => rfl, fun _ _ _ => rfl, .refl d _⟩

theorem trans (h₁ : site.Leaves Spared d e) (h₂ : site.Leaves Spared e f) :
    site.Leaves Spared d f where
  input_eq q hq := (h₂.input_eq q hq).trans (h₁.input_eq q hq)
  object_eq s hs hspared := (h₂.object_eq s hs hspared).trans (h₁.object_eq s hs hspared)
  dependencyFile_eq s hs hspared :=
    (h₂.dependencyFile_eq s hs hspared).trans (h₁.dependencyFile_eq s hs hspared)
  inherits := h₁.inherits.trans h₂.inherits

theorem mono (h : site.Leaves Spared d e) (hspared : ∀ s, Spared' s → Spared s) :
    site.Leaves Spared' d e where
  input_eq := h.input_eq
  object_eq s hs hs' := h.object_eq s hs (hspared s hs')
  dependencyFile_eq s hs hs' := h.dependencyFile_eq s hs (hspared s hs')
  inherits := h.inherits

/-- A write leaves what stands at other places. -/
theorem of_placed {l : Location} {bytes : ByteArray} (h : d.Placed e l bytes)
    (hinput : ∀ q, site.Input q → q.location d.workingDirectory ≠ l)
    (hobject : ∀ s ∈ site.sources, Spared s →
      (site.object s).location d.workingDirectory ≠ l ∧
        (site.dependencyFile s).location d.workingDirectory ≠ l)
    (hmanifest : site.manifest.location d.workingDirectory ≠ l) : site.Leaves Spared d e where
  input_eq q hq := h.contents?_eq (hinput q hq)
  object_eq s hs hspared := h.contents?_eq (hobject s hs hspared).1
  dependencyFile_eq s hs hspared := h.contents?_eq (hobject s hs hspared).2
  inherits := h.inherits hmanifest

theorem objects_eq (h : site.Leaves (fun _ => True) d e) : site.objects e = site.objects d :=
  List.map_congr_left fun s hs => h.object_eq s hs trivial

end Leaves

variable {site : Site ν}

/-- What is compiled of a source is the same where its inputs are. -/
theorem Lawful.compiler_eq (hlawful : site.Lawful) {d e : Disk}
    (hinput : ∀ q, site.Input q → e.contents? q = d.contents? q) {s : Path}
    (hs : s ∈ site.sources) : site.compiler.headers e s = site.compiler.headers d s ∧
      site.compiler.object e s = site.compiler.object d s :=
  site.compiler.determined d e s (hinput s (hlawful.input_source s hs))
    fun h hh _ => hinput h (hlawful.input_header d s hs h hh)

/-- What tasks of a build do. -/
inductive Role (site : Site ν) (Stale : Path → Prop) (t : Build.Task ν) : Prop where
  | compiles (s : Path) : Stale s → site.Compiles t s → Role site Stale t
  | links : site.Links t → Role site Stale t
  | follows : site.Follows t → Role site Stale t

theorem Role.leaves {Stale Spared : Path → Prop} {t : Build.Task ν} (h : site.Role Stale t)
    (hspared : ∀ s, Spared s → ¬ site.Compiles t s) (position : Option Position) (w : World ν) :
    site.Leaves Spared w.disk (t.execute position w).2.disk := by
  cases h with
  | compiles s _ hcompiles =>
    refine (hcompiles.leaves position w).mono fun s' hs' heq => hspared s' hs' ?_
    rwa [heq]
  | links hlinks => exact (hlinks.leaves position w).mono fun _ _ => trivial
  | follows hfollows => exact (hfollows.leaves position w).mono fun _ _ => trivial

theorem keptBy_leaves {Stale Spared : Path → Prop} {tasks : List (Build.Task ν)}
    (hroles : ∀ t ∈ tasks, site.Role Stale t)
    (hspared : ∀ t ∈ tasks, ∀ s, Spared s → ¬ site.Compiles t s) :
    KeptBy (site.Leaves Spared) tasks where
  refl := .refl site Spared
  trans := .trans
  execute t ht := (hroles t ht).leaves (hspared t ht)

theorem readDependencies_congr {d e : Disk} {p : Path} {found : List Path}
    (heq : e.contents? p = d.contents? p) (h : readDependencies d p = .ok found) :
    readDependencies e p = .ok found := by
  have hread (bytes : ByteArray) (hbytes : d.read p = .ok bytes) : e.read p = .ok bytes := by
    rw [Disk.contents?, Disk.contents?, hbytes] at heq
    cases he : e.read p with
    | error fault => simp [he, Except.toOption] at heq
    | ok bytes' =>
      simp only [he, Except.toOption, Option.some.injEq] at heq
      rw [heq]
  unfold readDependencies at h ⊢
  split at h
  next text htext =>
    cases h
    obtain ⟨bytes, hbytes, htext⟩ := bind_eq_ok_iff.1 htext
    rw [Disk.readText, hread bytes hbytes, bind_eq_ok_iff.2 ⟨bytes, rfl, htext⟩]
  · cases h

/-- After the tasks of a build, a source that one of them compiled has the right object and the
right dependency file: whatever comes after its last compilation leaves them. -/
theorem compiled_of_executed (hlawful : site.Lawful) {Stale : Path → Prop}
    {tasks : List (Build.Task ν)} {w v : World ν} (h : Executed tasks w v)
    (hroles : ∀ t ∈ tasks, site.Role Stale t) {s : Path} (hs : s ∈ site.sources)
    (hcompiles : ∃ t ∈ tasks, site.Compiles t s) :
    site.ObjectRight v.disk s ∧
      readDependencies v.disk (site.dependencyFile s) = .ok (site.compiler.headers v.disk s) := by
  induction h with
  | nil => simp at hcompiles
  | @cons t ts position w v u hexecute hrest ih =>
    have hroles' : ∀ t ∈ ts, site.Role Stale t := fun t ht => hroles t (List.mem_cons_of_mem _ ht)
    by_cases hlater : ∃ t ∈ ts, site.Compiles t s
    · exact ih hroles' hlater
    obtain ⟨t', ht', hcompiles⟩ := hcompiles
    have hcompiles : site.Compiles t s := by
      rcases List.mem_cons.1 ht' with rfl | ht'
      · exact hcompiles
      · exact absurd ⟨t', ht', hcompiles⟩ hlater
    have hnone : ∀ t ∈ ts, ∀ s', s' = s → ¬ site.Compiles t s' := by
      rintro t ht _ rfl hnot
      exact hlater ⟨t, ht, hnot⟩
    have hleaves := hrest.kept (keptBy_leaves hroles' hnone)
    have hfirst := hcompiles.leaves position w
    rw [hexecute] at hfirst
    obtain ⟨hobject, hdependencies⟩ := hcompiles.made position w v hexecute
    have hinput (q : Path) (hq : site.Input q) : u.disk.contents? q = w.disk.contents? q :=
      (hleaves.input_eq q hq).trans (hfirst.input_eq q hq)
    obtain ⟨hheaders, hsame⟩ := hlawful.compiler_eq hinput hs
    refine ⟨?_, ?_⟩
    · rw [ObjectRight, hleaves.object_eq s hs rfl, hobject, hsame]
    · rw [hheaders]
      exact readDependencies_congr (hleaves.dependencyFile_eq s hs rfl) hdependencies

/-- After the tasks of a build, in the order of their stages, the artifact is right: after the last
link nothing is compiled any more. -/
theorem linked_of_executed {Stale : Path → Prop} {tasks : List (Build.Task ν)} {w v : World ν}
    (h : Executed tasks w v) (hroles : ∀ t ∈ tasks, site.Role Stale t)
    (hsorted : tasks.Pairwise fun a b => a.stage.rank ≤ b.stage.rank)
    (hlinks : ∃ t ∈ tasks, site.Links t) : site.ArtifactRight v.disk := by
  induction h with
  | nil => simp at hlinks
  | @cons t ts position w v u hexecute hrest ih =>
    have hroles' : ∀ t ∈ ts, site.Role Stale t := fun t ht => hroles t (List.mem_cons_of_mem _ ht)
    obtain ⟨hrank, hsorted⟩ := List.pairwise_cons.1 hsorted
    by_cases hlater : ∃ t ∈ ts, site.Links t
    · exact ih hroles' hsorted hlater
    obtain ⟨t', ht', hlinks⟩ := hlinks
    have hlinks : site.Links t := by
      rcases List.mem_cons.1 ht' with rfl | ht'
      · exact hlinks
      · exact absurd ⟨t', ht', hlinks⟩ hlater
    have hfollows (t' : Build.Task ν) (ht' : t' ∈ ts) : site.Follows t' := by
      cases hroles' t' ht' with
      | compiles s _ hcompiles =>
        have hlt := hrank t' ht'
        rw [hlinks.stage_eq, hcompiles.stage_eq] at hlt
        exact absurd hlt (by decide)
      | links hnot => exact absurd ⟨t', ht', hnot⟩ hlater
      | follows hfollows => exact hfollows
    have hkept : KeptBy (fun d e => site.objects e = site.objects d ∧
        e.contents? site.artifact = d.contents? site.artifact) ts := by
      refine ⟨fun _ => ⟨rfl, rfl⟩, fun h₁ h₂ => ⟨h₂.1.trans h₁.1, h₂.2.trans h₁.2⟩, ?_⟩
      intro t ht position w
      exact ⟨((hfollows t ht).leaves position w).objects_eq, (hfollows t ht).artifact_eq position w⟩
    obtain ⟨hobjects, hartifact⟩ := hrest.kept hkept
    have hfirst := (hlinks.leaves position w).objects_eq
    rw [hexecute] at hfirst
    rw [ArtifactRight, hartifact, hlinks.made position w v hexecute, hobjects, hfirst]

end Site

end IncrementalBuild.Build
