import IncrementalBuild.Build.Run
import IncrementalBuild.Proofs.Disk.Removal
import IncrementalBuild.Proofs.World

/-!
Cleaning projects. It takes away what stands at or below their intermediate directories and at their
artifacts, and nothing else, so that disks which differ only there are one disk afterwards.
-/

namespace IncrementalBuild

open Build

variable {ν : Type} {ps done rest : List Project} {p : Project} {d e : Disk} {w : World ν}
  {l : Location} {gone : Location → Bool}

/-- Whether a place is among those that cleaning a project makes bare. -/
def Project.clears (p : Project) (workingDirectory k : Location) : Bool :=
  (p.intermediateDirectory.location workingDirectory).isPrefixOf k ||
    (p.outputType ≠ .container && k == p.outputFile.location workingDirectory)

/-- Where the intermediate directories of projects lie. -/
def intermediatePlaces (ps : List Project) (l : Location) : List Location :=
  ps.map fun p => p.intermediateDirectory.location l

/-- Projects whose directories and artifacts can be taken away in any order. The paths of
intermediate directories end in names, and a path that comes to one of these directories stays
in it. -/
structure Removable (ps : List Project) (l : Location) : Prop where
  named : ∀ p ∈ ps, p.intermediateDirectory.EndsInName
  directory_stays : ∀ p ∈ ps, ∀ i ∈ intermediatePlaces ps l, p.intermediateDirectory.StaysIn i l
  artifact_stays : ∀ p ∈ ps, p.outputType ≠ .container →
    ∀ i ∈ intermediatePlaces ps l, p.outputFile.StaysIn i l

/-- A disk on which anything may be left of earlier builds of projects: an intermediate directory is
a directory or is not there, an artifact is a file or is not there. -/
structure Disk.Cleanable (d : Disk) (ps : List Project) : Prop where
  tree : d.IsTree
  directory : ∀ p ∈ ps,
    d.standing p.intermediateDirectory = none ∨ d.isDirectory p.intermediateDirectory = true
  artifact : ∀ p ∈ ps, p.outputType ≠ .container →
    d.standing p.outputFile = none ∨ d.isFile p.outputFile = true

instance (d : Disk) (ps : List Project) : Decidable (d.Cleanable ps) :=
  decidable_of_iff (d.IsTree ∧
      (∀ p ∈ ps,
        d.standing p.intermediateDirectory = none ∨
          d.isDirectory p.intermediateDirectory = true) ∧
      ∀ p ∈ ps, p.outputType ≠ .container →
        d.standing p.outputFile = none ∨ d.isFile p.outputFile = true)
    ⟨fun h => ⟨h.1, h.2.1, h.2.2⟩, fun h => ⟨h.tree, h.directory, h.artifact⟩⟩

theorem mem_intermediatePlaces (hp : p ∈ ps) :
    p.intermediateDirectory.location l ∈ intermediatePlaces ps l :=
  List.mem_map_of_mem hp

namespace Disk.Cleanable

theorem not_directory (hd : d.Cleanable ps) (hp : p ∈ ps) (hmade : p.outputType ≠ .container) :
    d.node? (p.outputFile.location d.workingDirectory) ≠ some .directory :=
  node?_ne_directory (hd.artifact p hp hmade)

/-- Cleaning takes away all but the root. -/
theorem ne_root_of_clears (hd : d.Cleanable ps) (hps : Removable ps d.workingDirectory)
    (hp : p ∈ ps) {k : Location} (h : p.clears d.workingDirectory k = true) : k ≠ [] := by
  rintro rfl
  rcases Bool.or_eq_true_iff.1 h with hdirectory | hartifact
  · have hroot := List.prefix_nil.1 (List.isPrefixOf_iff_prefix.1 hdirectory)
    exact (hps.named p hp).location_ne_root _ hroot
  · obtain ⟨hmade, hroot⟩ : p.outputType ≠ .container ∧
        [] = p.outputFile.location d.workingDirectory := by
      simpa using hartifact
    exact hd.not_directory hp hmade (hroot ▸ rfl)

theorem wentWhole (hd : d.Cleanable ps) (hp : p ∈ ps)
    (hgone : d.WentWhole (intermediatePlaces ps d.workingDirectory) gone) :
    d.WentWhole (intermediatePlaces ps d.workingDirectory)
      fun k => gone k || p.clears d.workingDirectory k := by
  have hfirst := hgone.or (.isPrefixOf d (mem_intermediatePlaces hp))
  by_cases hmade : p.outputType = .container
  · simpa [Project.clears, hmade] using hfirst
  · simpa [Project.clears, hmade, Bool.or_assoc] using hfirst.or (.beq _ (hd.not_directory hp hmade))

end Disk.Cleanable

namespace Builder

/-- Whatever was cleaned before, and the intermediate directory with it, the artifact is taken away
if it is there. -/
theorem runIn_removeArtifact (hd : d.Cleanable ps) (hps : Removable ps d.workingDirectory)
    (hp : p ∈ ps) (hgone : d.WentWhole (intermediatePlaces ps d.workingDirectory) gone)
    (hw : w.disk = d.without fun k =>
      gone k || (p.intermediateDirectory.location d.workingDirectory).isPrefixOf k) :
    (do
      if p.outputType ≠ .container && (← Action.disk).isFile p.outputFile then
        Action.onDisk (.remove p.outputFile) (·.removeFile p.outputFile)
      : Action ν Unit).runIn w =
    (.ok (), { w with disk := d.without fun k => gone k || p.clears d.workingDirectory k }) := by
  rw [Action.runIn_bind, Action.runIn_disk]
  dsimp only
  by_cases hmade : p.outputType = .container
  · simp only [hmade, Project.clears, ne_eq, not_true_eq_false, decide_false, Bool.false_and,
      Bool.or_false, Bool.false_eq_true, if_false, ← hw]
    rfl
  have hclears : (fun k => gone k || p.clears d.workingDirectory k) = fun k =>
      (gone k || (p.intermediateDirectory.location d.workingDirectory).isPrefixOf k) ||
        k == p.outputFile.location d.workingDirectory := by
    simp [Project.clears, hmade, Bool.or_assoc]
  have hartifact := Disk.removeFile_without hd.tree
    (hgone.or (.isPrefixOf d (mem_intermediatePlaces hp))) (hps.artifact_stays p hp hmade)
    (hd.artifact p hp hmade)
  rw [← hclears, ← hw] at hartifact
  simp only [hmade, ne_eq, not_false_eq_true, decide_true, Bool.true_and]
  split
  next hfile =>
    rw [if_pos hfile] at hartifact
    rw [Action.runIn_onDisk, hartifact]
  next hfile =>
    rw [if_neg hfile] at hartifact
    rw [← hartifact]
    rfl

/-- Cleaning a project succeeds, whatever was cleaned before. -/
theorem runIn_cleanProject (hd : d.Cleanable ps) (hps : Removable ps d.workingDirectory)
    (hp : p ∈ ps) (hgone : d.WentWhole (intermediatePlaces ps d.workingDirectory) gone)
    (hw : w.disk = d.without gone) : (cleanProject p).runIn w =
      (.ok (), { w with
        console := w.console.status ("Cleaning " ++ p.name)
        disk := d.without fun k => gone k || p.clears d.workingDirectory k }) := by
  have hdirectory := Disk.removeDirectory_without hd.tree hgone (hps.directory_stays p hp)
    (mem_intermediatePlaces hp) (hps.named p hp) (hd.directory p hp)
  rw [← hw] at hdirectory
  have hstatus : (Action.status ("Cleaning " ++ p.name) : Action ν Unit).runIn w =
      (.ok (), { w with console := w.console.status ("Cleaning " ++ p.name) }) := rfl
  unfold cleanProject
  rw [Action.runIn_bind, hstatus]
  dsimp only
  rw [Action.runIn_bind, Action.runIn_disk]
  dsimp only
  split
  next hpresent =>
    rw [if_pos hpresent] at hdirectory
    rw [Action.runIn_bind, Action.runIn_throughDisk]
    dsimp only
    rw [hdirectory]
    exact runIn_removeArtifact hd hps hp hgone rfl
  next hmissing =>
    rw [if_neg hmissing] at hdirectory
    exact runIn_removeArtifact hd hps hp hgone hdirectory

/-- Cleaning projects succeeds, and leaves of the disk what none of them clears. -/
theorem runIn_each_cleanProject (hd : d.Cleanable ps) (hps : Removable ps d.workingDirectory)
    (hrest : rest ⊆ ps) (hgone : d.WentWhole (intermediatePlaces ps d.workingDirectory) gone)
    (hw : w.disk = d.without gone) : (Action.each cleanProject rest).runIn w =
      (.ok (), { w with
        console := rest.foldl (fun c p => c.status ("Cleaning " ++ p.name)) w.console
        disk := d.without fun k => gone k || rest.any (·.clears d.workingDirectory k) }) := by
  induction rest generalizing w gone with
  | nil =>
    simp only [List.any_nil, Bool.or_false, List.foldl_nil, ← hw]
    rfl
  | cons p rest ih =>
    obtain ⟨hp, hrest⟩ := List.cons_subset.1 hrest
    rw [Action.each, Action.runIn_bind, runIn_cleanProject hd hps hp hgone hw]
    dsimp only
    rw [ih hrest (hd.wentWhole hp hgone) rfl]
    simp only [List.any_cons, List.foldl_cons, Bool.or_assoc]

end Builder

/-- Two disks that differ at most where some projects are cleaned, in what earlier builds may have
left there. -/
structure Disk.Leftover (ps : List Project) (d e : Disk) : Prop where
  working_eq : e.workingDirectory = d.workingDirectory
  clock_eq : e.clock = d.clock
  node?_eq : ∀ k, (ps.any fun p => p.clears d.workingDirectory k) = false → e.node? k = d.node? k
  cleanable_left : d.Cleanable ps
  cleanable_right : e.Cleanable ps

/-- It is enough to look at the places where something stands. -/
theorem Disk.leftover_iff : d.Leftover ps e ↔
    e.workingDirectory = d.workingDirectory ∧ e.clock = d.clock ∧
      (e.nodes.keep fun k => !ps.any (·.clears d.workingDirectory k)) =
        d.nodes.keep (fun k => !ps.any (·.clears d.workingDirectory k)) ∧
      d.Cleanable ps ∧ e.Cleanable ps := by
  constructor
  · rintro ⟨hworking, hclock, hnode, hd, he⟩
    exact ⟨hworking, hclock, keep_eq_of_node?_eq hd.tree he.tree hnode, hd, he⟩
  · rintro ⟨hworking, hclock, hkept, hd, he⟩
    exact ⟨hworking, hclock, fun k hk => node?_eq_of_keep_eq hkept hk, hd, he⟩

instance (ps : List Project) (d e : Disk) : Decidable (d.Leftover ps e) :=
  decidable_of_iff' _ Disk.leftover_iff

namespace Builder

/-- Once projects have been cleaned, what was left there before makes no difference, and nothing
stands where they clear. -/
theorem runIn_each_cleanProject_of_leftover (hleft : w.disk.Leftover ps e)
    (hps : Removable ps w.disk.workingDirectory) :
    ∃ u, (Action.each cleanProject ps).runIn w = (.ok (), u) ∧
      (Action.each cleanProject ps).runIn { w with disk := e } = (.ok (), u) ∧
      u.scheduler = w.scheduler ∧ u.disk.workingDirectory = w.disk.workingDirectory ∧
      ∀ p ∈ ps, ∀ k, p.clears w.disk.workingDirectory k = true → u.disk.node? k = none := by
  have hps' : Removable ps e.workingDirectory := hleft.working_eq ▸ hps
  refine ⟨_, runIn_each_cleanProject hleft.cleanable_left hps (List.Subset.refl ps) (.none _ _)
    w.disk.without_nothing.symm, ?_, rfl, rfl, fun p hp k hclears => ?_⟩
  · rw [runIn_each_cleanProject (w := { w with disk := e }) hleft.cleanable_right hps'
      (List.Subset.refl ps) (.none _ _) e.without_nothing.symm]
    simp only [Bool.false_or, hleft.working_eq]
    rw [Disk.without_eq_of_node?_eq hleft.cleanable_left.tree hleft.cleanable_right.tree
      hleft.working_eq hleft.clock_eq hleft.node?_eq]
  · refine Disk.node?_without_gone (hleft.cleanable_left.ne_root_of_clears hps hp hclears) ?_
    simpa using ⟨p, hp, hclears⟩

end Builder

end IncrementalBuild
