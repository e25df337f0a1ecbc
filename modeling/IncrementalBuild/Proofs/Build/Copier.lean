import IncrementalBuild.Proofs.Build.Copying
import IncrementalBuild.Proofs.Build.Plant

/-!
The toolchain that copies, for projects of any sources. It does what is relied on of toolchains
wherever objects and dependency files lie apart.
-/

namespace IncrementalBuild.Build

open State

/-- Copies stale sources, and joins all objects. -/
def copier : Toolchain Unit where
  description := "copying"
  compileStep := true
  objectExtension := "o"
  tasks units _ output _ :=
    (units.filter CompileUnit.isStale).map (fun u => copyTask u.source u.output) ++
      [joinTask (units.map CompileUnit.output) output]

namespace Plant

/-- A workspace of which all projects are built by copying. -/
def copying (b : Builder) : Plant Unit where
  builder := b
  choose _ := .ok (pure copier)
  compileStep _ := true
  objectExtension _ := "o"
  Header _ _ := False
  Tool _ := False

variable {plant : Plant Unit} {b : Builder} {ps : List Project} {p : Project} {s : Path} {d : Disk}

theorem lists_of_empty
    (h : d.contents? (plant.dependencyFile p s) = some .empty) : plant.Lists p s d := by
  intro f text hf htext q hq
  obtain ⟨g, hg, hbytes⟩ := Disk.contents?_eq_some_iff.1 h
  obtain rfl : g = f := by simpa [hf] using (Disk.lookup_eq_ok hg).1.symm
  have hempty : String.fromUTF8? .empty = some "" := by decide +kernel
  have hnone : dependenciesOf "" = [] := by cbv
  rw [hbytes, hempty, Option.some.injEq] at htext
  rw [← htext, hnone] at hq
  cases hq

theorem compiles_copyTask (happart : (plant.object p s).Apart (plant.dependencyFile p s)) :
    plant.Compiles ps p (copyTask s (plant.object p s)) s where
  leaves position w hw := by
    unfold copyTask
    dsimp only
    split
    · exact .refl hw
    split
    · exact .refl hw
    next d hobject =>
    have hcopied := (Disk.placed_of_write hobject).leaves hw (plant.Watched ps)
    have hcopied' := hcopied.mono
      (show [_] ⊆ [plant.object p s, plant.dependencyFile p s] by simp)
    split
    · exact ⟨rfl, hcopied'⟩
    next e hlisted =>
    have hplaced := (Disk.placed_of_write hlisted).leaves hcopied.grounded (plant.Watched ps)
    refine ⟨rfl, hcopied'.trans (hplaced.mono ?_)⟩
    exact List.subset_cons_of_subset _ (List.Subset.refl _)
  made position w v hw h := by
    unfold copyTask at h
    dsimp only at h
    split at h
    · cases h
    split at h
    · cases h
    next d hobject =>
    split at h
    · cases h
    next e hlisted =>
    cases h
    have hkept : d.KeepsNode e (plant.object p s) :=
      (Disk.placed_of_write hlisted).keepsNode (happart.location_ne _)
    exact ⟨hkept.present (Disk.present_of_write hobject),
      lists_of_empty (Disk.contents?_of_write hlisted)⟩

theorem links_joinTask (objects : List Path) :
    plant.Links ps p (joinTask objects p.outputFile) where
  leaves position w hw := by
    unfold joinTask
    dsimp only
    split
    · exact .refl hw
    next d hwrite => exact ⟨rfl, (Disk.placed_of_write hwrite).leaves hw _⟩
  made position w v hw h := by
    unfold joinTask at h
    dsimp only at h
    split at h
    · cases h
    next d hwrite =>
    cases h
    exact Disk.present_of_write hwrite

/-- A toolchain serves whose tasks copy what is stale and then join something. -/
theorem serves_of_tasks {t : Toolchain Unit} {joined : List CompileUnit → List Path}
    (hstep : t.compileStep = plant.compileStep p)
    (hextension : t.objectExtension = plant.objectExtension p)
    (htasks : ∀ units fingerprint output version, t.tasks units fingerprint output version =
      (units.filter CompileUnit.isStale).map (fun u => copyTask u.source u.output) ++
        [joinTask (joined units) output])
    (happart : ∀ s ∈ p.sourceFiles, (plant.object p s).Apart (plant.dependencyFile p s)) :
    plant.Serves ps p t where
  compileStep_eq := hstep
  objectExtension_eq := hextension
  compiles_or_links units fingerprint hunits task htask := by
    rw [htasks] at htask
    rcases List.mem_append.1 htask with htask | htask
    · obtain ⟨u, hu, rfl⟩ := List.mem_map.1 htask
      obtain ⟨hu, -⟩ := List.mem_filter.1 hu
      obtain ⟨hsource, houtput⟩ := hunits u hu
      refine .inl ⟨u, hu, ?_⟩
      rw [houtput]
      exact compiles_copyTask (happart u.source hsource)
    · obtain rfl := List.mem_singleton.1 htask
      exact .inr (links_joinTask _)
  exists_compiles units fingerprint hunits u hu hstale := by
    obtain ⟨hsource, houtput⟩ := hunits u hu
    refine ⟨copyTask u.source u.output, ?_, ?_⟩
    · rw [htasks]
      exact List.mem_append_left _ (List.mem_map_of_mem (List.mem_filter.2 ⟨hu, hstale⟩))
    · rw [houtput]
      exact compiles_copyTask (happart u.source hsource)
  exists_links units fingerprint hunits := by
    refine ⟨joinTask (joined units) p.outputFile, ?_, links_joinTask _⟩
    rw [htasks]
    exact List.mem_append_right _ List.mem_cons_self

/-- A toolchain that is at hand needs nothing to be made ready. -/
theorem prepares_pure {t : Toolchain Unit} (h : plant.Serves ps p t) :
    plant.Prepares ps p (pure t) where
  unmoved w := .refl w
  serves w t' h' := by
    cases h'
    exact h
  again w v t' h' _ _ := ⟨t, rfl⟩

theorem prepares_copier (happart : ∀ s ∈ p.sourceFiles,
    ((copying b).object p s).Apart ((copying b).dependencyFile p s)) :
    (copying b).Prepares ps p (pure copier) :=
  prepares_pure (serves_of_tasks rfl rfl (fun _ _ _ _ => rfl) happart)

end Plant

end IncrementalBuild.Build
