import IncrementalBuild.Proofs.Build.Current

/-!
What the check of a project finds out when the project stands between others that are built before
and after it. What a build looks at lies apart from all that is written once it has looked, and a
project that is found fresh is up to date.
-/

namespace IncrementalBuild

open Build State

namespace Build.Plant

variable {ν : Type} {plant : Plant ν} {earlier later : List Project} {p : Project} {l : Location}
  {w v u : World ν} {c : Builder.Checked ν} {q : Path} {written : List Path}

/-- A project between those that are built before it, the artifacts of which it may be linked
against, and those that are built after it. -/
structure Amid (plant : Plant ν) (earlier : List Project) (p : Project) (later : List Project)
    (l : Location) : Prop where
  lawful : plant.Lawful (earlier ++ p :: later) l
  libraries_subset : ∀ libraries, plant.builder.dependencyOutputs p = .ok libraries →
    libraries ⊆ earlier.flatMap plant.products

theorem mem_amid (earlier : List Project) (p : Project) (later : List Project) :
    p ∈ earlier ++ p :: later :=
  List.mem_append_right _ List.mem_cons_self

namespace Amid

theorem distinct (h : plant.Amid earlier p later l) :
    (plant.products p).Pairwise (fun q q' => q.location l ≠ q'.location l) ∧
      (∀ q ∈ plant.products p, q.ApartFrom (later.flatMap plant.products) l) ∧
      ∀ q ∈ earlier.flatMap plant.products,
        q.ApartFrom (plant.products p ++ later.flatMap plant.products) l := by
  have hall := h.lawful.distinct
  rw [List.flatMap_append, List.flatMap_cons] at hall
  obtain ⟨-, hrest, hearlier⟩ := List.pairwise_append.1 hall
  obtain ⟨hproducts, -, hlater⟩ := List.pairwise_append.1 hrest
  exact ⟨hproducts, hlater, hearlier⟩

theorem separate (h : plant.Amid earlier p later l) : plant.Separate p l :=
  separate_of_pairwise (List.pairwise_append.1 h.distinct.1).2.1

theorem versionFile_apart (h : plant.Amid earlier p later l) (hq : q ∈ p.versionFiles) :
    q.ApartFrom (plant.made p) l :=
  (List.pairwise_append.1 h.distinct.1).2.2 q hq

theorem description_apart (h : plant.Amid earlier p later l) :
    p.path.ApartFrom (plant.products p) l := by
  refine (h.lawful.given p (mem_amid earlier p later) p.path (.inr (.inl rfl))).mono fun o ho => ?_
  exact List.mem_flatMap.2 ⟨p, mem_amid earlier p later, ho⟩

/-- What a build looks at that it does not write itself is written neither once it has checked it
nor by later builds. -/
theorem reads_apart (h : plant.Amid earlier p later l) (hq : plant.Reads p q) :
    q.ApartFrom (plant.made p ++ later.flatMap plant.products) l := by
  have hmade : plant.made p ++ later.flatMap plant.products ⊆
      plant.products p ++ later.flatMap plant.products := by
    refine List.append_subset.2 ⟨?_, List.subset_append_right _ _⟩
    exact List.Subset.trans (List.subset_append_right _ _) (List.subset_append_left _ _)
  have hgiven (q) (hq : q = plant.builder.workspace.path ∨ q = p.path ∨ plant.Tool q) :
      q.ApartFrom (plant.made p ++ later.flatMap plant.products) l := by
    refine (h.lawful.given p (mem_amid earlier p later) q hq).mono ?_
    rw [List.flatMap_append, List.flatMap_cons]
    exact List.Subset.trans hmade (List.subset_append_right _ _)
  cases hq with
  | workspace => exact hgiven _ (.inl rfl)
  | description => exact hgiven _ (.inr (.inl rfl))
  | tool htool => exact hgiven _ (.inr (.inr htool))
  | source hsource => exact h.lawful.input earlier p later rfl _ (.inl hsource)
  | header hheader => exact h.lawful.input earlier p later rfl _ (.inr hheader)
  | library hlibraries hmem =>
    exact (h.distinct.2.2 _ (h.libraries_subset _ hlibraries hmem)).mono hmade

/-- Whatever the project rests on stays while later projects are built, and what it only looks at
already stays while its own tasks run. -/
theorem keeps_reads (h : plant.Amid earlier p later w.disk.workingDirectory)
    (hleaves : w.Leaves (plant.Watched (earlier ++ p :: later)) written v)
    (hsub : written ⊆ plant.made p ++ later.flatMap plant.products) {q' : Path}
    (heq : (q == q') = true) (hq : plant.Reads p q') : w.disk.KeepsNode v.disk q := by
  refine hleaves.disk.keepsNode q ⟨p, mem_amid earlier p later, q', heq, .inl hq⟩ ?_
  exact ((h.reads_apart hq).mono hsub).of_beq heq

end Amid

/-- What a check leaves that succeeds. -/
structure Found (plant : Plant ν) (ps : List Project) (p : Project) (w v : World ν)
    (c : Builder.Checked ν) : Prop where
  leaves : w.Leaves (plant.Watched ps) p.versionFiles v
  scheduler_eq : v.scheduler = w.scheduler
  directories : ∀ q ∈ [p.outputDirectory, p.intermediateDirectory],
    q.ancestors = [] ∨ v.disk.isDirectory q = true
  versionFiles : Version.InPlace v.disk p
  ready : plant.Ready p v
  looked : plant.Looked ps p v.disk c

theorem watched_directory {ps : List Project} (plant : Plant ν) (hp : p ∈ ps)
    (hq : q ∈ [p.outputDirectory, p.intermediateDirectory]) : plant.Watched ps q := by
  refine ⟨p, hp, q, Path.beq_self q, .inr (.inr ?_)⟩
  simpa using hq

theorem found_of_checkArtifact (h : plant.Amid earlier p later w.disk.workingDirectory)
    (hw : w.disk.Grounded) (hpresent : w.disk.present p.path = true)
    (hrun : (plant.builder.checkArtifact plant.choose p).runIn w = (.ok c, v)) :
    plant.Found (earlier ++ p :: later) p w v c := by
  have hp := mem_amid earlier p later
  obtain ⟨w₁, w₂, x, h₁, h₂, h₃, hunmoved, hready, hlooked⟩ :=
    looked_of_checkArtifact h.lawful.toOrderly hp hrun
  obtain ⟨hleaves₁, hscheduler₁, houtput⟩ := Action.of_runIn_createDirectories
    (plant.Watched (earlier ++ p :: later)) p.versionFiles hw h₁
  obtain ⟨hleaves₂, hscheduler₂, hintermediate⟩ := Action.of_runIn_createDirectories
    (plant.Watched (earlier ++ p :: later)) p.versionFiles hleaves₁.disk.grounded h₂
  have hmade := hleaves₁.trans hleaves₂
  have hapart : p.path.ApartFrom p.versionFiles w.disk.workingDirectory :=
    h.description_apart.mono (List.subset_append_left _ _)
  have hkept : w.disk.KeepsNode w₂.disk p.path :=
    hmade.disk.keepsNode _ ⟨p, hp, p.path, Path.beq_self _, .inl .description⟩ hapart
  unfold Builder.writeVersionFiles at h₃
  obtain ⟨wrote, y, hwrite, hshow⟩ := Action.runIn_bind_eq_ok.1 h₃
  rw [← hmade.disk.working_eq] at hapart
  have hdistinct := (List.pairwise_append.1 h.distinct.1).1
  rw [← hmade.disk.working_eq] at hdistinct
  obtain ⟨hleaves₃, hscheduler₃, hinPlace⟩ := Version.inPlace_of_writeFiles
    (plant.Watched (earlier ++ p :: later)) hmade.disk.grounded (hkept.present hpresent) hapart
    hdistinct hwrite
  have hshown : y.Unmoved x := by
    cases wrote with
    | false =>
      cases hshow
      exact .refl _
    | true => exact Action.of_runIn_tell hshow
  have hend := hshown.trans hunmoved
  have hleaves := hmade.trans (hleaves₃.trans
    (hend.leaves hleaves₃.disk.grounded (plant.Watched (earlier ++ p :: later)) p.versionFiles))
  have hstays (q) (hq : q ∈ [p.outputDirectory, p.intermediateDirectory])
      (hdirectory : q.ancestors = [] ∨ w₂.disk.isDirectory q = true) :
      q.ancestors = [] ∨ v.disk.isDirectory q = true := by
    rw [hend.disk_eq]
    exact hdirectory.imp_right (hleaves₃.disk.isDirectory q (watched_directory plant hp hq))
  refine ⟨hleaves, ?_, ?_, hend.disk_eq ▸ hinPlace, hready, hunmoved.disk_eq ▸ hlooked⟩
  · rw [hend.scheduler_eq, hscheduler₃, hscheduler₂, hscheduler₁]
  · intro q hq
    refine hstays q hq ?_
    rcases List.mem_cons.1 hq with rfl | hq'
    · exact (houtput rfl).imp_right
        (hleaves₂.disk.isDirectory _ (watched_directory plant hp List.mem_cons_self))
    · obtain rfl := List.mem_singleton.1 hq'
      exact hintermediate rfl

/-- The records of a manifest are of headers, and of sources that were there. -/
structure Honest (plant : Plant ν) (p : Project) (m : Manifest) : Prop where
  ofSource : ∀ o ∈ plant.outputs p, ∀ r, m.get? o = some r → r.OfSource
  header : ∀ s ∈ p.sourceFiles, ∀ r, m.get? (plant.object p s) = some r →
    ∀ x ∈ r.dependencies, plant.Header p x.path

/-- What is relied on where the build of a project begins. -/
structure Start (plant : Plant ν) (p : Project) (w : World ν) : Prop where
  grounded : w.disk.Grounded
  settled : w.scheduler.Settled
  workspace : w.disk.present plant.builder.workspace.path = true
  description : w.disk.present p.path = true
  honest : ∀ f m, w.disk.standing p.manifestFile = some (.file f) →
    Manifest.ofBytes? f.bytes = some m → plant.Honest p m

theorem Start.unmoved (h : plant.Start p w) (hv : w.Unmoved v) : plant.Start p v := by
  obtain ⟨hgrounded, hsettled, hworkspace, hdescription, hhonest⟩ := h
  refine ⟨?_, hv.scheduler_eq.symm ▸ hsettled, ?_, ?_, ?_⟩ <;> rw [hv.disk_eq] <;> assumption

theorem object_output {s : Path} (hs : s ∈ p.sourceFiles) : plant.object p s ∈ plant.outputs p :=
  List.mem_append_left _ (List.mem_map_of_mem hs)

theorem artifact_output (plant : Plant ν) (p : Project) : p.outputFile ∈ plant.outputs p :=
  List.mem_append_right _ List.mem_cons_self

theorem manifestFile_product (plant : Plant ν) (p : Project) :
    p.manifestFile ∈ plant.products p := by
  simp [products, made]

namespace Found

variable {ps : List Project} {r : Record} {s : Path} {n : Manifest}

/-- The manifest that was read is one that stood in its file when the build began. -/
theorem honest (hfound : plant.Found (earlier ++ p :: later) p w v c)
    (h : plant.Amid earlier p later w.disk.workingDirectory) (hstart : plant.Start p w) :
    plant.Honest p c.manifest := by
  have hempty : plant.Honest p .empty :=
    ⟨fun _ _ _ hr => (nomatch hr), fun _ _ _ hr => (nomatch hr)⟩
  rcases hfound.looked.manifest_standing with heq | hread
  · exact heq ▸ hempty
  rcases Manifest.standing_of_read hread with heq | ⟨f, hf, hbytes⟩
  · exact heq ▸ hempty
  have hwatched := watched_product plant (mem_amid earlier p later) (manifestFile_product plant p)
  have hapart : p.manifestFile.ApartFrom p.versionFiles w.disk.workingDirectory := fun q hq =>
    (h.versionFile_apart hq p.manifestFile (by simp [made])).symm
  exact hstart.honest f _ (hfound.leaves.disk.inherits _ hwatched hapart f hf) hbytes

theorem present_given (hfound : plant.Found (earlier ++ p :: later) p w v c)
    (h : plant.Amid earlier p later w.disk.workingDirectory) (hstart : plant.Start p w) :
    v.disk.present plant.builder.workspace.path = true ∧ v.disk.present p.path = true := by
  have hp := mem_amid earlier p later
  have hkeeps (q) (hq : q = plant.builder.workspace.path ∨ q = p.path ∨ plant.Tool q)
      (hreads : plant.Reads p q) : w.disk.KeepsNode v.disk q := by
    refine hfound.leaves.disk.keepsNode q ⟨p, hp, q, Path.beq_self q, .inl hreads⟩ ?_
    refine (h.lawful.given p hp q hq).mono fun o ho => ?_
    exact List.mem_flatMap.2 ⟨p, hp, List.mem_append_left _ ho⟩
  exact ⟨(hkeeps _ (.inl rfl) .workspace).present hstart.workspace,
    (hkeeps _ (.inr (.inl rfl)) .description).present hstart.description⟩

/-- The record of what is fresh holds. -/
theorem holds_of_fresh (hfound : plant.Found ps p w v c) (hhonest : plant.Honest p c.manifest)
    {o source : Path} (ho : o ∈ plant.outputs p) (hr : c.manifest.get? o = some r)
    (hfresh : r.verdict v.disk c.fingerprint (State.inputHash v.disk c.fingerprint source) source =
      .fresh) : r.Holds v.disk (plant.builder.fingerprint v.disk p) source := by
  rw [← hfound.looked.fingerprint_eq]
  exact (hhonest.ofSource o ho r hr).holds hfresh

/-- A project that is found fresh is up to date. -/
theorem current_of_isFresh (hfound : plant.Found (earlier ++ p :: later) p w v c)
    (h : plant.Amid earlier p later w.disk.workingDirectory) (hstart : plant.Start p w)
    (hfresh : c.isFresh = true) : plant.Current p v := by
  have hhonest := hfound.honest h hstart
  obtain ⟨hworkspace, hdescription⟩ := hfound.present_given h hstart
  rw [Looked.isFresh_iff, hfound.looked.isStale_unit, hfound.looked.isStale_artifact] at hfresh
  obtain ⟨hunits, hartifact, hrecord⟩ := hfresh
  refine ⟨hfound.ready, hworkspace, hdescription, hfound.directories, hfound.versionFiles, ?_, ?_⟩
  · intro o ho
    rcases List.mem_append.1 ho with ho | ho
    · obtain ⟨s, hs, rfl⟩ := List.mem_map.1 ho
      exact (hunits s hs).1
    · exact List.mem_singleton.1 ho ▸ hartifact
  intro hstep
  obtain ⟨r, hr, hverdict, hpaths⟩ := hrecord hstep
  obtain ⟨libraries, hlibraries, hrequest⟩ := hfound.looked.request_eq
  rw [hrequest] at hpaths
  have hread : Manifest.read v.disk p.manifestFile = .ok c.manifest := by
    refine hfound.looked.manifest_standing.resolve_left fun hempty => ?_
    rw [hempty] at hr
    cases hr
  refine ⟨c.manifest, hread, fun s hs => ?_, r, libraries, hr, ?_, hlibraries, hpaths⟩
  · obtain ⟨-, hrecord⟩ := hunits s hs
    obtain ⟨r, hr, hverdict⟩ := hrecord hstep
    exact ⟨r, hr, hfound.holds_of_fresh hhonest (object_output hs) hr hverdict,
      hhonest.header s hs r hr⟩
  · exact hfound.holds_of_fresh hhonest (artifact_output plant p) hr hverdict

end Found

end Build.Plant

end IncrementalBuild
