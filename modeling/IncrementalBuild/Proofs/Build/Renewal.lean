import IncrementalBuild.Proofs.Build.Inspection
import IncrementalBuild.Proofs.Build.Refresh

/-!
A build that succeeds leaves its project up to date. What was looked at stays as it was while the
tasks run, so what is recorded of it still holds once the manifest is kept.
-/

namespace IncrementalBuild

open Build State

namespace Build.Plant

variable {ν : Type} {plant : Plant ν} {earlier later : List Project} {p : Project}
  {w v built u : World ν} {c : Builder.Checked ν} {n : Manifest} {s : Path}

/-- How a build goes on that has found something stale and succeeds: its tasks end in the world
`built`, what they made is recorded, and the manifest is written. -/
structure Built (plant : Plant ν) (ps : List Project) (p : Project) (v built u : World ν)
    (c : Builder.Checked ν) (n : Manifest) : Prop where
  leaves : v.Leaves (plant.Watched ps) (plant.taskFiles p) built
  outputs : ∀ o ∈ plant.outputs p, built.disk.present o = true
  lists : ∀ x ∈ c.units, x.isStale = true → plant.Lists p x.source built.disk
  record_eq : Builder.recordBuild built.disk p c.request c.fingerprint c.manifest c.units = .ok n
  write_eq : n.write p.manifestFile built.disk = (.ok (), u.disk)
  searchPath_eq : u.searchPath = built.searchPath
  settled : u.scheduler.Settled

/-- The tasks of a build compile sources, link, or come after that. -/
theorem Found.role (hfound : plant.Found (earlier ++ p :: later) p w v c)
    (h : plant.Amid earlier p later w.disk.workingDirectory) :
    ∀ t ∈ c.tasks p, plant.Role (earlier ++ p :: later) p t := by
  intro t ht
  have hunits : ∀ x ∈ c.units, plant.IsUnit p x := fun x hx => hfound.looked.isUnit hx
  rcases List.mem_append.1 ht with ht | ht
  · rcases hfound.looked.serves.compiles_or_links c.units _ hunits t ht with
      ⟨x, hx, hcompiles⟩ | hlinks
    · exact .compiles (hunits x hx).1 hcompiles
    · exact .links hlinks
  · obtain ⟨line, hline, rfl⟩ := List.mem_map.1 ht
    exact .follows (h.lawful.postBuild p (mem_amid earlier p later) line hline)

theorem Found.exists_built (hfound : plant.Found (earlier ++ p :: later) p w v c)
    (h : plant.Amid earlier p later w.disk.workingDirectory) (hsettled : v.scheduler.Settled)
    (hrun : (Builder.refresh p c).runIn v = (.ok (), u)) :
    ∃ built n, plant.Built (earlier ++ p :: later) p v built u c n := by
  have hp := mem_amid earlier p later
  have hgrounded := hfound.leaves.disk.grounded
  have hseparate : plant.Separate p v.disk.workingDirectory :=
    hfound.leaves.disk.working_eq ▸ h.separate
  obtain ⟨executed, built, n, hrefreshing⟩ := Builder.exists_refreshing hsettled hrun
  have hexecuted := hrefreshing.executed
  have hroles : ∀ t ∈ executed, plant.Role (earlier ++ p :: later) p t :=
    fun t ht => hfound.role h t ((hrefreshing.mem_iff t).1 ht)
  have hunits : ∀ z ∈ c.units, plant.IsUnit p z := fun z hz => hfound.looked.isUnit hz
  have hcompiles (z) (hz : z ∈ c.units) (hstale : z.isStale = true) :
      ∃ t ∈ executed, plant.Compiles (earlier ++ p :: later) p t z.source := by
    obtain ⟨t, ht, hcompiles⟩ :=
      hfound.looked.serves.exists_compiles c.units c.fingerprint hunits z hz hstale
    exact ⟨t, (hrefreshing.mem_iff t).2 (List.mem_append_left _ ht), hcompiles⟩
  -- Whatever is stale, the artifact is linked.
  obtain ⟨t, ht, hlinks⟩ := hfound.looked.serves.exists_links c.units c.fingerprint hunits
  have ht' : t ∈ executed := (hrefreshing.mem_iff t).2 (List.mem_append_left _ ht)
  refine ⟨built, n, ?_, fun o ho => ?_, fun z hz hstale => ?_, hrefreshing.record_eq,
    hrefreshing.write_eq, hrefreshing.searchPath_eq, hrefreshing.settled⟩
  · exact hexecuted.leaves hgrounded fun t ht position x hx => (hroles t ht).leaves hx
  · rcases List.mem_append.1 ho with ho | ho
    · obtain ⟨s, hs, rfl⟩ := List.mem_map.1 ho
      refine present_object_of_executed hexecuted hroles hp hseparate hgrounded hs ?_
      obtain ⟨z, hz, rfl, -, -, hfresh⟩ := hfound.looked.exists_unit hs
      cases hstale : z.isStale with
      | false => exact .inl (hfresh.1 hstale).1
      | true => exact .inr (hcompiles z hz hstale)
    · obtain rfl := List.mem_singleton.1 ho
      exact present_artifact_of_executed hexecuted hroles hp hseparate hgrounded ⟨t, ht', hlinks⟩
  · exact lists_of_executed hexecuted hroles hp hseparate hgrounded (hunits z hz).1
      (hcompiles z hz hstale)

theorem header_of_listed {d : Disk} {x : CompileUnit} {found : List Path}
    (hlists : plant.Lists p s d) (hfile : x.dependencyFile = plant.dependencyFile p s)
    (hfound : Builder.listedDependencies d x = .ok found) {q : Path} (hq : q ∈ found)
    (hne : (q == s) = false) : plant.Header p q := by
  unfold Builder.listedDependencies readDependencies at hfound
  rw [hfile] at hfound
  split at hfound
  · split at hfound
    next text htext =>
      cases hfound
      obtain ⟨f, hf, hbytes⟩ := Disk.readText_eq_ok htext
      exact hlists f text (Disk.lookup_eq_ok hf).1 hbytes q hq hne
    · cases hfound
  · cases hfound
    cases hq

namespace Built

theorem leaves_all (hbuilt : plant.Built (earlier ++ p :: later) p v built u c n) :
    v.Leaves (plant.Watched (earlier ++ p :: later)) (plant.made p) u ∧
      built.Leaves (plant.Watched (earlier ++ p :: later))
        [Manifest.temporary p.manifestFile, p.manifestFile] u := by
  have hkept : built.Leaves (plant.Watched (earlier ++ p :: later))
      [Manifest.temporary p.manifestFile, p.manifestFile] u :=
    ⟨hbuilt.searchPath_eq, Manifest.leaves_of_write hbuilt.leaves.disk.grounded hbuilt.write_eq _⟩
  have hfirst : v.Leaves (plant.Watched (earlier ++ p :: later)) (plant.made p) built :=
    hbuilt.leaves.mono (List.subset_append_left _ _)
  exact ⟨hfirst.trans (hkept.mono (List.subset_append_right _ _)), hkept⟩

/-- Once the tasks have run, the records of all outputs hold. -/
theorem recorded (hbuilt : plant.Built (earlier ++ p :: later) p v built u c n)
    (hfound : plant.Found (earlier ++ p :: later) p w v c)
    (h : plant.Amid earlier p later w.disk.workingDirectory) (hstart : plant.Start p w)
    (hstep : plant.compileStep p = true) : n.Valid ∧ plant.Recorded p built.disk n := by
  have hl : v.disk.workingDirectory = w.disk.workingDirectory := hfound.leaves.disk.working_eq
  have hhonest := hfound.honest h hstart
  obtain ⟨hworkspace, hdescription⟩ := hfound.present_given h hstart
  have hkeeps {q : Path} (hq : plant.Reads p q) : v.disk.KeepsNode built.disk q := by
    have hamid : plant.Amid earlier p later v.disk.workingDirectory := hl ▸ h
    refine hamid.keeps_reads hbuilt.leaves (fun o ho => ?_) (Path.beq_self q) hq
    exact List.mem_append_left _ (List.mem_append_left _ ho)
  have hfingerprint : plant.builder.fingerprint built.disk p =
      plant.builder.fingerprint v.disk p :=
    Builder.fingerprint_keeps (hkeeps .description) hdescription (hkeeps .workspace) hworkspace
  -- Records are looked up in any spelling, so it is not enough that the texts of outputs differ.
  have hdistinct : (c.units.map CompileUnit.output ++ [p.outputFile]).Pairwise
      fun o o' => (o == o') = false := by
    rw [hfound.looked.map_output_eq]
    have hproducts := (List.pairwise_append.1 h.distinct.1).2.1
    have htasks := (List.pairwise_append.1 hproducts).1
    exact (List.pairwise_append.1 htasks).1.imp Path.beq_eq_false_of_location_ne
  obtain ⟨hvalid, hfresh, hstale, r, hr, hfp, htaken⟩ :=
    Builder.recordBuild_eq_ok hdistinct hbuilt.record_eq
  rw [hfound.looked.fingerprint_eq, ← hfingerprint] at hfp
  refine ⟨hvalid (Manifest.valid_of_empty_or_read hfound.looked.manifest_standing),
    fun s hs => ?_, ?_⟩
  · obtain ⟨x, hx, rfl, houtput, hfile, hunit⟩ := hfound.looked.exists_unit hs
    cases hxstale : x.isStale with
    | false =>
      obtain ⟨r, hr, hverdict⟩ := (hunit.1 hxstale).2 hstep
      refine ⟨r, ?_, ?_, hhonest.header _ hs r hr⟩
      · rw [← houtput, hfresh x hx hxstale, houtput, hr]
      · rw [hfingerprint]
        refine (hfound.holds_of_fresh hhonest (object_output hs) hr hverdict).keeps
          (hkeeps (.source hs)) fun y hy => hkeeps (.header (hhonest.header _ hs r hr y hy))
    | true =>
      obtain ⟨r, found, hr, hlisted, hfp, htaken⟩ := hstale x hx hxstale
      rw [hfound.looked.fingerprint_eq, ← hfingerprint] at hfp
      refine ⟨r, houtput ▸ hr, htaken.holds hfp, fun y hy => ?_⟩
      have hmem : y.path ∈ r.dependencies.map DependencyRecord.path := List.mem_map_of_mem hy
      rw [htaken.paths_eq, List.mem_filter] at hmem
      have hne : (y.path == x.source) = false := by simpa using hmem.2
      exact header_of_listed (hbuilt.lists x hx hxstale) hfile hlisted hmem.1 hne
  · obtain ⟨libraries, hlibraries, hrequest⟩ := hfound.looked.request_eq
    refine ⟨r, libraries, hr, htaken.holds hfp, hlibraries, ?_⟩
    have hinputs : Builder.artifactInputs c.units c.request =
        p.sourceFiles.map (plant.object p) ++ libraries := by
      rw [Builder.artifactInputs, hfound.looked.map_output_eq, hrequest]
    rw [htaken.paths_eq, hinputs, List.filter_eq_self.2 fun q hq => ?_]
    · exact BEq.rfl
    · have hapart := h.lawful.given p (mem_amid earlier p later) p.path (.inr (.inl rfl))
      have hmem : q ∈ (earlier ++ p :: later).flatMap plant.products := by
        rcases List.mem_append.1 hq with hq | hq
        · exact List.mem_flatMap.2 ⟨p, mem_amid earlier p later,
            output_product (List.mem_append_left _ hq)⟩
        · rw [List.flatMap_append]
          exact List.mem_append_left _ (h.libraries_subset _ hlibraries hq)
      rw [Path.beq_eq_false_of_location_ne (hapart q hmem).symm]
      rfl

/-- A project that was built is up to date. -/
theorem current (hbuilt : plant.Built (earlier ++ p :: later) p v built u c n)
    (hfound : plant.Found (earlier ++ p :: later) p w v c)
    (h : plant.Amid earlier p later w.disk.workingDirectory) (hstart : plant.Start p w) :
    plant.Current p u := by
  have hp := mem_amid earlier p later
  have hl : v.disk.workingDirectory = w.disk.workingDirectory := hfound.leaves.disk.working_eq
  have hamid : plant.Amid earlier p later v.disk.workingDirectory := hl ▸ h
  have hamid' : plant.Amid earlier p later built.disk.workingDirectory :=
    hbuilt.leaves.disk.working_eq ▸ hamid
  obtain ⟨hworkspace, hdescription⟩ := hfound.present_given h hstart
  obtain ⟨hleaves, hkept⟩ := hbuilt.leaves_all
  have hreads {q : Path} (hq : plant.Reads p q) : v.disk.KeepsNode u.disk q :=
    hamid.keeps_reads hleaves (List.subset_append_left _ _) (Path.beq_self q) hq
  have houtput {q q' : Path} (heq : (q == q') = true) (hq : q' ∈ plant.outputs p) :
      built.disk.KeepsNode u.disk q := by
    refine hkept.disk.keepsNode q ⟨p, hp, q', heq, .inr (.inl (output_product hq))⟩ ?_
    exact (hamid'.separate.taskFile_apart q' (List.mem_append_left _ hq)).of_beq heq
  refine ⟨hfound.ready.leaves hleaves fun q hq => hreads (.tool hq),
    (hreads .workspace).present hworkspace, (hreads .description).present hdescription,
    fun q hq => ?_, ?_, fun o ho => (houtput (Path.beq_self o) ho).present (hbuilt.outputs o ho),
    fun hstep => ?_⟩
  · exact (hfound.directories q hq).imp_right
      (hleaves.disk.isDirectory q (watched_directory plant hp hq))
  · refine hfound.versionFiles.keeps hdescription (hreads .description) fun q hq => ?_
    refine hleaves.disk.keepsNode q (watched_product plant hp (List.mem_append_left _ hq)) ?_
    exact hamid.versionFile_apart hq
  · obtain ⟨hvalid, hrecorded⟩ := hbuilt.recorded hfound h hstart hstep
    have htext := Manifest.readText_of_write hbuilt.leaves.disk.grounded hbuilt.write_eq
    -- The records were taken before the manifest was written, and have to outlast that, too.
    have hafter {q q' : Path} (heq : (q == q') = true) (hq : plant.Reads p q') :
        built.disk.KeepsNode u.disk q := by
      refine hamid'.keeps_reads hkept (fun o ho => ?_) heq hq
      exact List.mem_append_left _ (List.mem_append_right _ ho)
    refine ⟨n, hvalid.read_of_readText htext, hrecorded.keeps ?_ fun q q' heq hq => ?_⟩
    · have hthere {q : Path} (hq : plant.Reads p q) (hpresent : v.disk.present q = true) :
          built.disk.present q = true := by
        refine (hamid.keeps_reads hbuilt.leaves (fun o ho => ?_) (Path.beq_self q) hq).present
          hpresent
        exact List.mem_append_left _ (List.mem_append_left _ ho)
      exact Builder.fingerprint_keeps (hafter (Path.beq_self _) .description)
        (hthere .description hdescription) (hafter (Path.beq_self _) .workspace)
        (hthere .workspace hworkspace)
    · exact hq.elim (hafter heq) (houtput heq)

end Built

/-- The build of a project that succeeds makes only what it is to make, and leaves the project up to
date and no job at work. -/
theorem current_of_buildProject {outcome : BuildOutcome}
    (h : plant.Amid earlier p later w.disk.workingDirectory) (hstart : plant.Start p w)
    (hfirst : p.preBuildCommands = []) (hmade : p.outputType ≠ .container)
    (hrun : (plant.builder.buildProject plant.choose p).runIn w = (.ok outcome, u)) :
    w.Leaves (plant.Watched (earlier ++ p :: later)) (plant.products p) u ∧
      u.scheduler.Settled ∧ plant.Current p u := by
  have hchecked {a x : World ν} {c : Builder.Checked ν} (hannounced : w.Unmoved a)
      (hcheck : (plant.builder.checkArtifact plant.choose p).runIn a = (.ok c, x)) :
      plant.Amid earlier p later a.disk.workingDirectory ∧ plant.Start p a ∧
        plant.Found (earlier ++ p :: later) p a x c ∧ x.scheduler.Settled ∧
          w.Leaves (plant.Watched (earlier ++ p :: later)) (plant.products p) x := by
    have hamid : plant.Amid earlier p later a.disk.workingDirectory := hannounced.disk_eq ▸ h
    have hstart' := hstart.unmoved hannounced
    have hfound := found_of_checkArtifact hamid hstart'.grounded hstart'.description hcheck
    refine ⟨hamid, hstart', hfound, hfound.scheduler_eq.symm ▸ hstart'.settled, ?_⟩
    exact (hannounced.leaves hstart.grounded _ _).trans
      (hfound.leaves.mono (List.subset_append_left _ _))
  cases Builder.course_of_buildProject hfirst hrun with
  | skipped hcontainer _ => exact absurd hcontainer hmade
  | upToDate _ hannounced hcheck hfresh htold =>
    obtain ⟨hamid, hstart', hfound, hsettled, hleaves⟩ := hchecked hannounced hcheck
    exact ⟨hleaves.trans (htold.leaves hleaves.disk.grounded _ _),
      htold.scheduler_eq.symm ▸ hsettled,
      (hfound.current_of_isFresh hamid hstart' hfresh).unmoved htold⟩
  | built _ hannounced hcheck hrefresh htold =>
    obtain ⟨hamid, hstart', hfound, hsettled, hleaves⟩ := hchecked hannounced hcheck
    obtain ⟨built, n, hbuilt⟩ := hfound.exists_built hamid hsettled hrefresh
    have hleaves' := hleaves.trans (hbuilt.leaves_all.1.mono (List.subset_append_right _ _))
    exact ⟨hleaves'.trans (htold.leaves hleaves'.disk.grounded _ _),
      htold.scheduler_eq.symm ▸ hbuilt.settled, (hbuilt.current hfound hamid hstart').unmoved htold⟩

end Build.Plant

end IncrementalBuild
