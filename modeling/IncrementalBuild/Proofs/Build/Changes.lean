import IncrementalBuild.Proofs.Build.Soundness
import IncrementalBuild.Proofs.State.Lasting
import IncrementalBuild.Proofs.State.Unchanged

/-!
Changes that are made while a build runs. What is recorded of a unit is how its files are once all
tasks have run, and not how they were when the unit was compiled. So the next check finds what is
changed after the last task, and passes over what was changed before.
-/

namespace IncrementalBuild

open Build State

namespace Builder

variable {ν : Type} {choose : ToolchainChoice ν} {b : Builder} {p : Project} {w v : World ν}

/-- How a build goes that makes something: it is announced and checked, all tasks and commands run
from the world `begun` to the world `ended`, and what is recorded then is kept as the manifest. -/
structure Making (choose : ToolchainChoice ν) (b : Builder) (p : Project) (w v : World ν)
    (announced begun ended : World ν) (c : Checked ν) (n : Manifest) : Prop where
  announce_eq : (b.announce p).runIn w = (.ok (), announced)
  check_eq : (b.checkArtifact choose p).runIn announced = (.ok c, begun)
  tasks_eq : (runTasks (c.tasks p)).runIn begun = (.ok (), ended)
  record_eq : recordBuild ended.disk p c.request c.fingerprint c.manifest c.units = .ok n
  write_eq : n.write p.manifestFile ended.disk = (.ok (), v.disk)

theorem exists_making (h : (b.buildProject choose p).runIn w = (.ok .built, v)) :
    ∃ announced begun ended c n, Making choose b p w v announced begun ended c n := by
  unfold buildProject buildArtifact at h
  obtain ⟨_, announced, hannounce, h⟩ := Action.runIn_bind_eq_ok.1 h
  split at h
  · obtain ⟨_, _, _, h⟩ := Action.runIn_bind_eq_ok.1 h
    cases h
  rw [Action.runIn_bind, Action.runIn_disk] at h
  dsimp only at h
  obtain ⟨c, begun, hcheck, h⟩ := Action.runIn_bind_eq_ok.1 h
  split at h
  · obtain ⟨_, _, _, h⟩ := Action.runIn_bind_eq_ok.1 h
    cases h
  obtain ⟨_, y, hrefresh, h⟩ := Action.runIn_bind_eq_ok.1 h
  obtain ⟨time, y', htime, h⟩ := Action.runIn_bind_eq_ok.1 h
  cases htime
  obtain ⟨_, v', htell, h⟩ := Action.runIn_bind_eq_ok.1 h
  cases h
  obtain ⟨ended, n, htasks, hrecord, hwrite, -⟩ := exists_of_refresh hrefresh
  refine ⟨announced, begun, ended, c, n, hannounce, hcheck, htasks, hrecord, ?_⟩
  rw [(Action.of_runIn_tell htell).disk_eq, hwrite]

/-- After a build that made something, a unit that was compiled in it is found fresh, wherever its
source and the headers listed for it are as they were once the last task had run and its object is
there. With other files it is found fresh exactly if all these are unchanged since then, and so is
the configuration. How they were when the unit was compiled does not matter. The object must be that
of no other unit, and not the artifact. -/
theorem fresh_after_built_iff (h : (b.buildProject choose p).runIn w = (.ok .built, v)) :
    ∃ announced begun ended c n, Making choose b p w v announced begun ended c n ∧
      ∀ u ∈ c.units, u.isStale = true →
        (∀ x ∈ c.units, (x.output == u.output) = true → x = u) →
        (u.output == p.outputFile) = false →
        ∃ found, listedDependencies ended.disk u = .ok found ∧ ∀ e,
          ((∀ q ∈ u.source :: found, ended.disk.KeepsFile e q) →
            ((u.check e c.fingerprint true n).verdict = some .fresh ↔
              e.present u.output = true)) ∧
          ∀ fingerprint, Collisionless ended.disk e c.fingerprint u.source found →
            ((u.check e fingerprint true n).verdict = some .fresh ↔
              e.present u.output = true ∧ fingerprint = c.fingerprint ∧
                ∀ q ∈ u.source :: found, ended.disk.isFile q = true →
                  ended.disk.Unchanged e q) := by
  obtain ⟨announced, begun, ended, c, n, hmaking⟩ := exists_making h
  refine ⟨announced, begun, ended, c, n, hmaking, fun u hu hstale hown hartifact => ?_⟩
  obtain ⟨r, found, hget, hfound, hfingerprint, htaken⟩ :=
    recorded_of_recordBuild hstale hu hown hartifact hmaking.record_eq
  refine ⟨found, hfound, fun e => ⟨fun hkeeps => ?_, fun fingerprint hhashes => ?_⟩⟩
  · have htaken' : r.Taken e u.source found :=
      htaken.keeps (hkeeps _ List.mem_cons_self) fun q hq => hkeeps q (List.mem_cons_of_mem _ hq)
    rw [CompileUnit.verdict_check hget, and_iff_left (htaken'.holds hfingerprint).verdict_eq]
  · rw [← hfingerprint] at hhashes ⊢
    rw [CompileUnit.verdict_check hget, htaken.verdict_eq_fresh_iff hhashes,
      htaken.forall_unchanged_iff]

end Builder

namespace Build.Site

/-- Writes a text over a source, when everything is compiled and linked. -/
def editTask (source : Path) (text : String) : Build.Task Unit where
  description := "edit " ++ source.text
  stage := .postBuild
  parallel := false
  wantsPosition := false
  execute _ w :=
    match w.disk.write source text.toUTF8 with
    | .error _ => (.failed .tasksFailed, w)
    | .ok disk => (.done, { w with disk })

/-- Copies stale sources, joins all objects, and edits a source. -/
def editing : Toolchain Unit :=
  { copying with
    tasks := fun units fingerprint output version =>
      copying.tasks units fingerprint output version ++ [editTask ⟨"/w/a.c"⟩ "three"] }

/-- The project that is copied, with a source that is edited while it is built. -/
def edited : Site Unit :=
  { copied with choose := fun _ => .ok (pure editing) }

/-- The object of a unit was made of what is no longer in its source. -/
def Outdated (begun ended : Disk) (u : CompileUnit) : Prop :=
  begun.contents? u.source = some "one".toUTF8 ∧ ended.contents? u.source = some "three".toUTF8 ∧
    ended.contents? u.output = some "one".toUTF8

instance (begun ended : Disk) : DecidablePred (Outdated begun ended) := fun _ =>
  inferInstanceAs (Decidable (_ ∧ _ ∧ _))

theorem edited_built : (edited.build.runIn copiedWorld).1.toOption = some .built := by
  decide +kernel

theorem exists_outdated : ∀ c ∈ (edited.check.runIn copiedWorld).1.toOption,
    let begun := (edited.check.runIn copiedWorld).2
    let ended := ((runTasks (c.tasks copiedProject)).runIn begun).2.disk
    c.units.Pairwise (fun u v => (u.output == v.output) = false) ∧
      ∃ u ∈ c.units, Outdated begun.disk ended u ∧ u.isStale = true ∧
        (u.output == copiedProject.outputFile) = false ∧
          ended.contents? u.dependencyFile = some .empty ∧
            ∃ s ∈ copied.sources,
              u.source.text = s.text ∧ u.output.text = (copied.object s).text := by
  decide +kernel

/-- The edited source is passed over by the next check, though its object is that of the old text. -/
theorem edited_fresh : ∃ v announced begun ended c n,
    Builder.Making edited.choose edited.builder copiedProject copiedWorld v announced begun ended c
      n ∧
    ∃ u ∈ c.units, Outdated begun.disk v.disk u ∧
      (u.check v.disk c.fingerprint true n).verdict = some .fresh := by
  obtain ⟨v, hrun⟩ : ∃ v, (edited.builder.buildProject edited.choose copiedProject).runIn
      copiedWorld = (.ok .built, v) := ⟨_, Action.runIn_eq_ok edited_built⟩
  obtain ⟨announced, begun, ended, c, n, hmaking, hfresh⟩ := Builder.fresh_after_built_iff hrun
  have hcheck : edited.check.runIn copiedWorld = (.ok c, begun) :=
    Action.runIn_bind_eq_ok.2 ⟨_, announced, hmaking.announce_eq, hmaking.check_eq⟩
  have houtdated := exists_outdated
  simp only [hcheck] at houtdated
  obtain ⟨hdistinct, u, hu, houtdated, hstale, hartifact, hempty, s, hs, htext, htext'⟩ :=
    houtdated c rfl
  rw [hmaking.tasks_eq] at houtdated hempty
  obtain ⟨hbegun, hsource, hobject⟩ := houtdated
  have same {q q' : Path} (h : q.text = q'.text) : q = q' := congrArg Path.mk h
  obtain rfl := same htext
  have houtput := same htext'
  obtain ⟨found, hfound, hall⟩ :=
    hfresh u hu hstale (fun x hx => CompileUnit.eq_of_output hdistinct hx hu) hartifact
  -- No header is listed, so it is only the source that has to be kept when the manifest is written.
  rw [Builder.listedDependencies_eq (readDependencies_of_empty hempty), Except.ok.injEq] at hfound
  subst hfound
  have hkeeps (q : Path) (hq : copied.Input q ∨ q ∈ copied.outputs) :
      ended.disk.KeepsFile v.disk q :=
    Manifest.keepsFile_of_write hmaking.write_eq (lawful_copied.avoids q hq).1
      (lawful_copied.avoids q hq).2
  have hinput := hkeeps _ (.inl (lawful_copied.input_source _ hs))
  have hmem : u.output ∈ copied.outputs := by
    rw [houtput]
    exact List.mem_append_left _ (List.mem_map_of_mem hs)
  have hobject' := (hkeeps _ (.inr hmem)).contents? hobject
  refine ⟨v, announced, begun, ended, c, n, hmaking, u, hu,
    ⟨hbegun, hinput.contents? hsource, hobject'⟩,
    ((hall _).1 fun q hq => ?_).2 (Disk.present_of_contents? hobject')⟩
  obtain rfl := List.mem_singleton.1 hq
  exact hinput

end Build.Site

end IncrementalBuild
