import IncrementalBuild.Proofs.Build.Copying
import IncrementalBuild.Proofs.Build.Refresh

/-!
Runs of a project: edits between builds, and builds that succeed or fail. A build that fails may
leave objects that no record was taken of, and the records of earlier builds still count for them.
So what a build that succeeds takes to be fresh is right exactly if nothing has changed it since the
build that made it.
-/

namespace IncrementalBuild.Build.Site

open State

variable {ν : Type} {site : Site ν}

/-- Builds the project. -/
def build (site : Site ν) : Action ν BuildOutcome :=
  site.builder.buildProject site.choose site.project

/-- How a build goes: it ends before anything is checked, it finds nothing to do, or it runs tasks
and records what they made, which may fail. -/
inductive Course (site : Site ν) (w : World ν) : Except Failure BuildOutcome → World ν → Prop where
  | ended {result : Except Failure BuildOutcome} {v : World ν} :
      result ≠ .ok .built → result ≠ .ok .upToDate → w.Spares site.manifest v →
      Course site w result v
  | upToDate {c : Builder.Checked ν} {x v : World ν} :
      site.check.runIn w = (.ok c, x) → c.isFresh = true → v.disk = x.disk →
      v.scheduler = x.scheduler → Course site w (.ok .upToDate) v
  | failed {c : Builder.Checked ν} {x v : World ν} {f : Failure} :
      site.check.runIn w = (.ok c, x) →
      (Builder.refresh site.project c).runIn x = (.error f, v) → Course site w (.error f) v
  | built {c : Builder.Checked ν} {x u v : World ν} :
      site.check.runIn w = (.ok c, x) →
      (Builder.refresh site.project c).runIn x = (.ok (), u) → v.disk = u.disk →
      v.scheduler = u.scheduler → Course site w (.ok .built) v

theorem course_of_build (hlawful : site.Lawful) {w v : World ν}
    {result : Except Failure BuildOutcome} (h : site.build.runIn w = (result, v)) :
    site.Course w result v := by
  unfold build Builder.buildProject at h
  rw [Action.runIn_bind] at h
  split at h
  next x w₁ hannounce =>
    have hspares := hlawful.spares_announce.of_runIn hannounce
    split at h
    · rw [Action.runIn_bind] at h
      cases h
      exact .ended (by simp) (by simp) ⟨hspares.scheduler_eq, hspares.inherits⟩
    unfold Builder.buildArtifact at h
    rw [Action.runIn_bind, Action.runIn_disk] at h
    dsimp only at h
    have hcheck : site.check.runIn w =
        (site.builder.checkArtifact site.choose site.project).runIn w₁ := by
      rw [check, Action.runIn_bind, hannounce]
    rw [Action.runIn_bind, ← hcheck] at h
    split at h
    next c y hrun =>
      split at h
      next hfresh =>
        cases h
        exact .upToDate hrun hfresh rfl rfl
      next =>
        rw [Action.runIn_bind] at h
        split at h
        next u hrefresh =>
          cases h
          exact .built hrun hrefresh rfl rfl
        next f u hrefresh =>
          cases h
          exact .failed hrun hrefresh
    next f y hrun =>
      cases h
      exact .ended (by simp) (by simp) (hlawful.spares_check.of_runIn hrun)
  next f w₁ hannounce =>
    cases h
    exact .ended (by simp) (by simp) (hlawful.spares_announce.of_runIn hannounce)

/-- The outputs that a build makes which checked the project as `c`: those that were stale, and the
artifact. -/
def remade (site : Site ν) (c : Builder.Checked ν) : List Path :=
  (c.units.filter CompileUnit.isStale).map CompileUnit.output ++ [site.artifact]

/-- The disks at the end of the builds that last made each output, after one more build, which
leads from the world `w` to `v`. -/
def madeAfter (site : Site ν) (made : Path → Option Disk) (w v : World ν) :
    Except Failure BuildOutcome → Path → Option Disk
  | .ok .built => fun o =>
    match (site.check.runIn w).1 with
    | .ok c => if (site.remade c).any (· == o) then some v.disk else made o
    | .error _ => made o
  | _ => made

/-- The runs of a project. They begin without a manifest, and with no job at work. Between builds
anything may change but the manifest, which can be removed, and builds may be continued by another
process. Each run keeps the disks at the end of the builds that last made each output, builds that
fail not counted. -/
inductive Run (site : Site ν) : (Path → Option Disk) → World ν → Prop where
  | start {w : World ν} :
      (∀ f, w.disk.standing site.manifest ≠ some (.file f)) → w.scheduler.Settled →
      Run site (fun _ => none) w
  | edit {made : Path → Option Disk} {w v : World ν} :
      Run site made w → w.disk.Inherits v.disk site.manifest →
      (v.scheduler = w.scheduler ∨ v.scheduler = .empty) → Run site made v
  | build {made : Path → Option Disk} {w v : World ν} {result : Except Failure BuildOutcome} :
      Run site made w → site.build.runIn w = (result, v) →
      Run site (site.madeAfter made w v result) v

/-- Every record of a manifest was taken where the output it is about was right, at the end of the
build that last made it. -/
structure Vouched (site : Site ν) (made : Path → Option Disk) (m : Manifest) : Prop where
  object : ∀ s ∈ site.sources, ∀ r, m.get? (site.object s) = some r →
    ∃ d, made (site.object s) = some d ∧ site.ObjectMade d s r
  artifact : ∀ r, m.get? site.artifact = some r →
    ∃ d, made site.artifact = some d ∧ site.ArtifactMade d r

/-- What every run keeps. -/
structure Accounted (site : Site ν) (made : Path → Option Disk) (w : World ν) : Prop where
  settled : w.scheduler.Settled
  vouched : ∀ f m, w.disk.standing site.manifest = some (.file f) →
    Manifest.ofBytes? f.bytes = some m → site.Vouched made m

variable {made : Path → Option Disk} {w v : World ν} {c : Builder.Checked ν} {d : Disk}

theorem Accounted.inherits (h : site.Accounted made w) (hsettled : v.scheduler.Settled)
    (hinherits : w.disk.Inherits v.disk site.manifest) : site.Accounted made v :=
  ⟨hsettled, fun f m hf => h.vouched f m (hinherits f hf)⟩

theorem Accounted.spares (h : site.Accounted made w) (hspares : w.Spares site.manifest v) :
    site.Accounted made v :=
  h.inherits (hspares.scheduler_eq ▸ h.settled) hspares.inherits

/-- A build looks at a manifest that is vouched for. -/
theorem Accounted.found (h : site.Accounted made w) (hfound : site.Found w c d) :
    site.Vouched made c.manifest := by
  rcases hfound.manifest_standing with hempty | ⟨f, hf, hbytes⟩
  · rw [hempty]
    exact ⟨fun s _ r hr => (nomatch hr), fun r hr => (nomatch hr)⟩
  · exact h.vouched f _ hf hbytes

theorem Found.exists_unit (h : site.Found w c d) {s : Path} (hs : s ∈ site.sources) :
    ∃ u ∈ c.units, u = (CompileUnit.make s (site.object s)).check d c.fingerprint true c.manifest ∧
      u.source = s ∧ u.output = site.object s := by
  obtain ⟨hsource, houtput, -⟩ :=
    CompileUnit.check_make s (site.object s) d c.fingerprint true c.manifest
  refine ⟨_, ?_, rfl, hsource, houtput⟩
  rw [h.units_eq]
  exact List.mem_map_of_mem hs

/-- A build makes the outputs of its stale units, and of no others. -/
theorem Found.remade_iff (h : site.Found w c d) (hlawful : site.Lawful) {u : CompileUnit}
    (hu : u ∈ c.units) : (site.remade c).any (· == u.output) = u.isStale := by
  have hdistinct := hlawful.distinct
  rw [outputs, ← h.map_output_eq] at hdistinct
  obtain ⟨hunits, -, hartifact⟩ := List.pairwise_append.1 hdistinct
  rw [List.pairwise_map] at hunits
  cases hstale : u.isStale with
  | true =>
    refine List.any_eq_true.2 ⟨u.output, List.mem_append_left _ ?_, ?_⟩
    · exact List.mem_map_of_mem (List.mem_filter.2 ⟨hu, hstale⟩)
    · exact Path.beq_self u.output
  | false =>
    apply List.any_eq_false.2
    intro o ho
    rw [Bool.not_eq_true]
    rcases List.mem_append.1 ho with ho | ho
    · obtain ⟨x, hx, rfl⟩ := List.mem_map.1 ho
      obtain ⟨hx, hxstale⟩ := List.mem_filter.1 hx
      apply CompileUnit.output_ne hunits hx hu
      rintro rfl
      rw [hstale] at hxstale
      cases hxstale
    · rw [List.mem_singleton] at ho
      subst ho
      rw [Path.beq_comm]
      exact hartifact _ (List.mem_map_of_mem hu) _ List.mem_cons_self

theorem madeAfter_built (hcheck : (site.check.runIn w).1 = .ok c) (o : Path) :
    site.madeAfter made w v (.ok .built) o =
      if (site.remade c).any (· == o) then some v.disk else made o := by
  unfold madeAfter
  dsimp only
  rw [hcheck]

theorem madeAfter_artifact (hcheck : (site.check.runIn w).1 = .ok c) :
    site.madeAfter made w v (.ok .built) site.artifact = some v.disk := by
  rw [madeAfter_built hcheck, if_pos]
  have hmem : site.artifact ∈ site.remade c := List.mem_append_right _ List.mem_cons_self
  exact List.any_eq_true.2 ⟨site.artifact, hmem, Path.beq_self _⟩

/-- What a build wrote into the manifest is vouched for: for what was fresh as before, and for the
rest by the build itself. -/
theorem Vouched.renewed {n : Manifest} (h : site.Vouched made c.manifest) (hlawful : site.Lawful)
    (hfound : site.Found w c d) (hrenewed : site.Renewed c d v.disk n)
    (hcheck : (site.check.runIn w).1 = .ok c) :
    site.Vouched (site.madeAfter made w v (.ok .built)) n where
  object s hs r hr := by
    obtain ⟨u, hu, -, hsource, houtput⟩ := hfound.exists_unit hs
    have hremade := hfound.remade_iff hlawful hu
    rw [houtput] at hremade
    rw [madeAfter_built hcheck, hremade]
    cases hstale : u.isStale with
    | true =>
      obtain ⟨r', hr', hmade⟩ := hrenewed.stale u hu hstale
      rw [houtput, hr] at hr'
      cases hr'
      exact ⟨v.disk, rfl, hsource ▸ hmade⟩
    | false =>
      have hsame := hrenewed.fresh u hu hstale
      rw [houtput, hr] at hsame
      exact h.object s hs r hsame.symm
  artifact r hr := by
    obtain ⟨r', hr', hmade⟩ := hrenewed.artifact
    rw [hr] at hr'
    cases hr'
    exact ⟨v.disk, madeAfter_artifact hcheck, hmade⟩

theorem Accounted.build (h : site.Accounted made w) (hlawful : site.Lawful)
    {result : Except Failure BuildOutcome} (hbuild : site.build.runIn w = (result, v)) :
    site.Accounted (site.madeAfter made w v result) v := by
  cases course_of_build hlawful hbuild with
  | ended hbuilt _ hspares =>
    have hsame : site.madeAfter made w v result = made := by
      unfold madeAfter
      split
      · exact absurd rfl hbuilt
      · rfl
    rw [hsame]
    exact h.spares hspares
  | upToDate hcheck _ hdisk hscheduler =>
    have hspares := hlawful.spares_check.of_runIn hcheck
    exact h.spares ⟨hscheduler.trans hspares.scheduler_eq, hdisk ▸ hspares.inherits⟩
  | failed hcheck hrefresh =>
    have hchecked := h.spares (hlawful.spares_check.of_runIn hcheck)
    obtain ⟨hsettled, hinherits⟩ :=
      (found_of_check hlawful hcheck).kept_of_refresh hlawful hchecked.settled hrefresh
    exact hchecked.inherits hsettled (hinherits (by simp))
  | @built c x u _ hcheck hrefresh hdisk hscheduler =>
    have hchecked := h.spares (hlawful.spares_check.of_runIn hcheck)
    have hfound := found_of_check hlawful hcheck
    obtain ⟨hsettled, -⟩ := hfound.kept_of_refresh hlawful hchecked.settled hrefresh
    obtain ⟨n, hrenewed⟩ := hfound.renewed hlawful hchecked.settled hrefresh
    rw [← hdisk] at hrenewed
    refine ⟨hscheduler ▸ hsettled, fun f m hf hm => ?_⟩
    rw [hrenewed.bytes_eq f hf, hrenewed.valid.ofBytes?_toText] at hm
    cases hm
    exact (h.found hfound).renewed hlawful hfound hrenewed (congrArg Prod.fst hcheck)

/-- After every run, each record of the manifest is vouched for. -/
theorem Run.accounted (h : site.Run made w) (hlawful : site.Lawful) : site.Accounted made w := by
  induction h with
  | start hnone hsettled => exact ⟨hsettled, fun f _ hf => absurd hf (hnone f)⟩
  | edit _ hinherits hscheduler ih =>
    refine ih.inherits ?_ hinherits
    rcases hscheduler with heq | heq
    · exact heq ▸ ih.settled
    · exact heq ▸ Jobs.Scheduler.settled_empty
  | build _ hbuild ih => exact ih.build hlawful hbuild

theorem ObjectMade.right_iff {e : Disk} {s : Path} {r : Record} (h : site.ObjectMade d s r)
    (hsame : site.compiler.object e s = site.compiler.object d s) :
    site.ObjectRight e s ↔ e.contents? (site.object s) = d.contents? (site.object s) := by
  rw [h.right, ObjectRight, hsame]

theorem ArtifactMade.right_iff {e : Disk} {r : Record} (h : site.ArtifactMade d r)
    (hsame : site.objects e = site.objects d) :
    site.ArtifactRight e ↔ e.contents? site.artifact = d.contents? site.artifact := by
  rw [h.right, ArtifactRight, hsame]

/-- What was recorded of the disks of earlier builds tells them from the disk that a check looks at:
changes of contents change times or lengths, and no hashes that are compared collide. -/
structure TellsApart (site : Site ν) (made : Path → Option Disk) (d : Disk) : Prop where
  hashed : ∀ s ∈ site.sources, ∀ d', made (site.object s) = some d' →
    State.inputHash d' (site.builder.fingerprint d site.project) s =
      State.inputHash d (site.builder.fingerprint d site.project) s →
    d'.metadataHash? s = d.metadataHash? s
  input : ∀ s ∈ site.sources, ∀ d', made (site.object s) = some d' →
    ∀ q ∈ s :: site.compiler.headers d' s, d'.Tells d q
  object : ∀ s ∈ site.sources, ∀ d', made site.artifact = some d' → d'.Tells d (site.object s)

/-- An object that is taken to be fresh was made by an earlier build, and it is right afterwards,
with the same inputs, exactly if it is as that build left it. -/
theorem Found.right_iff_of_fresh {e : Disk} (h : site.Found w c d) (hlawful : site.Lawful)
    (hvouched : site.Vouched made c.manifest) (htells : site.TellsApart made d)
    (hkept : ∀ q, site.Input q → ∀ bytes, d.contents? q = some bytes → e.contents? q = some bytes)
    {s : Path} (hs : s ∈ site.sources) {u : CompileUnit} (hfresh : u.isStale = false)
    (hu : u = (CompileUnit.make s (site.object s)).check d c.fingerprint true c.manifest) :
    ∃ d', made (site.object s) = some d' ∧
      (site.ObjectRight e s ↔ e.contents? (site.object s) = d'.contents? (site.object s)) := by
  rw [hu] at hfresh
  obtain ⟨r, hr, hverdict⟩ := CompileUnit.record_of_fresh hfresh
  obtain ⟨d', hmade, hobject⟩ := hvouched.object s hs r hr
  refine ⟨d', hmade, hobject.right_iff ?_⟩
  rw [h.fingerprint_eq] at hverdict
  exact hobject.object_eq_of_fresh hlawful hs hverdict (htells.hashed s hs d' hmade)
    (htells.input s hs d' hmade) hkept

/-- Whenever a build in a run of a project succeeds, each object, and the artifact, was made by this
build or an earlier one that succeeded, and it is what its current inputs make exactly if it has the
contents that it had at the end of that build. So what is taken to be up to date is right unless it
was changed since, as by the tasks of a build that failed. -/
theorem Run.right_iff_unchanged (hlawful : site.Lawful) (hrun : site.Run made w)
    {outcome : BuildOutcome} (hbuild : site.build.runIn w = (.ok outcome, v))
    (houtcome : outcome = .built ∨ outcome = .upToDate)
    (htells : site.TellsApart made (site.check.runIn w).2.disk) :
    (∀ s ∈ site.sources, ∃ d, site.madeAfter made w v (.ok outcome) (site.object s) = some d ∧
      (site.ObjectRight v.disk s ↔
        v.disk.contents? (site.object s) = d.contents? (site.object s))) ∧
    ∃ d, site.madeAfter made w v (.ok outcome) site.artifact = some d ∧
      (site.ArtifactRight v.disk ↔
        v.disk.contents? site.artifact = d.contents? site.artifact) := by
  have haccounted := hrun.accounted hlawful
  cases course_of_build hlawful hbuild with
  | ended hbuilt hupToDate _ => rcases houtcome with rfl | rfl <;> contradiction
  | @upToDate c x _ hcheck hfresh hdisk _ =>
    have hfound := found_of_check hlawful hcheck
    have hvouched := haccounted.found hfound
    rw [hcheck] at htells
    rw [hdisk]
    have hall := List.all_eq_true.1 hfresh
    refine ⟨fun s hs => ?_, ?_⟩
    · obtain ⟨u, hu, hcheckedUnit, -⟩ := hfound.exists_unit hs
      have hufresh : u.isStale = false := by
        simpa using hall u (List.mem_append_left _ hu)
      exact hfound.right_iff_of_fresh hlawful hvouched htells (fun _ _ _ => id) hs hufresh
        hcheckedUnit
    · have hafresh : c.artifact.isStale = false := by
        simpa using hall c.artifact (List.mem_append_right _ List.mem_cons_self)
      obtain ⟨r, hr, hverdict⟩ := hfound.record_of_fresh hafresh
      obtain ⟨d, hmade, hartifact⟩ := hvouched.artifact r hr
      refine ⟨d, hmade, hartifact.right_iff ?_⟩
      exact hartifact.objects_eq_of_fresh hverdict fun s hs => htells.object s hs d hmade
  | @built c x u _ hcheck hrefresh hdisk _ =>
    have hchecked := haccounted.spares (hlawful.spares_check.of_runIn hcheck)
    have hfound := found_of_check hlawful hcheck
    have hvouched := haccounted.found hfound
    obtain ⟨n, hrenewed⟩ := hfound.renewed hlawful hchecked.settled hrefresh
    rw [hcheck] at htells
    rw [← hdisk] at hrenewed
    have hfst := congrArg Prod.fst hcheck
    refine ⟨fun s hs => ?_, v.disk, madeAfter_artifact hfst, ?_⟩
    · obtain ⟨y, hy, hcheckedUnit, hsource, houtput⟩ := hfound.exists_unit hs
      have hremade := hfound.remade_iff hlawful hy
      rw [houtput] at hremade
      rw [madeAfter_built hfst, hremade]
      cases hstale : y.isStale with
      | true =>
        obtain ⟨r, -, hobject⟩ := hrenewed.stale y hy hstale
        rw [hsource] at hobject
        exact ⟨v.disk, rfl, iff_of_true hobject.right rfl⟩
      | false =>
        exact hfound.right_iff_of_fresh hlawful hvouched htells hrenewed.kept hs hstale
          hcheckedUnit
    · obtain ⟨r, -, hartifact⟩ := hrenewed.artifact
      exact iff_of_true hartifact.right rfl

theorem madeAfter_eq_some {result : Except Failure BuildOutcome} {o : Path}
    (h : site.madeAfter made w v result o = some d) : made o = some d ∨ d = v.disk := by
  unfold madeAfter at h
  split at h
  · split at h
    · split at h
      · exact .inr (Option.some.inj h).symm
      · exact .inl h
    · exact .inl h
  · exact .inl h

/-- The sources that are copied, and nothing that was made of them. -/
def copiedWorld : World Unit where
  disk := {
    nodes := ⟨[(["w"], .directory), (["w", "a.c"], .file ⟨"one".toUTF8, 1, false⟩),
      (["w", "b.c"], .file ⟨"two".toUTF8, 1, false⟩), (["w", "p.kiln"], .file ⟨.empty, 1, false⟩)]⟩
    workingDirectory := []
    clock := 2 }
  console := default
  messages := .empty
  scheduler := .empty
  searchPath := []
  notes := ()

/-- Copying succeeds. It leaves the sources as they are for a check, which finds no objects. -/
theorem copiedWorld_built :
    (copied.build.runIn copiedWorld).1.toOption = some .built ∧
      let d := (copied.build.runIn copiedWorld).2.disk
      let e := (copied.check.runIn copiedWorld).2.disk
      ∀ s ∈ copied.sources,
        (d.metadata? s = e.metadata? s ∧ d.contents? s = e.contents? s) ∧
          d.metadata? (copied.object s) ≠ none ∧ e.metadata? (copied.object s) = none ∧
            (e.contentHash (copied.object s)).toOption = none := by
  decide +kernel

theorem build_copiedWorld :
    copied.build.runIn copiedWorld = (.ok .built, (copied.build.runIn copiedWorld).2) :=
  Action.runIn_eq_ok copiedWorld_built.1

/-- After the objects have been removed, a build finds what an earlier one did not see. -/
theorem tellsApart_copiedWorld {made : Path → Option Disk}
    (hmade : ∀ o d, made o = some d → d = (copied.build.runIn copiedWorld).2.disk) :
    copied.TellsApart made (copied.check.runIn copiedWorld).2.disk := by
  refine ⟨fun s hs d hd _ => ?_, fun s hs d hd q hq => ?_, fun s hs d hd => ?_⟩
  · obtain rfl := hmade _ _ hd
    obtain ⟨⟨hmetadata, -⟩, -⟩ := copiedWorld_built.2 s hs
    simp only [Disk.metadataHash?, Disk.modified?, hmetadata]
  · obtain rfl := hmade _ _ hd
    obtain rfl := List.mem_singleton.1 hq
    obtain ⟨⟨hmetadata, hcontents⟩, -⟩ := copiedWorld_built.2 q hs
    exact ⟨fun _ => hcontents, fun _ _ _ => hmetadata, fun _ _ _ => hcontents⟩
  · obtain rfl := hmade _ _ hd
    obtain ⟨-, hsome, hnone, hdigest⟩ := copiedWorld_built.2 s hs
    refine ⟨fun heq => absurd (heq.trans hnone) hsome, fun h _ hnow => ?_, fun h _ hnow => ?_⟩
    · simp [Disk.metadataHash?, hnone] at hnow
    · rw [hnow] at hdigest
      cases hdigest

/-- Sources are copied, all that was made is removed, and the sources are copied again. -/
theorem copied_right_iff_unchanged : copied.Lawful ∧ ∃ made v,
    copied.Run made copiedWorld ∧ copied.build.runIn copiedWorld = (.ok .built, v) ∧
      copied.TellsApart made (copied.check.runIn copiedWorld).2.disk ∧
      (∃ d, made copied.artifact = some d) ∧
      ∀ s ∈ copied.sources, ∃ d,
        copied.madeAfter made copiedWorld v (.ok .built) (copied.object s) = some d ∧
          (copied.ObjectRight v.disk s ↔
            v.disk.contents? (copied.object s) = d.contents? (copied.object s)) := by
  have hnone : (copiedWorld.disk.standing copied.manifest).isNone = true := by decide +kernel
  have habsent (f : FileNode) : copiedWorld.disk.standing copied.manifest ≠ some (.file f) := by
    intro hf
    rw [hf] at hnone
    cases hnone
  have hrun := ((Run.start habsent Jobs.Scheduler.settled_empty).build build_copiedWorld).edit
    (v := copiedWorld) (fun f hf => absurd hf (habsent f)) (.inr rfl)
  have htells : copied.TellsApart (copied.madeAfter (fun _ => none) copiedWorld
      (copied.build.runIn copiedWorld).2 (.ok .built)) (copied.check.runIn copiedWorld).2.disk := by
    apply tellsApart_copiedWorld
    intro o d hd
    rcases madeAfter_eq_some hd with hnot | heq
    · cases hnot
    · exact heq
  have hmade : ∃ d, copied.madeAfter (fun _ => none) copiedWorld
      (copied.build.runIn copiedWorld).2 (.ok .built) copied.artifact = some d := by
    cases course_of_build lawful_copied build_copiedWorld with
    | ended hbuilt _ _ => exact absurd rfl hbuilt
    | built hcheck _ _ _ => exact ⟨_, madeAfter_artifact (congrArg Prod.fst hcheck)⟩
  obtain ⟨hobjects, -⟩ :=
    hrun.right_iff_unchanged lawful_copied build_copiedWorld (.inl rfl) htells
  exact ⟨lawful_copied, _, _, hrun, build_copiedWorld, htells, hmade, hobjects⟩

end IncrementalBuild.Build.Site
