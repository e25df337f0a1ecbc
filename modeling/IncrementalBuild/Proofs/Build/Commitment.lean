import IncrementalBuild.Proofs.Build.Changes

/-!
What a build commits. When a build has made something, the manifest it leaves has a record of every
object of its sources and of the artifact, and no other; whether the records were kept for what was
fresh or taken for what was stale, all of them are of the configuration that was built.
-/

namespace IncrementalBuild

open Build State

namespace State.Manifest

variable {m n : Manifest} {d e : Disk} {fingerprint : UInt64} {o output : Path} {r : Record}

/-- There is a record of an output, and it is of a configuration. -/
def Carries (m : Manifest) (fingerprint : UInt64) (output : Path) : Prop :=
  ∃ r, m.get? output = some r ∧ r.fingerprint = fingerprint

/-- Spellings of one path have one record. -/
theorem get?_congr (h : (o == output) = true) (m : Manifest) : m.get? o = m.get? output := by
  have hcomponents : o.components = output.components := of_decide_eq_true h
  unfold get? SortedMap.get?
  simp only [Path.order, hcomponents]

/-- Recording an output for a configuration leaves no record that is of another one. -/
theorem Carries.record {source : Path} {dependencies : List Path}
    (h : m.record d source output fingerprint dependencies = .ok n) :
    n.Carries fingerprint output ∧ ∀ o, m.Carries fingerprint o → n.Carries fingerprint o := by
  obtain ⟨⟨r, hr, hfingerprint, -⟩, hothers⟩ := record_eq_ok h
  refine ⟨⟨r, hr, hfingerprint⟩, fun o ho => ?_⟩
  cases heq : o == output with
  | true => exact ⟨r, (get?_congr heq n).trans hr, hfingerprint⟩
  | false =>
    obtain ⟨r', hr', hfingerprint'⟩ := ho
    exact ⟨r', (hothers o heq).trans hr', hfingerprint'⟩

/-- What is retained is a record of one of the outputs. -/
theorem exists_of_get?_retain {outputs : List Path} (h : (m.retain outputs).get? o = some r) :
    ∃ q ∈ outputs, (o == q) = true := by
  by_contra hnone
  have hget : (m.retain outputs).get? o = none := by
    refine SortedMap.get?_keep_eq_none fun k hk => List.any_eq_false.2 fun q hq heq => hnone ?_
    have hcomponents : q.components = k.components := of_decide_eq_true heq
    exact ⟨q, hq, decide_eq_true ((Path.order_eq_iff.1 hk).trans hcomponents.symm)⟩
  rw [hget] at h
  cases h

/-- A valid manifest that is kept is what stands in its file. -/
theorem Valid.exists_standing_of_write {p : Path} (hn : n.Valid) (h : n.write p d = (.ok (), e)) :
    ∃ f, e.standing p = some (.file f) ∧ ofBytes? f.bytes = some n := by
  obtain ⟨made, written, -, -, hrename⟩ := write_eq_ok h
  have hmoved := Disk.moved_of_rename hrename
  obtain ⟨f, -, hf⟩ := hmoved.node_self
  have hstanding : e.standing p = some (.file f) := by rw [Disk.standing, hmoved.working_eq, hf]
  exact ⟨f, hstanding, by rw [standing_of_write h hstanding, hn.ofBytes?_toText]⟩

end State.Manifest

namespace Builder

variable {ν : Type} {choose : ToolchainChoice ν} {b : Builder} {p : Project} {request : Request}
  {w v versioned ready : World ν} {c : Checked ν} {d : Disk} {fingerprint : UInt64}
  {m n : Manifest} {us : List CompileUnit}

/-- Stale units are recorded for the configuration, and no record of it is lost. -/
theorem carries_of_recordUnits (h : recordUnits d fingerprint m us = .ok n) :
    (∀ o, m.Carries fingerprint o → n.Carries fingerprint o) ∧
      ∀ u ∈ us, u.isStale = true → n.Carries fingerprint u.output := by
  induction us generalizing m with
  | nil =>
    cases h
    exact ⟨fun _ ho => ho, nofun⟩
  | cons u us ih =>
    by_cases hstale : u.isStale = true
    · rw [recordUnits_of_stale hstale] at h
      obtain ⟨_, -, h⟩ := bind_eq_ok_iff.1 h
      obtain ⟨m', hrecord, h⟩ := bind_eq_ok_iff.1 h
      obtain ⟨hself, hkept⟩ := Manifest.Carries.record hrecord
      obtain ⟨hothers, hunits⟩ := ih h
      exact ⟨fun o ho => hothers o (hkept o ho),
        List.forall_mem_cons.2 ⟨fun _ => hothers _ hself, hunits⟩⟩
    · rw [recordUnits, if_neg hstale] at h
      obtain ⟨hothers, hunits⟩ := ih h
      exact ⟨hothers, List.forall_mem_cons.2 ⟨fun hu => absurd hu hstale, hunits⟩⟩

/-- If what is fresh has a record of the configuration, what a build records has one of every output
and no other, and the record of the artifact was taken of all inputs. -/
theorem carries_of_recordBuild (hm : m.Valid)
    (hfresh : ∀ u ∈ us, u.isStale = false → m.Carries fingerprint u.output)
    (h : recordBuild d p request fingerprint m us = .ok n) :
    n.Valid ∧ (∀ o ∈ us.map CompileUnit.output ++ [p.outputFile], n.Carries fingerprint o) ∧
      (∀ o r, n.get? o = some r →
        ∃ q ∈ us.map CompileUnit.output ++ [p.outputFile], (o == q) = true) ∧
      ∃ r, n.get? p.outputFile = some r ∧ r.Taken d p.path (artifactInputs us request) := by
  refine ⟨valid_of_recordBuild hm h, ?_⟩
  obtain ⟨m₁, hrecordUnits, h⟩ := bind_eq_ok_iff.1 h
  obtain ⟨m₂, hrecord, h⟩ := bind_eq_ok_iff.1 h
  cases h
  obtain ⟨hothers, hstale⟩ := carries_of_recordUnits hrecordUnits
  obtain ⟨hartifact, hkept⟩ := Manifest.Carries.record hrecord
  obtain ⟨⟨r, hr, -, htaken⟩, -⟩ := Manifest.record_eq_ok hrecord
  refine ⟨fun o ho => ?_, fun o r hr => Manifest.exists_of_get?_retain hr, r, ?_, htaken⟩
  · have hcarries : m₂.Carries fingerprint o := by
      obtain ho | ho := List.mem_append.1 ho
      · obtain ⟨u, hu, rfl⟩ := List.mem_map.1 ho
        cases hu' : u.isStale with
        | true => exact hkept _ (hstale u hu hu')
        | false => exact hkept _ (hothers _ (hfresh u hu hu'))
      · obtain rfl := List.mem_singleton.1 ho
        exact hartifact
    obtain ⟨r, hr, hfingerprint⟩ := hcarries
    exact ⟨r, (Manifest.get?_retain ho).trans hr, hfingerprint⟩
  · rw [Manifest.get?_retain (by simp), hr]

/-- The objects of the sources of a project, in their order. -/
def objects (p : Project) (extension : String) : List Path :=
  p.sourceFiles.map
    (objectPath (Path.commonRoot p.sourceFiles) p.intermediateDirectory extension)

namespace Checking

theorem units_eq (h : Checking choose b p w v c versioned ready) :
    c.units = checkedUnits v.disk p.sourceFiles (Path.commonRoot p.sourceFiles)
      p.intermediateDirectory c.fingerprint c.toolchain.compileStep c.manifest
        c.toolchain.objectExtension :=
  congrArg Prod.fst h.checked_eq

theorem map_output_eq (h : Checking choose b p w v c versioned ready) :
    c.units.map CompileUnit.output = objects p c.toolchain.objectExtension := by
  rw [h.units_eq, map_output_checkedUnits, objects]

/-- With a compile step, what is fresh has a record of the configuration. -/
theorem carries_of_fresh (h : Checking choose b p w v c versioned ready)
    (hstep : c.toolchain.compileStep = true) {u : CompileUnit} (hu : u ∈ c.units)
    (hfresh : u.isStale = false) : c.manifest.Carries c.fingerprint u.output := by
  rw [h.units_eq, hstep] at hu
  obtain ⟨s, -, rfl⟩ := List.mem_map.1 hu
  obtain ⟨r, hr, hverdict⟩ := CompileUnit.record_of_fresh hfresh
  rw [(CompileUnit.check_make s _ _ _ _ _).2.1]
  exact ⟨r, hr, (Record.verdict_eq_fresh_iff.1 hverdict).1⟩

end Checking

/-- What the manifest of a project is that stands on a disk after the project was built: it has a
record of the object of every source and of the artifact, and no other, and all of them are of the
configuration that was built. The record of the artifact has all objects, in the order of their
sources, and then the libraries it is linked against, as long as the description of the project is
none of these. -/
structure Committed (b : Builder) (p : Project) (c : Checked ν) (d : Disk) (n : Manifest) :
    Prop where
  standing : ∃ f, d.standing p.manifestFile = some (.file f) ∧ Manifest.ofBytes? f.bytes = some n
  valid : n.Valid
  recorded_iff : ∀ o, (∃ r, n.get? o = some r) ↔
    ∃ q ∈ objects p c.toolchain.objectExtension ++ [p.outputFile], (o == q) = true
  fingerprint_eq : ∀ o r, n.get? o = some r → r.fingerprint = c.fingerprint
  artifact : ∃ libraries, b.dependencyOutputs p = .ok libraries ∧
    ((∀ q ∈ objects p c.toolchain.objectExtension ++ libraries, (q == p.path) = false) →
      ∃ r, n.get? p.outputFile = some r ∧ r.dependencies.map DependencyRecord.path =
        objects p c.toolchain.objectExtension ++ libraries)

/-- A build that has made something with a toolchain that has a compile step leaves a manifest that
is as it should be, whatever records there were before. -/
theorem committed_of_built (h : (b.buildProject choose p).runIn w = (.ok .built, v)) :
    ∃ announced begun ended c n, Making choose b p w v announced begun ended c n ∧
      (c.toolchain.compileStep = true →
        c.fingerprint = b.fingerprint begun.disk p ∧ Committed b p c v.disk n) := by
  obtain ⟨announced, begun, ended, c, n, hmaking⟩ := exists_making h
  obtain ⟨versioned, ready, hchecking⟩ := exists_checking hmaking.check_eq
  refine ⟨announced, begun, ended, c, n, hmaking,
    fun hstep => ⟨hchecking.fingerprint_eq, ?_⟩⟩
  obtain ⟨hvalid, hcarries, honly, r, hr, htaken⟩ := carries_of_recordBuild
    (Manifest.valid_of_empty_or_read hchecking.manifest_standing)
    (fun u => hchecking.carries_of_fresh hstep) hmaking.record_eq
  rw [hchecking.map_output_eq] at hcarries honly
  obtain ⟨libraries, makeReady, console, hlibraries, hrequest, -⟩ := hchecking.chosen
  constructor
  case standing => exact hvalid.exists_standing_of_write hmaking.write_eq
  case valid => exact hvalid
  case recorded_iff =>
    refine fun o => ⟨fun ⟨r, hr⟩ => honly o r hr, fun ⟨q, hq, heq⟩ => ?_⟩
    obtain ⟨r, hr, -⟩ := hcarries q hq
    exact ⟨r, (Manifest.get?_congr heq n).trans hr⟩
  case fingerprint_eq =>
    intro o r hr
    obtain ⟨q, hq, heq⟩ := honly o r hr
    obtain ⟨r', hr', hfingerprint⟩ := hcarries q hq
    rw [Manifest.get?_congr heq, hr'] at hr
    cases hr
    exact hfingerprint
  case artifact =>
    refine ⟨libraries, hlibraries, fun hdescription => ⟨r, hr, ?_⟩⟩
    rw [htaken.paths_eq, artifactInputs, hchecking.map_output_eq, hrequest, List.filter_eq_self]
    exact fun q hq => by simp [hdescription q hq]

end Builder

namespace Build.Site

/-- A manifest with a record of a source that has been removed. -/
def removedText : String :=
  "\x7b\"version\":1,\"records\":\x7b\"/w/c.o\":\x7b\"fingerprint\":1,\"input_hash\":1," ++
    "\"source\":\x7b\"metadata\":1,\"content_hash\":\"\"\x7d,\"dependencies\":[]\x7d\x7d\x7d"

/-- The sources that are copied, beside the manifest of an earlier build. -/
def removedWorld : World Unit :=
  { copiedWorld with
    disk := {
      nodes := ⟨[(["w"], .directory), (["w", "P.manifest"], .file ⟨removedText.toUTF8, 1, false⟩),
        (["w", "a.c"], .file ⟨"one".toUTF8, 1, false⟩),
        (["w", "b.c"], .file ⟨"two".toUTF8, 1, false⟩),
        (["w", "p.kiln"], .file ⟨.empty, 1, false⟩)]⟩
      workingDirectory := []
      clock := 2 } }

theorem removedWorld_built : (copied.build.runIn removedWorld).1.toOption = some .built := by
  decide +kernel

theorem removed_recorded :
    ((Manifest.ofBytes? removedText.toUTF8).bind fun m => m.get? ⟨"/w/c.o"⟩).isSome = true := by
  decide +kernel

theorem objects_copied :
    (copied.builder.dependencyOutputs copied.project).toOption.any List.isEmpty = true ∧
      (∀ q ∈ Builder.objects copied.project "o" ++ [copied.project.outputFile],
        ((⟨"/w/c.o"⟩ : Path) == q) = false) ∧
      ∀ q ∈ Builder.objects copied.project "o", (q == copied.project.path) = false := by
  decide +kernel

/-- The record of the removed source is dropped, and the artifact is recorded with both objects. -/
theorem committed_removed : ∃ v announced begun ended c n,
    Builder.Making copied.choose copied.builder copied.project removedWorld v announced begun ended
      c n ∧
    c.toolchain.compileStep = true ∧ copied.builder.Committed copied.project c v.disk n ∧
    (∃ m r, Manifest.ofBytes? removedText.toUTF8 = some m ∧ m.get? ⟨"/w/c.o"⟩ = some r) ∧
    n.get? ⟨"/w/c.o"⟩ = none ∧
    ∃ r, n.get? copied.project.outputFile = some r ∧
      r.dependencies.map DependencyRecord.path = Builder.objects copied.project "o" := by
  obtain ⟨announced, begun, ended, c, n, hmaking, hcommitted⟩ :=
    Builder.committed_of_built (Action.runIn_eq_ok removedWorld_built)
  obtain ⟨versioned, ready, hchecking⟩ := Builder.exists_checking hmaking.check_eq
  obtain ⟨-, makeReady, console, -, -, hchoose, hready⟩ := hchecking.chosen
  cases hchoose
  have htoolchain : copying = c.toolchain := Except.ok.inj (Prod.mk.inj hready).1
  have hextension : c.toolchain.objectExtension = "o" := htoolchain ▸ rfl
  have hstep : c.toolchain.compileStep = true := htoolchain ▸ rfl
  obtain ⟨-, hcommitted⟩ := hcommitted hstep
  obtain ⟨hnone, hapart, hdescription⟩ := objects_copied
  obtain ⟨libraries, hlibraries, hartifact⟩ := hcommitted.artifact
  rw [hlibraries] at hnone
  obtain rfl := List.isEmpty_iff.1 hnone
  rw [hextension, List.append_nil] at hartifact
  obtain ⟨m, hread, hget⟩ := Option.bind_eq_some_iff.1
    (Option.get_mem removed_recorded)
  refine ⟨_, announced, begun, ended, c, n, hmaking, hstep, hcommitted,
    ⟨m, _, hread, hget⟩, ?_, hartifact hdescription⟩
  refine Option.eq_none_iff_forall_ne_some.2 fun r hr => ?_
  obtain ⟨q, hq, heq⟩ := (hcommitted.recorded_iff _).1 ⟨r, hr⟩
  rw [hextension] at hq
  rw [hapart q hq] at heq
  cases heq

end Build.Site

end IncrementalBuild
