import IncrementalBuild.Proofs.State.Lasting
import IncrementalBuild.Proofs.World
import IncrementalBuild.Version.Files

/-!
Generated version files. Once they have been written they say what the project's description says,
and as long as they and the description are left alone they are not written again.
-/

namespace IncrementalBuild

/-- The version files that a project declares. -/
def Project.versionFiles (p : Project) : List Path :=
  p.versionHeader.toList ++ p.versionSourceFile.toList

namespace Version

variable {ν : Type} {w v : World ν} {d e : Disk} {p : Project}

/-- The version files that a project declares are there, with the contents they should have. -/
inductive InPlace (d : Disk) (p : Project) : Prop where
  | none : p.versionHeader = none → p.versionSourceFile = none → InPlace d p
  | files {header source : Path} {info : Info} {headerName : String} :
      p.versionHeader = some header → p.versionSourceFile = some source →
      Info.ofProject d p = .ok info → header.fileName? = some headerName →
      d.readText header = .ok (info.header p.language) →
      d.readText source = .ok (info.source p.language headerName) → InPlace d p

theorem ofProject_keeps (hkeeps : d.KeepsNode e p.path) (hpresent : d.present p.path = true) :
    Info.ofProject e p = Info.ofProject d p := by
  simp only [Info.ofProject, Disk.metadata?, hkeeps.lookup_eq hpresent]

theorem InPlace.keeps (h : InPlace d p) (hpresent : d.present p.path = true)
    (hpath : d.KeepsNode e p.path) (hfiles : ∀ q ∈ p.versionFiles, d.KeepsNode e q) :
    InPlace e p := by
  cases h with
  | none hheader hsource => exact .none hheader hsource
  | files hheader hsource hinfo hname hheaderText hsourceText =>
    refine .files hheader hsource ((ofProject_keeps hpath hpresent).trans hinfo) hname ?_ ?_
    · exact (hfiles _ (by simp [Project.versionFiles, hheader])).readText hheaderText
    · exact (hfiles _ (by simp [Project.versionFiles, hsource])).readText hsourceText

/-- A relation that is kept where the version files of a project and the directories they lie in are
made is kept by all that writes them. -/
theorem keeps_writeFiles {R : World ν → World ν → Prop} (hR : World.Frame R)
    {p : Project}
    (hparent : ∀ q ∈ p.versionFiles, (Action.createParent q : Action ν Unit).Keeps R)
    (hwrite : ∀ q ∈ p.versionFiles, ∀ wrap bytes,
      (Action.onDisk wrap (·.write q bytes) : Action ν Unit).Keeps R) :
    (writeFiles p : Action ν Bool).Keeps R := by
  have hfile (q) (hq : q ∈ p.versionFiles) (contents : String) :
      (writeIfChanged q contents : Action ν Bool).Keeps R := by
    unfold writeIfChanged
    refine .bind hR (.disk hR) fun d => ?_
    split
    · exact .pure hR _
    · exact .bind hR (hparent q hq) fun _ => .bind hR (hwrite q hq _ _) fun _ => .pure hR _
  unfold writeFiles
  split
  · exact .pure hR _
  next header source hheader hsource =>
    refine .bind hR (.disk hR) fun d => .bind hR (.ofExcept hR _) fun info => ?_
    split
    · exact .throw hR _
    · refine .bind hR (hfile header (by simp [Project.versionFiles, hheader]) _) fun _ => ?_
      refine .bind hR (hfile source (by simp [Project.versionFiles, hsource]) _) fun _ => ?_
      exact .pure hR _
  · exact .throw hR _

/-- A file that has the contents already is not written. -/
theorem runIn_writeIfChanged {q : Path} {contents : String}
    (h : w.disk.readText q = .ok contents) :
    (writeIfChanged q contents).runIn w = (.ok false, w) := by
  unfold writeIfChanged
  rw [Action.runIn_bind, Action.runIn_disk]
  simp only [h, Except.toOption, beq_self_eq_true, if_true]
  rfl

/-- Afterwards the file has the contents, and nothing else was written. -/
theorem of_runIn_writeIfChanged (Watched : Path → Prop) {q : Path} {contents : String}
    {wrote : Bool} (hw : w.disk.Grounded)
    (h : (writeIfChanged q contents).runIn w = (.ok wrote, v)) :
    w.Leaves Watched [q] v ∧ v.scheduler = w.scheduler ∧ v.disk.readText q = .ok contents := by
  unfold writeIfChanged at h
  rw [Action.runIn_bind, Action.runIn_disk] at h
  dsimp only at h
  split at h
  next hsame =>
    cases h
    refine ⟨.refl hw, rfl, ?_⟩
    cases hread : w.disk.readText q with
    | error fault => simp [hread, Except.toOption] at hsame
    | ok text =>
      simp only [hread, Except.toOption, beq_iff_eq, Option.some.injEq] at hsame
      rw [hsame]
  next =>
    obtain ⟨_, x, hparent, h⟩ := Action.runIn_bind_eq_ok.1 h
    obtain ⟨hleaves, hscheduler⟩ :=
      Action.of_runIn_createParent Watched [q] hw hparent
    obtain ⟨_, y, hwriteRun, h⟩ := Action.runIn_bind_eq_ok.1 h
    cases h
    rw [Action.runIn_onDisk] at hwriteRun
    split at hwriteRun
    next e hwrite =>
      cases hwriteRun
      have hplaced := (Disk.placed_of_write hwrite).leaves hleaves.disk.grounded Watched
      exact ⟨hleaves.trans ⟨rfl, hplaced⟩, hscheduler,
        Disk.readText_of_contents? (Disk.contents?_of_write hwrite)⟩
    next => cases hwriteRun

/-- Version files that are in place are not written again. -/
theorem InPlace.runIn_writeFiles (h : InPlace w.disk p) :
    (writeFiles p).runIn w = (.ok false, w) := by
  unfold writeFiles
  cases h with
  | none hheader hsource =>
    rw [hheader, hsource]
    rfl
  | files hheader hsource hinfo hname hheaderText hsourceText =>
    rw [hheader, hsource]
    simp only [Action.runIn_bind, Action.runIn_disk, Action.runIn_ofExcept, hinfo, hname,
      runIn_writeIfChanged hheaderText, runIn_writeIfChanged hsourceText]
    rfl

/-- Once the version files have been written they are in place, and nothing else was written. -/
theorem inPlace_of_writeFiles (Watched : Path → Prop) {wrote : Bool} (hw : w.disk.Grounded)
    (hpresent : w.disk.present p.path = true)
    (hapart : p.path.ApartFrom p.versionFiles w.disk.workingDirectory)
    (hdistinct : p.versionFiles.Pairwise fun q q' =>
      q.location w.disk.workingDirectory ≠ q'.location w.disk.workingDirectory)
    (h : (writeFiles p).runIn w = (.ok wrote, v)) :
    w.Leaves Watched p.versionFiles v ∧ v.scheduler = w.scheduler ∧ InPlace v.disk p := by
  unfold writeFiles at h
  split at h
  next hheader hsource =>
    cases h
    exact ⟨.refl hw, rfl, .none hheader hsource⟩
  next header source hheader hsource =>
    have hfiles : p.versionFiles = [header, source] := by
      simp [Project.versionFiles, hheader, hsource]
    rw [hfiles] at hapart hdistinct ⊢
    obtain ⟨d, x, hdisk, h⟩ := Action.runIn_bind_eq_ok.1 h
    cases hdisk
    obtain ⟨info, x, hinfoRun, h⟩ := Action.runIn_bind_eq_ok.1 h
    rw [Action.runIn_ofExcept] at hinfoRun
    obtain ⟨hinfo, rfl⟩ := Prod.mk.inj hinfoRun
    split at h
    · cases h
    next headerName hname =>
    obtain ⟨wroteHeader, x, hheaderRun, h⟩ := Action.runIn_bind_eq_ok.1 h
    obtain ⟨wroteSource, y, hsourceRun, h⟩ := Action.runIn_bind_eq_ok.1 h
    cases h
    obtain ⟨hfirst, hscheduler, hheaderText⟩ :=
      of_runIn_writeIfChanged (fun _ => True) hw hheaderRun
    obtain ⟨hsecond, hscheduler', hsourceText⟩ :=
      of_runIn_writeIfChanged (fun _ => True) hfirst.disk.grounded hsourceRun
    have hall : w.Leaves (fun _ => True) [header, source] v :=
      (hfirst.mono (by simp)).trans (hsecond.mono (by simp))
    have hpath := hall.disk.keepsNode p.path trivial hapart
    have hheaderKept : x.disk.KeepsNode v.disk header := by
      refine hsecond.disk.keepsNode header trivial fun q hq => ?_
      obtain rfl := List.mem_singleton.1 hq
      rw [hfirst.disk.working_eq]
      exact List.rel_of_pairwise_cons hdistinct List.mem_cons_self
    refine ⟨⟨hall.searchPath_eq, hall.disk.narrow fun _ _ => trivial⟩,
      hscheduler'.trans hscheduler, ?_⟩
    exact .files hheader hsource ((ofProject_keeps hpath hpresent).trans hinfo) hname
      (hheaderKept.readText hheaderText) hsourceText
  · cases h

end Version

end IncrementalBuild
