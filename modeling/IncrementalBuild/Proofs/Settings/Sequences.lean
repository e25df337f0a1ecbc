import IncrementalBuild.Settings.Resolution
import IncrementalBuild.Proofs.Except
import Mathlib

/-!
Sequences of operations on description files. What has been found out about a file is forgotten by
its next resolution and by every other operation that reads it, so of all resolutions in a sequence
only the last one of a file is of any consequence for that file.
-/

namespace IncrementalBuild.Settings

namespace Model

variable {m n : Model}

/-- What a model declares, with nothing found out about it. -/
def unresolved (m : Model) : Model :=
  { m with findings := .blank 0 }

theorem unresolved_addGroup (group : String) :
    (m.addGroup group).unresolved = m.unresolved.addGroup group := rfl

theorem unresolved_resolve : m.resolve.unresolved = m.unresolved := rfl

theorem unresolved_foldl {β : Type} {f : Model → β → Model}
    (hf : ∀ m b, (f m b).unresolved = f m.unresolved b) (bs : List β) :
    (bs.foldl f m).unresolved = bs.foldl f m.unresolved := by
  induction bs generalizing m with
  | nil => rfl
  | cons b bs ih => rw [List.foldl_cons, List.foldl_cons, ih, hf]

/-- Merging looks at what is declared, and not at what has been found out about it. -/
theorem unresolved_merge : (m.merge n).unresolved = m.unresolved.merge n.unresolved := by
  refine unresolved_foldl (fun m entry => ?_) n.index.entries
  refine (unresolved_foldl (fun m entry => ?_) entry.2.entries).trans ?_
  · exact unresolved_foldl (fun _ _ => rfl) entry.2
  · rw [unresolved_addGroup]

/-- A model that was read has not been resolved. -/
theorem unresolved_ofSource {path : Path} {source : String} (h : ofSource path source = .ok m) :
    m.unresolved = m := by
  obtain ⟨statements, -, h⟩ := bind_eq_ok_iff.1 h
  cases h
  refine unresolved_foldl (fun m s => ?_) statements
  cases s <;> rfl

theorem unresolved_set (group key value : String) :
    m.unresolved.set group key value = (m.set group key value).map unresolved := by
  unfold set
  split <;> rfl

end Model

namespace Solver

variable {m : Model}

theorem pieces_unresolved (s : Solver) (origin : Value) (ps : List Piece) :
    s.pieces m.unresolved origin ps = s.pieces m origin ps := by
  induction ps with
  | nil => rfl
  | cons p ps ih =>
    rw [pieces, pieces, ih]
    cases p <;> rfl

theorem expand_unresolved (s : Solver) (origin : Value) (text : String) :
    s.expand m.unresolved origin text = s.expand m origin text := by
  simp only [expand, pieces_unresolved]

theorem literal_unresolved (s : Solver) (origin : Value) :
    s.literal m.unresolved origin = s.literal m origin := by
  funext l
  cases l with
  | reference name => rfl
  | quoted t => exact expand_unresolved s origin t

theorem allHold_unresolved (s : Solver) (origin : Value) (cs : List Condition) :
    s.allHold m.unresolved origin cs = s.allHold m origin cs := by
  induction cs with
  | nil => rfl
  | cons c cs ih => rw [allHold, allHold, literal_unresolved, ih]

theorem textWith_unresolved (deeper : Option Solver) :
    textWith deeper m.unresolved = textWith deeper m := by
  funext id
  simp only [textWith, expand_unresolved]
  rfl

theorem activeWith_unresolved (deeper : Option Solver) :
    activeWith deeper m.unresolved = activeWith deeper m := by
  funext id
  simp only [activeWith, allHold_unresolved]
  rfl

/-- A solver answers from what a model declares and from what it is handed on, and looks at nothing
that was found out earlier. -/
theorem ofRoom_unresolved (room : Nat) : ofRoom m.unresolved room = ofRoom m room := by
  induction room with
  | zero => rw [ofRoom, ofRoom, textWith_unresolved, activeWith_unresolved]
  | succ room ih => rw [ofRoom, ofRoom, ih, textWith_unresolved, activeWith_unresolved]

end Solver

namespace Model

variable {m n : Model}

/-- A resolution forgets the one before. -/
theorem resolve_unresolved : m.unresolved.resolve = m.resolve := by
  simp only [resolve, Solver.ofRoom_unresolved]
  rfl

theorem resolve_resolve : m.resolve.resolve = m.resolve := by
  rw [← resolve_unresolved (m := m.resolve), unresolved_resolve, resolve_unresolved]

/-- What has been found out about a model is not merged. -/
theorem merge_resolve : m.merge n.resolve = m.merge n := rfl

end Model

/-- What can be done to a description file. -/
inductive Operation where
  /-- Reading replaces what the file holds; a text that cannot be read leaves it as it is. -/
  | read (path : Path) (source : String)
  | set (group key value : String)
  /-- Everything that the file of a name holds is added. -/
  | merge (other : String)
  | resolve

/-- An operation on the file of a name. -/
structure Step where
  file : String
  operation : Operation

/-- Description files by their names. -/
abbrev Files := String → Model

namespace Step

def isResolve (s : Step) : Bool :=
  match s.operation with
  | .resolve => true
  | _ => false

theorem isResolve_iff {s : Step} : s.isResolve ↔ s.operation = .resolve := by
  cases h : s.operation <;> simp [isResolve, h]

/-- What the file of a step is afterwards. An operation that fails leaves it as it is. -/
def result (s : Step) (files : Files) : Model :=
  match s.operation with
  | .read path source => (Model.ofSource path source).toOption.getD (files s.file)
  | .set group key value => ((files s.file).set group key value).toOption.getD (files s.file)
  | .merge other => (files s.file).merge (files other)
  | .resolve => (files s.file).resolve

def apply (s : Step) (files : Files) : Files :=
  Function.update files s.file (s.result files)

end Step

namespace Files

variable {files : Files} {name : String} {steps first second : List Step}

/-- The files after some steps, one after another. -/
def run (files : Files) (steps : List Step) : Files :=
  steps.foldl (fun files s => s.apply files) files

/-- What the files declare. -/
def unresolved (files : Files) : Files :=
  fun name => (files name).unresolved

theorem run_append : files.run (first ++ second) = (files.run first).run second :=
  List.foldl_append

/-- A step that resolves a file changes nothing that is declared, and what other steps do to
declarations depends on declarations alone. -/
theorem unresolved_apply (s : Step) (files : Files) :
    (s.apply files).unresolved = if s.isResolve then files.unresolved
      else s.apply files.unresolved := by
  obtain ⟨file, operation⟩ := s
  have hupdate (m : Model) : Files.unresolved (Function.update files file m) =
      Function.update files.unresolved file m.unresolved := by
    funext name
    by_cases hname : name = file
    · subst hname
      simp [Files.unresolved]
    · simp [Files.unresolved, hname]
  simp only [Step.apply, hupdate]
  cases operation with
  | read path source =>
    simp only [Step.result, Step.isResolve]
    cases hread : Model.ofSource path source with
    | error => rfl
    | ok m => simp [Except.toOption, Model.unresolved_ofSource hread]
  | set group key value =>
    simp only [Step.result, Step.isResolve, Files.unresolved, Model.unresolved_set]
    cases (files file).set group key value <;> rfl
  | merge other =>
    simp only [Step.result, Step.isResolve, Model.unresolved_merge]
    rfl
  | resolve =>
    simp only [Step.result, Step.isResolve, Model.unresolved_resolve]
    exact Function.update_eq_self file files.unresolved

/-- What files declare after some steps, they declare after the same steps without those that
resolve. -/
theorem unresolved_run (steps : List Step) (files : Files) :
    (files.run steps).unresolved = files.unresolved.run (steps.filter fun s => !s.isResolve) := by
  induction steps generalizing files with
  | nil => rfl
  | cons s steps ih =>
    have hstep : (files.run (s :: steps)).unresolved = ((s.apply files).run steps).unresolved := rfl
    rw [hstep, ih, unresolved_apply, List.filter_cons]
    cases s.isResolve <;> rfl

theorem run_of_ne (h : ∀ s ∈ steps, s.file ≠ name) : files.run steps name = files name := by
  induction steps generalizing files with
  | nil => rfl
  | cons s steps ih =>
    obtain ⟨hs, hsteps⟩ := List.forall_mem_cons.1 h
    refine (ih hsteps : (s.apply files).run steps name = _).trans ?_
    exact Function.update_of_ne (Ne.symm hs) _ _

/-- The last of some steps on a file resolves it. -/
def EndsResolved (name : String) (steps : List Step) : Prop :=
  ((steps.filter fun s => s.file = name).getLast?.map Step.isResolve) = some true

instance : Decidable (EndsResolved name steps) :=
  inferInstanceAs (Decidable (_ = _))

/-- A file that was resolved last is the resolution of what it declares. -/
theorem EndsResolved.run_eq (h : EndsResolved name steps) (files : Files) :
    files.run steps name = ((files.run steps).unresolved name).resolve := by
  obtain ⟨s, hlast, hresolve⟩ := Option.map_eq_some_iff.1 h
  obtain ⟨before, hfilter⟩ := List.getLast?_eq_some_iff.1 hlast
  obtain ⟨early, late, rfl, -, hlate⟩ := List.filter_eq_append_iff.1 hfilter
  obtain ⟨middle, rest, rfl, -, hfile, hrest⟩ := List.filter_eq_cons_iff.1 hlate
  obtain rfl : s.file = name := by simpa using hfile
  have hoperation := Step.isResolve_iff.1 hresolve
  have hafter : ∀ t ∈ rest, t.file ≠ s.file := by
    simpa using List.filter_eq_nil_iff.1 hrest
  rw [run_append, run_append]
  generalize (files.run early).run middle = reached
  have hresolved : reached.run (s :: rest) s.file = (reached s.file).resolve := by
    have hrest : (s.apply reached).run rest s.file = s.apply reached s.file := run_of_ne hafter
    refine hrest.trans ?_
    rw [Step.apply, Function.update_self, Step.result, hoperation]
  rw [Files.unresolved, hresolved, Model.unresolved_resolve, Model.resolve_unresolved]

/-- Of all resolutions in a sequence of operations on any number of files, only the last one of a
file matters for that file: as long as it is there, others may be put in or left out, and the file
ends with the same values and the same diagnostics. So a second resolution changes nothing, and it
is of no consequence whether a file that is merged into another has been resolved. -/
theorem run_eq_of_resolved_last :
    (∀ (files : Files) (first second : List Step) (name : String),
      first.filter (fun s => !s.isResolve) = second.filter (fun s => !s.isResolve) →
      EndsResolved name first → EndsResolved name second →
        (∀ group key, (files.run first name).valuesOf group key =
          (files.run second name).valuesOf group key) ∧
        (files.run first name).diagnostics = (files.run second name).diagnostics) ∧
    (∀ m : Model, m.resolve.resolve = m.resolve) ∧
    ∀ m n : Model, m.merge n.resolve = m.merge n := by
  refine ⟨fun files first second name hsteps hfirst hsecond => ?_, fun _ => Model.resolve_resolve,
    fun _ _ => Model.merge_resolve⟩
  have heq : files.run first name = files.run second name := by
    rw [hfirst.run_eq, hsecond.run_eq, unresolved_run, unresolved_run, hsteps]
  rw [heq]
  exact ⟨fun _ _ => rfl, rfl⟩

/-- A project is layered over a workspace that was resolved before, and is resolved in between. -/
def layered : List Step :=
  [⟨"workspace", .read ⟨"ws"⟩ "Root = out\nPath = $(Root)/$(Missing)\n"⟩, ⟨"workspace", .resolve⟩,
    ⟨"project", .read ⟨"app"⟩ "Missing = x\n"⟩, ⟨"project", .resolve⟩,
    ⟨"project", .set "" "Root" "other"⟩, ⟨"project", .resolve⟩, ⟨"project", .resolve⟩,
    ⟨"project", .merge "workspace"⟩, ⟨"project", .resolve⟩, ⟨"workspace", .resolve⟩]

def layeredOnce : List Step :=
  [⟨"workspace", .read ⟨"ws"⟩ "Root = out\nPath = $(Root)/$(Missing)\n"⟩,
    ⟨"project", .read ⟨"app"⟩ "Missing = x\n"⟩, ⟨"project", .set "" "Root" "other"⟩,
    ⟨"project", .merge "workspace"⟩, ⟨"project", .resolve⟩]

theorem layered_values : (run (fun _ => .empty) layered "project").valuesOf "" "Path" =
      (run (fun _ => .empty) layeredOnce "project").valuesOf "" "Path" ∧
    (run (fun _ => .empty) layered "project").valuesOf "" "Path" = ["other/x"] := by
  have hsteps : layered.filter (fun s => !s.isResolve) =
      layeredOnce.filter (fun s => !s.isResolve) := rfl
  have hsame := run_eq_of_resolved_last.1 (fun _ => .empty) layered layeredOnce "project" hsteps
    (by decide +kernel) (by decide +kernel)
  exact ⟨hsame.1 "" "Path", by cbv⟩

end Files

end IncrementalBuild.Settings
