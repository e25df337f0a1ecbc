import IncrementalBuild.Proofs.Settings.Reachable
import IncrementalBuild.Proofs.Settings.Sequences

/-!
The index through sequences of operations: whatever was done to any number of description files, the
index of each is in step with its values, merging appends, and an operation that fails does nothing.
-/

namespace IncrementalBuild.Settings

namespace Step

variable {s : Step} {files : Files}

/-- What a step makes of its file, or the error it returns. -/
def outcome (s : Step) (files : Files) : Except Error Model :=
  match s.operation with
  | .read path source => Model.ofSource path source
  | .set group key value => (files s.file).set group key value
  | .merge other => .ok ((files s.file).merge (files other))
  | .resolve => .ok (files s.file).resolve

theorem result_eq (s : Step) (files : Files) :
    s.result files = (s.outcome files).toOption.getD (files s.file) := by
  obtain ⟨file, operation⟩ := s
  cases operation <;> rfl

/-- A step that returns an error leaves all files as they were. -/
theorem apply_of_error {e : Error} (h : s.outcome files = .error e) : s.apply files = files := by
  rw [apply, result_eq, h]
  exact Function.update_eq_self s.file files

theorem apply_of_ne {name : String} (h : name ≠ s.file) : s.apply files name = files name :=
  Function.update_of_ne h _ _

theorem apply_merge (files : Files) (name other : String) :
    apply ⟨name, .merge other⟩ files name = (files name).merge (files other) :=
  Function.update_self _ _ _

theorem apply_reachable (h : ∀ name, (files name).Reachable) (name : String) :
    (s.apply files name).Reachable := by
  by_cases hname : name = s.file
  · subst hname
    rw [apply, Function.update_self, result_eq]
    cases houtcome : s.outcome files with
    | error e => exact h s.file
    | ok m =>
      unfold outcome at houtcome
      split at houtcome
      · exact .ofSource houtcome
      · exact (h s.file).set houtcome
      · cases houtcome
        exact (h s.file).merge (h _)
      · cases houtcome
        exact (h s.file).resolve
  · rw [apply_of_ne hname]
    exact h name

end Step

namespace Files

theorem run_reachable (steps : List Step) {files : Files} (h : ∀ name, (files name).Reachable)
    (name : String) : (files.run steps name).Reachable := by
  induction steps generalizing files with
  | nil => exact h name
  | cons s steps ih => exact ih (s.apply_reachable h)

/-- After any sequence of operations on any number of files, the index of each file lists, under
every key of every group, values of that key in ascending order, and lists every value once. A merge
appends, under every key, what the other file has there, its groups are those of both, and no other
file changes; and an operation that returns an error changes nothing at all. -/
theorem run_in_step (steps : List Step) :
    let files := run (fun _ => .empty) steps
    (∀ name group keys key ids, (group, keys) ∈ (files name).index.entries →
      (key, ids) ∈ keys.entries → ids.Pairwise (· < ·) ∧
        ∀ id ∈ ids, ∃ v, (files name).values[id]? = some v ∧ v.group = group ∧ v.key = key) ∧
    (∀ name, (files name).listing.Perm (List.range (files name).values.size)) ∧
    (∀ name other, let merged := Step.apply ⟨name, .merge other⟩ files
      (∀ group key, (merged name).contentsOf group key =
        (files name).contentsOf group key ++ (files other).contentsOf group key) ∧
      (∀ group, group ∈ (merged name).groups ↔
        group ∈ (files name).groups ∨ group ∈ (files other).groups) ∧
      ∀ name', name' ≠ name → merged name' = files name') ∧
    ∀ s e, Step.outcome s files = .error e → s.apply files = files := by
  have hstep (name : String) : (run (fun _ => .empty) steps name).InStep :=
    (run_reachable steps (fun _ => .empty) name).inStep
  refine ⟨fun name group keys key ids hkeys hids => ?_, fun name => (hstep name).listing_perm,
    fun name other => ⟨fun group key => ?_, fun group => ?_, fun name' hne => ?_⟩,
    fun s e => Step.apply_of_error⟩
  · obtain ⟨hascending, hbelongs⟩ := (hstep name).of_entry hkeys hids
    refine ⟨hascending, fun id hid => ?_⟩
    simpa [Model.belongs, Option.any_eq_true] using hbelongs id hid
  · rw [Step.apply_merge]
    exact ((hstep name).merge (hstep other) group key).2
  · rw [Step.apply_merge]
    exact Model.mem_groups_merge
  · exact Step.apply_of_ne (s := ⟨name, .merge other⟩) hne

/-- A file is laid over another one, which has values for the same keys. -/
def overlaid : List Step :=
  [⟨"base", .read ⟨"ws"⟩ "[G]\nX = 1\n[H]\nX = 2\n"⟩,
    ⟨"app", .read ⟨"app"⟩ "[G]\nX = 3\nY = 4\nX = 5\n"⟩, ⟨"app", .set "G" "Z" "6"⟩,
    ⟨"app", .resolve⟩, ⟨"app", .merge "base"⟩]

theorem overlaid_in_step :
    let files := run (fun _ => .empty) overlaid
    (∀ id ∈ [0, 2, 4], ∃ v, (files "app").values[id]? = some v ∧ v.group = "G" ∧ v.key = "X") ∧
      Step.apply ⟨"app", .merge "base"⟩ files "base" = files "base" ∧
      Step.apply ⟨"app", .set "G" "X" "$("⟩ files = files := by
  obtain ⟨hlists, -, hmerge, herror⟩ := run_in_step overlaid
  have hindex : (run (fun _ => .empty) overlaid "app").index = ⟨[("", ⟨[]⟩),
      ("G", ⟨[("X", [0, 2, 4]), ("Y", [1]), ("Z", [3])]⟩), ("H", ⟨[("X", [5])]⟩)]⟩ := by
    cbv
  have hentry := hlists "app" "G" ⟨[("X", [0, 2, 4]), ("Y", [1]), ("Z", [3])]⟩ "X" [0, 2, 4]
    (by simp [hindex]) (by simp)
  have hopen : isUnterminated "$(" = true := by cbv
  exact ⟨hentry.2, (hmerge "app" "base").2.2 "base" (by decide),
    herror ⟨"app", .set "G" "X" "$("⟩ _ (if_pos hopen)⟩

end Files

end IncrementalBuild.Settings
