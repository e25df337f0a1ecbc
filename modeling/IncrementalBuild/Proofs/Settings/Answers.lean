import IncrementalBuild.Proofs.Settings.Growth
import IncrementalBuild.Proofs.Settings.Reachable
import Mathlib.Data.Set.Basic

/-!
What the resolver answers, told by the findings it ends with. As long as those findings hold no
alarm, every answer on the way is the one that can be read off them.
-/

namespace IncrementalBuild.Settings

open Findings

/-- The final answers of `f` are those that the findings `g` call for, and a value has its text
only after the values that its text refers to. -/
structure Sound (m : Model) (g f : Findings) : Prop where
  texts_size : f.texts.size = m.values.size
  activities_size : f.activities.size = m.values.size
  text_eq : ∀ id v t, m.values[id]? = some v → f.text id = .done t →
    t = m.expansion g v.group v.raw
  activity_eq : ∀ id v a, m.values[id]? = some v → f.activity id = .known a →
    a = v.conditions.all (m.holds g v.group)
  acc : ∀ id t, f.text id = .done t → Acc (fun w v => m.References g v w) id

/-- Run on the way to the findings `g`, the computation gives `a` and keeps all answers sound;
afterwards the questions of `settles` have their final answers. -/
def Answers {α : Type} (m : Model) (g : Findings) (c : Resolving α) (a : α)
    (settles : Set Question) : Prop :=
  ∀ f, Sound m g f → Within (c.run f).2 g →
    (c.run f).1 = a ∧ Sound m g (c.run f).2 ∧ ∀ q ∈ settles, (c.run f).2.Settled q

section

variable {m : Model} {g : Findings} {α β : Type}

theorem answers_pure (a : α) : Answers m g (pure a) a ∅ :=
  fun _ hf _ => ⟨rfl, hf, fun _ hq => hq.elim⟩

theorem Answers.mono {c : Resolving α} {a : α} {big small : Set Question}
    (h : Answers m g c a big) (hsubset : small ⊆ big) : Answers m g c a small := by
  intro f hf hg
  obtain ⟨hvalue, hsound, hsettled⟩ := h f hf hg
  exact ⟨hvalue, hsound, fun q hq => hsettled q (hsubset hq)⟩

theorem Answers.bind {c : Resolving α} {k : α → Resolving β} {a : α} {b : β}
    {first second : Set Question} (hc : Answers m g c a first) (hkeeps : ∀ a, Keeps (k a))
    (hk : Answers m g (k a) b second) : Answers m g (c >>= k) b (first ∪ second) := by
  intro f hf hg
  have hgrows : Within (c.run f).2 ((c >>= k).run f).2 := (hkeeps _ _).within
  obtain ⟨hvalue, hsound, hfirst⟩ := hc f hf (hgrows.trans hg)
  have hrun : (c >>= k).run f = (k a).run (c.run f).2 := by
    rw [← hvalue]
    rfl
  rw [hrun] at hg hgrows ⊢
  obtain ⟨hvalue, hsound, hsecond⟩ := hk _ hsound hg
  refine ⟨hvalue, hsound, ?_⟩
  rintro q (hq | hq)
  · exact hgrows.settled (hfirst q hq)
  · exact hsecond q hq

theorem Answers.bind_empty {c : Resolving α} {k : α → Resolving β} {a : α} {b : β}
    (hc : Answers m g c a ∅) (hkeeps : ∀ a, Keeps (k a)) (hk : Answers m g (k a) b ∅) :
    Answers m g (c >>= k) b ∅ :=
  (hc.bind hkeeps hk).mono (Set.empty_subset _)

theorem Sound.of_diagnostics {f : Findings} (hf : Sound m g f) (ds : List Diagnostic) :
    Sound m g { f with diagnostics := ds } :=
  ⟨hf.texts_size, hf.activities_size, hf.text_eq, hf.activity_eq, hf.acc⟩

theorem answers_diagnose (v : Value) (message : String) :
    Answers m g (diagnose v message) () ∅ := by
  intro f hf hg
  obtain ⟨ds, hrun, -, -⟩ := run_diagnose v message f
  refine ⟨rfl, ?_, fun _ hq => hq.elim⟩
  rw [hrun]
  exact hf.of_diagnostics ds

/-- No run that ends in an alarm is on the way to quiet findings. -/
theorem answers_alarm {id : Nat} {v : Value} {message : String} (hquiet : m.Quiet g)
    (hv : m.values[id]? = some v) (halarm : Alarm v message) (a b : α) (settles : Set Question) :
    Answers m g (diagnose v message >>= fun _ => pure a) b settles := by
  intro f hf hg
  obtain ⟨ds, hrun, -, d, hd, hmessage⟩ := run_diagnose v message f
  have hend : ((diagnose v message >>= fun _ => pure a).run f).2 =
      { f with diagnostics := ds } := hrun
  rw [hend] at hg
  rw [← hmessage] at halarm
  exact (hquiet v (Array.mem_of_getElem? hv) d (hg.diagnostics d hd) halarm).elim

theorem answers_operand {literal : Literal → Resolving String} {read : Literal → String}
    (hkeeps : ∀ l, Keeps (literal l)) (hliteral : ∀ l, Answers m g (literal l) (read l) ∅)
    (c : Condition) :
    Answers m g (c.operand literal) (Id.run (c.operand fun l => pure (read l))) ∅ := by
  have hrest (c : Condition) (k : Operand → Operand) :
      Keeps (c.operand literal >>= fun w => pure (k w)) :=
    (keeps_operand hkeeps c).bind fun _ => keeps_pure _
  induction c with
  | literal l => exact (hliteral l).bind_empty (fun _ => keeps_pure _) (answers_pure _)
  | paren c ih => exact ih
  | not c ih => exact ih.bind_empty (fun _ => keeps_pure _) (answers_pure _)
  | and l r ihl ihr =>
    refine ihl.bind_empty (fun v => ?_) ?_
    · split
      · exact hrest r _
      · exact keeps_pure _
    · simp only [Condition.operand, Id.run_bind]
      cases hleft : (Id.run (l.operand fun l => pure (read l))).toBool with
      | true => exact ihr.bind_empty (fun _ => keeps_pure _) (answers_pure _)
      | false => exact answers_pure _
  | or l r ihl ihr =>
    refine ihl.bind_empty (fun v => ?_) ?_
    · split
      · exact keeps_pure _
      · exact hrest r _
    · simp only [Condition.operand, Id.run_bind]
      cases hleft : (Id.run (l.operand fun l => pure (read l))).toBool with
      | true => exact answers_pure _
      | false => exact ihr.bind_empty (fun _ => keeps_pure _) (answers_pure _)
  | compare op l r ihl ihr =>
    apply ihl.bind_empty (fun v => hrest r _)
    exact ihr.bind_empty (fun _ => keeps_pure _) (answers_pure _)

end

end IncrementalBuild.Settings
