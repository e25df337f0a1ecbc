import IncrementalBuild.Proofs.Settings.Walk
import Mathlib

/-!
What the resolver does to findings, whatever it is asked: it answers questions that were open, and
leaves alone what was answered and what is under way.
-/

namespace IncrementalBuild.Settings

namespace Findings

/-- A question about a value. -/
inductive Question where
  | text (id : Nat)
  | activity (id : Nat)

/-- The final answer to a question is there. -/
def Settled (f : Findings) : Question → Prop
  | .text id => ∃ t, f.text id = .done t
  | .activity id => ∃ a, f.activity id = .known a

/-- All that is answered or under way in `f` is the same in `g`, and no diagnostic is gone. -/
structure Grows (f g : Findings) : Prop where
  texts_size : g.texts.size = f.texts.size
  activities_size : g.activities.size = f.activities.size
  text : ∀ id, f.text id ≠ .pending → g.text id = f.text id
  activity : ∀ id, f.activity id ≠ .unknown → g.activity id = f.activity id
  diagnostics : ∀ d ∈ f.diagnostics, d ∈ g.diagnostics

/-- All final answers of `f` are those of `g`, and no diagnostic is gone. -/
structure Within (f g : Findings) : Prop where
  text : ∀ id t, f.text id = .done t → g.text id = .done t
  activity : ∀ id a, f.activity id = .known a → g.activity id = .known a
  diagnostics : ∀ d ∈ f.diagnostics, d ∈ g.diagnostics

variable {f g h : Findings} {id : Nat}

theorem Grows.refl (f : Findings) : Grows f f :=
  ⟨rfl, rfl, fun _ _ => rfl, fun _ _ => rfl, fun _ hd => hd⟩

theorem Grows.trans (hfg : Grows f g) (hgh : Grows g h) : Grows f h where
  texts_size := hgh.texts_size.trans hfg.texts_size
  activities_size := hgh.activities_size.trans hfg.activities_size
  text id hid := by
    have heq := hfg.text id hid
    rw [← heq] at hid ⊢
    exact hgh.text id hid
  activity id hid := by
    have heq := hfg.activity id hid
    rw [← heq] at hid ⊢
    exact hgh.activity id hid
  diagnostics d hd := hgh.diagnostics d (hfg.diagnostics d hd)

theorem Grows.within (hfg : Grows f g) : Within f g where
  text id t ht := (hfg.text id (by simp [ht])).trans ht
  activity id a ha := (hfg.activity id (by simp [ha])).trans ha
  diagnostics := hfg.diagnostics

theorem Within.refl (f : Findings) : Within f f :=
  (Grows.refl f).within

theorem Within.trans (hfg : Within f g) (hgh : Within g h) : Within f h where
  text id t ht := hgh.text id t (hfg.text id t ht)
  activity id a ha := hgh.activity id a (hfg.activity id a ha)
  diagnostics d hd := hgh.diagnostics d (hfg.diagnostics d hd)

theorem Within.settled (hfg : Within f g) {q : Question} (hq : f.Settled q) : g.Settled q := by
  cases q with
  | text id =>
    obtain ⟨t, ht⟩ := hq
    exact ⟨t, hfg.text id t ht⟩
  | activity id =>
    obtain ⟨a, ha⟩ := hq
    exact ⟨a, hfg.activity id a ha⟩

/-- The findings with the text of one value replaced. -/
def setText (f : Findings) (id : Nat) (t : Expansion) : Findings :=
  { f with texts := f.texts.setIfInBounds id t }

/-- The findings with the activity of one value replaced. -/
def setActivity (f : Findings) (id : Nat) (a : Activity) : Findings :=
  { f with activities := f.activities.setIfInBounds id a }

theorem text_setText_self {t : Expansion} (hid : id < f.texts.size) :
    (f.setText id t).text id = t := by
  simp [setText, text, hid]

theorem text_setText_ne {t : Expansion} {w : Nat} (hw : w ≠ id) :
    (f.setText id t).text w = f.text w := by
  simp [setText, text, Ne.symm hw]

theorem activity_setActivity_self {a : Activity} (hid : id < f.activities.size) :
    (f.setActivity id a).activity id = a := by
  simp [setActivity, activity, hid]

theorem activity_setActivity_ne {a : Activity} {w : Nat} (hw : w ≠ id) :
    (f.setActivity id a).activity w = f.activity w := by
  simp [setActivity, activity, Ne.symm hw]

@[simp] theorem text_blank (n id : Nat) : (blank n).text id = .pending := by
  by_cases hid : id < n <;> simp [blank, text, hid]

@[simp] theorem activity_blank (n id : Nat) : (blank n).activity id = .unknown := by
  by_cases hid : id < n <;> simp [blank, activity, hid]

/-- A text that is still open may be replaced, before and after other questions are answered. -/
theorem Grows.setText_setText (hpending : f.text id = .pending) {s t : Expansion}
    (hgrows : Grows (f.setText id s) g) : Grows f (g.setText id t) where
  texts_size := by simpa [setText] using hgrows.texts_size
  activities_size := by simpa [setText] using hgrows.activities_size
  text w hw := by
    have hne : w ≠ id := by
      rintro rfl
      exact hw hpending
    rw [text_setText_ne hne, ← text_setText_ne (f := f) (t := s) hne]
    exact hgrows.text w (by rwa [text_setText_ne hne])
  activity w hw := hgrows.activity w hw
  diagnostics := hgrows.diagnostics

theorem Grows.setActivity_setActivity (hunknown : f.activity id = .unknown) {a b : Activity}
    (hgrows : Grows (f.setActivity id a) g) : Grows f (g.setActivity id b) where
  texts_size := by simpa [setActivity] using hgrows.texts_size
  activities_size := by simpa [setActivity] using hgrows.activities_size
  text w hw := hgrows.text w hw
  activity w hw := by
    have hne : w ≠ id := by
      rintro rfl
      exact hw hunknown
    rw [activity_setActivity_ne hne, ← activity_setActivity_ne (f := f) (a := a) hne]
    exact hgrows.activity w (by rwa [activity_setActivity_ne hne])
  diagnostics := hgrows.diagnostics

end Findings

open Findings

/-- A computation that only lets findings grow. -/
def Keeps {α : Type} (c : Resolving α) : Prop :=
  ∀ f, Grows f (c.run f).2

theorem run_get_bind {α : Type} (k : Findings → Resolving α) (f : Findings) :
    (get >>= k).run f = (k f).run f := rfl

theorem keeps_pure {α : Type} (a : α) : Keeps (pure a) :=
  fun f => Grows.refl f

theorem Keeps.bind {α β : Type} {c : Resolving α} {k : α → Resolving β} (hc : Keeps c)
    (hk : ∀ a, Keeps (k a)) : Keeps (c >>= k) :=
  fun f => (hc f).trans (hk _ _)

/-- A diagnostic with the message is there afterwards, and nothing else has changed. -/
theorem run_diagnose (v : Value) (message : String) (f : Findings) :
    ∃ ds, ((diagnose v message).run f).2 = { f with diagnostics := ds } ∧
      (∀ d ∈ f.diagnostics, d ∈ ds) ∧ ∃ d ∈ ds, d.message = message := by
  by_cases hold : f.diagnostics.contains ⟨message, v.origin⟩ = true
  · refine ⟨f.diagnostics, ?_, fun _ hd => hd, ?_⟩
    · simp [diagnose, modify, modifyGet, MonadStateOf.modifyGet, StateT.modifyGet, StateT.run,
        pure, hold]
    · obtain ⟨d, hd, heq⟩ := List.contains_iff_exists_mem_beq.1 hold
      refine ⟨d, hd, ?_⟩
      have heq : (message == d.message && v.origin == d.place) = true := heq
      rw [Bool.and_eq_true, beq_iff_eq] at heq
      exact heq.1.symm
  · refine ⟨f.diagnostics ++ [⟨message, v.origin⟩], ?_, ?_, ?_⟩
    · simp [diagnose, modify, modifyGet, MonadStateOf.modifyGet, StateT.modifyGet, StateT.run,
        pure, hold]
    · intro d hd
      exact List.mem_append_left _ hd
    · exact ⟨_, List.mem_append_right _ List.mem_cons_self, rfl⟩

theorem keeps_diagnose (v : Value) (message : String) : Keeps (diagnose v message) := by
  intro f
  obtain ⟨ds, hrun, hds, -⟩ := run_diagnose v message f
  rw [hrun]
  exact ⟨rfl, rfl, fun _ _ => rfl, fun _ _ => rfl, hds⟩

theorem compositional_keeps : Compositional fun _ c => Keeps c :=
  ⟨keeps_pure, .bind, fun v _ => keeps_diagnose v _⟩

theorem keeps_operand {literal : Literal → Resolving String} (hliteral : ∀ l, Keeps (literal l))
    (c : Condition) : Keeps (c.operand literal) :=
  compositional_keeps.operand fun l _ => hliteral l

namespace Solver

/-- Both answers of a solver only let findings grow. -/
structure Cautious (s : Solver) : Prop where
  text : ∀ id, Keeps (s.text id)
  active : ∀ id, Keeps (s.active id)

variable {s : Solver}

theorem Cautious.keeps (hs : s.Cautious) (w : Nat) (_ : w ∈ Set.univ) :
    Keeps (s.text w) ∧ Keeps (s.active w) :=
  ⟨hs.text w, hs.active w⟩

theorem looksIn_univ (m : Model) (scope : String) (names : List String) :
    m.LooksIn scope Set.univ names :=
  fun _ _ _ _ _ _ => trivial

theorem Cautious.firstActive (hs : s.Cautious) (ids : List Nat) : Keeps (s.firstActive ids) :=
  compositional_keeps.firstActive hs.keeps fun _ _ => trivial

theorem Cautious.pieces (hs : s.Cautious) (m : Model) (v : Value) (ps : List Piece) :
    Keeps (s.pieces m v ps) :=
  compositional_keeps.pieces hs.keeps fun _ _ => looksIn_univ m v.group _

theorem Cautious.expand (hs : s.Cautious) (m : Model) (v : Value) (text : String) :
    Keeps (s.expand m v text) :=
  compositional_keeps.expand hs.keeps (looksIn_univ m v.group _)

theorem Cautious.literal (hs : s.Cautious) (m : Model) (v : Value) (l : Literal) :
    Keeps (s.literal m v l) :=
  compositional_keeps.literal hs.keeps (looksIn_univ m v.group _)

theorem Cautious.allHold (hs : s.Cautious) (m : Model) (v : Value) (cs : List Condition) :
    Keeps (s.allHold m v cs) :=
  compositional_keeps.allHold hs.keeps (looksIn_univ m v.group _)

/-! What a value's question costs, by what is known of the value. -/

section

variable {deeper : Option Solver} {m : Model} {id : Nat} {f : Findings}

theorem run_textWith : (textWith deeper m id).run f =
    match f.text id with
    | .done t => (t, f)
    | .inProgress => StateT.run (do
        diagnose (m.values[id]?.getD default)
          ("cyclic reference through " ++ (m.values[id]?.getD default).name)
        return placeholder (m.values[id]?.getD default).name) f
    | .pending =>
      match deeper with
      | none => StateT.run (do
          diagnose (m.values[id]?.getD default)
            ("reference depth exceeded while expanding " ++ (m.values[id]?.getD default).name)
          return placeholder (m.values[id]?.getD default).name) f
      | some s =>
        let v := m.values[id]?.getD default
        let r := (s.expand m v v.raw).run (f.setText id .inProgress)
        (r.1, r.2.setText id (.done r.1)) := by
  unfold textWith
  rw [run_get_bind]
  cases f.text id <;> cases deeper <;> rfl

theorem run_activeWith : (activeWith deeper m id).run f =
    match f.activity id with
    | .known a => (a, f)
    | .evaluating => StateT.run (do
        diagnose (m.values[id]?.getD default)
          ("condition (" ++ " and ".intercalate
            ((m.values[id]?.getD default).conditions.map Condition.text) ++ ") on " ++
            (m.values[id]?.getD default).name ++ " depends on its own value")
        return false) f
    | .unknown =>
      match deeper with
      | none => StateT.run (do
          diagnose (m.values[id]?.getD default)
            ("reference depth exceeded while evaluating " ++ (m.values[id]?.getD default).name)
          return false) f
      | some s =>
        let v := m.values[id]?.getD default
        let r := (s.allHold m v v.conditions).run (f.setActivity id .evaluating)
        (r.1, r.2.setActivity id (.known r.1)) := by
  unfold activeWith
  rw [run_get_bind]
  cases f.activity id <;> cases deeper <;> rfl

theorem keeps_textWith (hdeeper : ∀ s ∈ deeper, s.Cautious) (m : Model) (id : Nat) :
    Keeps (textWith deeper m id) := by
  intro f
  rw [run_textWith]
  split
  · exact Grows.refl f
  · exact (keeps_diagnose _ _).bind (fun _ => keeps_pure _) f
  · next hpending =>
    split
    · exact (keeps_diagnose _ _).bind (fun _ => keeps_pure _) f
    · next s =>
      have hexpand := (hdeeper s rfl).expand m (m.values[id]?.getD default)
        (m.values[id]?.getD default).raw (f.setText id .inProgress)
      exact hexpand.setText_setText hpending

theorem keeps_activeWith (hdeeper : ∀ s ∈ deeper, s.Cautious) (m : Model) (id : Nat) :
    Keeps (activeWith deeper m id) := by
  intro f
  rw [run_activeWith]
  split
  · exact Grows.refl f
  · exact (keeps_diagnose _ _).bind (fun _ => keeps_pure _) f
  · next hunknown =>
    split
    · exact (keeps_diagnose _ _).bind (fun _ => keeps_pure _) f
    · next s =>
      have hall := (hdeeper s rfl).allHold m (m.values[id]?.getD default)
        (m.values[id]?.getD default).conditions (f.setActivity id .evaluating)
      exact hall.setActivity_setActivity hunknown

end

theorem cautious_ofRoom (m : Model) (room : Nat) : (ofRoom m room).Cautious := by
  induction room with
  | zero => exact ⟨keeps_textWith (by simp) m, keeps_activeWith (by simp) m⟩
  | succ room ih =>
    have hdeeper : ∀ s ∈ some (ofRoom m room), s.Cautious := by
      rintro s ⟨⟩
      exact ih
    exact ⟨keeps_textWith hdeeper m, keeps_activeWith hdeeper m⟩

theorem Cautious.settle (hs : s.Cautious) (ids : List Nat) : Keeps (s.settle ids) := by
  induction ids with
  | nil => exact keeps_pure _
  | cons id ids ih =>
    apply (hs.text id).bind
    intro _
    exact (hs.active id).bind fun _ => ih

end Solver

end IncrementalBuild.Settings
