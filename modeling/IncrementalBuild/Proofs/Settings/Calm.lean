import IncrementalBuild.Proofs.Settings.Locality

/-!
No false alarms. While a value is looked into, only values that need it are under way, and they lie
on a chain of references that leads to it. So where no chain is longer than references are followed,
and none leads back, no value is met that is under way or too deep, in whatever order values are
asked for; all that is reported are references that stand for nothing.
-/

namespace IncrementalBuild.Settings

open Findings

/-- The message tells of a reference that stands for nothing. -/
def Unresolved (message : String) : Prop :=
  ∃ name, message = "unresolved reference $(" ++ name ++ ")"

theorem Unresolved.not_alarm {message : String} (h : Unresolved message) (v : Value) :
    ¬ Alarm v message := by
  obtain ⟨name, rfl⟩ := h
  intro halarm
  generalize hmessage : "unresolved reference $(" ++ name ++ ")" = message at halarm
  have hfirst := congrArg (fun s : String => s.toList.head?) hmessage
  cases halarm <;> simp at hfirst

/-- The findings are about all values of a model, and report nothing but references that stand for
nothing. -/
structure Tame (m : Model) (f : Findings) : Prop where
  texts_size : f.texts.size = m.values.size
  activities_size : f.activities.size = m.values.size
  unresolved : ∀ d ∈ f.diagnostics, Unresolved d.message

/-- Run where only questions about values in `M` are under way, the computation reports nothing but
references that stand for nothing, and leaves no question under way. -/
def Calm {α : Type} (m : Model) (M : Set Nat) (c : Resolving α) : Prop :=
  ∀ f, Tame m f → (∀ w, f.Marked w → w ∈ M) → Tame m (c.run f).2 ∧ Balanced f (c.run f).2

section

variable {m : Model} {f : Findings} {α : Type} {M N : Set Nat}

theorem Calm.mono {c : Resolving α} (h : Calm m M c) (hsubset : N ⊆ M) : Calm m N c :=
  fun f hf hmarked => h f hf fun w hw => hsubset (hmarked w hw)

/-- What is reported afterwards was reported before, or is the report itself. -/
theorem mem_diagnose {v : Value} {message : String} {d : Diagnostic}
    (hd : d ∈ ((diagnose v message).run f).2.diagnostics) :
    d ∈ f.diagnostics ∨ d = ⟨message, v.origin⟩ := by
  by_cases hold : f.diagnostics.contains ⟨message, v.origin⟩ = true
  · simp only [diagnose, modify, modifyGet, MonadStateOf.modifyGet, StateT.modifyGet, StateT.run,
      pure, hold] at hd
    exact .inl hd
  · simp only [diagnose, modify, modifyGet, MonadStateOf.modifyGet, StateT.modifyGet, StateT.run,
      pure, hold] at hd
    simpa using hd

theorem compositional_calm : Compositional fun _ c => Calm m M c where
  pure _ f hf _ := ⟨hf, .refl f⟩
  bind hc hk f hf hmarked := by
    obtain ⟨htame, hbalanced⟩ := hc f hf hmarked
    obtain ⟨htame', hbalanced'⟩ := hk _ _ htame fun w hw => hmarked w (hbalanced.marked hw)
    exact ⟨htame', hbalanced.trans hbalanced'⟩
  unresolved v name f hf _ := by
    obtain ⟨ds, hrun, -, -⟩ := run_diagnose v ("unresolved reference $(" ++ name ++ ")") f
    refine ⟨⟨?_, ?_, fun d hd => ?_⟩, ?_⟩
    · rw [hrun]
      exact hf.texts_size
    · rw [hrun]
      exact hf.activities_size
    · obtain hd | rfl := mem_diagnose hd
      · exact hf.unresolved d hd
      · exact ⟨name, rfl⟩
    · rw [hrun]
      exact ⟨fun _ hw => hw, fun _ hw => hw⟩

end

namespace Solver

/-- Asked about a value at the end of `depth` references, while only questions about values that
need it are under way, the solver raises no alarm. -/
def Calm (m : Model) (depth : Nat) (s : Solver) : Prop :=
  ∀ u w, w < m.values.size → m.Chain depth u w →
    Settings.Calm m {x | m.Below x w} (s.text w) ∧ Settings.Calm m {x | m.Below x w} (s.active w)

variable {m : Model} {s : Solver} {deeper : Option Solver} {depth u id : Nat} {v : Value}

/-- What a value refers to can be asked for while it is under way itself. -/
theorem Calm.named (hm : m.Indexed) (hs : s.Calm m (depth + 1)) (hchain : m.Chain depth u id) :
    ∀ w ∈ {w | w ∈ m.named id}, Settings.Calm m {x | m.Cone x id} (s.text w) ∧
      Settings.Calm m {x | m.Cone x id} (s.active w) := by
  intro w hw
  obtain ⟨htext, hactive⟩ := hs u w (hm.lt_of_mem_named hw) ⟨id, hchain, hw⟩
  have hsubset : {x | m.Cone x id} ⊆ {x | m.Below x w} := fun x hx =>
    Relation.TransGen.tail' hx hw
  exact ⟨htext.mono hsubset, hactive.mono hsubset⟩

theorem calm_textWith (hm : m.Indexed) (hacyclic : ¬ m.Below id id)
    (hdeeper : ∃ s, deeper = some s ∧ s.Calm m (depth + 1)) (hid : id < m.values.size)
    (hchain : m.Chain depth u id) :
    Settings.Calm m {x | m.Below x id} (textWith deeper m id) := by
  obtain ⟨v, hv⟩ : ∃ v, m.values[id]? = some v := ⟨_, Array.getElem?_eq_getElem hid⟩
  obtain ⟨s, rfl, hs⟩ := hdeeper
  intro f hf hmarked
  rw [run_textWith]
  simp only [hv, Option.getD_some]
  cases htext : f.text id with
  | done t => exact ⟨hf, .refl f⟩
  | inProgress => exact absurd (hmarked id (.inl htext)) hacyclic
  | pending =>
    have hexpand : Settings.Calm m {x | m.Cone x id} (s.expand m v v.raw) :=
      compositional_calm.expand (hs.named hm hchain)
        ((Model.looksIn_named hv).mono (List.subset_append_left _ _))
    have hstarted : Tame m (f.setText id .inProgress) :=
      ⟨size_setText.trans hf.texts_size, hf.activities_size, hf.unresolved⟩
    obtain ⟨htame, hbalanced⟩ := hexpand _ hstarted fun x hx => by
      by_cases hxid : x = id
      · exact hxid ▸ .refl
      · rw [Marked, text_setText_ne hxid] at hx
        exact (hmarked x hx).to_reflTransGen
    exact ⟨⟨size_setText.trans htame.texts_size, htame.activities_size, htame.unresolved⟩,
      hbalanced.of_setText (by rwa [htame.texts_size]) (by simp)⟩

theorem calm_activeWith (hm : m.Indexed) (hacyclic : ¬ m.Below id id)
    (hdeeper : ∃ s, deeper = some s ∧ s.Calm m (depth + 1)) (hid : id < m.values.size)
    (hchain : m.Chain depth u id) :
    Settings.Calm m {x | m.Below x id} (activeWith deeper m id) := by
  obtain ⟨v, hv⟩ : ∃ v, m.values[id]? = some v := ⟨_, Array.getElem?_eq_getElem hid⟩
  obtain ⟨s, rfl, hs⟩ := hdeeper
  intro f hf hmarked
  rw [run_activeWith]
  simp only [hv, Option.getD_some]
  cases hactivity : f.activity id with
  | known a => exact ⟨hf, .refl f⟩
  | evaluating => exact absurd (hmarked id (.inr hactivity)) hacyclic
  | unknown =>
    have hall : Settings.Calm m {x | m.Cone x id} (s.allHold m v v.conditions) :=
      compositional_calm.allHold (hs.named hm hchain)
        ((Model.looksIn_named hv).mono (List.subset_append_right _ _))
    have hstarted : Tame m (f.setActivity id .evaluating) :=
      ⟨hf.texts_size, size_setActivity.trans hf.activities_size, hf.unresolved⟩
    obtain ⟨htame, hbalanced⟩ := hall _ hstarted fun x hx => by
      by_cases hxid : x = id
      · exact hxid ▸ .refl
      · rw [Marked, activity_setActivity_ne hxid] at hx
        exact (hmarked x hx).to_reflTransGen
    exact ⟨⟨htame.texts_size, size_setActivity.trans htame.activities_size, htame.unresolved⟩,
      hbalanced.of_setActivity (by rwa [htame.activities_size]) (by simp)⟩

/-- With room for one reference more than any chain has, the solver raises no alarm. -/
theorem calm_ofRoom (hm : m.Indexed) (hacyclic : ∀ w, ¬ m.Below w w) {longest room : Nat}
    (hlongest : ∀ k u w, m.Chain k u w → k ≤ longest) (hdepth : depth + room = longest + 1) :
    (ofRoom m room).Calm m depth := by
  induction room generalizing depth with
  | zero =>
    intro u w _ hchain
    have hshort := hlongest depth u w hchain
    omega
  | succ room ih =>
    have hdeeper : ∃ s, some (ofRoom m room) = some s ∧ s.Calm m (depth + 1) :=
      ⟨_, rfl, ih (by omega)⟩
    exact fun u w hw hchain => ⟨calm_textWith hm (hacyclic w) hdeeper hw hchain,
      calm_activeWith hm (hacyclic w) hdeeper hw hchain⟩

theorem Calm.settle (hs : s.Calm m 0) {ids : List Nat} (hids : ∀ w ∈ ids, w < m.values.size) :
    Settings.Calm m ∅ (s.settle ids) := by
  induction ids with
  | nil => exact compositional_calm.pure _
  | cons id ids ih =>
    obtain ⟨hid, hids⟩ := List.forall_mem_cons.1 hids
    obtain ⟨htext, hactive⟩ := hs id id hid rfl
    exact compositional_calm.bind (htext.mono (Set.empty_subset _)) fun _ =>
      compositional_calm.bind (hactive.mono (Set.empty_subset _)) fun _ => ih hids

end Solver

namespace Model

variable {m : Model}

theorem tame_blank (m : Model) : Tame m (.blank m.values.size) :=
  ⟨by simp [Findings.blank], by simp [Findings.blank], nofun⟩

/-- Where chains of references have a longest one, none leads back. -/
theorem not_below_self {longest : Nat} (hlongest : ∀ k u w, m.Chain k u w → k ≤ longest) (w : Nat) :
    ¬ m.Below w w := by
  have hacc := (shallow_iff.2 fun k => hlongest k w).acc
  exact fun hcycle => not_self_of_acc hacc.transGen (Relation.transGen_swap.2 hcycle)

/-- Where no chain of references is longer than references are followed, so that none leads back
either, resolution raises no alarm: it does not come upon a value whose text or activity is under
way, or one that lies too deep, and reports nothing but references that stand for nothing. -/
theorem Reachable.resolve_calm (hm : m.Reachable)
    (hshort : ∀ k u w, m.Chain k u w → k ≤ referenceDepth) :
    ∀ d ∈ m.resolve.diagnostics,
      (∃ name, d.message = "unresolved reference $(" ++ name ++ ")") ∧
      ∀ v : Value, ¬ Alarm v d.message := by
  have hcalm := Solver.calm_ofRoom hm.indexed (not_below_self hshort) hshort
    (Nat.zero_add (referenceDepth + 1))
  have hids : ∀ w ∈ List.range m.values.size, w < m.values.size := by simp
  obtain ⟨htame, -⟩ := hcalm.settle hids _ (tame_blank m) fun w hw =>
    absurd hw (not_marked_blank _ w)
  exact fun d hd => ⟨htame.unresolved d hd, (htame.unresolved d hd).not_alarm⟩

/-- Where values only refer to later ones, chains lead on by as much as they are long. -/
theorem Chain.add_le (hlater : ∀ u w, w ∈ m.named u → u < w) {k u w : Nat} (h : m.Chain k u w) :
    u + k ≤ w := by
  induction k generalizing w with
  | zero => exact Nat.le_of_eq h
  | succ k ih =>
    obtain ⟨x, hchain, hw⟩ := h
    have hstep := hlater x w hw
    have hrest := ih hchain
    omega

/-- Values that are declared before what they refer to, one of them with a reference that stands for
nothing. -/
def forwardSource : String :=
  "Flags = $(Mode) $(Missing)\nif (Mode == \"$(Base)\") \x7b\nFlags = -g\n\x7d\n" ++
    "Mode = $(Base)\nBase = debug\n"

theorem forwardSource_calm : ∃ m, ofSource ⟨"app"⟩ forwardSource = .ok m ∧
    (∀ k u w, m.Chain k u w → k ≤ referenceDepth) ∧ m.resolve.diagnostics.length = 1 ∧
    ∀ d ∈ m.resolve.diagnostics,
      (∃ name, d.message = "unresolved reference $(" ++ name ++ ")") ∧
      ∀ v : Value, ¬ Alarm v d.message := by
  have hfacts : ((ofSource ⟨"app"⟩ forwardSource).toOption.map fun m =>
      (m.values.size, (List.range 4).map m.named, m.resolve.diagnostics.length)) =
        some (4, [[2], [2, 3], [3], []], 1) := by
    cbv
  cases hm : ofSource ⟨"app"⟩ forwardSource with
  | error e => simp [hm, Except.toOption] at hfacts
  | ok m =>
    obtain ⟨hsize, hnamed, hone⟩ : m.values.size = 4 ∧
        (List.range 4).map m.named = [[2], [2, 3], [3], []] ∧ m.resolve.diagnostics.length = 1 := by
      simpa [hm, Except.toOption] using hfacts
    have hreachable := Reachable.ofSource hm
    have hlater (u w : Nat) (hw : w ∈ m.named u) : u < w := by
      have hu : u < 4 := by
        by_contra hu
        simp [named, Array.getElem?_eq_none (show m.values.size ≤ u by omega)] at hw
      obtain ⟨h₀, h₁, h₂, h₃⟩ : m.named 0 = [2] ∧ m.named 1 = [2, 3] ∧ m.named 2 = [3] ∧
          m.named 3 = [] := by
        simpa [List.range, List.range.loop] using hnamed
      interval_cases u
      · simp only [h₀, List.mem_singleton] at hw
        omega
      · simp only [h₁, List.mem_cons, List.not_mem_nil, or_false] at hw
        omega
      · simp only [h₂, List.mem_singleton] at hw
        omega
      · simp [h₃] at hw
    have hshort (k u w : Nat) (h : m.Chain k u w) : k ≤ referenceDepth := by
      cases k with
      | zero => exact Nat.zero_le _
      | succ k =>
        obtain ⟨x, -, hw⟩ := id h
        have hlt := hreachable.indexed.lt_of_mem_named hw
        have hlong := h.add_le hlater
        simp only [referenceDepth]
        omega
    exact ⟨m, rfl, hshort, hone, hreachable.resolve_calm hshort⟩

end Model

end IncrementalBuild.Settings
