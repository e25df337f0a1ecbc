import IncrementalBuild.Proofs.Settings.Locality
import IncrementalBuild.Proofs.Settings.Template

/-!
Values without conditions or references. Resolution settles every value, and whatever else a model
declares, a value without conditions counts, and one without references keeps its text. So a value
that is set from outside is what its key reads as, unless a value before it counts.
-/

namespace IncrementalBuild.Settings

open Findings

variable {m : Model} {f : Findings} {id : Nat} {v : Value}

namespace Model

/-- There is nothing to settle about a value that is not there. -/
theorem Indexed.settling_size (hm : m.Indexed) (p g : Findings) :
    Settling m m.values.size p g := by
  have hnamed : m.named m.values.size = [] := by simp [named]
  have hcone {w : Nat} (hw : m.Cone m.values.size w) : w = m.values.size := by
    rcases hw.cases_head with heq | ⟨x, hx, -⟩
    · exact heq.symm
    · simp [hnamed] at hx
  have hbelow {w : Nat} : ¬ m.Below m.values.size w := by
    intro hw
    obtain ⟨x, hx, -⟩ := Relation.TransGen.head'_iff.1 hw
    simp [hnamed] at hx
  refine ⟨hm, fun w hw => hcone hw ▸ hbelow, fun w v hw hv => ?_, fun w v hw hv => ?_, ?_⟩
  · simp [hcone hw] at hv
  · simp [hcone hw] at hv
  · exact fun u w v hw => absurd hw hbelow

/-- Resolution ends with a text for every value, and knows of every value whether it counts. -/
theorem Indexed.settled_resolve (hm : m.Indexed) (hid : id < m.values.size) :
    m.resolve.findings.Settled (.text id) ∧ m.resolve.findings.Settled (.activity id) := by
  have hlocal := Solver.local_ofRoom (hm.settling_size (.blank 0) m.resolve.findings)
    (Nat.zero_add (referenceDepth + 1))
  have hids : ∀ w ∈ List.range m.values.size, w < m.values.size := by simp
  have hsettled := hlocal.settle (Solver.settles_ofRoom m referenceDepth) hids
    (right_blank m _ _) (not_marked_blank _) (Within.refl _)
  exact hsettled.2 id (List.mem_range.2 hid)

end Model

/-- What is known of values that need no others is what was declared: a value without conditions
counts, and one without references has the text it was declared with. -/
structure Findings.Evident (m : Model) (f : Findings) : Prop where
  text : ∀ id v, m.values[id]? = some v → ¬ referenceMark <:+: v.raw.toList →
    f.text id = .pending ∨ f.text id = .done v.raw
  activity : ∀ id v, m.values[id]? = some v → v.conditions = [] →
    f.activity id = .unknown ∨ f.activity id = .known true

/-- What is known afterwards of such values is still what was declared. -/
def KeepsEvident {α : Type} (m : Model) (c : Resolving α) : Prop :=
  ∀ f, f.Evident m → (c.run f).2.Evident m

theorem keepsEvident_pure {α : Type} (a : α) : KeepsEvident m (pure a) :=
  fun _ hf => hf

theorem KeepsEvident.bind {α β : Type} {c : Resolving α} {k : α → Resolving β}
    (hc : KeepsEvident m c) (hk : ∀ a, KeepsEvident m (k a)) : KeepsEvident m (c >>= k) :=
  fun f hf => hk _ _ (hc f hf)

theorem keepsEvident_diagnose (v : Value) (message : String) :
    KeepsEvident m (diagnose v message) := by
  intro f hf
  obtain ⟨ds, hrun, -⟩ := run_diagnose v message f
  rw [hrun]
  exact ⟨hf.text, hf.activity⟩

theorem compositional_keepsEvident (m : Model) : Compositional fun _ c => KeepsEvident m c :=
  ⟨keepsEvident_pure, .bind, fun v _ => keepsEvident_diagnose v _⟩

theorem keepsEvident_alarm {α : Type} (v : Value) (message : String) (a : α) :
    KeepsEvident m (diagnose v message >>= fun _ => pure a) :=
  (keepsEvident_diagnose v message).bind fun _ => keepsEvident_pure a

namespace Findings

theorem setText_setText (f : Findings) (id : Nat) (s t : Expansion) :
    (f.setText id s).setText id t = f.setText id t := by
  simp [setText]

theorem setActivity_setActivity (f : Findings) (id : Nat) (a b : Activity) :
    (f.setActivity id a).setActivity id b = f.setActivity id b := by
  simp [setActivity]

theorem Evident.setText (hf : f.Evident m) {t : Expansion}
    (ht : ∀ v, m.values[id]? = some v → ¬ referenceMark <:+: v.raw.toList → t = .done v.raw) :
    (f.setText id t).Evident m := by
  refine ⟨fun w v hv hplain => ?_, hf.activity⟩
  by_cases hw : w = id
  · subst hw
    by_cases hsize : w < f.texts.size
    · exact .inr ((text_setText_self hsize).trans (ht v hv hplain))
    · exact .inl (by simp [Findings.setText, Findings.text, hsize])
  · rw [text_setText_ne hw]
    exact hf.text w v hv hplain

theorem Evident.setActivity (hf : f.Evident m) {a : Activity}
    (ha : ∀ v, m.values[id]? = some v → v.conditions = [] → a = .known true) :
    (f.setActivity id a).Evident m := by
  refine ⟨hf.text, fun w v hv hconditions => ?_⟩
  by_cases hw : w = id
  · subst hw
    by_cases hsize : w < f.activities.size
    · exact .inr ((activity_setActivity_self hsize).trans (ha v hv hconditions))
    · exact .inl (by simp [Findings.setActivity, Findings.activity, hsize])
  · rw [activity_setActivity_ne hw]
    exact hf.activity w v hv hconditions

end Findings

namespace Solver

/-- Both answers of a solver keep to what was declared for values that need no others. -/
structure KeepsEvident (m : Model) (s : Solver) : Prop where
  text : ∀ id, Settings.KeepsEvident m (s.text id)
  active : ∀ id, Settings.KeepsEvident m (s.active id)

variable {s : Solver} {deeper : Option Solver}

theorem KeepsEvident.answers (hs : s.KeepsEvident m) (w : Nat) (_ : w ∈ Set.univ) :
    Settings.KeepsEvident m (s.text w) ∧ Settings.KeepsEvident m (s.active w) :=
  ⟨hs.text w, hs.active w⟩

theorem KeepsEvident.expand (hs : s.KeepsEvident m) (v : Value) (text : String) :
    Settings.KeepsEvident m (s.expand m v text) :=
  (compositional_keepsEvident m).expand hs.answers (looksIn_univ m v.group _)

theorem KeepsEvident.allHold (hs : s.KeepsEvident m) (v : Value) (cs : List Condition) :
    Settings.KeepsEvident m (s.allHold m v cs) :=
  (compositional_keepsEvident m).allHold hs.answers (looksIn_univ m v.group _)

/-- A text without references stands for itself. -/
theorem expand_of_unmarked (s : Solver) (m : Model) (v : Value) {text : String}
    (h : ¬ referenceMark <:+: text.toList) : s.expand m v text = pure text := by
  have hpieces : pieces? text = .ok (textPiece text.toList) := piecesFrom_of_unmarked h
  rw [expand, hpieces, textPiece]
  cases hempty : text.toList.isEmpty with
  | true =>
    obtain rfl : text = "" := by simpa using hempty
    rfl
  | false => simp [pieces, piece]

theorem keepsEvident_textWith (hdeeper : ∀ s ∈ deeper, s.KeepsEvident m) (id : Nat) :
    Settings.KeepsEvident m (textWith deeper m id) := by
  intro f hf
  rw [run_textWith]
  split
  · exact hf
  · exact keepsEvident_alarm _ _ _ f hf
  · split
    · exact keepsEvident_alarm _ _ _ f hf
    · next s =>
      by_cases hplain : referenceMark <:+: (m.values[id]?.getD default).raw.toList
      · have hother (t : Expansion) (v : Value) (hv : m.values[id]? = some v)
            (hnone : ¬ referenceMark <:+: v.raw.toList) : t = .done v.raw :=
          absurd (by simpa [hv] using hplain) hnone
        have hread := (hdeeper s rfl).expand (m.values[id]?.getD default)
          (m.values[id]?.getD default).raw _ (hf.setText (hother .inProgress))
        exact hread.setText (hother _)
      · -- No other value is asked for, so the text is known at once.
        simp only [expand_of_unmarked s m _ hplain]
        change ((f.setText id .inProgress).setText id
          (.done (m.values[id]?.getD default).raw)).Evident m
        rw [setText_setText]
        exact hf.setText fun v hv _ => by rw [hv, Option.getD_some]

theorem keepsEvident_activeWith (hdeeper : ∀ s ∈ deeper, s.KeepsEvident m) (id : Nat) :
    Settings.KeepsEvident m (activeWith deeper m id) := by
  intro f hf
  rw [run_activeWith]
  split
  · exact hf
  · exact keepsEvident_alarm _ _ _ f hf
  · split
    · exact keepsEvident_alarm _ _ _ f hf
    · next s =>
      by_cases hconditions : (m.values[id]?.getD default).conditions = []
      · simp only [hconditions]
        change ((f.setActivity id .evaluating).setActivity id (.known true)).Evident m
        rw [setActivity_setActivity]
        exact hf.setActivity fun _ _ _ => rfl
      · have hother (a : Activity) (v : Value) (hv : m.values[id]? = some v)
            (hnone : v.conditions = []) : a = .known true :=
          absurd (by simpa [hv] using hnone) hconditions
        have hheld := (hdeeper s rfl).allHold (m.values[id]?.getD default)
          (m.values[id]?.getD default).conditions _ (hf.setActivity (hother .evaluating))
        exact hheld.setActivity (hother _)

theorem keepsEvident_ofRoom (m : Model) (room : Nat) : (ofRoom m room).KeepsEvident m := by
  induction room with
  | zero => exact ⟨keepsEvident_textWith (by simp), keepsEvident_activeWith (by simp)⟩
  | succ room ih =>
    have hdeeper : ∀ s ∈ some (ofRoom m room), s.KeepsEvident m := by
      rintro s ⟨⟩
      exact ih
    exact ⟨keepsEvident_textWith hdeeper, keepsEvident_activeWith hdeeper⟩

theorem KeepsEvident.settle (hs : s.KeepsEvident m) (ids : List Nat) :
    Settings.KeepsEvident m (s.settle ids) := by
  induction ids with
  | nil => exact keepsEvident_pure _
  | cons id ids ih => exact (hs.text id).bind fun _ => (hs.active id).bind fun _ => ih

end Solver

theorem evident_blank (m : Model) (n : Nat) : (Findings.blank n).Evident m :=
  ⟨fun id _ _ _ => .inl (text_blank n id), fun id _ _ _ => .inl (activity_blank n id)⟩

namespace Model

theorem evident_resolve (m : Model) : m.resolve.findings.Evident m :=
  (Solver.keepsEvident_ofRoom m _).settle _ _ (evident_blank m _)

/-- A value without conditions counts. -/
theorem Indexed.activity_resolve (hm : m.Indexed) (hv : m.values[id]? = some v)
    (hconditions : v.conditions = []) : m.resolve.findings.activity id = .known true := by
  obtain ⟨hid, -⟩ := Array.getElem?_eq_some_iff.1 hv
  obtain ⟨a, ha⟩ := (hm.settled_resolve hid).2
  rcases m.evident_resolve.activity id v hv hconditions with hunknown | hknown
  · cases ha.symm.trans hunknown
  · exact hknown

/-- A value without references has the text it was declared with. -/
theorem Indexed.text_resolve (hm : m.Indexed) (hv : m.values[id]? = some v)
    (hplain : ¬ referenceMark <:+: v.raw.toList) :
    m.resolve.findings.text id = .done v.raw := by
  obtain ⟨hid, -⟩ := Array.getElem?_eq_some_iff.1 hv
  obtain ⟨t, ht⟩ := (hm.settled_resolve hid).1
  rcases m.evident_resolve.text id v hv hplain with hpending | hdone
  · cases ht.symm.trans hpending
  · exact hdone

/-- The resolved texts of those of some values that count. -/
def textsAt (m : Model) (ids : List Nat) : List String :=
  ids.filterMap fun id =>
    match m.findings.activity id, m.findings.text id with
    | .known true, .done text => some text
    | _, _ => none

theorem valuesOf_eq_textsAt (m : Model) (group key : String) :
    m.valuesOf group key = m.textsAt ((m.idsOf? group key).getD []) :=
  rfl

theorem idsOf?_resolve (m : Model) (group key : String) :
    m.resolve.idsOf? group key = m.idsOf? group key :=
  rfl

/-- The first values of a key were declared with these contents, and the key reads as the first of
them that counts, or else as the value that was set behind them. This stands for itself, unless
there are references in it. -/
def FallsBack (m : Model) (group key : String)
    (declared : List (String × List Condition × Option Place)) (value : String) : Prop :=
  let first := ((m.idsOf? group key).getD []).take declared.length
  m.contentsAt first = declared ∧ ∃ text,
    m.value? group key = some ((m.textsAt first).head?.getD text) ∧
      (¬ referenceMark <:+: value.toList → text = value)

/-- A key for which nothing was declared reads as the value that was set. -/
theorem FallsBack.value?_eq {group key value : String} (h : m.FallsBack group key [] value)
    (hplain : ¬ referenceMark <:+: value.toList) : m.value? group key = some value := by
  obtain ⟨-, text, hvalue, htext⟩ := h
  rw [hvalue, ← htext hplain]
  rfl

theorem contentsAt_eq_map {ids : List Nat} (h : ∀ id ∈ ids, id < m.values.size) :
    m.contentsAt ids = ids.map fun id => (m.values[id]?.getD default).content := by
  rw [← List.filterMap_eq_map]
  refine List.filterMap_congr fun id hid => ?_
  simp [h id hid]

/-- A key falls back to the first value that was set from outside. -/
theorem Reachable.fallsBack (hm : m.Reachable) {group key value : String}
    {declared more : List (String × List Condition × Option Place)}
    (h : m.contentsOf group key = declared ++ (value, [], none) :: more) :
    m.resolve.FallsBack group key declared value := by
  have hlt : ∀ id ∈ (m.idsOf? group key).getD [], id < m.values.size := by
    intro id hid
    rw [hm.inStep.ids] at hid
    exact List.mem_range.1 (List.mem_filter.1 hid).1
  rw [contentsOf, contentsAt_eq_map hlt] at h
  obtain ⟨first, rest, hids, hfirst, hrest⟩ := List.map_eq_append_iff.1 h
  obtain ⟨id, behind, rfl, hcontent, -⟩ := List.map_eq_cons_iff.1 hrest
  have hlength : declared.length = first.length := by rw [← hfirst, List.length_map]
  have htake : ((m.resolve.idsOf? group key).getD []).take declared.length = first := by
    rw [idsOf?_resolve, hids, hlength, List.take_left]
  rw [hids] at hlt
  obtain ⟨v, hv⟩ : ∃ v, m.values[id]? = some v :=
    ⟨_, Array.getElem?_eq_getElem (hlt id (by simp))⟩
  obtain ⟨hraw, hconditions, -⟩ : v.raw = value ∧ v.conditions = [] ∧ v.origin = none := by
    simpa [hv, Value.content] using hcontent
  have hactive := hm.indexed.activity_resolve hv hconditions
  obtain ⟨text, htext⟩ := (hm.indexed.settled_resolve (hlt id (by simp))).1
  refine ⟨?_, text, ?_, fun hplain => ?_⟩
  · rw [htake, ← hfirst]
    exact contentsAt_eq_map fun w hw => hlt w (List.mem_append_left _ hw)
  · have hvalues : m.resolve.valuesOf group key =
        m.resolve.textsAt first ++ text :: m.resolve.textsAt behind := by
      rw [valuesOf_eq_textsAt, idsOf?_resolve, hids, textsAt, List.filterMap_append,
        List.filterMap_cons, hactive, htext]
      rfl
    rw [htake, value?, hvalues]
    cases m.resolve.textsAt first <;> rfl
  · have hplainText := hm.indexed.text_resolve hv (hraw ▸ hplain)
    rw [htext, hraw] at hplainText
    exact Expansion.done.inj hplainText

end Model

end IncrementalBuild.Settings
