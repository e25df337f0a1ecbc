import IncrementalBuild.Proofs.Settings.Answers
import Mathlib

/-!
Findings without alarms are consistent: the solver of every depth answers what they call for, by
induction on the depth, and resolution asks for every value.
-/

namespace IncrementalBuild.Settings

open Findings

section

variable {m : Model} {g f : Findings} {s : Solver} {id : Nat}

theorem Sound.setText (hf : Sound m g f) (hid : id < m.values.size) {e : Expansion}
    (he : ∀ t, e = .done t → (∀ v, m.values[id]? = some v → t = m.expansion g v.group v.raw) ∧
      Acc (fun w v => m.References g v w) id) : Sound m g (f.setText id e) := by
  have hself : (f.setText id e).text id = e := text_setText_self (by rwa [hf.texts_size])
  refine ⟨by simpa [Findings.setText] using hf.texts_size, hf.activities_size, ?_,
    hf.activity_eq, ?_⟩
  · intro w v t hv ht
    by_cases hw : w = id
    · subst hw
      rw [hself] at ht
      exact (he t ht).1 v hv
    · rw [text_setText_ne hw] at ht
      exact hf.text_eq w v t hv ht
  · intro w t ht
    by_cases hw : w = id
    · subst hw
      rw [hself] at ht
      exact (he t ht).2
    · rw [text_setText_ne hw] at ht
      exact hf.acc w t ht

theorem Sound.setActivity (hf : Sound m g f) (hid : id < m.values.size) {e : Activity}
    (he : ∀ a, e = .known a → ∀ v, m.values[id]? = some v →
      a = v.conditions.all (m.holds g v.group)) : Sound m g (f.setActivity id e) := by
  have hself : (f.setActivity id e).activity id = e :=
    activity_setActivity_self (by rwa [hf.activities_size])
  refine ⟨hf.texts_size, by simpa [Findings.setActivity] using hf.activities_size, hf.text_eq,
    ?_, hf.acc⟩
  intro w v a hv ha
  by_cases hw : w = id
  · subst hw
    rw [hself] at ha
    exact he a ha v hv
  · rw [activity_setActivity_ne hw] at ha
    exact hf.activity_eq w v a hv ha

/-- A text that was under way is not among the final answers it is replaced by. -/
theorem Within.of_setText (hprogress : f.text id = .inProgress) {e : Expansion}
    (h : Within (f.setText id e) g) : Within f g := by
  refine ⟨?_, h.activity, h.diagnostics⟩
  intro w t ht
  have hw : w ≠ id := by
    rintro rfl
    simp [hprogress] at ht
  exact h.text w t (by rwa [text_setText_ne hw])

theorem Within.of_setActivity (hevaluating : f.activity id = .evaluating) {e : Activity}
    (h : Within (f.setActivity id e) g) : Within f g := by
  refine ⟨h.text, ?_, h.diagnostics⟩
  intro w a ha
  have hw : w ≠ id := by
    rintro rfl
    simp [hevaluating] at ha
  exact h.activity w a (by rwa [activity_setActivity_ne hw])

end

namespace Solver

/-- On the way to the findings `g`, the solver answers what they say of a value. -/
structure Exact (m : Model) (g : Findings) (s : Solver) : Prop where
  cautious : s.Cautious
  text : ∀ id < m.values.size, Answers m g (s.text id) (g.finalText id) {.text id}
  active : ∀ id < m.values.size, Answers m g (s.active id) (g.isActive id) {.activity id}

variable {m : Model} {g : Findings} {s : Solver}

theorem Exact.firstActive (hs : s.Exact m g) {ids : List Nat}
    (hids : ∀ id ∈ ids, id < m.values.size) :
    Answers m g (s.firstActive ids) ((ids.find? g.isActive).map g.finalText)
      (Question.text '' {w | ids.find? g.isActive = some w}) := by
  induction ids with
  | nil =>
    apply (answers_pure none).mono
    rintro _ ⟨w, hw, rfl⟩
    cases hw
  | cons id ids ih =>
    have hid := hids id List.mem_cons_self
    have hkeeps (a : Bool) : Keeps (if a = true then (do return some (← s.text id))
        else s.firstActive ids) := by
      split
      · exact (hs.cautious.text id).bind fun _ => keeps_pure _
      · exact hs.cautious.firstActive ids
    cases hactive : g.isActive id with
    | true =>
      have hfind : (id :: ids).find? g.isActive = some id := by simp [hactive]
      rw [hfind]
      have htext := (hs.text id hid).bind (fun _ => keeps_pure _)
        (answers_pure (some (g.finalText id)))
      have hrest : Answers m g (if g.isActive id = true then (do return some (← s.text id))
          else s.firstActive ids) (some (g.finalText id)) ({.text id} ∪ ∅) := by
        rw [hactive, if_pos rfl]
        exact htext
      apply ((hs.active id hid).bind hkeeps hrest).mono
      rintro _ ⟨w, ⟨⟩, rfl⟩
      exact .inr (.inl rfl)
    | false =>
      have hfind : (id :: ids).find? g.isActive = ids.find? g.isActive := by simp [hactive]
      rw [hfind]
      have hrest : Answers m g (if g.isActive id = true then (do return some (← s.text id))
          else s.firstActive ids) ((ids.find? g.isActive).map g.finalText)
          (Question.text '' {w | ids.find? g.isActive = some w}) := by
        rw [hactive, if_neg Bool.false_ne_true]
        exact ih fun w hw => hids w (List.mem_cons_of_mem _ hw)
      apply ((hs.active id hid).bind hkeeps hrest).mono
      exact Set.subset_union_right

theorem Exact.found (hs : s.Exact m g) (hm : m.Indexed) (scope name : String) :
    Answers m g (s.found m scope name) ((m.target? g scope name).map g.finalText)
      (Question.text '' {w | m.target? g scope name = some w}) := by
  unfold Solver.found Model.target?
  cases hlookup : m.lookup name scope with
  | none =>
    apply (answers_pure none).mono
    rintro _ ⟨w, hw, rfl⟩
    cases hw
  | some ids => exact hs.firstActive fun id hid => hm.lt_of_lookup hlookup hid

theorem Exact.piece (hs : s.Exact m g) (hm : m.Indexed) (v : Value) (p : Piece) :
    Answers m g (s.piece m v p) (m.pieceText g v.group p)
      (Question.text '' {w | ∃ name, p = .reference name ∧
        m.target? g v.group name = some w}) := by
  cases p with
  | text t =>
    apply (answers_pure t).mono
    rintro _ ⟨w, ⟨name, hname, -⟩, rfl⟩
    cases hname
  | reference name =>
    rw [piece_reference]
    refine ((hs.found hm v.group name).bind (fun found => ?_) (?_ : Answers m g _ _ ∅)).mono ?_
    · split
      · exact keeps_pure _
      · exact (keeps_diagnose _ _).bind fun _ => keeps_pure _
    · rw [Model.pieceText]
      cases m.target? g v.group name with
      | some w => exact answers_pure _
      | none =>
        exact (answers_diagnose _ _).bind_empty (fun _ => keeps_pure _) (answers_pure _)
    · rintro _ ⟨w, ⟨name', hname, hw⟩, rfl⟩
      cases hname
      exact .inl ⟨w, hw, rfl⟩

theorem Exact.pieces (hs : s.Exact m g) (hm : m.Indexed) (v : Value) (ps : List Piece) :
    Answers m g (s.pieces m v ps) ((ps.map (m.pieceText g v.group)).foldr (· ++ ·) "")
      (Question.text '' {w | ∃ name, .reference name ∈ ps ∧
        m.target? g v.group name = some w}) := by
  induction ps with
  | nil =>
    apply (answers_pure "").mono
    rintro _ ⟨w, ⟨name, hname, -⟩, rfl⟩
    cases hname
  | cons p ps ih =>
    have hrest := ih.bind (fun _ => keeps_pure _)
      (answers_pure (m.pieceText g v.group p ++
        (ps.map (m.pieceText g v.group)).foldr (· ++ ·) ""))
    refine ((hs.piece hm v p).bind (fun t => ?_) hrest).mono ?_
    · exact (hs.cautious.pieces m v ps).bind fun _ => keeps_pure _
    · rintro _ ⟨w, ⟨name, hname, hw⟩, rfl⟩
      rcases List.mem_cons.1 hname with heq | hmem
      · exact .inl ⟨w, ⟨name, heq.symm, hw⟩, rfl⟩
      · exact .inr (.inl ⟨w, ⟨name, hmem, hw⟩, rfl⟩)

theorem Exact.expand (hs : s.Exact m g) (hm : m.Indexed) (v : Value) (text : String) :
    Answers m g (s.expand m v text) (m.expansion g v.group text)
      (Question.text '' {w | m.RefersTo g v.group text w}) := by
  unfold Solver.expand Model.expansion
  cases hpieces : pieces? text with
  | error e =>
    apply (answers_pure text).mono
    rintro _ ⟨w, ⟨ps, name, hps, -⟩, rfl⟩
    simp [hpieces] at hps
  | ok ps =>
    apply (hs.pieces hm v ps).mono
    rintro _ ⟨w, ⟨ps', name, hps, hname, hw⟩, rfl⟩
    rw [hpieces] at hps
    cases hps
    exact ⟨w, ⟨name, hname, hw⟩, rfl⟩

theorem Exact.literal (hs : s.Exact m g) (hm : m.Indexed) (v : Value) (l : Literal) :
    Answers m g (s.literal m v l) (m.literalText g v.group l) ∅ := by
  cases l with
  | reference name =>
    simp only [Solver.literal, Model.literalText, Model.target?]
    cases hlookup : m.lookup name v.group with
    | none => exact answers_pure name
    | some ids =>
      have hfirst := hs.firstActive fun id hid => hm.lt_of_lookup hlookup hid
      exact (hfirst.mono (Set.empty_subset _)).bind_empty (fun _ => keeps_pure _) (answers_pure _)
  | quoted t => exact (hs.expand hm v t).mono (Set.empty_subset _)

theorem Exact.allHold (hs : s.Exact m g) (hm : m.Indexed) (v : Value) (cs : List Condition) :
    Answers m g (s.allHold m v cs) (cs.all (m.holds g v.group)) ∅ := by
  induction cs with
  | nil => exact answers_pure true
  | cons c cs ih =>
    have hkeeps := hs.cautious.literal m v
    have hholds : Answers m g (c.holds (s.literal m v)) (m.holds g v.group c) ∅ :=
      (answers_operand hkeeps (hs.literal hm v) c).bind_empty (fun _ => keeps_pure _)
        (answers_pure _)
    refine hholds.bind_empty (fun b => ?_) ?_
    · split
      · exact hs.cautious.allHold m v cs
      · exact keeps_pure _
    · rw [List.all_cons]
      cases m.holds g v.group c with
      | true => simpa using ih
      | false => exact answers_pure false

variable {deeper : Option Solver}

theorem answers_textWith (hm : m.Indexed) (hquiet : m.Quiet g)
    (hdeeper : ∀ s ∈ deeper, s.Exact m g) {id : Nat} (hid : id < m.values.size) :
    Answers m g (textWith deeper m id) (g.finalText id) {.text id} := by
  obtain ⟨v, hv⟩ : ∃ v, m.values[id]? = some v := ⟨_, Array.getElem?_eq_getElem hid⟩
  have hfinal {t : String} (ht : g.text id = .done t) : t = g.finalText id := by
    simp [Findings.finalText, ht]
  intro f hf hg
  rw [run_textWith] at hg ⊢
  simp only [hv, Option.getD_some] at hg ⊢
  cases htext : f.text id with
  | done t =>
    simp only [htext] at hg ⊢
    refine ⟨hfinal (hg.text id t htext), hf, ?_⟩
    rintro _ rfl
    exact ⟨t, htext⟩
  | inProgress =>
    simp only [htext] at hg ⊢
    exact answers_alarm hquiet hv .cyclic _ _ _ f hf hg
  | pending =>
    simp only [htext] at hg ⊢
    cases deeper with
    | none => exact answers_alarm hquiet hv .expanding _ _ _ f hf hg
    | some s =>
      have hs := hdeeper s rfl
      have hstarted : Sound m g (f.setText id .inProgress) := hf.setText hid (by simp)
      have hgrows := hs.cautious.expand m v v.raw (f.setText id .inProgress)
      have hself : (f.setText id .inProgress).text id = .inProgress :=
        text_setText_self (by rwa [hf.texts_size])
      have hprogress := (hgrows.text id (by simp [hself])).trans hself
      obtain ⟨hvalue, hsound, hsettled⟩ :=
        hs.expand hm v v.raw _ hstarted (Within.of_setText hprogress hg)
      have hdone := text_setText_self (t := .done ((s.expand m v v.raw).run
        (f.setText id .inProgress)).1) (by rwa [hsound.texts_size] : id < _)
      refine ⟨hfinal (hg.text id _ hdone), hsound.setText hid ?_, ?_⟩
      · rintro t ⟨⟩
        refine ⟨?_, Acc.intro id ?_⟩
        · intro v' hv'
          rw [hv] at hv'
          cases hv'
          exact hvalue
        · rintro w ⟨v', hv', hw⟩
          rw [hv] at hv'
          cases hv'
          obtain ⟨t, ht⟩ := hsettled (.text w) ⟨w, hw, rfl⟩
          exact hsound.acc w t ht
      · rintro _ rfl
        exact ⟨_, hdone⟩

theorem answers_activeWith (hm : m.Indexed) (hquiet : m.Quiet g)
    (hdeeper : ∀ s ∈ deeper, s.Exact m g) {id : Nat} (hid : id < m.values.size) :
    Answers m g (activeWith deeper m id) (g.isActive id) {.activity id} := by
  obtain ⟨v, hv⟩ : ∃ v, m.values[id]? = some v := ⟨_, Array.getElem?_eq_getElem hid⟩
  have hfinal {a : Bool} (ha : g.activity id = .known a) : a = g.isActive id := by
    cases a <;> simp [Findings.isActive, ha]
  intro f hf hg
  rw [run_activeWith] at hg ⊢
  simp only [hv, Option.getD_some] at hg ⊢
  cases hactivity : f.activity id with
  | known a =>
    simp only [hactivity] at hg ⊢
    refine ⟨hfinal (hg.activity id a hactivity), hf, ?_⟩
    rintro _ rfl
    exact ⟨a, hactivity⟩
  | evaluating =>
    simp only [hactivity] at hg ⊢
    exact answers_alarm hquiet hv .ownValue _ _ _ f hf hg
  | unknown =>
    simp only [hactivity] at hg ⊢
    cases deeper with
    | none => exact answers_alarm hquiet hv .evaluating _ _ _ f hf hg
    | some s =>
      have hs := hdeeper s rfl
      have hstarted : Sound m g (f.setActivity id .evaluating) := hf.setActivity hid (by simp)
      have hgrows := hs.cautious.allHold m v v.conditions (f.setActivity id .evaluating)
      have hself : (f.setActivity id .evaluating).activity id = .evaluating :=
        activity_setActivity_self (by rwa [hf.activities_size])
      have hevaluating := (hgrows.activity id (by simp [hself])).trans hself
      obtain ⟨hvalue, hsound, -⟩ :=
        hs.allHold hm v v.conditions _ hstarted (Within.of_setActivity hevaluating hg)
      have hknown := activity_setActivity_self (a := .known ((s.allHold m v v.conditions).run
        (f.setActivity id .evaluating)).1) (by rwa [hsound.activities_size] : id < _)
      refine ⟨hfinal (hg.activity id _ hknown), hsound.setActivity hid ?_, ?_⟩
      · rintro a ⟨⟩ v' hv'
        rw [hv] at hv'
        cases hv'
        exact hvalue
      · rintro _ rfl
        exact ⟨_, hknown⟩

theorem exact_ofRoom (hm : m.Indexed) (hquiet : m.Quiet g) (room : Nat) :
    (ofRoom m room).Exact m g := by
  induction room with
  | zero =>
    refine ⟨cautious_ofRoom m 0, ?_, ?_⟩
    · exact fun id hid => answers_textWith hm hquiet (by simp) hid
    · exact fun id hid => answers_activeWith hm hquiet (by simp) hid
  | succ room ih =>
    have hdeeper : ∀ s ∈ some (ofRoom m room), s.Exact m g := by
      rintro s ⟨⟩
      exact ih
    refine ⟨cautious_ofRoom m (room + 1), ?_, ?_⟩
    · exact fun id hid => answers_textWith hm hquiet hdeeper hid
    · exact fun id hid => answers_activeWith hm hquiet hdeeper hid

theorem Exact.settle (hs : s.Exact m g) {ids : List Nat} (hids : ∀ id ∈ ids, id < m.values.size) :
    Answers m g (s.settle ids) () (Question.text '' {id | id ∈ ids} ∪
      Question.activity '' {id | id ∈ ids}) := by
  induction ids with
  | nil =>
    apply (answers_pure ()).mono
    rintro _ (⟨id, hid, -⟩ | ⟨id, hid, -⟩) <;> cases hid
  | cons id ids ih =>
    have hid := hids id List.mem_cons_self
    have hrest := ih fun w hw => hids w (List.mem_cons_of_mem _ hw)
    have hkeeps := hs.cautious.settle ids
    refine ((hs.text id hid).bind (fun _ => (hs.cautious.active id).bind fun _ => hkeeps)
      ((hs.active id hid).bind (fun _ => hkeeps) hrest)).mono ?_
    rintro _ (⟨w, hw, rfl⟩ | ⟨w, hw, rfl⟩) <;> rcases List.mem_cons.1 hw with rfl | hw
    · exact .inl rfl
    · exact .inr (.inr (.inl ⟨w, hw, rfl⟩))
    · exact .inr (.inl rfl)
    · exact .inr (.inr (.inr ⟨w, hw, rfl⟩))

end Solver

theorem sound_blank (m : Model) (g : Findings) : Sound m g (.blank m.values.size) where
  texts_size := by simp [Findings.blank]
  activities_size := by simp [Findings.blank]
  text_eq id v t _ ht := by simp at ht
  activity_eq id v a _ ha := by simp at ha
  acc id t ht := by simp at ht

theorem not_self_of_acc {α : Type} {r : α → α → Prop} {a : α} (h : Acc r a) : ¬ r a a := by
  induction h with
  | intro a _ ih => exact fun haa => ih a haa haa

/-- Resolution without alarms ends in findings that are sound and settle every question. -/
theorem Model.Indexed.sound_resolve {m : Model} (hm : m.Indexed)
    (hquiet : m.Quiet m.resolve.findings) :
    Sound m m.resolve.findings m.resolve.findings ∧ ∀ id < m.values.size,
      m.resolve.findings.Settled (.text id) ∧ m.resolve.findings.Settled (.activity id) := by
  have hexact := Solver.exact_ofRoom hm hquiet (referenceDepth + 1)
  obtain ⟨-, hsound, hsettled⟩ :=
    hexact.settle (fun id => List.mem_range.1) _ (sound_blank m _) (Within.refl _)
  refine ⟨hsound, fun id hid => ?_⟩
  have hid := List.mem_range.2 hid
  exact ⟨hsettled _ (.inl ⟨id, hid, rfl⟩), hsettled _ (.inr ⟨id, hid, rfl⟩)⟩

/-- Whatever descriptions a model was read from and whatever was set or merged in: if resolving it
raises no alarm, then every value has its final text and activity, these are what the declarations
say when references are read from the resolved model itself, and no value's text needs itself. -/
theorem Model.Reachable.resolve_consistent {m : Model} (hm : m.Reachable)
    (hquiet : m.Quiet m.resolve.findings) : m.Consistent m.resolve.findings := by
  obtain ⟨hsound, hsettled⟩ := hm.indexed.sound_resolve hquiet
  have hsize {id : Nat} {v : Value} (hv : m.values[id]? = some v) : id < m.values.size :=
    (Array.getElem?_eq_some_iff.1 hv).1
  refine ⟨?_, ?_, ?_⟩
  · intro id v hv
    obtain ⟨t, ht⟩ := (hsettled id (hsize hv)).1
    rw [← hsound.text_eq id v t hv ht]
    exact ht
  · intro id v hv
    obtain ⟨a, ha⟩ := (hsettled id (hsize hv)).2
    rw [← hsound.activity_eq id v a hv ha]
    exact ha
  · intro id hcycle
    obtain ⟨w, ⟨v, hv, -⟩, -⟩ := Relation.TransGen.head'_iff.1 hcycle
    obtain ⟨t, ht⟩ := (hsettled id (hsize hv)).1
    exact not_self_of_acc (hsound.acc id t ht).transGen (Relation.transGen_swap.2 hcycle)

/-- A description with a value that counts under a condition and refers to another. -/
def conditionalSource : String :=
  "Mode = debug\nif (Mode == \"debug\") \x7b\nFlag = -g $(Mode)\n\x7d\n"

theorem conditionalSource_consistent : ∃ m, Model.ofSource ⟨"app"⟩ conditionalSource = .ok m ∧
    m.Consistent m.resolve.findings := by
  have hnone : ((Model.ofSource ⟨"app"⟩ conditionalSource).toOption.map fun m =>
      m.resolve.findings.diagnostics.length) = some 0 := by
    cbv
  cases hm : Model.ofSource ⟨"app"⟩ conditionalSource with
  | error e => simp [hm, Except.toOption] at hnone
  | ok m =>
    have hnil : m.resolve.findings.diagnostics = [] := by
      simpa [hm, Except.toOption] using hnone
    refine ⟨m, rfl, (Model.Reachable.ofSource hm).resolve_consistent ?_⟩
    intro v _ d hd
    simp [hnil] at hd

end IncrementalBuild.Settings
