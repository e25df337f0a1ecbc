import IncrementalBuild.Proofs.Settings.References
import IncrementalBuild.Proofs.Settings.Resolution

/-!
Resolution is local: what a value is resolved to is what plain expansion gives it, whatever else a
model declares, unless a value that it needs was met at the end of a chain of references that is
too long.
-/

namespace IncrementalBuild.Settings

open Findings

/-- The messages that tell of a value that was needed too deep to be looked for. -/
inductive TooDeep (v : Value) : String → Prop where
  | expanding : TooDeep v ("reference depth exceeded while expanding " ++ v.name)
  | evaluating : TooDeep v ("reference depth exceeded while evaluating " ++ v.name)

namespace Findings

theorem size_setText {f : Findings} {id : Nat} {t : Expansion} :
    (f.setText id t).texts.size = f.texts.size := by
  simp [setText]

theorem size_setActivity {f : Findings} {id : Nat} {a : Activity} :
    (f.setActivity id a).activities.size = f.activities.size := by
  simp [setActivity]

/-- A question about the value is under way. -/
def Marked (f : Findings) (w : Nat) : Prop :=
  f.text w = .inProgress ∨ f.activity w = .evaluating

/-- No question is under way in `g` that is not under way in `f`. -/
structure Balanced (f g : Findings) : Prop where
  text : ∀ w, g.text w = .inProgress → f.text w = .inProgress
  activity : ∀ w, g.activity w = .evaluating → f.activity w = .evaluating

theorem Balanced.refl (f : Findings) : Balanced f f :=
  ⟨fun _ h => h, fun _ h => h⟩

theorem Balanced.trans {f g h : Findings} (hfg : Balanced f g) (hgh : Balanced g h) :
    Balanced f h :=
  ⟨fun w hw => hfg.text w (hgh.text w hw), fun w hw => hfg.activity w (hgh.activity w hw)⟩

theorem Balanced.marked {f g : Findings} (h : Balanced f g) {w : Nat} (hw : g.Marked w) :
    f.Marked w :=
  hw.imp (h.text w) (h.activity w)

end Findings

/-- The answers `p` are the plain ones for a value `top` and all that it needs, which does not need
itself, and the findings `g` tell of no value that `top` needs at the end of a chain that is too
long. -/
structure Settling (m : Model) (top : Nat) (p g : Findings) : Prop where
  indexed : m.Indexed
  acyclic : ∀ w, m.Cone top w → ¬ m.Below w w
  text_eq : ∀ w v, m.Cone top w → m.values[w]? = some v →
    p.finalText w = m.expansion p v.group v.raw
  isActive_eq : ∀ w v, m.Cone top w → m.values[w]? = some v →
    p.isActive w = v.conditions.all (m.holds p v.group)
  clear : ∀ u w v, m.Below top w → m.values[w]? = some v → m.Chain (referenceDepth + 1) u w →
    ∀ d ∈ g.diagnostics, ¬ TooDeep v d.message

/-- The final answers about a value `top` and all that it needs are those of `p`. -/
structure Right (m : Model) (top : Nat) (p f : Findings) : Prop where
  texts_size : f.texts.size = m.values.size
  activities_size : f.activities.size = m.values.size
  text_eq : ∀ w t, m.Cone top w → f.text w = .done t → t = p.finalText w
  activity_eq : ∀ w a, m.Cone top w → f.activity w = .known a → a = p.isActive w

/-- Run where only questions about values in `M` are under way, and on the way to the findings `g`,
the computation gives an answer that is as `Q` says, keeps the right answers right, and leaves no
question under way. -/
def Gives {α : Type} (m : Model) (top : Nat) (p g : Findings) (M : Set Nat) (c : Resolving α)
    (Q : α → Prop) : Prop :=
  ∀ f, Right m top p f → (∀ w, f.Marked w → w ∈ M) → Within (c.run f).2 g →
    Q (c.run f).1 ∧ Right m top p (c.run f).2 ∧ Balanced f (c.run f).2

section

variable {m : Model} {top : Nat} {p g f : Findings} {α β : Type} {M N : Set Nat}

theorem gives_pure {Q : α → Prop} {a : α} (ha : Q a) : Gives m top p g M (pure a) Q :=
  fun f hf _ _ => ⟨ha, hf, .refl f⟩

theorem Gives.mono {c : Resolving α} {Q R : α → Prop} (h : Gives m top p g M c Q)
    (hsubset : N ⊆ M) (hQ : ∀ a, Q a → R a) : Gives m top p g N c R := by
  intro f hf hmarked hg
  obtain ⟨hvalue, hright, hbalanced⟩ := h f hf (fun w hw => hsubset (hmarked w hw)) hg
  exact ⟨hQ _ hvalue, hright, hbalanced⟩

theorem Gives.bind {c : Resolving α} {k : α → Resolving β} {Q : α → Prop} {R : β → Prop}
    (hc : Gives m top p g M c Q) (hkeeps : ∀ a, Keeps (k a))
    (hk : ∀ a, Q a → Gives m top p g M (k a) R) : Gives m top p g M (c >>= k) R := by
  intro f hf hmarked hg
  have hgrows : Within (c.run f).2 ((c >>= k).run f).2 := (hkeeps _ _).within
  obtain ⟨hvalue, hright, hbalanced⟩ := hc f hf hmarked (hgrows.trans hg)
  obtain ⟨hvalue', hright', hbalanced'⟩ := hk _ hvalue _ hright
    (fun w hw => hmarked w (hbalanced.marked hw)) hg
  exact ⟨hvalue', hright', hbalanced.trans hbalanced'⟩

theorem Right.of_diagnostics (hf : Right m top p f) (ds : List Diagnostic) :
    Right m top p { f with diagnostics := ds } :=
  ⟨hf.texts_size, hf.activities_size, hf.text_eq, hf.activity_eq⟩

theorem gives_diagnose (v : Value) (message : String) :
    Gives m top p g M (diagnose v message) fun _ => ∃ d ∈ g.diagnostics, d.message = message := by
  intro f hf _ hg
  obtain ⟨ds, hrun, -, d, hd, hmessage⟩ := run_diagnose v message f
  rw [hrun] at hg ⊢
  exact ⟨⟨d, hg.diagnostics d hd, hmessage⟩, hf.of_diagnostics ds,
    fun _ hw => hw, fun _ hw => hw⟩

theorem gives_alarm {v : Value} {message : String} {Q : α → Prop} {a : α}
    (ha : (∃ d ∈ g.diagnostics, d.message = message) → Q a) :
    Gives m top p g M (diagnose v message >>= fun _ => pure a) Q :=
  (gives_diagnose v message).bind (fun _ => keeps_pure _) fun _ hd => gives_pure (ha hd)

theorem gives_operand {literal : Literal → Resolving String} {read : Literal → String} {P : Prop}
    (hkeeps : ∀ l, Keeps (literal l)) (c : Condition)
    (hliteral : ∀ l, l.names ⊆ c.names →
      Gives m top p g M (literal l) fun t => P → t = read l) :
    Gives m top p g M (c.operand literal) fun o =>
      P → o = Id.run (c.operand fun l => pure (read l)) := by
  have hrest (c : Condition) (k : Operand → Operand) :
      Keeps (c.operand literal >>= fun w => pure (k w)) :=
    (keeps_operand hkeeps c).bind fun _ => keeps_pure _
  induction c with
  | literal l =>
    refine (hliteral l fun _ h => h).bind (fun _ => keeps_pure _) fun t ht => gives_pure ?_
    intro hP
    rw [ht hP]
    rfl
  | paren c ih => exact ih hliteral
  | not c ih =>
    refine (ih hliteral).bind (fun _ => keeps_pure _) fun o ho => gives_pure ?_
    intro hP
    rw [ho hP]
    rfl
  | and l r ihl ihr =>
    have hl := ihl fun x hx => hliteral x (List.subset_append_of_subset_left _ hx)
    have hr := ihr fun x hx => hliteral x (List.subset_append_of_subset_right _ hx)
    refine hl.bind (fun v => ?_) fun v hv => ?_
    · split
      · exact hrest r _
      · exact keeps_pure _
    · split
      next htrue =>
        refine hr.bind (fun _ => keeps_pure _) fun w hw => gives_pure fun hP => ?_
        rw [hv hP] at htrue
        simp only [Condition.operand, Id.run_bind, htrue, if_true, ← hw hP]
        rfl
      next hfalse =>
        refine gives_pure fun hP => ?_
        rw [hv hP] at hfalse
        simp only [Condition.operand, Id.run_bind, hfalse, Bool.false_eq_true, if_false]
        rfl
  | or l r ihl ihr =>
    have hl := ihl fun x hx => hliteral x (List.subset_append_of_subset_left _ hx)
    have hr := ihr fun x hx => hliteral x (List.subset_append_of_subset_right _ hx)
    refine hl.bind (fun v => ?_) fun v hv => ?_
    · split
      · exact keeps_pure _
      · exact hrest r _
    · split
      next htrue =>
        refine gives_pure fun hP => ?_
        rw [hv hP] at htrue
        simp only [Condition.operand, Id.run_bind, htrue, if_true]
        rfl
      next hfalse =>
        refine hr.bind (fun _ => keeps_pure _) fun w hw => gives_pure fun hP => ?_
        rw [hv hP] at hfalse
        simp only [Condition.operand, Id.run_bind, hfalse, Bool.false_eq_true, if_false,
          ← hw hP]
        rfl
  | compare op l r ihl ihr =>
    have hl := ihl fun x hx => hliteral x (List.subset_append_of_subset_left _ hx)
    have hr := ihr fun x hx => hliteral x (List.subset_append_of_subset_right _ hx)
    refine hl.bind (fun v => hrest r _) fun v hv => ?_
    refine hr.bind (fun _ => keeps_pure _) fun w hw => gives_pure fun hP => ?_
    simp only [Condition.operand, Id.run_bind, ← hv hP, ← hw hP]
    rfl

theorem Right.setText (hf : Right m top p f) {w : Nat} (hw : w < m.values.size) {e : Expansion}
    (he : ∀ t, e = .done t → m.Cone top w → t = p.finalText w) :
    Right m top p (f.setText w e) := by
  refine ⟨size_setText.trans hf.texts_size, hf.activities_size, ?_, hf.activity_eq⟩
  intro x t hx ht
  by_cases hxw : x = w
  · subst hxw
    rw [text_setText_self (by rwa [hf.texts_size])] at ht
    exact he t ht hx
  · rw [text_setText_ne hxw] at ht
    exact hf.text_eq x t hx ht

theorem Right.setActivity (hf : Right m top p f) {w : Nat} (hw : w < m.values.size)
    {e : Activity} (he : ∀ a, e = .known a → m.Cone top w → a = p.isActive w) :
    Right m top p (f.setActivity w e) := by
  refine ⟨hf.texts_size, size_setActivity.trans hf.activities_size, hf.text_eq, ?_⟩
  intro x a hx ha
  by_cases hxw : x = w
  · subst hxw
    rw [activity_setActivity_self (by rwa [hf.activities_size])] at ha
    exact he a ha hx
  · rw [activity_setActivity_ne hxw] at ha
    exact hf.activity_eq x a hx ha

/-- Where a text is replaced before and after a balanced run, and is not under way at the end, the
whole is balanced. -/
theorem Findings.Balanced.of_setText {w : Nat} {s e : Expansion} (hw : w < g.texts.size)
    (hbalanced : Balanced (f.setText w s) g) (he : e ≠ .inProgress) :
    Balanced f (g.setText w e) := by
  refine ⟨fun x hx => ?_, hbalanced.activity⟩
  by_cases hxw : x = w
  · subst hxw
    rw [text_setText_self hw] at hx
    exact absurd hx he
  · rw [text_setText_ne hxw] at hx
    rw [← text_setText_ne (f := f) (t := s) hxw]
    exact hbalanced.text x hx

theorem Findings.Balanced.of_setActivity {w : Nat} {s e : Activity} (hw : w < g.activities.size)
    (hbalanced : Balanced (f.setActivity w s) g) (he : e ≠ .evaluating) :
    Balanced f (g.setActivity w e) := by
  refine ⟨hbalanced.text, fun x hx => ?_⟩
  by_cases hxw : x = w
  · subst hxw
    rw [activity_setActivity_self hw] at hx
    exact absurd hx he
  · rw [activity_setActivity_ne hxw] at hx
    rw [← activity_setActivity_ne (f := f) (a := s) hxw]
    exact hbalanced.activity x hx

end

namespace Solver

/-- Asked about a value at the end of `depth` references, while only questions about values that
need it are under way, the solver keeps the right answers right, and about what `top` needs it gives
the plain ones. -/
structure Local (m : Model) (top : Nat) (p g : Findings) (depth : Nat) (s : Solver) : Prop where
  cautious : s.Cautious
  text : ∀ u w, w < m.values.size → m.Chain depth u w →
    Gives m top p g {x | m.Below x w} (s.text w) fun t => m.Below top w → t = p.finalText w
  active : ∀ u w, w < m.values.size → m.Chain depth u w →
    Gives m top p g {x | m.Below x w} (s.active w) fun a => m.Below top w → a = p.isActive w

variable {m : Model} {top : Nat} {p g : Findings} {s : Solver} {depth u id : Nat} {v : Value}

theorem Local.firstActive (hm : m.Indexed) (hs : s.Local m top p g (depth + 1))
    (hchain : m.Chain depth u id) {ids : List Nat} (hids : ∀ w ∈ ids, w ∈ m.named id) :
    Gives m top p g {x | m.Cone x id} (s.firstActive ids) fun r =>
      m.Cone top id → r = (ids.find? p.isActive).map p.finalText := by
  induction ids with
  | nil => exact gives_pure fun _ => rfl
  | cons w ids ih =>
    have hw := hids w List.mem_cons_self
    have hlt := hm.lt_of_mem_named hw
    have hasked : {x | m.Cone x id} ⊆ {x | m.Below x w} := fun x hx =>
      Relation.TransGen.tail' hx hw
    have hbelow (hcone : m.Cone top id) : m.Below top w := Relation.TransGen.tail' hcone hw
    have hchain' : m.Chain (depth + 1) u w := ⟨id, hchain, hw⟩
    refine ((hs.active u w hlt hchain').mono hasked fun _ h => h).bind (fun a => ?_) fun a ha => ?_
    · split
      · exact (hs.cautious.text w).bind fun _ => keeps_pure _
      · exact hs.cautious.firstActive ids
    · split
      next htrue =>
        refine ((hs.text u w hlt hchain').mono hasked fun _ h => h).bind (fun _ => keeps_pure _)
          fun t ht => gives_pure fun hcone => ?_
        rw [ha (hbelow hcone)] at htrue
        rw [ht (hbelow hcone), List.find?_cons_of_pos htrue, Option.map_some]
      next hfalse =>
        refine (ih fun x hx => hids x (List.mem_cons_of_mem _ hx)).mono (fun _ h => h)
          fun r hr hcone => ?_
        rw [ha (hbelow hcone)] at hfalse
        rw [List.find?_cons_of_neg hfalse]
        exact hr hcone

theorem Local.found (hm : m.Indexed) (hs : s.Local m top p g (depth + 1))
    (hchain : m.Chain depth u id) (hv : m.values[id]? = some v) {name : String}
    (hname : name ∈ v.names) :
    Gives m top p g {x | m.Cone x id} (s.found m v.group name) fun r =>
      m.Cone top id → r = (m.target? p v.group name).map p.finalText := by
  unfold Solver.found Model.target?
  cases hlookup : m.lookup name v.group with
  | none => exact gives_pure fun _ => rfl
  | some ids =>
    exact hs.firstActive hm hchain fun w hw => Model.mem_named_of_lookup hv hname hlookup hw

theorem Local.piece (hm : m.Indexed) (hs : s.Local m top p g (depth + 1))
    (hchain : m.Chain depth u id) (hv : m.values[id]? = some v) (piece : Piece)
    (hpiece : ∀ name, piece = .reference name → name ∈ v.names) :
    Gives m top p g {x | m.Cone x id} (s.piece m v piece) fun t =>
      m.Cone top id → t = m.pieceText p v.group piece := by
  cases piece with
  | text t => exact gives_pure fun _ => rfl
  | reference name =>
    rw [piece_reference]
    refine (hs.found hm hchain hv (hpiece name rfl)).bind (fun found => ?_) fun found hfound => ?_
    · split
      · exact keeps_pure _
      · exact (keeps_diagnose _ _).bind fun _ => keeps_pure _
    · split
      next t =>
        refine gives_pure fun hcone => ?_
        rw [Model.pieceText, ← hfound hcone, Option.getD_some]
      next =>
        refine (gives_diagnose _ _).bind (fun _ => keeps_pure _) fun _ _ =>
          gives_pure fun hcone => ?_
        rw [Model.pieceText, ← hfound hcone, Option.getD_none]

theorem Local.pieces (hm : m.Indexed) (hs : s.Local m top p g (depth + 1))
    (hchain : m.Chain depth u id) (hv : m.values[id]? = some v) {ps : List Piece}
    (hps : ∀ name, .reference name ∈ ps → name ∈ v.names) :
    Gives m top p g {x | m.Cone x id} (s.pieces m v ps) fun t =>
      m.Cone top id → t = (ps.map (m.pieceText p v.group)).foldr (· ++ ·) "" := by
  induction ps with
  | nil => exact gives_pure fun _ => rfl
  | cons piece ps ih =>
    have hpiece := hs.piece hm hchain hv piece fun name h =>
      hps name (h ▸ List.mem_cons_self)
    have hrest := ih fun name hname => hps name (List.mem_cons_of_mem _ hname)
    refine hpiece.bind (fun _ => ?_) fun t ht => ?_
    · exact (hs.cautious.pieces m v ps).bind fun _ => keeps_pure _
    · refine hrest.bind (fun _ => keeps_pure _) fun r hr => gives_pure fun hcone => ?_
      rw [ht hcone, hr hcone, List.map_cons, List.foldr_cons]

theorem Local.expand (hm : m.Indexed) (hs : s.Local m top p g (depth + 1))
    (hchain : m.Chain depth u id) (hv : m.values[id]? = some v) {text : String}
    (htext : referencesIn text ⊆ v.names) :
    Gives m top p g {x | m.Cone x id} (s.expand m v text) fun t =>
      m.Cone top id → t = m.expansion p v.group text := by
  unfold Solver.expand Model.expansion
  cases hpieces : pieces? text with
  | error => exact gives_pure fun _ => rfl
  | ok ps =>
    exact hs.pieces hm hchain hv fun name hname => htext ((mem_referencesIn hpieces).2 hname)

theorem Local.literal (hm : m.Indexed) (hs : s.Local m top p g (depth + 1))
    (hchain : m.Chain depth u id) (hv : m.values[id]? = some v) {l : Literal}
    (hl : l.names ⊆ v.names) :
    Gives m top p g {x | m.Cone x id} (s.literal m v l) fun t =>
      m.Cone top id → t = m.literalText p v.group l := by
  cases l with
  | reference name =>
    have hname : name ∈ v.names := hl List.mem_cons_self
    simp only [Solver.literal, Model.literalText, Model.target?]
    cases hlookup : m.lookup name v.group with
    | none => exact gives_pure fun _ => rfl
    | some ids =>
      refine (hs.firstActive hm hchain fun w hw =>
        Model.mem_named_of_lookup hv hname hlookup hw).bind (fun _ => keeps_pure _)
        fun r hr => gives_pure fun hcone => ?_
      rw [hr hcone, Option.bind_some]
  | quoted t => exact hs.expand hm hchain hv hl

theorem Local.allHold (hm : m.Indexed) (hs : s.Local m top p g (depth + 1))
    (hchain : m.Chain depth u id) (hv : m.values[id]? = some v) {cs : List Condition}
    (hcs : ∀ c ∈ cs, c.names ⊆ v.names) :
    Gives m top p g {x | m.Cone x id} (s.allHold m v cs) fun a =>
      m.Cone top id → a = cs.all (m.holds p v.group) := by
  induction cs with
  | nil => exact gives_pure fun _ => rfl
  | cons c cs ih =>
    have hkeeps := hs.cautious.literal m v
    have hoperand := gives_operand hkeeps c fun l hl =>
      hs.literal hm hchain hv fun _ h => hcs c List.mem_cons_self (hl h)
    have hholds : Gives m top p g {x | m.Cone x id} (c.holds (s.literal m v)) fun b =>
        m.Cone top id → b = m.holds p v.group c := by
      refine hoperand.bind (fun _ => keeps_pure _) fun o ho => gives_pure fun hcone => ?_
      rw [ho hcone]
      rfl
    refine hholds.bind (fun b => ?_) fun b hb => ?_
    · split
      · exact hs.cautious.allHold m v cs
      · exact keeps_pure _
    · split
      next htrue =>
        refine (ih fun c hc => hcs c (List.mem_cons_of_mem _ hc)).mono (fun _ h => h)
          fun a ha hcone => ?_
        rw [ha hcone, List.all_cons, ← hb hcone, htrue, Bool.true_and]
      next hfalse =>
        refine gives_pure fun hcone => ?_
        rw [List.all_cons, ← hb hcone, Bool.eq_false_iff.2 hfalse, Bool.false_and]

variable {deeper : Option Solver}

theorem local_textWith (hset : Settling m top p g)
    (hdeeper : ∀ s ∈ deeper, s.Local m top p g (depth + 1))
    (hnone : deeper = none → depth = referenceDepth + 1) (hid : id < m.values.size)
    (hchain : m.Chain depth u id) :
    Gives m top p g {x | m.Below x id} (textWith deeper m id) fun t =>
      m.Below top id → t = p.finalText id := by
  obtain ⟨v, hv⟩ : ∃ v, m.values[id]? = some v := ⟨_, Array.getElem?_eq_getElem hid⟩
  intro f hf hmarked hg
  rw [run_textWith] at hg ⊢
  simp only [hv, Option.getD_some] at hg ⊢
  cases htext : f.text id with
  | done t =>
    simp only [htext] at hg ⊢
    exact ⟨fun hbelow => hf.text_eq id t hbelow.to_reflTransGen htext, hf, .refl f⟩
  | inProgress =>
    simp only [htext] at hg ⊢
    refine gives_alarm (Q := fun t => m.Below top id → t = p.finalText id) ?_ f hf hmarked hg
    exact fun _ hbelow => absurd (hmarked id (.inl htext))
      (hset.acyclic id hbelow.to_reflTransGen)
  | pending =>
    simp only [htext] at hg ⊢
    cases deeper with
    | none =>
      refine gives_alarm (Q := fun t => m.Below top id → t = p.finalText id) ?_ f hf hmarked hg
      rintro ⟨d, hd, hmessage⟩ hbelow
      have hdeep : TooDeep v d.message := hmessage ▸ .expanding
      exact absurd hdeep (hset.clear u id v hbelow hv (hnone rfl ▸ hchain) d hd)
    | some s =>
      have hs := hdeeper s rfl
      have hstarted : Right m top p (f.setText id .inProgress) := hf.setText hid (by simp)
      have hself : (f.setText id .inProgress).text id = .inProgress :=
        text_setText_self (by rwa [hf.texts_size])
      have hasked (x : Nat) (hx : (f.setText id .inProgress).Marked x) : m.Cone x id := by
        by_cases hxid : x = id
        · exact hxid ▸ .refl
        · rw [Marked, text_setText_ne hxid] at hx
          exact (hmarked x hx).to_reflTransGen
      have hgrows := hs.cautious.expand m v v.raw (f.setText id .inProgress)
      have hprogress := (hgrows.text id (by simp [hself])).trans hself
      obtain ⟨hvalue, hright, hbalanced⟩ := hs.expand hset.indexed hchain hv
        (List.subset_append_left _ _) _ hstarted hasked (Within.of_setText hprogress hg)
      have hend (hcone : m.Cone top id) : ((s.expand m v v.raw).run
          (f.setText id .inProgress)).1 = p.finalText id :=
        (hvalue hcone).trans (hset.text_eq id v hcone hv).symm
      refine ⟨fun hbelow => hend hbelow.to_reflTransGen, hright.setText hid ?_,
        hbalanced.of_setText (by rwa [hright.texts_size]) (by simp)⟩
      rintro t ⟨⟩ hcone
      exact hend hcone

theorem local_activeWith (hset : Settling m top p g)
    (hdeeper : ∀ s ∈ deeper, s.Local m top p g (depth + 1))
    (hnone : deeper = none → depth = referenceDepth + 1) (hid : id < m.values.size)
    (hchain : m.Chain depth u id) :
    Gives m top p g {x | m.Below x id} (activeWith deeper m id) fun a =>
      m.Below top id → a = p.isActive id := by
  obtain ⟨v, hv⟩ : ∃ v, m.values[id]? = some v := ⟨_, Array.getElem?_eq_getElem hid⟩
  intro f hf hmarked hg
  rw [run_activeWith] at hg ⊢
  simp only [hv, Option.getD_some] at hg ⊢
  cases hactivity : f.activity id with
  | known a =>
    simp only [hactivity] at hg ⊢
    exact ⟨fun hbelow => hf.activity_eq id a hbelow.to_reflTransGen hactivity, hf, .refl f⟩
  | evaluating =>
    simp only [hactivity] at hg ⊢
    refine gives_alarm (Q := fun a => m.Below top id → a = p.isActive id) ?_ f hf hmarked hg
    exact fun _ hbelow => absurd (hmarked id (.inr hactivity))
      (hset.acyclic id hbelow.to_reflTransGen)
  | unknown =>
    simp only [hactivity] at hg ⊢
    cases deeper with
    | none =>
      refine gives_alarm (Q := fun a => m.Below top id → a = p.isActive id) ?_ f hf hmarked hg
      rintro ⟨d, hd, hmessage⟩ hbelow
      have hdeep : TooDeep v d.message := hmessage ▸ .evaluating
      exact absurd hdeep (hset.clear u id v hbelow hv (hnone rfl ▸ hchain) d hd)
    | some s =>
      have hs := hdeeper s rfl
      have hstarted : Right m top p (f.setActivity id .evaluating) :=
        hf.setActivity hid (by simp)
      have hself : (f.setActivity id .evaluating).activity id = .evaluating :=
        activity_setActivity_self (by rwa [hf.activities_size])
      have hasked (x : Nat) (hx : (f.setActivity id .evaluating).Marked x) : m.Cone x id := by
        by_cases hxid : x = id
        · exact hxid ▸ .refl
        · rw [Marked, activity_setActivity_ne hxid] at hx
          exact (hmarked x hx).to_reflTransGen
      have hgrows := hs.cautious.allHold m v v.conditions (f.setActivity id .evaluating)
      have hevaluating := (hgrows.activity id (by simp [hself])).trans hself
      have hnames (c : Condition) (hc : c ∈ v.conditions) : c.names ⊆ v.names := fun _ h =>
        List.mem_append_right _ (List.mem_flatMap.2 ⟨c, hc, h⟩)
      obtain ⟨hvalue, hright, hbalanced⟩ := hs.allHold hset.indexed hchain hv hnames _ hstarted
        hasked (Within.of_setActivity hevaluating hg)
      have hend (hcone : m.Cone top id) : ((s.allHold m v v.conditions).run
          (f.setActivity id .evaluating)).1 = p.isActive id :=
        (hvalue hcone).trans (hset.isActive_eq id v hcone hv).symm
      refine ⟨fun hbelow => hend hbelow.to_reflTransGen, hright.setActivity hid ?_,
        hbalanced.of_setActivity (by rwa [hright.activities_size]) (by simp)⟩
      rintro a ⟨⟩ hcone
      exact hend hcone

theorem local_ofRoom (hset : Settling m top p g) {room : Nat}
    (hdepth : depth + room = referenceDepth + 1) : (ofRoom m room).Local m top p g depth := by
  induction room generalizing depth with
  | zero =>
    have hnone : (none : Option Solver) = none → depth = referenceDepth + 1 := fun _ => hdepth
    refine ⟨cautious_ofRoom m 0, ?_, ?_⟩
    · exact fun u w hw => local_textWith hset (by simp) hnone hw
    · exact fun u w hw => local_activeWith hset (by simp) hnone hw
  | succ room ih =>
    have hdeeper : ∀ s ∈ some (ofRoom m room), s.Local m top p g (depth + 1) := by
      rintro s ⟨⟩
      exact ih (by omega)
    refine ⟨cautious_ofRoom m (room + 1), ?_, ?_⟩
    · exact fun u w hw => local_textWith hset hdeeper (by simp) hw
    · exact fun u w hw => local_activeWith hset hdeeper (by simp) hw

/-- The solver answers every question that is not under way. -/
structure Settles (s : Solver) : Prop where
  text : ∀ w f, w < f.texts.size → f.text w ≠ .inProgress →
    ((s.text w).run f).2.Settled (.text w)
  active : ∀ w f, w < f.activities.size → f.activity w ≠ .evaluating →
    ((s.active w).run f).2.Settled (.activity w)

theorem settles_ofRoom (m : Model) (room : Nat) : (ofRoom m (room + 1)).Settles := by
  refine ⟨fun w f hw hopen => ?_, fun w f hw hopen => ?_⟩
  · simp only [ofRoom]
    rw [run_textWith]
    cases htext : f.text w with
    | done t => exact ⟨t, htext⟩
    | inProgress => exact absurd htext hopen
    | pending =>
      have hkeeps := (cautious_ofRoom m room).expand m (m.values[w]?.getD default)
        (m.values[w]?.getD default).raw (f.setText w .inProgress)
      have hsize := hkeeps.texts_size.trans size_setText
      exact ⟨_, text_setText_self (hw.trans_eq hsize.symm)⟩
  · simp only [ofRoom]
    rw [run_activeWith]
    cases hactivity : f.activity w with
    | known a => exact ⟨a, hactivity⟩
    | evaluating => exact absurd hactivity hopen
    | unknown =>
      have hkeeps := (cautious_ofRoom m room).allHold m (m.values[w]?.getD default)
        (m.values[w]?.getD default).conditions (f.setActivity w .evaluating)
      have hsize := hkeeps.activities_size.trans size_setActivity
      exact ⟨_, activity_setActivity_self (hw.trans_eq hsize.symm)⟩

/-- Asked about values one after the other, with nothing under way, the solver settles them all,
and what is settled about `top` and what it needs is right. -/
theorem Local.settle (hs : s.Local m top p g 0) (hsettles : s.Settles) {ids : List Nat}
    (hids : ∀ w ∈ ids, w < m.values.size) {f : Findings} (hf : Right m top p f)
    (hopen : ∀ w, ¬ f.Marked w) (hg : Within ((s.settle ids).run f).2 g) :
    Right m top p ((s.settle ids).run f).2 ∧
      ∀ w ∈ ids, ((s.settle ids).run f).2.Settled (.text w) ∧
        ((s.settle ids).run f).2.Settled (.activity w) := by
  induction ids generalizing f with
  | nil => exact ⟨hf, by simp⟩
  | cons id ids ih =>
    have hid := hids id List.mem_cons_self
    have hrun : (s.settle (id :: ids)).run f =
        (s.settle ids).run ((s.active id).run ((s.text id).run f).2).2 := rfl
    rw [hrun] at hg ⊢
    have hactiveKeeps := hs.cautious.active id ((s.text id).run f).2
    have hrestKeeps := hs.cautious.settle ids ((s.active id).run ((s.text id).run f).2).2
    have hrest := hrestKeeps.within.trans hg
    obtain ⟨-, hright, hbalanced⟩ := hs.text id id hid rfl f hf (fun w hw => absurd hw (hopen w))
      (hactiveKeeps.within.trans hrest)
    have hopen' (w : Nat) : ¬ ((s.text id).run f).2.Marked w := fun hw =>
      hopen w (hbalanced.marked hw)
    obtain ⟨-, hright', hbalanced'⟩ := hs.active id id hid rfl _ hright
      (fun w hw => absurd hw (hopen' w)) hrest
    have htext := hsettles.text id f (hf.texts_size ▸ hid) fun h => hopen id (.inl h)
    have hactivity := hsettles.active id ((s.text id).run f).2 (hright.activities_size ▸ hid)
      fun h => hopen' id (.inr h)
    obtain ⟨hend, hall⟩ := ih (fun w hw => hids w (List.mem_cons_of_mem _ hw)) hright'
      (fun w hw => hopen' w (hbalanced'.marked hw)) hg
    refine ⟨hend, fun w hw => ?_⟩
    rcases List.mem_cons.1 hw with rfl | hw
    · exact ⟨(hactiveKeeps.within.trans hrestKeeps.within).settled htext,
        hrestKeeps.within.settled hactivity⟩
    · exact hall w hw

end Solver

theorem right_blank (m : Model) (top : Nat) (p : Findings) :
    Right m top p (.blank m.values.size) where
  texts_size := by simp [Findings.blank]
  activities_size := by simp [Findings.blank]
  text_eq w t _ ht := by simp at ht
  activity_eq w a _ ha := by simp at ha

theorem not_marked_blank (n w : Nat) : ¬ (Findings.blank n).Marked w := by
  simp [Marked]

/-- There are plain answers for a value and all that it needs, if no reference leads back. -/
theorem exists_plain_cone {m : Model} (hm : m.Indexed) {id : Nat} (hid : id < m.values.size)
    (hacc : Acc (fun w u => w ∈ m.named u) id) :
    ∃ p : Findings, ∀ w, m.Cone id w → m.Plain w (p.finalText w) (p.isActive w) := by
  have hcone (w : Nat) (hw : m.Cone id w) :
      w < m.values.size ∧ Acc (fun w u => w ∈ m.named u) w := by
    induction hw with
    | refl => exact ⟨hid, hacc⟩
    | tail _ hw ih => exact ⟨hm.lt_of_mem_named hw, ih.2.inv hw⟩
  have hall (w : Nat) : ∃ t a, m.Cone id w → m.Plain w t a := by
    by_cases hw : m.Cone id w
    · obtain ⟨hlt, hacc⟩ := hcone w hw
      obtain ⟨t, a, h⟩ := Model.exists_plain hm hacc hlt
      exact ⟨t, a, fun _ => h⟩
    · exact ⟨"", false, fun h => absurd h hw⟩
  choose T A hplain using hall
  obtain ⟨p, hp⟩ := Model.exists_findings m.values.size T A
  refine ⟨p, fun w hw => ?_⟩
  obtain ⟨htext, hactive⟩ := hp w (hcone w hw).1
  rw [htext, hactive]
  exact hplain w hw

/-- A value from which no more than `referenceDepth` references lead on has one plain text and one
plain activity, and these are the ones that resolution gives it, unless it reports that a value it
needs was met at the end of a longer chain, which begins at a value that it does not need. -/
theorem Model.Reachable.resolve_local {m : Model} (hm : m.Reachable) {id : Nat}
    (hid : id < m.values.size) (hshallow : m.Shallow referenceDepth id) :
    ∃ t a, (∀ s b, m.Plain id s b ↔ s = t ∧ b = a) ∧
      (m.resolve.findings.text id = .done t ∧ m.resolve.findings.activity id = .known a ∨
        ∃ u w v, ¬ m.Cone id u ∧ m.Chain (referenceDepth + 1) u w ∧ m.Below id w ∧
          m.values[w]? = some v ∧ ∃ d ∈ m.resolve.diagnostics, TooDeep v d.message) := by
  obtain ⟨p, hp⟩ := exists_plain_cone hm.indexed hid hshallow.acc
  have hself := hp id .refl
  refine ⟨p.finalText id, p.isActive id, fun s b => ⟨hself.unique, ?_⟩, ?_⟩
  · rintro ⟨rfl, rfl⟩
    exact hself
  by_contra hnot
  obtain ⟨hwrong, hclear⟩ := not_or.1 hnot
  have hanswers (w : Nat) (v : Value) (hw : m.Cone id w) (hv : m.values[w]? = some v) :=
    (hp w hw).unique (.intro hv fun x hx => hp x (hw.tail hx))
  have hset : Settling m id p m.resolve.findings := by
    refine ⟨hm.indexed, fun w hw hcycle => ?_, fun w v hw hv => ?_, fun w v hw hv => ?_, ?_⟩
    · obtain ⟨j, -, hj⟩ := hshallow.of_cone hw
      exact not_self_of_acc hj.acc.transGen (Relation.transGen_swap.2 hcycle)
    · exact (hanswers w v hw hv).1.symm
    · exact (hanswers w v hw hv).2.symm
    · intro u w v hbelow hv hchain d hd hdeep
      refine hclear ⟨u, w, v, fun hcone => ?_, hchain, hbelow, hv, d, hd, hdeep⟩
      obtain ⟨j, hj, hu⟩ := hshallow.of_cone hcone
      obtain ⟨i, rfl, -⟩ := hu.exists_of_chain hchain
      omega
  have hlocal := Solver.local_ofRoom hset (Nat.zero_add (referenceDepth + 1))
  have hids : ∀ w ∈ List.range m.values.size, w < m.values.size := by simp
  obtain ⟨hright, hsettled⟩ := hlocal.settle (Solver.settles_ofRoom m referenceDepth) hids
    (right_blank m id p) (not_marked_blank _) (Within.refl _)
  obtain ⟨⟨t, ht⟩, ⟨a, ha⟩⟩ := hsettled id (List.mem_range.2 hid)
  refine hwrong ⟨?_, ?_⟩
  · rw [← hright.text_eq id t .refl ht]
    exact ht
  · rw [← hright.activity_eq id a .refl ha]
    exact ha

/-- A flag whose text and condition need a mode: both are what plain expansion gives. -/
theorem conditionalSource_local : ∃ m, Model.ofSource ⟨"app"⟩ conditionalSource = .ok m ∧
    1 < m.values.size ∧ m.Shallow referenceDepth 1 ∧ ∃ t a, m.Plain 1 t a ∧
      m.resolve.findings.text 1 = .done t ∧ m.resolve.findings.activity 1 = .known a := by
  have hfacts : ((Model.ofSource ⟨"app"⟩ conditionalSource).toOption.map fun m =>
      (m.values.size, m.named 1, m.named 0, m.resolve.diagnostics.length)) =
        some (2, [0, 0], [], 0) := by
    cbv
  cases hm : Model.ofSource ⟨"app"⟩ conditionalSource with
  | error e => simp [hm, Except.toOption] at hfacts
  | ok m =>
    obtain ⟨hsize, hflag, hmode, hnil⟩ : m.values.size = 2 ∧ m.named 1 = [0, 0] ∧
        m.named 0 = [] ∧ m.resolve.diagnostics = [] := by
      simpa [hm, Except.toOption] using hfacts
    have hshallow : m.Shallow referenceDepth 1 := by
      intro w hw
      obtain rfl : w = 0 := by simpa [hflag] using hw
      intro x hx
      simp [hmode] at hx
    obtain ⟨t, a, hplain, hright | ⟨u, w, v, -, -, -, -, d, hd, -⟩⟩ :=
      (Model.Reachable.ofSource hm).resolve_local (by omega) hshallow
    · exact ⟨m, rfl, by omega, hshallow, t, a, (hplain t a).2 ⟨rfl, rfl⟩, hright⟩
    · simp [hnil] at hd

end IncrementalBuild.Settings
