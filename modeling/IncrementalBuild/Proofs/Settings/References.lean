import IncrementalBuild.Proofs.Settings.Meaning
import IncrementalBuild.Proofs.Settings.Reachable

/-!
What values can refer to, read off their declarations, and what they mean where that comes to an
end: the texts and activities that plain expansion gives, without a memory and without a limit on
depth.
-/

namespace IncrementalBuild.Settings

/-- The names of the references in a text. -/
def referencesIn (text : String) : List String :=
  match pieces? text with
  | .ok ps => ps.filterMap fun
    | .text _ => none
    | .reference name => some name
  | .error _ => []

theorem mem_referencesIn {text name : String} {ps : List Piece} (h : pieces? text = .ok ps) :
    name ∈ referencesIn text ↔ .reference name ∈ ps := by
  simp only [referencesIn, h, List.mem_filterMap]
  constructor
  · rintro ⟨_ | _, hp, heq⟩
    · cases heq
    · cases heq
      exact hp
  · intro hp
    exact ⟨_, hp, rfl⟩

/-- The names a literal may look up. -/
def Literal.names : Literal → List String
  | .reference name => [name]
  | .quoted t => referencesIn t

/-- The names a condition may look up. -/
def Condition.names : Condition → List String
  | .literal l => l.names
  | .not c | .paren c => c.names
  | .and l r | .or l r | .compare _ l r => l.names ++ r.names

/-- The names a value may look up, for its text and for its conditions. -/
def Value.names (v : Value) : List String :=
  referencesIn v.raw ++ v.conditions.flatMap Condition.names

namespace Model

/-- The values a value can refer to: all values of all keys that it may look up. -/
def named (m : Model) (id : Nat) : List Nat :=
  match m.values[id]? with
  | some v => v.names.flatMap fun name => (m.lookup name v.group).getD []
  | none => []

variable {m : Model} {id u w : Nat}

theorem mem_named_of_lookup {v : Value} {name : String} {ids : List Nat}
    (hv : m.values[id]? = some v) (hname : name ∈ v.names) (hids : m.lookup name v.group = some ids)
    (hw : w ∈ ids) : w ∈ m.named id := by
  simp only [named, hv, List.mem_flatMap]
  exact ⟨name, hname, by simpa [hids] using hw⟩

theorem Indexed.lt_of_mem_named (hm : m.Indexed) (hw : w ∈ m.named id) : w < m.values.size := by
  unfold named at hw
  split at hw
  next v hv =>
    obtain ⟨name, -, hw⟩ := List.mem_flatMap.1 hw
    cases hids : m.lookup name v.group with
    | none => simp [hids] at hw
    | some ids => exact hm.lt_of_lookup hids (by simpa [hids] using hw)
  next => cases hw

/-- The value is needed by another, directly or through others. -/
def Below (m : Model) : Nat → Nat → Prop :=
  Relation.TransGen fun u w => w ∈ m.named u

/-- The value is another one or needed by it. -/
def Cone (m : Model) : Nat → Nat → Prop :=
  Relation.ReflTransGen fun u w => w ∈ m.named u

/-- A number of references lead from a value to another. -/
def Chain (m : Model) : Nat → Nat → Nat → Prop
  | 0, u, w => u = w
  | n + 1, u, w => ∃ x, m.Chain n u x ∧ w ∈ m.named x

/-- No more than a number of references lead on from a value, one after the other. -/
def Shallow (m : Model) : Nat → Nat → Prop
  | 0, id => m.named id = []
  | n + 1, id => ∀ w ∈ m.named id, m.Shallow n w

theorem Shallow.exists_of_chain {n k : Nat} (h : m.Shallow n id) (hchain : m.Chain k id w) :
    ∃ j, n = k + j ∧ m.Shallow j w := by
  induction k generalizing w with
  | zero =>
    obtain rfl : id = w := hchain
    exact ⟨n, by omega, h⟩
  | succ k ih =>
    obtain ⟨x, hchain, hw⟩ := hchain
    obtain ⟨j, rfl, hx⟩ := ih hchain
    cases j with
    | zero =>
      rw [show m.named x = [] from hx] at hw
      cases hw
    | succ j => exact ⟨j, by omega, hx w hw⟩

theorem Chain.cons {k : Nat} (hu : u ∈ m.named id) (h : m.Chain k u w) : m.Chain (k + 1) id w := by
  induction k generalizing w with
  | zero =>
    obtain rfl : u = w := h
    exact ⟨id, rfl, hu⟩
  | succ k ih =>
    obtain ⟨x, h, hw⟩ := h
    exact ⟨x, ih h, hw⟩

theorem shallow_iff {n : Nat} : m.Shallow n id ↔ ∀ k w, m.Chain k id w → k ≤ n := by
  refine ⟨fun h k w hchain => ?_, fun h => ?_⟩
  · obtain ⟨j, rfl, -⟩ := h.exists_of_chain hchain
    omega
  induction n generalizing id with
  | zero =>
    refine List.eq_nil_iff_forall_not_mem.2 fun w hw => ?_
    have hone := h 1 w ⟨id, rfl, hw⟩
    omega
  | succ n ih =>
    intro w hw
    refine ih fun k x hchain => ?_
    have hmore := h (k + 1) x (.cons hw hchain)
    omega

theorem Shallow.of_cone {n : Nat} (h : m.Shallow n id) (hcone : m.Cone id w) :
    ∃ j, j ≤ n ∧ m.Shallow j w := by
  induction hcone with
  | refl => exact ⟨n, Nat.le_refl n, h⟩
  | tail _ hw ih =>
    obtain ⟨j, hj, hx⟩ := ih
    cases j with
    | zero =>
      rw [show m.named _ = [] from hx] at hw
      cases hw
    | succ j => exact ⟨j, by omega, hx _ hw⟩

/-- What such a value needs comes to an end. -/
theorem Shallow.acc {n : Nat} (h : m.Shallow n id) : Acc (fun w u => w ∈ m.named u) id := by
  induction n generalizing id with
  | zero =>
    refine .intro id fun w hw => ?_
    rw [show m.named id = [] from h] at hw
    cases hw
  | succ n ih => exact .intro id fun w hw => ih (h w hw)

end Model

section

variable {m : Model} {f g : Findings} {scope : String}

/-- Two findings have the same answers about all values that a name can stand for. -/
def Model.Agree (m : Model) (f g : Findings) (scope name : String) : Prop :=
  ∀ ids, m.lookup name scope = some ids → ∀ w ∈ ids,
    f.isActive w = g.isActive w ∧ f.finalText w = g.finalText w

theorem map_finalText_congr {name : String} (h : m.Agree f g scope name) :
    (m.target? f scope name).map f.finalText = (m.target? g scope name).map g.finalText := by
  unfold Model.target?
  cases hlookup : m.lookup name scope with
  | none => rfl
  | some ids =>
    have hids := h ids hlookup
    simp only [Option.bind_some]
    clear hlookup
    induction ids with
    | nil => rfl
    | cons w ids ih =>
      obtain ⟨hactive, htext⟩ := hids w List.mem_cons_self
      have hrest := ih fun x hx => hids x (List.mem_cons_of_mem _ hx)
      rw [List.find?_cons, List.find?_cons, hactive]
      cases g.isActive w with
      | true => simp [htext]
      | false => exact hrest

theorem expansion_congr {text : String} (h : ∀ name ∈ referencesIn text, m.Agree f g scope name) :
    m.expansion f scope text = m.expansion g scope text := by
  unfold Model.expansion
  cases hpieces : pieces? text with
  | error => rfl
  | ok ps =>
    have heq : ps.map (m.pieceText f scope) = ps.map (m.pieceText g scope) := by
      refine List.map_congr_left fun piece hpiece => ?_
      cases piece with
      | text t => rfl
      | reference name =>
        rw [Model.pieceText, Model.pieceText,
          map_finalText_congr (h name ((mem_referencesIn hpieces).2 hpiece))]
    simp only [heq]

theorem literalText_congr {l : Literal} (h : ∀ name ∈ l.names, m.Agree f g scope name) :
    m.literalText f scope l = m.literalText g scope l := by
  cases l with
  | reference name =>
    rw [Model.literalText, Model.literalText,
      map_finalText_congr (h name (List.mem_singleton.2 rfl))]
  | quoted t => exact expansion_congr h

theorem holds_congr {c : Condition} (h : ∀ name ∈ c.names, m.Agree f g scope name) :
    m.holds f scope c = m.holds g scope c := by
  have hoperand : Id.run (c.operand fun l => pure (m.literalText f scope l)) =
      Id.run (c.operand fun l => pure (m.literalText g scope l)) := by
    induction c with
    | literal l => simp only [Condition.operand, Id.run_bind, Id.run_pure, literalText_congr h]
    | not c ih | paren c ih => simp only [Condition.operand, Id.run_bind, ih h]
    | and l r ihl ihr | or l r ihl ihr =>
      have hl := ihl fun name hname => h name (List.mem_append_left _ hname)
      have hr := ihr fun name hname => h name (List.mem_append_right _ hname)
      simp only [Condition.operand, Id.run_bind, hl]
      split <;> simp only [Id.run_bind, hr]
    | compare op l r ihl ihr =>
      have hl := ihl fun name hname => h name (List.mem_append_left _ hname)
      have hr := ihr fun name hname => h name (List.mem_append_right _ hname)
      simp only [Condition.operand, Id.run_bind, hl, hr]
  simp only [Model.holds, Condition.holds, Id.run_bind, hoperand]

end

namespace Model

variable {m : Model} {id : Nat}

/-- The text and the activity that plain expansion gives a value: its text with every reference
replaced by the plain text of the first of its values whose conditions plainly hold, and whether
its own conditions hold in the same way. -/
inductive Plain (m : Model) : Nat → String → Bool → Prop
  | intro {id : Nat} {v : Value} {f : Findings} : m.values[id]? = some v →
      (∀ w ∈ m.named id, Plain m w (f.finalText w) (f.isActive w)) →
      Plain m id (m.expansion f v.group v.raw) (v.conditions.all (m.holds f v.group))

theorem answers_congr {f g : Findings} {v : Value} (hv : m.values[id]? = some v)
    (h : ∀ w ∈ m.named id, f.isActive w = g.isActive w ∧ f.finalText w = g.finalText w) :
    m.expansion f v.group v.raw = m.expansion g v.group v.raw ∧
      v.conditions.all (m.holds f v.group) = v.conditions.all (m.holds g v.group) := by
  have hagree (name : String) (hname : name ∈ v.names) : m.Agree f g v.group name :=
    fun ids hids w hw => h w (mem_named_of_lookup hv hname hids hw)
  refine ⟨expansion_congr fun name hname => hagree name (List.mem_append_left _ hname), ?_⟩
  have hholds (c : Condition) (hc : c ∈ v.conditions) :
      m.holds f v.group c = m.holds g v.group c :=
    holds_congr fun name hname => hagree name
      (List.mem_append_right _ (List.mem_flatMap.2 ⟨c, hc, hname⟩))
  rw [Bool.eq_iff_iff, List.all_eq_true, List.all_eq_true]
  exact forall₂_congr fun c hc => by rw [hholds c hc]

/-- Plain expansion gives at most one text and one activity. -/
theorem Plain.unique {t s : String} {a b : Bool} (h : m.Plain id t a) (h' : m.Plain id s b) :
    s = t ∧ b = a := by
  induction h generalizing s b with
  | @intro id v f hv _ ih =>
    cases h' with
    | @intro _ v' g hv' hplain =>
      obtain rfl : v = v' := Option.some.inj (hv.symm.trans hv')
      refine answers_congr hv fun w hw => ?_
      obtain ⟨htext, hactive⟩ := ih w hw (hplain w hw)
      exact ⟨hactive, htext⟩

theorem exists_findings (n : Nat) (T : Nat → String) (A : Nat → Bool) :
    ∃ f : Findings, ∀ w < n, f.finalText w = T w ∧ f.isActive w = A w := by
  refine ⟨⟨Array.ofFn fun i : Fin n => .done (T i), Array.ofFn fun i : Fin n => .known (A i), []⟩,
    fun w hw => ?_⟩
  simp [Findings.finalText, Findings.isActive, Findings.text, Findings.activity, hw]

/-- Plain expansion ends where what a value needs comes to an end. -/
theorem exists_plain (hm : m.Indexed) (h : Acc (fun w u => w ∈ m.named u) id)
    (hid : id < m.values.size) : ∃ t a, m.Plain id t a := by
  induction h with
  | intro id _ ih =>
    have hall (w : Nat) : ∃ t a, w ∈ m.named id → m.Plain w t a := by
      by_cases hw : w ∈ m.named id
      · obtain ⟨t, a, h⟩ := ih w hw (hm.lt_of_mem_named hw)
        exact ⟨t, a, fun _ => h⟩
      · exact ⟨"", false, fun h => absurd h hw⟩
    choose T A hplain using hall
    obtain ⟨f, hf⟩ := exists_findings m.values.size T A
    refine ⟨_, _, .intro (f := f) (Array.getElem?_eq_getElem hid) fun w hw => ?_⟩
    obtain ⟨htext, hactive⟩ := hf w (hm.lt_of_mem_named hw)
    rw [htext, hactive]
    exact hplain w hw

end Model

end IncrementalBuild.Settings
