import IncrementalBuild.Proofs.Settings.References

/-!
What solvers make out of answers. Texts are expanded and conditions evaluated by asking for one
answer after the other, and a reference that stands for nothing is reported. So what holds of the
answers that are asked for, and of one computation after another, holds of the whole.
-/

namespace IncrementalBuild.Settings

namespace Solver

/-- The text of the value that a reference stands for. -/
def found (s : Solver) (m : Model) (scope name : String) : Resolving (Option String) :=
  match m.lookup name scope with
  | some ids => s.firstActive ids
  | none => pure none

theorem piece_reference (s : Solver) (m : Model) (v : Value) (name : String) :
    s.piece m v (.reference name) = (do
      match ← s.found m v.group name with
      | some t => return t
      | none =>
        diagnose v ("unresolved reference $(" ++ name ++ ")")
        return placeholder name) := by
  rw [piece, found]
  cases m.lookup name v.group <;> rfl

end Solver

/-- A property of computations that holds of what is given at once and of the report of a reference
that stands for nothing, and of two computations one after the other if it holds of both. -/
structure Compositional (P : (α : Type) → Resolving α → Prop) : Prop where
  pure {α : Type} (a : α) : P α (pure a)
  bind {α β : Type} {c : Resolving α} {k : α → Resolving β} :
    P α c → (∀ a, P β (k a)) → P β (c >>= k)
  unresolved (v : Value) (name : String) :
    P Unit (diagnose v ("unresolved reference $(" ++ name ++ ")"))

/-- All values that some names look up are in `W`. -/
def Model.LooksIn (m : Model) (scope : String) (W : Set Nat) (names : List String) : Prop :=
  ∀ name ∈ names, ∀ ids, m.lookup name scope = some ids → ∀ w ∈ ids, w ∈ W

theorem Model.LooksIn.mono {m : Model} {scope : String} {W : Set Nat} {names more : List String}
    (h : m.LooksIn scope W more) (hnames : names ⊆ more) : m.LooksIn scope W names :=
  fun name hname => h name (hnames hname)

/-- A value looks up what it can refer to. -/
theorem Model.looksIn_named {m : Model} {id : Nat} {v : Value} (hv : m.values[id]? = some v) :
    m.LooksIn v.group {w | w ∈ m.named id} v.names :=
  fun _ hname _ hids _ hw => mem_named_of_lookup hv hname hids hw

namespace Compositional

variable {P : (α : Type) → Resolving α → Prop} (hP : Compositional P)

include hP

theorem operand {literal : Literal → Resolving String} {c : Condition}
    (hliteral : ∀ l, l.names ⊆ c.names → P _ (literal l)) : P _ (c.operand literal) := by
  induction c with
  | literal l => exact hP.bind (hliteral l fun _ h => h) fun _ => hP.pure _
  | paren c ih => exact ih hliteral
  | not c ih => exact hP.bind (ih hliteral) fun _ => hP.pure _
  | and l r ihl ihr =>
    have hr := ihr fun x hx => hliteral x (List.subset_append_of_subset_right _ hx)
    refine hP.bind (ihl fun x hx => hliteral x (List.subset_append_of_subset_left _ hx)) fun v => ?_
    split
    · exact hP.bind hr fun _ => hP.pure _
    · exact hP.pure _
  | or l r ihl ihr =>
    have hr := ihr fun x hx => hliteral x (List.subset_append_of_subset_right _ hx)
    refine hP.bind (ihl fun x hx => hliteral x (List.subset_append_of_subset_left _ hx)) fun v => ?_
    split
    · exact hP.pure _
    · exact hP.bind hr fun _ => hP.pure _
  | compare op l r ihl ihr =>
    have hr := ihr fun x hx => hliteral x (List.subset_append_of_subset_right _ hx)
    refine hP.bind (ihl fun x hx => hliteral x (List.subset_append_of_subset_left _ hx)) fun v => ?_
    exact hP.bind hr fun _ => hP.pure _

variable {s : Solver} {m : Model} {W : Set Nat} (hs : ∀ w ∈ W, P _ (s.text w) ∧ P _ (s.active w))

include hs

theorem firstActive {ids : List Nat} (hids : ∀ w ∈ ids, w ∈ W) : P _ (s.firstActive ids) := by
  induction ids with
  | nil => exact hP.pure _
  | cons w ids ih =>
    obtain ⟨hw, hids⟩ := List.forall_mem_cons.1 hids
    obtain ⟨htext, hactive⟩ := hs w hw
    refine hP.bind hactive fun a => ?_
    split
    · exact hP.bind htext fun _ => hP.pure _
    · exact ih hids

theorem found {scope name : String} (hname : m.LooksIn scope W [name]) :
    P _ (s.found m scope name) := by
  unfold Solver.found
  split
  next ids hids => exact hP.firstActive hs (hname name List.mem_cons_self ids hids)
  next => exact hP.pure _

theorem piece {v : Value} {p : Piece}
    (hp : ∀ name, p = .reference name → m.LooksIn v.group W [name]) : P _ (s.piece m v p) := by
  cases p with
  | text t => exact hP.pure _
  | reference name =>
    rw [Solver.piece_reference]
    refine hP.bind (hP.found hs (hp name rfl)) fun found => ?_
    split
    · exact hP.pure _
    · exact hP.bind (hP.unresolved v name) fun _ => hP.pure _

theorem pieces {v : Value} {ps : List Piece}
    (hps : ∀ name, .reference name ∈ ps → m.LooksIn v.group W [name]) : P _ (s.pieces m v ps) := by
  induction ps with
  | nil => exact hP.pure _
  | cons p ps ih =>
    refine hP.bind (hP.piece hs fun name h => hps name (h ▸ List.mem_cons_self)) fun t => ?_
    exact hP.bind (ih fun name hname => hps name (List.mem_cons_of_mem p hname)) fun _ => hP.pure _

theorem expand {v : Value} {text : String} (htext : m.LooksIn v.group W (referencesIn text)) :
    P _ (s.expand m v text) := by
  unfold Solver.expand
  split
  next ps hps =>
    refine hP.pieces hs fun name hname => htext.mono ?_
    simpa using (mem_referencesIn hps).2 hname
  next => exact hP.pure _

theorem literal {v : Value} {l : Literal} (hl : m.LooksIn v.group W l.names) :
    P _ (s.literal m v l) := by
  cases l with
  | reference name =>
    simp only [Solver.literal]
    split
    next ids hids =>
      refine hP.bind (hP.firstActive hs ?_) fun _ => hP.pure _
      exact hl name List.mem_cons_self ids hids
    next => exact hP.pure _
  | quoted t => exact hP.expand hs hl

theorem allHold {v : Value} {cs : List Condition}
    (hcs : m.LooksIn v.group W (cs.flatMap Condition.names)) : P _ (s.allHold m v cs) := by
  induction cs with
  | nil => exact hP.pure _
  | cons c cs ih =>
    have hc := hcs.mono (List.subset_append_left c.names (cs.flatMap Condition.names))
    have hrest := hcs.mono (List.subset_append_right c.names (cs.flatMap Condition.names))
    have hholds : P _ (c.holds (s.literal m v)) :=
      hP.bind (hP.operand fun l hl => hP.literal hs (hc.mono hl)) fun _ => hP.pure _
    refine hP.bind hholds fun b => ?_
    split
    · exact ih hrest
    · exact hP.pure _

end Compositional

end IncrementalBuild.Settings
