import IncrementalBuild.Settings.Resolution
import Mathlib.Logic.Relation

/-!
What the findings of a model have to say about its values, read off the findings themselves and
not off the order in which the resolver made them.
-/

namespace IncrementalBuild.Settings

namespace Findings

/-- Whether a value is known to count. -/
def isActive (f : Findings) (id : Nat) : Bool :=
  f.activity id = .known true

/-- The text of a value, empty while there is none. -/
def finalText (f : Findings) (id : Nat) : String :=
  match f.text id with
  | .done t => t
  | _ => ""

end Findings

namespace Model

/-- The value a reference stands for: the first that counts of those it names. -/
def target? (m : Model) (f : Findings) (scope name : String) : Option Nat :=
  (m.lookup name scope).bind fun ids => ids.find? f.isActive

def pieceText (m : Model) (f : Findings) (scope : String) : Piece → String
  | .text t => t
  | .reference name => ((m.target? f scope name).map f.finalText).getD (placeholder name)

/-- A text with every reference replaced by the text of the value it stands for, or by the
placeholder of its name. -/
def expansion (m : Model) (f : Findings) (scope text : String) : String :=
  match pieces? text with
  | .ok ps => (ps.map (m.pieceText f scope)).foldr (· ++ ·) ""
  | .error _ => text

def literalText (m : Model) (f : Findings) (scope : String) : Literal → String
  | .reference name =>
    match m.lookup name scope with
    | some _ => ((m.target? f scope name).map f.finalText).getD ""
    | none => name
  | .quoted t => m.expansion f scope t

/-- Whether a condition holds, with its literals read from the findings. -/
def holds (m : Model) (f : Findings) (scope : String) (c : Condition) : Bool :=
  Id.run (c.holds fun l => pure (m.literalText f scope l))

/-- Some reference in a text stands for `w`. -/
def RefersTo (m : Model) (f : Findings) (scope text : String) (w : Nat) : Prop :=
  ∃ ps name, pieces? text = .ok ps ∧ .reference name ∈ ps ∧ m.target? f scope name = some w

/-- Some reference in the text of the value `id` stands for `w`. -/
def References (m : Model) (f : Findings) (id w : Nat) : Prop :=
  ∃ v, m.values[id]? = some v ∧ m.RefersTo f v.group v.raw w

/-- Findings that are final for every value and agree with each other: texts are the expansions of
what was declared, a value counts when all its conditions hold, and no value needs its own text. -/
structure Consistent (m : Model) (f : Findings) : Prop where
  text_eq : ∀ id v, m.values[id]? = some v → f.text id = .done (m.expansion f v.group v.raw)
  activity_eq : ∀ id v, m.values[id]? = some v →
    f.activity id = .known (v.conditions.all (m.holds f v.group))
  acyclic : ∀ id, ¬ Relation.TransGen (m.References f) id id

end Model

/-- The messages that tell of a value whose text or activity was needed before it was known, or too
deep to be looked for. -/
inductive Alarm (v : Value) : String → Prop where
  | cyclic : Alarm v ("cyclic reference through " ++ v.name)
  | ownValue : Alarm v ("condition (" ++ " and ".intercalate (v.conditions.map Condition.text) ++
      ") on " ++ v.name ++ " depends on its own value")
  | expanding : Alarm v ("reference depth exceeded while expanding " ++ v.name)
  | evaluating : Alarm v ("reference depth exceeded while evaluating " ++ v.name)

/-- No diagnostic tells of such a value of the model. -/
def Model.Quiet (m : Model) (f : Findings) : Prop :=
  ∀ v ∈ m.values, ∀ d ∈ f.diagnostics, ¬ Alarm v d.message

end IncrementalBuild.Settings
