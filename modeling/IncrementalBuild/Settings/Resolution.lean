import IncrementalBuild.Settings.Model
import IncrementalBuild.Settings.Condition.Evaluation

/-!
Resolving a model: every reference is replaced by the first value that counts of the key it names,
and every value's conditions are evaluated. What is found out about a value is kept, so each value
is expanded once; a value that is needed for itself, and a chain of references longer than
`referenceDepth`, end in a diagnostic and a placeholder. A `Solver` answers the two questions about
values at one depth, and asks the solver one step deeper for the values it refers to.
-/

namespace IncrementalBuild.Settings

/-- How many references deep a value is followed. -/
def referenceDepth : Nat := 64

/-- What stands for a reference that cannot be resolved. -/
def placeholder (name : String) : String :=
  "[unresolved:" ++ name ++ "]"

namespace Model

/-- The values a reference names: those of `group.key` as the name is cut at its first dot, or
else those of the whole name in `scope`, or else those in the global group. -/
def lookup (m : Model) (name scope : String) : Option (List Nat) :=
  let qualified := (Text.splitOnce '.' name.toList).bind fun (group, key) =>
    m.idsOf? (String.ofList group) (String.ofList key)
  qualified.orElse fun _ => (m.idsOf? scope name).orElse fun _ => m.idsOf? "" name

end Model

/-- Resolution passes on what has been found out so far. -/
abbrev Resolving := StateM Findings

/-- Records a problem with a value, unless it is recorded already. -/
def diagnose (v : Value) (message : String) : Resolving Unit :=
  modify fun f =>
    let d : Diagnostic := ⟨message, v.origin⟩
    if f.diagnostics.contains d then f else { f with diagnostics := f.diagnostics ++ [d] }

/-- Answers about values, by their index. -/
structure Solver where
  /-- The expanded text of a value. -/
  text : Nat → Resolving String
  /-- Whether all conditions of a value hold. -/
  active : Nat → Resolving Bool

namespace Solver

/-- The text of the first value of a list that counts. -/
def firstActive (s : Solver) : List Nat → Resolving (Option String)
  | [] => return none
  | id :: ids => do
    if ← s.active id then return some (← s.text id) else s.firstActive ids

/-- The text a piece stands for in a value `origin`. -/
def piece (s : Solver) (m : Model) (origin : Value) : Piece → Resolving String
  | .text t => return t
  | .reference name => do
    let found ← match m.lookup name origin.group with
      | some ids => s.firstActive ids
      | none => pure none
    match found with
    | some t => return t
    | none =>
      diagnose origin ("unresolved reference $(" ++ name ++ ")")
      return placeholder name

/-- The texts of all pieces after each other. -/
def pieces (s : Solver) (m : Model) (origin : Value) : List Piece → Resolving String
  | [] => return ""
  | p :: ps => do
    let t ← s.piece m origin p
    return t ++ (← s.pieces m origin ps)

/-- A text with its references replaced. What replaces them is not read again. -/
def expand (s : Solver) (m : Model) (origin : Value) (text : String) : Resolving String :=
  match pieces? text with
  | .ok ps => s.pieces m origin ps
  | .error _ => return text

/-- The text of a literal in a condition of the value `origin`. A word that names no key stands
for itself, and one that names a key without a value that counts is empty. -/
def literal (s : Solver) (m : Model) (origin : Value) : Literal → Resolving String
  | .reference name =>
    match m.lookup name origin.group with
    | some ids => do return (← s.firstActive ids).getD ""
    | none => return name
  | .quoted t => s.expand m origin t

/-- Whether all conditions hold; the first that does not ends the evaluation. -/
def allHold (s : Solver) (m : Model) (origin : Value) : List Condition → Resolving Bool
  | [] => return true
  | c :: cs => do
    if ← c.holds (s.literal m origin) then s.allHold m origin cs else return false

/-- The text of a value: what is known of it, or else its expansion by the solver one step deeper,
if there is one. -/
def textWith (deeper : Option Solver) (m : Model) (id : Nat) : Resolving String := do
  let v := m.values[id]?.getD default
  match (← get).text id with
  | .done t => return t
  | .inProgress =>
    diagnose v ("cyclic reference through " ++ v.name)
    return placeholder v.name
  | .pending =>
    match deeper with
    | none =>
      diagnose v ("reference depth exceeded while expanding " ++ v.name)
      return placeholder v.name
    | some s =>
      modify fun f => { f with texts := f.texts.setIfInBounds id .inProgress }
      let t ← s.expand m v v.raw
      modify fun f => { f with texts := f.texts.setIfInBounds id (.done t) }
      return t

/-- Whether a value counts: what is known of it, or else its conditions evaluated by the solver
one step deeper, if there is one. -/
def activeWith (deeper : Option Solver) (m : Model) (id : Nat) : Resolving Bool := do
  let v := m.values[id]?.getD default
  match (← get).activity id with
  | .known active => return active
  | .evaluating =>
    let conditions := " and ".intercalate (v.conditions.map Condition.text)
    diagnose v ("condition (" ++ conditions ++ ") on " ++ v.name ++ " depends on its own value")
    return false
  | .unknown =>
    match deeper with
    | none =>
      diagnose v ("reference depth exceeded while evaluating " ++ v.name)
      return false
    | some s =>
      modify fun f => { f with activities := f.activities.setIfInBounds id .evaluating }
      let active ← s.allHold m v v.conditions
      modify fun f => { f with activities := f.activities.setIfInBounds id (.known active) }
      return active

/-- The solver that follows references at most `room` steps. -/
def ofRoom (m : Model) : (room : Nat) → Solver
  | 0 => ⟨textWith none m, activeWith none m⟩
  | room + 1 =>
    let deeper := ofRoom m room
    ⟨textWith (some deeper) m, activeWith (some deeper) m⟩

/-- Asks for the text and the activity of each value of a list. -/
def settle (s : Solver) : List Nat → Resolving Unit
  | [] => return ()
  | id :: ids => do
    let _ ← s.text id
    let _ ← s.active id
    s.settle ids

end Solver

/-- The model with all its values resolved anew. -/
def Model.resolve (m : Model) : Model :=
  let solver := Solver.ofRoom m (referenceDepth + 1)
  let ids := List.range m.values.size
  { m with findings := ((solver.settle ids).run (.blank m.values.size)).2 }

end IncrementalBuild.Settings
