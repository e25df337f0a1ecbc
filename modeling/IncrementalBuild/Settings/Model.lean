import IncrementalBuild.SortedMap
import IncrementalBuild.Settings.Program.Reader

/-!
The model of a description file: groups of keys, each key with its candidate values in the order
they were declared. Values live in one array, and the index lists under every group and key which of
them belong there. What resolution finds out about a value is kept beside it.
-/

namespace IncrementalBuild.Settings

/-- One candidate value of a key, as it was declared. -/
structure Value where
  group : String
  key : String
  /-- The text with its references. -/
  raw : String
  /-- All of them must hold for the value to count. -/
  conditions : List Condition
  /-- Where it was declared; a value set from outside has no place. -/
  origin : Option Place
  deriving Repr, Inhabited

/-- The name of a value's key, with its group unless that is the global one. -/
def Value.name (v : Value) : String :=
  if v.group.isEmpty then v.key else v.group ++ "." ++ v.key

/-- A problem found while resolving values. -/
structure Diagnostic where
  message : String
  /-- Where the value it concerns was declared. -/
  place : Option Place
  deriving Repr, Inhabited, BEq

/-- A diagnostic as it is shown. -/
def Diagnostic.text (d : Diagnostic) : String :=
  match d.place with
  | some p => p.text ++ ": " ++ d.message
  | none => d.message

/-- What is known of a value's text. -/
inductive Expansion where
  | pending
  | inProgress
  | done (text : String)
  deriving DecidableEq, Repr, Inhabited

/-- What is known of whether a value counts. -/
inductive Activity where
  | unknown
  | evaluating
  | known (active : Bool)
  deriving DecidableEq, Repr, Inhabited

/-- What resolution has found out so far: the texts and activities of the values by their index,
and the diagnostics in the order they were made. -/
structure Findings where
  texts : Array Expansion
  activities : Array Activity
  diagnostics : List Diagnostic
  deriving Repr, Inhabited

namespace Findings

/-- Nothing known about `n` values. -/
def blank (n : Nat) : Findings :=
  ⟨Array.replicate n .pending, Array.replicate n .unknown, []⟩

/-- What is known of the text of the value `id`. -/
def text (f : Findings) (id : Nat) : Expansion :=
  f.texts[id]?.getD .pending

/-- What is known of the activity of the value `id`. -/
def activity (f : Findings) (id : Nat) : Activity :=
  f.activities[id]?.getD .unknown

end Findings

/-- The index of a model: the values of every key of every group. -/
abbrev Index := SortedMap String (SortedMap String (List Nat))

/-- A description file that has been read, or made up by setting values. -/
structure Model where
  /-- The file it was read from; empty for one that was made up. -/
  path : Path
  index : Index
  values : Array Value
  findings : Findings
  deriving Repr, Inhabited

namespace Model

/-- A model that holds only the global group. -/
def empty : Model where
  path := ⟨""⟩
  index := SortedMap.empty.insert compare "" SortedMap.empty
  values := #[]
  findings := .blank 0

/-- The model with `group` in it. -/
def addGroup (m : Model) (group : String) : Model :=
  { m with index := m.index.alter compare group fun keys => keys.getD .empty }

/-- The model with one more value, behind those of the same key. -/
def addValue (m : Model) (v : Value) : Model :=
  { m with
    index := m.index.alter compare v.group fun keys =>
      (keys.getD .empty).alter compare v.key fun ids => ids.getD [] ++ [m.values.size]
    values := m.values.push v }

/-- The model with what a statement declares. -/
def addStatement (m : Model) : Statement → Model
  | .group name _ => m.addGroup name
  | .assignment group key value conditions place =>
    m.addValue ⟨group, key, value, conditions, some place⟩

/-- The model of a description file. -/
def ofSource (path : Path) (source : String) : Except Error Model := do
  let statements ← statements? path source
  return statements.foldl addStatement { empty with path }

/-- The values of a key of a group, if the group declares it. -/
def idsOf? (m : Model) (group key : String) : Option (List Nat) :=
  (m.index.get? compare group).bind fun keys => keys.get? compare key

/-- The model with an unconditional value from outside, behind those of the same key. -/
def set (m : Model) (group key value : String) : Except Error Model :=
  if isUnterminated value then .error (.unterminatedSetting group key value)
  else .ok (m.addValue ⟨group, key, value, [], none⟩)

/-- The model with all groups and values of `other` added behind its own. -/
def merge (m other : Model) : Model :=
  other.index.entries.foldl (fun m (group, keys) =>
    keys.entries.foldl (fun m (key, ids) =>
      ids.foldl (fun m id =>
        let v := other.values[id]?.getD default
        m.addValue { v with group, key }) m) (m.addGroup group)) m

/-- The groups, in the order of their names; the global group has the empty name. -/
def groups (m : Model) : List String :=
  m.index.keys

/-- The keys a group declares, in the order of their names. -/
def keys (m : Model) (group : String) : List String :=
  ((m.index.get? compare group).map SortedMap.keys).getD []

/-- The resolved texts of the values of a key that count, in the order they were declared. -/
def valuesOf (m : Model) (group key : String) : List String :=
  ((m.idsOf? group key).getD []).filterMap fun id =>
    match m.findings.activity id, m.findings.text id with
    | .known true, .done text => some text
    | _, _ => none

/-- The first value of a key that counts. -/
def value? (m : Model) (group key : String) : Option String :=
  (m.valuesOf group key).head?

/-- The problems found when the model was last resolved. -/
def diagnostics (m : Model) : List Diagnostic :=
  m.findings.diagnostics

end Model

end IncrementalBuild.Settings
