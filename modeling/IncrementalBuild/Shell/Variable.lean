import IncrementalBuild.Shell.Number
import IncrementalBuild.Shell.Session

/-!
Setting variables. A variable that is read only keeps its value, and asking for another ends what is
being run. What functions and commands make their own is noted, and put back when they end.
-/

namespace IncrementalBuild.Shell

open Text

/-- The variables that are remembered even if they are not set. -/
def lastingNames : List String :=
  ["IFS", "MAIL", "MAILPATH", "PATH", "PS1", "PS2", "PS4", "OPTIND"]

/-- A text as it is written into scripts: between single quotes, with the single quotes in it
between double quotes. -/
def singleQuoted (cs : Raw) : Raw :=
  match cs.span (· ≠ '\'') with
  | (_, []) => '\'' :: cs ++ ['\'']
  | _ => go cs.length cs
where
  /-- Quotes a text piece by piece; `limit` bounds the number of pieces. -/
  go : (limit : Nat) → Raw → Raw
    | 0, _ => []
    | limit + 1, cs =>
      let plain := cs.takeWhile (· ≠ '\'')
      let rest := cs.drop plain.length
      let quotes := rest.takeWhile (· = '\'')
      '\'' :: plain ++ '\'' :: (if quotes.isEmpty then [] else '"' :: quotes ++ ['"']) ++
        (if (rest.drop quotes.length).isEmpty then [] else go limit (rest.drop quotes.length))

namespace Session

/-- A session that draws its conclusions from a new value: programs are looked for anew in another
search path, and options are read from another argument. -/
def conclude (s : Session) (name : String) (value : Option Raw) : Session :=
  if name = "PATH" then { s with remembered := [] }
  else if name = "OPTIND" then
    { s with optionIndex := max 1 ((value.bind count?).getD 1), optionOffset := none }
  else s

/-- Puts back what was noted, the last note first. -/
def restore (s : Session) : List Former → Session
  | [] => s
  | .switches on :: rest => { s with switches := on }.restore rest
  | .entry name v :: rest =>
    ((s.place name v).conclude name (v.bind Variable.value)).restore rest

/-- Starts notes of what is to be put back. -/
def openNotes (s : Session) : Session :=
  { s with former := [] :: s.former }

/-- The notes since there were notes of a given number of commands. -/
def notesAfter (s : Session) (count : Nat) : List Former :=
  (s.former.take (s.former.length - count)).flatten

/-- Puts back what was noted since there were notes of a given number of commands. -/
def closeNotes (s : Session) (count : Nat) : Session :=
  let kept := s.former.drop (s.former.length - count)
  { s with former := kept }.restore (s.notesAfter count)

/-- A name under which nothing can be put back, among what was noted since then. -/
def misnamed? (s : Session) (count : Nat) : Option Raw :=
  (s.notesAfter count).findSome? fun
    | .entry name none => if isName name.toList then none else some name.toList
    | _ => none

/-- Adds a note. -/
def note (s : Session) (f : Former) : Session :=
  match s.former with
  | [] => s
  | notes :: rest => { s with former := (f :: notes) :: rest }

end Session

namespace Step

/-- Sets a variable, or takes its value away. What programs see they go on to see. -/
def assign (name : String) (value : Option Raw) (exported readOnly : Bool) : Step Unit := do
  let s ← get
  let old := s.entry? name
  if old.any Variable.readOnly then fail (name ++ ": is read only").toList
  if name = "OPTIND" && (value.bind count?).isNone then
    fail ("Illegal number: ".toList ++ value.getD [])
  let exported := exported || s.has .allexport
  let s := s.conclude name value
  if value.isNone && !exported && !readOnly && !lastingNames.contains name then
    set (s.place name none)
  else
    set (s.place name (some ⟨value, exported || old.any Variable.exported, readOnly⟩))

/-- Sets a variable under a name that need not be one. What stands behind an equals sign does not
count. -/
def assignNamed (name : Raw) (value : Option Raw) (exported readOnly : Bool) : Step Unit := do
  let name := name.takeWhile (· ≠ '=')
  if isName name then assign (String.ofList name) value exported readOnly
  else fail (name ++ ": bad variable name".toList)

/-- Sets a variable to a value. -/
def set (name : String) (value : Raw) : Step Unit :=
  assign name (some value) false false

/-- Makes a variable the own one of what is being run, so that it is put back at the end. Without a
value it keeps the one it had. -/
def makeOwn (name : String) (value : Option Raw) (exported : Bool) : Step Unit := do
  let s ← get
  let old := s.entry? name
  modify fun s => s.note (.entry name old)
  match value, old with
  | some _, _ => assign name value exported false
  | none, none => modify fun s => s.place name (some ⟨none, exported, false⟩)
  | none, some _ => return ()

end Step

end IncrementalBuild.Shell
