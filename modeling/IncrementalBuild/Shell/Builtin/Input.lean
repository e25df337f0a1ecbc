import IncrementalBuild.Shell.Builtin.Options
import IncrementalBuild.Shell.Mark

/-!
The command that reads. A line is split into as many fields as there are variables for them. A
backslash takes the meaning of the character behind it away, and joins two lines before a line end.
-/

namespace IncrementalBuild.Shell

open Text

/-- What was read as a line. -/
structure ReadLine where
  /-- The line, in spans between characters whose meaning was taken away. -/
  marks : List Mark
  /-- How many characters were read. -/
  count : Nat
  /-- Whether a line end was read. -/
  ended : Bool
  deriving Inhabited

/-- Reads a line. `plain` says whether backslashes are characters like others; `escaped` tells that
the last character was one with a meaning. -/
def readLine (plain : Bool) : (escaped : Bool) → Raw → ReadLine
  | _, [] => ⟨[.closing], 0, false⟩
  | escaped, c :: cs =>
    let behind (marks : List Mark) (l : ReadLine) : ReadLine :=
      { l with marks := marks ++ l.marks, count := l.count + 1 }
    if c = '\x00' then behind [] (readLine plain escaped cs)
    else if escaped then
      if c = '\n' then behind [.closing, .opening false] (readLine plain false cs)
      else behind [.closing, .char c true, .opening false] (readLine plain false cs)
    else if !plain && c = '\\' then behind [] (readLine plain true cs)
    else if c = '\n' then ⟨[.closing], 1, true⟩
    else behind [.char c false] (readLine plain false cs)

/-- Sets variables to the fields of a line, and those without a field to nothing. -/
def assignFields : List Raw → List (List Mark) → Step Unit
  | [], _ => return ()
  | name :: names, fields => do
    Step.assignNamed name (some (Mark.text (fields.headD []))) false false
    assignFields names fields.tail

/-- `read`: a line of the input, split into variables. -/
def readInto : Builtin := fun arguments => do
  let (given, names) ← optionsOf [('p', true), ('r', false)] arguments
  if names.isEmpty then Step.fail "arg count".toList
  let s ← get
  let handle := s.streams.lookup 0
  let input := (handle.bind s.readable?).getD []
  let line := readLine (given.any fun o => o.1 = 'r') false input
  match handle with
  | some h => set (s.consume h line.count)
  | none => pure ()
  let fields := fieldsOf s.separators (some names.length) (.opening false :: line.marks)
  assignFields names fields
  return if line.ended then 0 else 1

end IncrementalBuild.Shell
