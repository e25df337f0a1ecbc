import IncrementalBuild.Shell.Script
import IncrementalBuild.Text.Split

/-!
The text that a script is read from. Characters are taken from its front one by one; a backslash and
a line end join two lines and are passed over. An alias puts its value in front of what is left, and
is not replaced again until that value has been read.
-/

namespace IncrementalBuild.Shell

open Text (Raw)

/-- A token of a script. -/
inductive Token where
  /-- The end of the script. -/
  | ending
  | lineEnd
  | operator (text : String)
  | keyword (text : String)
  | word (w : Word)
  /-- An operator that leads a stream elsewhere, with the number written right before it. -/
  | redirection (stream : Option Nat) (operator : String)
  deriving Inhabited

namespace Token

/-- A token as messages show it. -/
def shown : Token → String
  | ending => "end of file"
  | lineEnd => "newline"
  | operator text | keyword text => "\"" ++ text ++ "\""
  | word _ => "word"
  | redirection _ _ => "redirection"

/-- The text of an operator or a keyword. -/
def shownText : Token → String
  | operator text | keyword text => text
  | _ => ""

/-- Whether a token is an operator. -/
def isOperator (text : String) : Token → Bool
  | operator o => o = text
  | _ => false

/-- Whether a token is a keyword. -/
def isKeyword (text : String) : Token → Bool
  | keyword k => k = text
  | _ => false

end Token

/-- A text in a script that starts at the next line end. -/
structure Awaited where
  index : Nat
  /-- The line that ends the text. -/
  ending : Raw
  /-- Whether tabs at the start of lines are left out. -/
  withoutTabs : Bool
  /-- Whether nothing in the text is replaced. -/
  literal : Bool
  deriving DecidableEq, Repr, Inhabited

/-- An alias whose value is being read. -/
structure Expanding where
  name : String
  /-- How many characters stand behind the value. -/
  behind : Nat
  /-- Whether the value ends with a blank, so that the word behind it can be an alias too. -/
  opensNext : Bool
  deriving Repr, Inhabited

/-- A script that is being read. -/
structure Source where
  rest : Raw
  /-- The line that the rest starts on. -/
  line : Nat
  aliases : List (String × Raw)
  expanding : List Expanding
  /-- A token that was given back. -/
  pushed : Option Token
  awaited : List Awaited
  /-- The texts in the script that have been read, by their numbers. -/
  documents : List (Nat × Word)
  /-- The texts in the script as far as they are known from an earlier reading. -/
  known : List (Nat × Word)
  /-- How many texts have been announced. -/
  announced : Nat
  /-- Whether words are read without replacing anything in them. -/
  plain : Bool
  deriving Inhabited

/-- Why, and on which line, a script cannot be read. -/
abbrev Obstacle := Nat × String

/-- Reads something from the front of a script. -/
abbrev Reading (α : Type) := StateT Source (Except Obstacle) α

/-- A text behind the joined lines at its front, and how many line ends that were. -/
def joins : Raw → Raw × Nat
  | '\\' :: '\n' :: cs =>
    let (rest, count) := joins cs
    (rest, count + 1)
  | cs => (cs, 0)

namespace Reading

/-- The line of what is left. -/
def line : Reading Nat := do
  return (← get).line

/-- Stops because what is read is no script. -/
def refuse {α : Type} (reason : String) : Reading α := do
  throw (← line, "Syntax error: " ++ reason)

/-- Stops at a token, where something else had to stand. -/
def refuseToken {α : Type} (t : Token) (expected : Option Token) : Reading α :=
  let wanted := (expected.map fun e => " (expecting " ++ e.shown ++ ")").getD ""
  refuse (t.shown ++ " unexpected" ++ wanted)

/-- Takes a character as it is. -/
def takeRaw? : Reading (Option Char) := do
  let s ← get
  match s.rest with
  | [] => return none
  | c :: cs =>
    set { s with rest := cs, line := if c = '\n' then s.line + 1 else s.line }
    return some c

/-- The next character behind joined lines. -/
def peek? : Reading (Option Char) := do
  let s ← get
  match s.rest with
  | '\\' :: '\n' :: _ =>
    let (rest, count) := joins s.rest
    set { s with rest, line := s.line + count }
    return rest.head?
  | rest => return rest.head?

/-- Takes the next character behind joined lines. -/
def take? : Reading (Option Char) := do
  let _ ← peek?
  takeRaw?

/-- Takes the next character behind joined lines. A line end does not count. -/
def takeUncounted? : Reading (Option Char) := do
  let _ ← peek?
  let before ← line
  let next ← takeRaw?
  modify fun s => { s with line := before }
  return next

/-- Takes the next character if it is the given one, and says whether it was. -/
def takeChar (c : Char) : Reading Bool := do
  if (← peek?) = some c then
    let _ ← takeRaw?
    return true
  else return false

/-- Takes characters as long as they are of some kind. `limit` bounds their number. -/
def takeWhile (kind : Char → Bool) : (limit : Nat) → Reading Raw
  | 0 => return []
  | limit + 1 => do
    match ← peek? with
    | some c =>
      if kind c then
        let _ ← takeRaw?
        return c :: (← takeWhile kind limit)
      else return []
    | none => return []

/-- Takes characters as they are up to an ending, which is taken too, or up to the end of the
script. The second result says whether there was an ending. -/
def takeUntil (ending : Char) : Reading (Raw × Bool) := do
  let s ← get
  let taken := s.rest.takeWhile (· ≠ ending)
  let behind := s.rest.drop taken.length
  let lines := (taken ++ behind.take 1).count '\n'
  set { s with rest := behind.tail, line := s.line + lines }
  return (taken, !behind.isEmpty)

/-- Takes the line that ends a text in the script if it is next, and says whether it was. Tabs at
the start of the line are taken in any case if they are left out. -/
def takeEnding (a : Awaited) : Reading Bool := do
  unless a.literal do
    let _ ← peek?
  if a.withoutTabs then
    modify fun s => { s with rest := s.rest.dropWhile (· = '\t') }
  let s ← get
  match Text.after? a.ending s.rest with
  | some [] =>
    set { s with rest := [] }
    return true
  | some ('\n' :: rest) =>
    set { s with rest, line := s.line + 1 }
    return true
  | _ => return false

/-- Takes the lines of a text in which nothing is replaced. `limit` bounds their number. -/
def takeLines (a : Awaited) : (limit : Nat) → Reading Raw
  | 0 => return []
  | limit + 1 => do
    if ← takeEnding a then return []
    else match ← takeUntil '\n' with
      | (line, true) => return line ++ '\n' :: (← takeLines a limit)
      | (line, false) => return line

/-- Gives a token back. -/
def pushBack (t : Token) : Reading Unit :=
  modify fun s => { s with pushed := some t }

/-- Reads something from another text, which starts a count of lines of its own. -/
def within {α : Type} (text : Raw) (read : Reading α) : Reading α := do
  let before ← get
  set { before with rest := text, line := 1, expanding := [], pushed := none, awaited := [] }
  let result ← read
  modify fun s => { s with
    rest := before.rest
    line := before.line
    expanding := before.expanding
    pushed := none
    awaited := before.awaited }
  return result

end Reading

end IncrementalBuild.Shell
