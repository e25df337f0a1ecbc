import IncrementalBuild.Number.Decimal
import IncrementalBuild.Path
import IncrementalBuild.SortedMap
import IncrementalBuild.Text.Blank

/-!
Messages of compilers: `file:line:column: severity: text` or without the column. The severity is the
leftmost mark of one in a line, and the place is read from the right of what stands before it, so
the text and the file may hold colons. Lines of any other form are passed over.
-/

namespace IncrementalBuild.State

/-- How serious a message is. -/
inductive Severity where
  | error
  | warning
  | note
  deriving DecidableEq, Repr, Inhabited

/-- A severity as messages show it. -/
def Severity.text : Severity → String
  | error => "error"
  | warning => "warning"
  | note => "note"

/-- A message about a place in a file. A column of zero stands for none. -/
structure CompilerMessage where
  severity : Severity
  file : Path
  line : Nat
  column : Nat
  text : String
  deriving Repr, Inhabited

/-- A message as it is shown. -/
def CompilerMessage.shown (m : CompilerMessage) : String :=
  m.file.text ++ ":" ++ toString m.line ++ ":" ++ toString m.column ++ ": " ++ m.severity.text ++
    ": " ++ m.text

/-- The marks of severities. -/
def severityMarks : List (List Char × Severity) :=
  [(": fatal error: ".toList, .error), (": error: ".toList, .error),
    (": warning: ".toList, .warning), (": note: ".toList, .note)]

/-- What stands before the leftmost mark of a severity, the severity, and what stands behind. -/
def splitSeverity (line : List Char) : Option (List Char × Severity × List Char) :=
  (severityMarks.filterMap fun (mark, severity) =>
    (Text.splitAtPiece mark line).map fun (l, r) => (l, severity, r)).foldl
    (fun best found =>
      match best with
      | none => some found
      | some b => if found.1.length < b.1.length then some found else some b) none

/-- A line or column number. -/
def placeNumber? (cs : List Char) : Option Nat :=
  Number.natBelow? (UInt32.size) cs

/-- The file, line and column of a place: the last number is the column if a line number and a file
name stand before it, and otherwise the line. -/
def splitPlace (place : List Char) : Option (List Char × Nat × Nat) := do
  let (rest, last) ← Text.splitLast ':' place
  let last ← placeNumber? last
  let full := do
    let (file, line) ← Text.splitLast ':' rest
    if file.isEmpty then none else return (file, ← placeNumber? line, last)
  return full.getD (rest, last, 0)

/-- The message a line holds. -/
def messageOf? (line : List Char) : Option CompilerMessage := do
  let (place, severity, text) ← splitSeverity line
  let (file, line, column) ← splitPlace place
  return ⟨severity, ⟨String.ofList file⟩, line, column, String.ofList (Text.trim text)⟩

/-- The messages in the output of a compiler, in order. -/
def compilerMessages (output : String) : List CompilerMessage :=
  (Text.lines output.toList).filterMap messageOf?

/-- Messages of compile tasks by the source they belong to. -/
abbrev MessageLog := SortedMap Path (List CompilerMessage)

/-- Keeps the messages of a compilation of `source`, in place of earlier ones. -/
def MessageLog.record (log : MessageLog) (source : Path) (ms : List CompilerMessage) : MessageLog :=
  log.insert Path.order source ms

/-- Takes the messages of `source` out of the log. -/
def MessageLog.take (log : MessageLog) (source : Path) :
    Option (List CompilerMessage) × MessageLog :=
  (log.get? Path.order source, log.keep fun p => Path.order source p != .eq)

end IncrementalBuild.State
