import IncrementalBuild.Settings.Model
import IncrementalBuild.State.CompilerMessage
import IncrementalBuild.Text.Utf8

/-!
What a build tells its user. Status lines are shown unless the console is quiet, details and notes
only when it is verbose, warnings unless it is quiet, and errors always. Warnings and errors are
counted whether they are shown or not.

Elapsed times are counted in nanoseconds and shown with one decimal, in seconds or in the largest
unit of which there is one.
-/

namespace IncrementalBuild.Elapsed

/-- A number of units, with one decimal; a half goes up. -/
def inUnits (nanoseconds unit : Nat) : String :=
  let tenths := (20 * nanoseconds + unit) / (2 * unit)
  toString (tenths / 10) ++ "." ++ toString (tenths % 10)

/-- A time in seconds. -/
def seconds (nanoseconds : Nat) : String :=
  inUnits nanoseconds 1000000000

/-- A time in the largest unit of which there is one. -/
def text (nanoseconds : Nat) : String :=
  if nanoseconds ≥ 1000000000 then inUnits nanoseconds 1000000000 ++ "s"
  else if nanoseconds ≥ 1000000 then inUnits nanoseconds 1000000 ++ "ms"
  else if nanoseconds ≥ 1000 then inUnits nanoseconds 1000 ++ "µs"
  else inUnits nanoseconds 1 ++ "ns"

end IncrementalBuild.Elapsed

namespace IncrementalBuild

/-- How much is shown. -/
inductive Verbosity where
  | quiet
  | normal
  | verbose
  deriving DecidableEq, Repr, Inhabited

namespace Verbosity

/-- The place of a level in the order from little to much. -/
def rank : Verbosity → Nat
  | quiet => 0
  | normal => 1
  | verbose => 2

/-- The level two flags ask for; the quiet one wins. -/
def ofFlags (quiet verbose : Bool) : Verbosity :=
  if quiet then .quiet else if verbose then .verbose else .normal

end Verbosity

/-- What has been shown and counted. -/
structure Console where
  verbosity : Verbosity
  /-- The bytes of the standard output. -/
  output : Text.Raw
  /-- The bytes of the standard error. -/
  errorOutput : Text.Raw
  warnings : Nat
  errors : Nat
  deriving Repr, Inhabited

namespace Console

/-- A console on which nothing has been shown. -/
def start (verbosity : Verbosity) : Console := ⟨verbosity, [], [], 0, 0⟩

/-- Whether what is meant for a level is shown. -/
def shows (c : Console) (level : Verbosity) : Bool :=
  level.rank ≤ c.verbosity.rank

/-- Shows bytes as they are. -/
def put (c : Console) (bytes : Text.Raw) : Console :=
  { c with output := c.output ++ bytes }

/-- Shows bytes as they are on the standard error. -/
def putError (c : Console) (bytes : Text.Raw) : Console :=
  { c with errorOutput := c.errorOutput ++ bytes }

/-- Shows a line. -/
def putLine (c : Console) (line : String) : Console :=
  c.put (Text.Raw.ofString (line ++ "\n"))

/-- Shows a line on the standard error. -/
def putErrorLine (c : Console) (line : String) : Console :=
  c.putError (Text.Raw.ofString (line ++ "\n"))

/-- A line on what is being done. -/
def status (c : Console) (line : String) : Console :=
  if c.shows .normal then c.putLine line else c

/-- A line on why it is done. -/
def detail (c : Console) (line : String) : Console :=
  if c.shows .verbose then c.putLine line else c

/-- A warning. -/
def warning (c : Console) (message : String) : Console :=
  let c := { c with warnings := c.warnings + 1 }
  if c.shows .normal then c.putErrorLine ("warning: " ++ message) else c

/-- An error. -/
def error (c : Console) (message : String) : Console :=
  { c with errors := c.errors + 1 }.putErrorLine ("error: " ++ message)

/-- The problems found in a description file, as warnings. Those without a place name the file. -/
def diagnostics (c : Console) (file : Path) (ds : List Settings.Diagnostic) : Console :=
  ds.foldl (fun c d =>
    c.warning (if d.place.isSome then d.text else file.text ++ ": " ++ d.text)) c

/-- A message of a compiler, shown and counted as its severity asks for. -/
def compilerMessage (c : Console) (m : State.CompilerMessage) : Console :=
  match m.severity with
  | .error => { c with errors := c.errors + 1 }.putErrorLine m.shown
  | .warning =>
    let c := { c with warnings := c.warnings + 1 }
    if c.shows .normal then c.putErrorLine m.shown else c
  | .note => if c.shows .verbose then c.putErrorLine m.shown else c

/-- Passes on what a tool said, without the blanks at its end, if there is anything. -/
def toolOutput (c : Console) (text : String) : Console :=
  let kept := Text.trimEnd text.toList
  if kept.isEmpty then c else c.putErrorLine (String.ofList kept)

end Console

end IncrementalBuild
