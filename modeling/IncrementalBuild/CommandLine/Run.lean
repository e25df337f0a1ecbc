import IncrementalBuild.Build.Run
import IncrementalBuild.CommandLine.Reader

/-!
Doing what a command line asks for. The exit code is zero where everything succeeded, one where
something failed, and two where the command line itself is refused.
-/

namespace IncrementalBuild.CommandLine

open Build

variable {ν : Type}

/-- Shows a line that no verbosity hides. -/
def say (line : String) : Action ν Unit :=
  Action.tell (·.putLine line)

/-- Loads the workspace a command line names. -/
def Request.load (r : Request) : Action ν Builder :=
  Builder.load r.workspace ⟨r.configuration.getD "", r.platform.getD ""⟩

/-- How many projects had an outcome. -/
def countOf (outcome : BuildOutcome) (outcomes : List (String × BuildOutcome)) : String :=
  toString (outcomes.countP fun o => o.2 = outcome)

/-- The last line of a build. -/
def summary (b : Builder) (warnings : Nat) (outcomes : List (String × BuildOutcome)) : String :=
  "Build finished: " ++ countOf .built outcomes ++ " built, " ++ countOf .upToDate outcomes ++
    " up to date, " ++ countOf .skipped outcomes ++ " skipped (" ++ b.target.configuration ++ " " ++
    b.target.platform ++ "), " ++ toString warnings ++ " warning" ++
    (if warnings = 1 then "" else "s") ++ "."

/-- The lines that show one group of a description. -/
def groupLines (m : Settings.Model) (group : String) : List String :=
  let keys := m.keys group
  if keys.isEmpty then []
  else "" :: (if group.isEmpty then "(global)" else "[" ++ group ++ "]") ::
    keys.flatMap fun key => (m.valuesOf group key).map fun value => "  " ++ key ++ " = " ++ value

/-- The lines that show a resolved description. -/
def descriptionLines (m : Settings.Model) : List String :=
  ("# " ++ m.path.text) :: m.groups.flatMap (groupLines m)

/-- Does what a command line asks for. -/
def Request.perform (choose : ToolchainChoice ν) (r : Request) : Action ν Unit := do
  Action.tell fun c => { c with verbosity := .ofFlags r.quiet r.verbose }
  let b ← r.load
  match r.verb with
  | .build =>
    let outcomes ← b.build choose r.project (!r.withoutDependencies)
    say ("\n" ++ summary b (← get).console.warnings outcomes)
  | .rebuild =>
    let outcomes ← b.rebuild choose r.project (!r.withoutDependencies)
    say ("\n" ++ summary b (← get).console.warnings outcomes)
  | .clean =>
    b.clean r.project
    say "Clean complete."
  | .resolve =>
    let m ← match r.project with
      | some name => do pure (← Action.ofExcept (b.project name)).settings
      | none => pure b.workspace.settings
    Action.each say (descriptionLines m)

/-- The lines of a cause below its first, set in as far as the first is. -/
def indented (first rest : String) (cause : String) : String :=
  first ++ ("\n" ++ rest).intercalate ((Text.splitOn '\n' cause.toList).map String.ofList)

/-- The number of a cause, in a column that ends at the same place for all. -/
def numbered (i : Nat) : String :=
  let digits := toString i
  String.ofList (List.replicate (5 - digits.length) ' ') ++ digits ++ ": "

/-- A failure with its causes, one below the other; they are numbered where there is more than one.
-/
def report (f : Failure) : String :=
  let causes := match f.chain.tail with
    | [] => []
    | [cause] => ["", "Caused by:", indented "    " "    " cause]
    | causes => "" :: "Caused by:" :: causes.zipIdx.map fun (cause, i) =>
        indented (numbered i) "       " cause
  "\n".intercalate (("Error: " ++ f.outermost) :: causes)

/-- How the program is used. -/
def usage : String :=
  "Usage: kiln [OPTIONS] <" ++ "|".intercalate (Verb.all.map Verb.text) ++ ">"

/-- What is said where a command line is refused. -/
def Refusal.message : Refusal → String
  | helpRequested | nothingGiven => usage
  | versionRequested => "kiln 0.1.0"
  | missingVerb => "error: a command is required\n\n" ++ usage
  | unknownVerb => "error: unrecognized command\n\n" ++ usage
  | unknownArgument => "error: unexpected argument\n\n" ++ usage
  | missingValue => "error: a value is required\n\n" ++ usage
  | badValue => "error: invalid value\n\n" ++ usage
  | unwantedValue => "error: unexpected value\n\n" ++ usage
  | conflict => "error: arguments cannot be used together\n\n" ++ usage

/-- Shows why a command line is refused; asking for help or for the version is no mistake. -/
def refuse (c : Console) (r : Refusal) : Nat × Console :=
  match r with
  | .helpRequested | .versionRequested => (0, c.putLine r.message)
  | r => (2, c.putErrorLine r.message)

/-- Runs a command line: the exit code, and the world afterwards. -/
def run (choose : ToolchainChoice ν) (words : List String) (w : World ν) : Nat × World ν :=
  match read words with
  | .error r =>
    let (code, console) := refuse w.console r
    (code, { w with console })
  | .ok request =>
    match (request.perform choose).runIn w with
    | (.ok (), w) => (0, w)
    | (.error f, w) => (1, { w with console := w.console.putErrorLine (report f) })

end IncrementalBuild.CommandLine
