import IncrementalBuild.Shell.Program
import IncrementalBuild.World

/-!
Invocations of tools: a program with its arguments, and a label that names the invocation in
messages. The arguments are added in the order they are to be given, and can be shown before
anything is run.
-/

namespace IncrementalBuild

namespace Tool

/-- A program that is to be run with arguments. -/
structure Command where
  program : Path
  arguments : List String
  /-- What the invocation is called in messages. -/
  label : String
  deriving Repr, Inhabited

namespace Command

/-- A program without arguments. -/
def make (program : Path) (label : String) : Command := ⟨program, [], label⟩

/-- Further arguments. -/
def add (c : Command) (arguments : List String) : Command :=
  { c with arguments := c.arguments ++ arguments }

/-- Compile, but do not link. -/
def compileOnly (c : Command) : Command := c.add ["-c"]

/-- The file to make. -/
def output (c : Command) (p : Path) : Command := c.add ["-o", p.text]

/-- Write a dependency file beside the output, with a rule for each header. -/
def dependencyFile (c : Command) : Command := c.add ["-MD", "-MP"]

/-- A macro to define. -/
def define (c : Command) (definition : String) : Command := c.add ["-D" ++ definition]

/-- A directory to look for headers in. -/
def includeDirectory (c : Command) (p : Path) : Command := c.add ["-I", p.text]

/-- A directory to look for libraries in. -/
def libraryDirectory (c : Command) (p : Path) : Command := c.add ["-L", p.text]

/-- A library to link. -/
def library (c : Command) (name : String) : Command := c.add ["-l" ++ name]

/-- An invocation as it is shown. -/
def text (c : Command) : String :=
  " ".intercalate (c.program.text :: c.arguments)

/-- How a program ended, and what it wrote. -/
structure Outcome where
  status : ExitStatus
  output : Text.Raw
  errorOutput : Text.Raw
  deriving Inhabited

/-- Runs an invocation in the working directory. -/
def run {ν : Type} (c : Command) : Action ν Outcome := do
  let w ← get
  match Shell.start w.disk w.searchPath w.disk.workingPath c.program.text c.arguments with
  | .error fault => throw (.run c.program c.label fault)
  | .ok done =>
    set { w with disk := done.disk }
    return ⟨done.status, done.output, done.errorOutput⟩

/-- Runs an invocation that has to succeed. -/
def runChecked {ν : Type} (verb : String) (c : Command) : Action ν Outcome := do
  let done ← c.run
  if done.status.isSuccess then return done
  else throw (.tool verb c.label (Text.Raw.shown done.errorOutput))

end Command

/-- The file of a program, in the first directory of the search path that has one of its name. -/
def find? {ν : Type} (w : World ν) (name : String) : Option Path :=
  (w.searchPath.map fun p => p.join ⟨name⟩).find? w.disk.isFile

end Tool

/-- Runs a line in the shell, in a directory; what it writes is shown. -/
def runLine {ν : Type} (line : String) (directory : Path) : Action ν Unit := do
  let w ← get
  match Shell.start w.disk w.searchPath directory Shell.shellName ["-c", line] with
  | .error fault => throw (.shell line fault)
  | .ok done =>
    let console := (w.console.put done.output).putError done.errorOutput
    set { w with disk := done.disk, console }
    unless done.status.isSuccess do throw (.command line done.status)

end IncrementalBuild
