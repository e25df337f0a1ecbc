import IncrementalBuild.State.CompileUnit
import IncrementalBuild.Tool.Command

/-!
Tasks of a build. A task belongs to a stage, and does something to the world that may fail. Within a
stage some tasks may run beside others; tasks that want it are told their place among those that do.
-/

namespace IncrementalBuild.Build

/-- The stages of a build, which come one after another. -/
inductive Stage where
  /-- What has to be there before anything is compiled. -/
  | preBuild
  | compile
  /-- The artifact is made. -/
  | link
  | postBuild
  deriving DecidableEq, Repr, Inhabited

namespace Stage

/-- All stages, in order. -/
def all : List Stage := [preBuild, compile, link, postBuild]

/-- The name of a stage. -/
def text : Stage → String
  | preBuild => "pre-build"
  | compile => "compile"
  | link => "link"
  | postBuild => "post-build"

end Stage

/-- How a task ends. -/
inductive TaskResult where
  | done
  | failed (cause : Failure)
  | panicked
  deriving Inhabited

/-- The place of a task among those that want one, from 1 on, and their number. -/
structure Position where
  index : Nat
  total : Nat
  deriving DecidableEq, Repr, Inhabited

/-- A position as it is shown. -/
def Position.text (p : Position) : String :=
  "[" ++ toString p.index ++ "/" ++ toString p.total ++ "]"

/-- A unit of work. -/
structure Task (ν : Type) where
  /-- What the task is called where it fails. -/
  description : String
  stage : Stage
  /-- Whether it may run beside others of its stage. -/
  parallel : Bool
  /-- Whether it wants to be told its position. -/
  wantsPosition : Bool
  execute : Option Position → World ν → TaskResult × World ν

namespace Task

variable {ν : Type}

/-- What a task does, given as an action. -/
def ofAction (a : Option Position → Action ν Unit) (position : Option Position) (w : World ν) :
    TaskResult × World ν :=
  match (a position).runIn w with
  | (.ok (), w) => (.done, w)
  | (.error cause, w) => (.failed cause, w)

/-- A line that is run in the shell. -/
def ofLine (stage : Stage) (line : String) (directory : Path) : Task ν where
  description := line
  stage
  parallel := false
  wantsPosition := false
  execute := ofAction fun _ => do
    Action.status ("  Running " ++ line)
    runLine line directory

/-- The name a path is shown by: its file name, if it has one. -/
def shortName (p : Path) : String :=
  p.fileName?.getD p.text

/-- Keeps what the compiler of a source said. -/
def keepMessages (source : Path) (ms : List State.CompilerMessage) : Action ν Unit :=
  modify fun w => { w with messages := w.messages.record source ms }

/-- Compiles a source into an object. What the compiler said is kept for the source; if nothing of
it can be understood, a failure shows it as it is. -/
def compile (source object : Path) (command : Tool.Command) : Task ν where
  description := "compile " ++ source.text
  stage := .compile
  parallel := true
  wantsPosition := true
  execute := ofAction fun position => do
    let place := (position.map fun p => p.text ++ " ").getD ""
    Action.status ("  " ++ place ++ "Compiling " ++ shortName source)
    Action.detail ("    " ++ command.text)
    Action.createParent object
    let done ← command.run
    let said := Text.Raw.shown done.output ++ Text.Raw.shown done.errorOutput
    let messages := State.compilerMessages said
    keepMessages source messages
    unless done.status.isSuccess do
      if messages.isEmpty then Action.tell (·.toolOutput said)
      throw (.compile source)

/-- Makes an artifact. -/
def makeArtifact (verb doing : String) (replace : Bool) (output : Path) (command : Tool.Command) :
    Task ν where
  description := verb ++ " " ++ output.text
  stage := .link
  parallel := false
  wantsPosition := false
  execute := ofAction fun _ => do
    Action.status ("  " ++ doing ++ " " ++ shortName output)
    Action.detail ("    " ++ command.text)
    Action.createParent output
    if replace && (← Action.disk).present output then
      Action.onDisk (.remove output) (·.removeFile output)
    let _ ← command.runChecked verb

/-- Links an artifact. -/
def link (output : Path) (command : Tool.Command) : Task ν :=
  makeArtifact "link" "Linking" false output command

/-- Archives a library. One that is there is removed first, so that no old members stay in it. -/
def archive (output : Path) (command : Tool.Command) : Task ν :=
  makeArtifact "archive" "Archiving" true output command

end Task

end IncrementalBuild.Build
