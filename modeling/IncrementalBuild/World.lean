import IncrementalBuild.Console
import IncrementalBuild.Failure

/-!
All that a build reads and changes, as one value: the disk, the console, the messages of compile
tasks, and whatever the tasks of a toolchain keep for themselves. An `Action` is a function on it
that may fail, and what it changed before it failed stays changed.
-/

namespace IncrementalBuild

/-- What a build works on; `ν` is what tasks keep between them. -/
structure World (ν : Type) where
  disk : Disk
  console : Console
  /-- What compilers said, by source, until it is attached to the units. -/
  messages : State.MessageLog
  /-- The jobs that tasks were made into. -/
  scheduler : Jobs.Scheduler
  /-- The directories programs are looked for in. -/
  searchPath : List Path
  notes : ν

/-- Something that is done to the world and may fail. -/
abbrev Action (ν α : Type) := ExceptT Failure (StateM (World ν)) α

namespace Action

variable {ν α : Type}

/-- Does an action in a world: its result, and the world afterwards. -/
def runIn (a : Action ν α) (w : World ν) : Except Failure α × World ν :=
  (ExceptT.run a).run w

/-- Words every failure of an action as part of something larger. -/
def within (wrap : Failure → Failure) (a : Action ν α) : Action ν α :=
  ExceptT.mk do
    match ← ExceptT.run a with
    | .ok x => return .ok x
    | .error f => return .error (wrap f)

/-- A result that may be a failure. -/
def ofExcept (r : Except Failure α) : Action ν α :=
  match r with
  | .ok x => pure x
  | .error f => throw f

/-- The disk as it is. -/
def disk : Action ν Disk := do return (← get).disk

/-- Shows something. -/
def tell (f : Console → Console) : Action ν Unit :=
  modify fun w => { w with console := f w.console }

/-- A line on what is being done. -/
def status (line : String) : Action ν Unit := Action.tell (·.status line)

/-- A line on why it is done. -/
def detail (line : String) : Action ν Unit := Action.tell (·.detail line)

/-- How long something took that began at a time, in nanoseconds. -/
def elapsed (began : Int) : Action ν Nat := do
  return ((← get).disk.clock - began).toNat

/-- Does an action and tells how long it took, also where it fails. -/
def phase (label : String) (a : Action ν α) : Action ν α :=
  ExceptT.mk do
    let began := (← get).disk.clock
    let result ← ExceptT.run a
    modify fun w =>
      let time := Elapsed.text (w.disk.clock - began).toNat
      { w with console := w.console.detail ("  " ++ label ++ ": " ++ time) }
    return result

/-- Changes the disk, or fails with the fault as `wrap` words it. -/
def onDisk (wrap : Fault → Failure) (f : Disk → Except Fault Disk) : Action ν Unit := do
  match f (← get).disk with
  | .ok d => modify fun w => { w with disk := d }
  | .error fault => throw (wrap fault)

/-- Changes the disk, also where this fails with the fault as `wrap` words it. -/
def throughDisk (wrap : Fault → Failure) (f : Disk → Except Fault Unit × Disk) :
    Action ν Unit := do
  let (result, disk) := f (← get).disk
  modify fun w => { w with disk }
  match result with
  | .ok () => pure ()
  | .error fault => throw (wrap fault)

/-- Makes a directory and those it lies in. -/
def createDirectories (p : Path) : Action ν Unit :=
  throughDisk (.createDirectory p) (·.createDirectories p)

/-- Makes the directory a file lies in. -/
def createParent (p : Path) : Action ν Unit :=
  match p.parent? with
  | some directory => createDirectories directory
  | none => pure ()

/-- Does an action for each member of a list. -/
def each {β : Type} (f : β → Action ν Unit) : List β → Action ν Unit
  | [] => pure ()
  | x :: xs => do
    f x
    each f xs

end Action

end IncrementalBuild
