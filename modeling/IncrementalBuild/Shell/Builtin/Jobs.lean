import IncrementalBuild.Shell.Builtin.Options
import IncrementalBuild.Shell.Interpreter

/-!
Processes that a shell did not wait for. They get their turn at the latest when it does.
-/

namespace IncrementalBuild.Shell

open Text

/-- Starts a script that is not waited for. It reads nothing unless it is told to, and the signals
that come from a keyboard are left unheeded. -/
def startJob (script : Script) : Step Unit := do
  let s ← get
  let (channel, s) := s.openChannel .nothing
  let c := s.child
  let p := (c.lead 0 (some ⟨channel, true, false, false⟩)).toProcess
  let p := { p with unheeded := 2 :: 3 :: p.unheeded }
  let (index, s) := s.makePlace
  let job : Job := {
    index
    process := c.number
    progress := .waiting p s.disk.workingDirectory script []
    waitedFor := false }
  set { s with
    nextProcess := c.nextProcess
    jobs := job :: s.jobs
    lastBackground := some c.number }

/-- What is said of a job: where it stands in the order, and how far it has come. -/
def jobLine (place : Nat) (j : Job) : Raw :=
  let sign := if place = 0 then "+ " else if place = 1 then "- " else "  "
  let progress := match j.progress with
    | .waiting _ _ _ _ => "Running"
    | .ended (.code 0) => "Done"
    | .ended (.code n) => "Done(" ++ toString n ++ ")"
    | .ended (.signal n) => signalReason n
  let line := "[" ++ toString j.index ++ "] " ++ sign ++ progress
  (line ++ String.ofList (List.replicate (33 - line.length) ' ') ++ "\n").toList

/-- Says how far a job has come, and forgets it if it is over. -/
def showJob (j : Job) : Step Unit := do
  let s ← get
  Step.print (jobLine (s.jobs.findIdx fun k => k.index = j.index) j)
  if j.isOver then modify fun s => { s with jobs := s.jobs.filter fun k => k.index ≠ j.index }

/-- `jobs`: the processes that are not waited for, or those that arguments name. -/
def jobsCommand : Builtin := fun arguments => do
  let (_, names) ← optionsOf [('l', false), ('p', false)] arguments
  if names.isEmpty then (← get).jobs.forM showJob
  else names.forM fun name => do showJob (← Step.namedJob name)
  return 0

/-- Waits for the processes that arguments name. The exit status is that of the last one. -/
def waitForEach (i : Interpreter) : (status : Nat) → List Raw → Step Nat
  | status, [] => return status
  | status, argument :: arguments => do
    let s ← get
    let job ← match argument with
      | '%' :: _ => do
        pure (some (← Step.namedJob argument))
      | _ => do
        let n ← countArgument argument
        pure (s.jobs.find? fun j => j.process = n)
    match job with
    | none => waitForEach i status arguments
    | some job =>
      i.runJobs
      modify fun s => s.haveWaited fun j => j.process = job.process
      let s ← get
      match (s.jobs.find? fun j => j.process = job.process).map Job.progress with
      | some (.ended ended) =>
        match job.progress, ended with
        | .waiting _ _ _ _, .signal n =>
          if n ≠ 2 && n ≠ 13 then putError (signalReason n ++ "\n").toList
        | _, _ => pure ()
        waitForEach i (statusNumber ended) arguments
      | _ => waitForEach i status arguments

/-- `wait`: waits for processes, or for all of them. -/
def waitCommand (i : Interpreter) : Builtin := fun arguments => do
  match ← withoutOptions arguments with
  | [] =>
    i.runJobs
    modify fun s => s.haveWaited fun _ => true
    heedAll
    return 0
  | others => do
    let status ← waitForEach i 127 others
    heedAll
    return status

/-- `fg` and `bg`, for which a shell without a terminal has no jobs. -/
def moveJob : Builtin := fun arguments => do
  let s ← get
  match ← withoutOptions arguments with
  | [] =>
    if s.jobs.isEmpty then Step.fail "No current job".toList
    else Step.fail "job (null) not created under job control".toList
  | argument :: _ =>
    let _ ← Step.namedJob argument
    Step.fail ("job ".toList ++ argument ++ " not created under job control".toList)

end IncrementalBuild.Shell
