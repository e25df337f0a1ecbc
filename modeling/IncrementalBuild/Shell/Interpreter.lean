import IncrementalBuild.Shell.Job
import IncrementalBuild.Shell.Script.Reader
import IncrementalBuild.Shell.Signal

/-!
What running a script rests on: a way to start programs, and a way to run the scripts inside of a
script. Built on these are the running of texts, of actions on signals, and of other processes up to
their ends.
-/

namespace IncrementalBuild.Shell

open Text

/-- What stands around a script. -/
structure Standing where
  /-- Whether the exit status is asked for, so that a failure does not end the shell. -/
  asked : Bool
  /-- Whether the process ends with the script. -/
  last : Bool
  deriving DecidableEq, Repr, Inhabited

namespace Standing

/-- Nothing stands around a script. -/
def alone : Standing := ⟨false, false⟩

/-- A script whose process goes on. -/
def within (g : Standing) : Standing := { g with last := false }

/-- The exit status of a script is asked for. -/
def tested : Standing := ⟨true, false⟩

end Standing

/-- Runs the program in a file, which was called by some name, with arguments. The session is that
of the new process; only its streams and exported variables count. -/
abbrev Launch :=
  (file : Path) → (called : Raw) → List Raw → Session → Except Fault (Session × ExitStatus)

/-- How a shell starts programs, runs a script, and ends a process that has run one. -/
structure Interpreter where
  launch : Launch
  run : Standing → Script → Step Unit
  finish : Except Break Unit → StateM Session ExitStatus

/-- The number an exit status is known by in a script. -/
def statusNumber : ExitStatus → Nat
  | .code n => n % 256
  | .signal n => 128 + n

namespace Step

/-- Ends the shell. An action on a signal leaves the exit status that was there before it. -/
def leave {α : Type} : Step α := do
  modify fun s => { s with status := s.suspended.getD s.status }
  throw .leave

end Step

namespace Interpreter

/-- Runs the command lines of a text from some line on, and returns the exit status of the last one.
Where `shown` holds, lines are shown as they are read if the shell is told to. `limit` bounds the
number of command lines. -/
def runLines (i : Interpreter) (g : Standing) (shown : Bool) : (limit line : Nat) → Raw →
    (status : Nat) → Step Nat
  | 0, _, _, status => return status
  | limit + 1, line, text, status => do
    let s ← get
    match commandLine? s.aliases line text with
    | .error (line, reason) =>
      modify fun s => { s with line }
      Step.fail reason.toList
    | .ok none => return status
    | .ok (some c) =>
      if shown && s.has .verbose then
        modify fun s => s.write 2 (text.take (text.length - c.rest.length))
      modify fun s => { s with reached := c.line }
      i.run g c.script
      let s ← get
      i.runLines g shown limit c.line c.rest (if c.script.isNothing then status else s.status)

/-- Runs a text as a script. -/
def runText (i : Interpreter) (g : Standing) (shown : Bool) (text : Raw) : Step Nat := do
  let reached := (← get).reached
  Step.always (i.runLines g shown (2 * text.length + 2) 1 text 0) fun s => { s with reached }

/-- Runs the actions that are due. `limit` bounds their number. -/
def runDue (i : Interpreter) : (limit : Nat) → Step Unit
  | 0 => return ()
  | limit + 1 => do
    let s ← get
    match s.due.min? with
    | none => return ()
    | some signal =>
      let status := s.suspended.getD s.status
      set { s with due := s.due.filter (· ≠ signal), suspended := some status }
      Step.always (do let _ ← i.runText .alone false ((s.traps.lookup signal).getD []))
        fun t => { t with suspended := s.suspended }
      modify fun t => { t with status }
      i.runDue limit

/-- Takes note of signals, and does what is due. -/
def attend (i : Interpreter) : Step Unit := do
  unless (← get).mail.isEmpty do heedAll
  unless (← get).due.isEmpty do i.runDue signalCount

/-- Runs a process that nobody waited for, unless a signal ends it before it starts. -/
def runJob (i : Interpreter) (j : Job) : StateM Session Job := do
  match j.progress with
  | .ended _ => return j
  | .waiting p workingDirectory script signals =>
    let s ← get
    let (result, inner) := (signals.forM heed).run.run
      { s with toProcess := p, jobs := [], disk := { s.disk with workingDirectory } }
    let (status, inner) := match result with
      | .error (.ended status) => (status, inner)
      | _ =>
        let (result, inner) := (i.run ⟨false, true⟩ script).run.run inner
        (i.finish result).run inner
    set (s.after inner)
    return { j with progress := .ended status }

/-- Runs the processes that nobody waited for, in the order in which they were started. -/
def runJobs (i : Interpreter) : StateM Session Unit := do
  let s ← get
  let jobs ← s.jobs.reverse.mapM i.runJob
  modify fun t => { t with jobs := jobs.reverse }
  unless s.jobs.all Job.isOver do modify noteEnd

/-- The exit status of a process after its script: the action for the end of the shell is run. -/
def runLastAction (i : Interpreter) (result : Except Break Unit) : StateM Session ExitStatus := do
  let s ← get
  match result, s.traps.lookup 0 with
  | .error (.ended status), _ => return status
  | _, none | _, some [] => return .code (s.status % 256)
  | _, some action =>
    let status := s.status
    set { s with
      traps := s.traps.filter fun t => t.1 ≠ 0
      suspended := some status
      written := []
      loops := 0 }
    match ← (i.runText .alone false action).run with
    | .error (.ended status) => return status
    | .error .leave | .error .failed => return .code ((← get).status % 256)
    | .error _ | .ok _ => return .code (status % 256)

/-- Ends a process after its script. What it started and did not wait for goes on behind its end. -/
def endProcess (i : Interpreter) (result : Except Break Unit) : StateM Session ExitStatus := do
  let status ← i.runLastAction result
  i.runJobs
  return status

/-- Runs something in a process of its own, up to its end. -/
def inProcess (i : Interpreter) (prepare : Session → Session) (body : Step Unit) :
    StateM Session ExitStatus := do
  let s ← get
  let (result, inner) := body.run.run (prepare s.child)
  let (status, inner) := (i.finish result).run inner
  set (s.after inner)
  return status

/-- Lets something run in another process to its end; what was started before it comes first. A
shell says if it ends by a signal. -/
def attended (i : Interpreter) (run : StateM Session ExitStatus) : StateM Session ExitStatus := do
  i.runJobs
  modify fun s => s.makePlace.2
  let status ← run
  match status with
  | .signal n =>
    if n ≠ 2 && n ≠ 13 then modify fun s => s.write 2 (signalReason n ++ "\n").toList
  | .code _ => pure ()
  modify noteEnd
  return status

/-- Waits for something that runs in another process, and takes note of the signals that the shell
was sent meanwhile. -/
def waitFor (i : Interpreter) (run : StateM Session ExitStatus) : Step ExitStatus := do
  let status ← i.attended run
  heedAll
  return status

/-- The handle of a new pipe's end that is read from, or written to. -/
def pipeEnd (channel : Nat) (reads : Bool) : Handle :=
  ⟨channel, reads, !reads, false⟩

/-- What a script that runs in a process of its own writes, without line ends at its end. -/
def output (i : Interpreter) (script : Script) : Step Raw := do
  if script.isNothing then
    modify fun s => { s with substituted := 0 }
    return []
  let (channel, s) := (← get).openChannel (.pipe none [])
  set s
  let status ← i.waitFor (i.inProcess (·.lead 1 (some (pipeEnd channel false)))
    (i.run ⟨false, true⟩ script))
  modify fun s => { s with substituted := statusNumber status }
  let written := ((← get).readable? (pipeEnd channel true)).getD []
  return ((written.filter (· ≠ '\x00')).reverse.dropWhile (· = '\n')).reverse

end Interpreter

end IncrementalBuild.Shell
