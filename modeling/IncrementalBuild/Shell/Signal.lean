import IncrementalBuild.Shell.Session

/-!
Signals. A signal that a process does not act on, and that is not left unheeded, ends the process,
with few exceptions. What is done on a signal is done when the command that is being run is over.
-/

namespace IncrementalBuild.Shell

open Text

/-- The names of the signals with a name of their own. -/
def namedSignals : List (Nat × String) :=
  [(1, "HUP"), (2, "INT"), (3, "QUIT"), (4, "ILL"), (5, "TRAP"), (6, "ABRT"), (7, "BUS"),
    (8, "FPE"), (9, "KILL"), (10, "USR1"), (11, "SEGV"), (12, "USR2"), (13, "PIPE"), (14, "ALRM"),
    (15, "TERM"), (17, "CHLD"), (18, "CONT"), (19, "STOP"), (20, "TSTP"), (21, "TTIN"),
    (22, "TTOU"), (23, "URG"), (24, "XCPU"), (25, "XFSZ"), (26, "VTALRM"), (27, "PROF"),
    (28, "WINCH"), (29, "IO"), (30, "PWR"), (31, "SYS"), (34, "RTMIN"), (64, "RTMAX")]

/-- The number of signals, the end of the shell counted in. -/
def signalCount : Nat := 65

/-- The name of a signal. Those between two names are counted from the nearer one, and those without
any are called by their numbers. -/
def signalName (n : Nat) : String :=
  match namedSignals.lookup n with
  | some name => name
  | none =>
    if n = 0 then "EXIT"
    else if 34 < n && n < 50 then "RTMIN+" ++ toString (n - 34)
    else if 50 ≤ n && n < 64 then "RTMAX-" ++ toString (64 - n)
    else toString n

/-- What a shell says of a program that a signal ended. -/
def signalReason : Nat → String
  | 1 => "Hangup"
  | 2 => "Interrupt"
  | 3 => "Quit"
  | 4 => "Illegal instruction"
  | 5 => "Trace/breakpoint trap"
  | 6 => "Aborted"
  | 7 => "Bus error"
  | 8 => "Floating point exception"
  | 9 => "Killed"
  | 10 => "User defined signal 1"
  | 11 => "Segmentation fault"
  | 12 => "User defined signal 2"
  | 13 => "Broken pipe"
  | 14 => "Alarm clock"
  | 15 => "Terminated"
  | 16 => "Stack fault"
  | 24 => "CPU time limit exceeded"
  | 25 => "File size limit exceeded"
  | 26 => "Virtual timer expired"
  | 27 => "Profiling timer expired"
  | 29 => "I/O possible"
  | 30 => "Power failure"
  | 31 => "Bad system call"
  | n =>
    if 34 ≤ n then "Real-time signal " ++ toString (n - 34) else "Unknown signal " ++ toString n

/-- Whether a signal ends a process that does nothing about it. -/
def isDeadly (n : Nat) : Bool :=
  0 < n && n < signalCount && !(17 ≤ n && n ≤ 23) && n ≠ 28

/-- What a process does about a signal. -/
inductive Response where
  | nothing
  /-- It runs an action. -/
  | action
  | dies
  deriving DecidableEq, Repr, Inhabited

/-- What a process does about a signal it is sent. One of them cannot be acted on. -/
def Process.response (p : Process) (signal : Nat) : Response :=
  if signal = 9 then .dies
  else match p.traps.lookup signal with
    | some action =>
      if action.isEmpty || p.unheeded.contains signal then .nothing else .action
    | none => if isDeadly signal && !p.unheeded.contains signal then .dies else .nothing

/-- A process that has the action of a signal to run. -/
def Session.owing (s : Session) (signal : Nat) : Session :=
  { s with due := signal :: s.due.filter (· ≠ signal) }

/-- Takes note of one signal. -/
def heed (signal : Nat) : Step Unit := do
  let s ← get
  match s.response signal with
  | .nothing => return ()
  | .action => set (s.owing signal)
  | .dies => throw (.ended (.signal signal))

/-- The signal that a process is sent when one ends that it started. -/
def childEnded : Nat := 17

/-- Takes note that a process has ended which this one started. That ends no process. -/
def noteEnd (s : Session) : Session :=
  if s.response childEnded = .action then s.owing childEnded else s

/-- Takes note of the signals that were sent to the process. -/
def heedAll : Step Unit := do
  let s ← get
  let (own, others) := s.mail.partition fun m => m.1 = s.number
  set { s with mail := others }
  own.forM fun m => heed m.2

end IncrementalBuild.Shell
