/-!
How programs end: with a number they choose, of which zero stands for success, or by a signal.
-/

namespace IncrementalBuild

/-- How a program that was started ended. -/
inductive ExitStatus where
  | code (n : Nat)
  | signal (n : Nat)
  deriving DecidableEq, Repr, Inhabited

namespace ExitStatus

/-- Whether the program ended well. -/
def isSuccess (s : ExitStatus) : Bool :=
  s = code 0

/-- The names of the signals that end a program. -/
def signalName : Nat → String
  | 1 => " (SIGHUP)"
  | 2 => " (SIGINT)"
  | 3 => " (SIGQUIT)"
  | 4 => " (SIGILL)"
  | 5 => " (SIGTRAP)"
  | 6 => " (SIGABRT)"
  | 7 => " (SIGBUS)"
  | 8 => " (SIGFPE)"
  | 9 => " (SIGKILL)"
  | 10 => " (SIGUSR1)"
  | 11 => " (SIGSEGV)"
  | 12 => " (SIGUSR2)"
  | 13 => " (SIGPIPE)"
  | 14 => " (SIGALRM)"
  | 15 => " (SIGTERM)"
  | 16 => " (SIGSTKFLT)"
  | 24 => " (SIGXCPU)"
  | 25 => " (SIGXFSZ)"
  | 26 => " (SIGVTALRM)"
  | 27 => " (SIGPROF)"
  | 29 => " (SIGIO)"
  | 30 => " (SIGPWR)"
  | 31 => " (SIGSYS)"
  | _ => ""

/-- A status as messages show it. -/
def text : ExitStatus → String
  | code n => "exit status: " ++ toString n
  | signal n => "signal: " ++ toString n ++ signalName n

end ExitStatus

end IncrementalBuild
