import IncrementalBuild.Shell.Builtin.Options
import IncrementalBuild.Shell.Job
import IncrementalBuild.Shell.Signal

/-!
Commands that send signals, and that say what is done on them.
-/

namespace IncrementalBuild.Shell

open Text

/-- The signal that a number or a name means, from the first one that counts. -/
def signalOf? (first : Nat) (cs : Raw) : Option Nat :=
  let number := if !cs.isEmpty && cs.all Char.isDigit then
      (count? cs).bind fun n => if n < signalCount then some n else none
    else none
  let upper := cs.map Char.toUpper
  number.or ((List.range signalCount).find? fun n => first ≤ n && (signalName n).toList = upper)

/-- `trap`: what is done on signals, and at the end of the shell. -/
def trapCommand : Builtin := fun arguments => do
  let others ← withoutOptions arguments
  let s ← get
  match others with
  | [] =>
    let rows := (List.range signalCount).filterMap fun n =>
      (s.traps.lookup n).map fun action =>
        "trap -- ".toList ++ singleQuoted action ++ ' ' :: (signalName n).toList ++ ['\n']
    Step.print rows.flatten
    return 0
  | first :: rest =>
    let numbered := !first.isEmpty && first.all Char.isDigit && (signalOf? 0 first).isSome
    let (action, signals) := if rest.isEmpty || numbered then (none, others)
      else (if first = ['-'] then none else some first, rest)
    let valid := signals.takeWhile fun cs => (signalOf? 0 cs).isSome
    valid.forM fun cs => modify fun s =>
      let n := (signalOf? 0 cs).getD 0
      let kept := s.traps.filter fun t => t.1 ≠ n
      { s with traps := (action.map fun a => (n, a)).toList ++ kept }
    match signals.drop valid.length with
    | cs :: _ =>
      putError ("trap: ".toList ++ cs ++ ": bad trap\n".toList)
      return 1
    | [] => return 0

/-- How `kill` is used. -/
def killUsage : Raw :=
  ("Usage: kill [-s sigspec | -signum | -sigspec] [pid | job]... or\n" ++
    "kill -l [exitstatus]").toList

/-- Sends a signal to a job, if there is one of that number that was not waited for. It has not
started, or it is over. -/
def Session.signalJob? (s : Session) (process signal : Nat) : Option Session :=
  if s.jobs.any fun j => j.process = process && !j.waitedFor then
    let sent (j : Job) : Job :=
      match j.progress with
      | .waiting p directory script signals =>
        if j.process = process then
          { j with progress := .waiting p directory script (signals ++ [signal]) }
        else j
      | .ended _ => j
    some { s with jobs := s.jobs.map sent }
  else none

/-- Sends a signal to a process, and says whether there is one. -/
def sendSignal (signal process : Nat) : Step Bool := do
  let s ← get
  if process = s.number then
    if signal ≠ 0 then heed signal
    return true
  else if s.lineage.contains process then
    if signal ≠ 0 then set { s with mail := s.mail ++ [(process, signal)] }
    return true
  else match s.signalJob? process signal with
    | some s =>
      set s
      return true
    | none => return false

/-- Sends a signal to processes that arguments name, and counts those that are not there. -/
def sendAll (signal : Nat) : List Raw → Step Nat
  | [] => return 0
  | target :: targets => do
    let found ← match target with
      | '%' :: _ => do
        let _ ← Step.namedJob target
        pure false
      | '-' :: group =>
        let _ ← countArgument group
        pure false
      | _ => sendSignal signal (← countArgument target)
    unless found do Step.warn "No such process\n".toList
    return (if found then 0 else 1) + (← sendAll signal targets)

/-- The names of signals, or of the one that a number or an exit status means. -/
def listSignals : List Raw → Step Nat
  | [] => do
    let names := (List.range signalCount).map fun n => if n = 0 then "0" else signalName n
    Step.print (names.map fun n => (n ++ "\n").toList).flatten
    return 0
  | status :: _ => do
    let n ← countArgument status
    let signal := if 128 < n then n - 128 else n
    if 0 < signal && signal < signalCount then
      Step.print (signalName signal ++ "\n").toList
      return 0
    else Step.fail ("invalid signal number or exit status: ".toList ++ status)

/-- `kill`: sends a signal to processes, or lists the signals. -/
def killCommand : Builtin := fun arguments => do
  let (signal, lists, others) ← match arguments with
    | ('-' :: name) :: rest =>
      match signalOf? 1 name with
      | some n => pure (some n, false, rest)
      | none => do
        let (given, others) ← optionsOf [('l', false), ('s', true)] arguments
        let named := given.filterMap Prod.snd
        let signals ← named.mapM fun name => do
          match signalOf? 1 name with
          | some n => return n
          | none => Step.fail ("invalid signal number or name: ".toList ++ name)
        pure (signals.getLast?, given.any fun o => o.1 = 'l', others)
    | _ => pure (none, false, arguments)
  if lists then
    if signal.isSome then Step.fail killUsage
    listSignals others
  else if others.isEmpty then Step.fail killUsage
  else return min 1 (← sendAll (signal.getD 15) others)

end IncrementalBuild.Shell
