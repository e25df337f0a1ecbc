import IncrementalBuild.Shell.Command

/-!
Running scripts. One step runs a script by running the scripts in it through an interpreter, so it
always ends; how deep scripts may lie in one another is for the interpreter to say. Loops have a
budget of rounds.
-/

namespace IncrementalBuild.Shell

open Text

/-- The rounds a loop has until the shell has used up its time. -/
def roundBudget : Nat := 1000000

/-- The signal that ends a process which has used up its time. -/
def timeUsedUp : Nat := 24

/-- The characters that wait in a pipe at most. -/
def pipeLimit : Nat := 65536

/-- How a loop is told to go on. -/
inductive Turn where
  | again
  | ends
  deriving DecidableEq, Repr, Inhabited

/-- Runs a part of a loop's round, and says how it tells the loop to go on, if it does. -/
def takeTurn (body : Step Unit) : Step (Option Turn) :=
  ExceptT.mk do
    match ← body.run with
    | .ok () => return .ok none
    | .error (.leaveLoops n) =>
      return if n ≤ 1 then .ok (some .ends) else .error (.leaveLoops (n - 1))
    | .error (.nextRound n) =>
      return if n ≤ 1 then .ok (some .again) else .error (.nextRound (n - 1))
    | .error b => return .error b

/-- Runs the rounds of a loop. `status` is that of the last round. -/
def rounds (untilSuccess : Bool) (test body : Step Unit) : (budget status : Nat) → Step Nat
  | 0, _ => throw (.ended (.signal timeUsedUp))
  | budget + 1, status => do
    match ← takeTurn test with
    | some .ends => return status
    | some .again => rounds untilSuccess test body budget status
    | none =>
      let s ← get
      if (s.status == 0) == untilSuccess then return status
      else
        let turn ← takeTurn body
        let s ← get
        if turn = some .ends then return s.status
        else rounds untilSuccess test body budget s.status

/-- Runs a loop's body for each of some values. `status` is that of the last round. -/
def roundsFor (name : String) (body : Step Unit) : (status : Nat) → List Raw → Step Nat
  | status, [] => return status
  | _, value :: values => do
    Step.set name value
    let turn ← takeTurn body
    let s ← get
    if turn = some .ends then return s.status
    else roundsFor name body s.status values

/-- Runs something inside of a loop. -/
def insideLoop {α : Type} (body : Step α) : Step α := do
  modify fun s => { s with loops := s.loops + 1 }
  Step.always body fun s => { s with loops := s.loops - 1 }

/-- Runs the parts of a pipe, each of which reads what the part before it writes. -/
def runPipe (i : Interpreter) (g : Standing) : (input : Option Handle) → List Script → Step Nat
  | _, [] => return 0
  | input, part :: parts => do
    let reading (s : Session) : Session :=
      if input.isSome then s.lead 0 input else s
    let standing : Standing := { g with last := true }
    if parts.isEmpty then
      return statusNumber (← i.waitFor (i.inProcess reading (i.run standing part)))
    else
      let (channel, s) := (← get).openChannel (.pipe (some pipeLimit) [])
      set s
      let _ ← i.attended (i.inProcess
        (fun s => (reading s).lead 1 (some (Interpreter.pipeEnd channel false)))
        (i.run standing part))
      runPipe i g (some (Interpreter.pipeEnd channel true)) parts

/-- Runs a script that leaves the rest of the shell as it was. Where nothing is left to do for the
shell, the script takes its place. -/
def runSubshell (i : Interpreter) (g : Standing) (body : Script)
    (redirections : List Redirection) : Step Nat := do
  let ds ← destinations i redirections
  let run : Step Unit := do
    leadAll i false ds
    i.run ⟨g.asked, true⟩ body
  let s ← get
  if g.last && !s.hasActions then
    let status ← i.inProcess (fun c => { c with number := s.number, lineage := s.lineage }) run
    throw (.ended status)
  else return statusNumber (← i.waitFor (i.inProcess id run))

/-- Runs a script with streams that lead elsewhere. -/
def runRedirected (i : Interpreter) (g : Standing) (body : Script)
    (redirections : List Redirection) : Step Nat := do
  let ds ← destinations i redirections
  let before ← get
  Step.always (do
    if ← leads i ds then
      i.run g.within body
      return (← get).status
    else return 2) (putBack (ds.map Prod.fst) before)

/-- Runs a script whose success is a failure, and the other way round. -/
def runNegated (i : Interpreter) (body : Script) : Step Nat := do
  i.run .tested body
  return if (← get).status = 0 then 1 else 0

/-- The body of the first clause with a pattern that a text matches. -/
def chosenBody? (i : Interpreter) (value : Raw) : List (List Word × Script) → Step (Option Script)
  | [] => return none
  | (patterns, body) :: clauses => do
    if ← anyMatches patterns then return some body else chosenBody? i value clauses
where
  /-- Whether one of some patterns matches the text. -/
  anyMatches : List Word → Step Bool
    | [] => return false
    | w :: ws => do
      if patternMatches (← w.pattern i) value then return true else anyMatches ws

/-- Runs a script whose exit status is known when it ends. -/
def Script.statusOf (i : Interpreter) (g : Standing) : Script → Step Nat
  | simple line assignments words redirections =>
    runSimple i g line assignments words redirections
  | redirected line body redirections => do
    modify fun s => { s with line }
    runRedirected i g body redirections
  | sequence _ => return (← get).status
  | background line body => do
    modify fun s => { s with line }
    startJob body
    return 0
  | both first second => do
    i.run .tested first
    if (← get).status = 0 then i.run g second
    return (← get).status
  | either first second => do
    i.run .tested first
    if (← get).status ≠ 0 then i.run g second
    return (← get).status
  | negated body => runNegated i body
  | pipe parts => runPipe i g none parts
  | subshell line body redirections => do
    modify fun s => { s with line }
    runSubshell i g body redirections
  | choice test yes no => do
    i.run .tested test
    if (← get).status = 0 then
      i.run g yes
      return (← get).status
    else if no.isNothing then return 0
    else
      i.run g no
      return (← get).status
  | loop untilSuccess test body =>
    insideLoop (rounds untilSuccess (i.run .tested test) (i.run g.within body) roundBudget 0)
  | each line name words body => do
    modify fun s => { s with line }
    let values ← wordFields i words
    insideLoop (roundsFor name (i.run g.within body) 0 values)
  | matching line subject clauses => do
    modify fun s => { s with line }
    let value ← subject.value i Manner.value
    match ← chosenBody? i value clauses with
    | some body =>
      if body.isNothing then return 0
      else
        i.run g body
        return (← get).status
    | none => return 0
  | define name body => do
    modify fun s => { s with
      functions := (name, body) :: s.functions.filter fun f => f.1 ≠ name
      remembered := s.remembered.filter fun r => r.1 ≠ name }
    return 0

/-- Whether a failure of a script can end the shell: those of commands, pipes and scripts of their
own can. -/
def Script.canEnd : Script → Bool
  | simple _ _ _ _ | pipe _ | subshell _ _ _ => true
  | _ => false

/-- Runs the parts of a script one after another. -/
def runSequence (i : Interpreter) (g : Standing) : List Script → Step Unit
  | [] => return ()
  | [part] => i.run g part
  | part :: parts => do
    i.run g.within part
    runSequence i g parts

/-- Runs a script. -/
def Script.step (i : Interpreter) (g : Standing) (script : Script) : Step Unit := do
  let s ← get
  if s.has .noexec then return ()
  match script with
  | sequence parts => runSequence i g parts
  | _ =>
    let ends := s.has .errexit && !g.asked && script.canEnd
    let status ← script.statusOf i g
    modify fun s => { s with status }
    i.attend
    if ends && status ≠ 0 then Step.leave

end IncrementalBuild.Shell
