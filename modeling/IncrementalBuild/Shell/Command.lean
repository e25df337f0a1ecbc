import IncrementalBuild.Shell.Builtin.Directory
import IncrementalBuild.Shell.Builtin.Input
import IncrementalBuild.Shell.Builtin.Jobs
import IncrementalBuild.Shell.Builtin.Limits
import IncrementalBuild.Shell.Builtin.Names
import IncrementalBuild.Shell.Builtin.Output
import IncrementalBuild.Shell.Builtin.Signals
import IncrementalBuild.Shell.Builtin.Variables
import IncrementalBuild.Shell.Redirection

/-!
Simple commands: assignments, a function, a command of the shell, or a program. The words come
first, then the redirections and then the assignments, which last only as long as the command unless
there is none or a special one.
-/

namespace IncrementalBuild.Shell

open Text

/-- The command that takes the meaning of functions and the rank of special commands away. -/
def plainCommand : String := "command"

/-- The command that runs a program in place of the shell. -/
def insteadCommand : String := "exec"

/-- The commands whose arguments can be assignments, which are not split. -/
def assigningCommands : List String :=
  ["export", "readonly", "local"]

/-- The words of a command, as far as they have been replaced. -/
structure Words where
  fields : List Raw
  rest : List Word
  deriving Inhabited

/-- Replaces words until there are so many fields, or no more words. `limit` bounds the number of
words. -/
def Words.atLeast (i : Interpreter) (count : Nat) : (limit : Nat) → Words → Step Words
  | 0, ws => return ws
  | limit + 1, ws => do
    match ws.rest with
    | [] => return ws
    | w :: rest =>
      if count ≤ ws.fields.length then return ws
      else
        let more ← w.fields i
        Words.atLeast i count limit ⟨ws.fields ++ more, rest⟩

/-- What is known of a command before all of its words are replaced. -/
structure Call where
  words : Words
  /-- How many fields stand before the name of the command. -/
  skipped : Nat
  /-- Whether functions count. -/
  functions : Bool
  /-- Whether programs are looked for where those of the system are. -/
  standard : Bool
  /-- Whether the first command of the shell among the fields is a special one, if there is any. -/
  rank : Option Bool
  deriving Inhabited

/-- The name of a command, if there is one. -/
def Call.name? (c : Call) : Option Raw :=
  c.words.fields[c.skipped]?

/-- The field that stands so many places behind the name of a command. -/
def Call.behind? (i : Interpreter) (c : Call) (count : Nat) : Step (Option Raw × Call) := do
  let words ← c.words.atLeast i (c.skipped + count + 1) (c.words.rest.length + 1)
  return (words.fields[c.skipped + count]?, { c with words })

/-- The call of the command that follows the name of the plain command and its options, if they do
not ask for something else. `limit` bounds the number of options. -/
def Call.behindPlain? (i : Interpreter) : (limit count : Nat) → (standard : Bool) → Call →
    Step (Option Call × Call)
  | 0, _, _, c => return (none, c)
  | limit + 1, count, standard, c => do
    let found (count : Nat) (c : Call) : Call :=
      { c with skipped := c.skipped + count, functions := false, standard }
    match ← c.behind? i count with
    | (none, c) => return (none, c)
    | (some ['-', '-'], c) =>
      let (field, c) ← c.behind? i (count + 1)
      return (field.map fun _ => found (count + 1) c, c)
    | (some ('-' :: option :: options), c) =>
      if (option :: options).all (· = 'p') then c.behindPlain? i limit (count + 1) true
      else return (none, c)
    | (some _, c) => return (some (found count c), c)

/-- Looks through the plain commands at the start of a call. `limit` bounds their number. -/
def Call.resolve (i : Interpreter) : (limit : Nat) → Call → Step Call
  | 0, c => return c
  | limit + 1, c => do
    let s ← get
    match c.name? with
    | none => return c
    | some name =>
      match meaningIn s c.functions [] (Raw.shown name) with
      | .special => return { c with rank := c.rank.or (some true) }
      | .ordinary =>
        let c := { c with rank := c.rank.or (some false) }
        if Raw.shown name ≠ plainCommand then return c
        else
          let count := c.words.fields.length + c.words.rest.length + 1
          match ← c.behindPlain? i count 1 c.standard with
          | (some next, _) => next.resolve i limit
          | (none, c) => return c
      | _ => return c

/-- The fields of the remaining words of a command. -/
def remainingFields (i : Interpreter) (assigns : Bool) : List Word → Step (List Raw)
  | [] => return []
  | w :: ws => do
    let first ← match if assigns then w.assignment? else none with
      | some (name, value) => do
        let value ← value.value i Manner.assigned
        pure [name.toList ++ '=' :: value]
      | none => w.fields i
    return first ++ (← remainingFields i assigns ws)

/-- The call that the words of a command make. -/
def callOf (i : Interpreter) (words : List Word) : Step Call := do
  let words ← Words.atLeast i 1 (words.length + 1) ⟨[], words⟩
  let c ← Call.resolve i (words.fields.length + words.rest.length + 1) ⟨words, 0, true, false, none⟩
  let assigns := c.name?.any fun name =>
    assigningCommands.contains (Raw.shown name) && c.rank.isSome
  let rest ← remainingFields i assigns c.words.rest
  return { c with words := ⟨c.words.fields ++ rest, []⟩ }

/-- What stands before a command that is shown. Where it cannot be told what the variable `PS4` asks
for, it is the text of the variable. -/
def traceStart (i : Interpreter) : Step Raw := do
  let s ← get
  let text := (s.value? "PS4").getD []
  let value : Step Raw := do
    match quotedText text with
    | .ok w => w.value i Manner.document
    | .error (_, reason) => Step.fail reason.toList
  let back (t : Session) : Session := { t.turn true .xtrace with status := s.status }
  set (s.turn false .xtrace)
  ExceptT.mk do
    match ← (Step.always value back).run with
    | .error .failed => return .ok text
    | result => return result

/-- What is shown before a command that is run. -/
def trace (i : Interpreter) (assigned : List (String × Raw)) (fields : List Raw) : Step Unit := do
  let s ← get
  if s.has .xtrace then
    let start ← traceStart i
    let assignments := assigned.map fun v => v.1.toList ++ '=' :: v.2
    let line := start ++ [' '].intercalate (assignments ++ fields) ++ ['\n']
    modify fun s => match s.tracing with
      | some h => (s.put? h line).getD s
      | none => s.write 2 line

/-- Makes the assignments before a command, which are its own if there is one that keeps them. -/
def makeAssignments (i : Interpreter) (own exported : Bool) : List (String × Word) →
    Step (List (String × Raw))
  | [] => return []
  | (name, w) :: rest => do
    let value ← w.value i Manner.assigned
    if own then Step.makeOwn name (some value) true
    else Step.assign name (some value) exported false
    return (name, value) :: (← makeAssignments i own exported rest)

/-- The signal for writing where nobody reads. -/
def nobodyReads : Nat := 13

/-- Takes note that a text cannot be written because there is no room for it. -/
def noteOverflow (text : Raw) : Step Unit := do
  let s ← get
  if (s.streams.lookup 1).any fun h => s.overflows h text then heed nobodyReads

/-- Runs a command of the shell. What it writes goes out when it ends, and a complaint of a command
that is not special does not end the shell. -/
def runBuiltin (special : Bool) (name : Raw) (command : Builtin) (arguments : List Raw) :
    Step Nat :=
  ExceptT.mk do
    let before ← get
    set { before with activity := some name, written := [] }
    let result ← (do
      let status ← command arguments
      noteOverflow (← get).written
      return status : Step Nat).run
    let s ← get
    let text := s.written
    let restored (s : Session) : Session :=
      { s with activity := before.activity, written := before.written }
    let written := (s.streams.lookup 1).bind fun h => s.put? h text
    match result, written with
    | .ok status, some s =>
      set (restored s)
      return .ok status
    | .ok status, none =>
      if text.isEmpty then
        set (restored s)
        return .ok status
      else
        set (restored (s.complain (name ++ ": I/O error".toList)))
        return .ok (status ||| 1)
    | .error b, written =>
      set (restored (written.getD s))
      return if b = .failed && !special then .ok 2 else .error b

/-- How deep functions can call one another. -/
def callDepth : Nat := 1000

/-- Runs a function with arguments of its own. -/
def runFunction (i : Interpreter) (g : Standing) (body : Script) (arguments : List Raw) :
    Step Nat := do
  let before ← get
  if before.calls = callDepth then
    Step.fail ("Maximum function recursion depth (" ++ toString callDepth ++ ") reached").toList
  set { before with
    arguments
    loops := 0
    calls := before.calls + 1
    optionIndex := 1
    optionOffset := none }
  let restored (s : Session) : Session :=
    { s with
      arguments := before.arguments
      loops := before.loops
      calls := before.calls
      optionIndex := before.optionIndex
      optionOffset := before.optionOffset }
  ExceptT.mk do
    let result ← (i.run g.within body).run
    modify restored
    match result with
    | .ok () | .error .leaveFunction => return .ok (← get).status
    | .error b => return .error b

/-- The exit status of a program that could not be started. -/
def startFailure (fault : Fault) : Nat :=
  if [.notFound, .notDirectory, .nameTooLong, .endlessPath].contains fault then 127 else 126

/-- How many characters of a file tell whether it can be a script. -/
def probeLength : Nat := 128

/-- Whether a file can be a script that names no interpreter: its first line has no characters that
no text has. -/
def canBeScript (contents : Raw) : Bool :=
  ((contents.take probeLength).takeWhile (· ≠ '\n')).all fun c =>
    !(c < '\t' || ('\x10' ≤ c && c < '\x1b') || ('\x1c' ≤ c && c < ' ') || c = '\x7f')

/-- The file of the shell that runs scripts which name no interpreter. -/
def shellFile : Raw := "/bin/sh".toList

/-- Runs the program in a file, or the script in it if it names no interpreter. -/
def launchFile (launch : Launch) (file : Path) (name : Raw) (arguments : List Raw) (s : Session) :
    Except Fault (Session × ExitStatus) :=
  match launch file name arguments s, s.disk.read file with
  | .error .notProgram, .ok bytes =>
    if canBeScript (Raw.ofBytes bytes) then
      launch ⟨Raw.shown shellFile⟩ shellFile (Raw.ofString file.text :: arguments) s
    else .error .notProgram
  | result, _ => result

/-- Whether a shell has something to do on a signal, or at its end. -/
def Process.hasActions (p : Process) : Bool :=
  p.traps.any fun t => !t.2.isEmpty

/-- Runs a program in place of the shell. -/
def replaceBy (i : Interpreter) (file : Path) (name : Raw) (arguments : List Raw) : Step Nat := do
  let s ← get
  match launchFile i.launch file name arguments s with
  | .ok (inner, status) =>
    set (s.after inner)
    throw (.ended status)
  | .error fault =>
    let reason := faultReason "not found" fault
    modify fun s => { s.complain (name ++ ": ".toList ++ reason.toList) with
      status := startFailure fault }
    throw .leave

/-- Runs a program, in place of the shell if that has nothing more to do. -/
def runProgram (i : Interpreter) (g : Standing) (file : Path) (name : Raw) (arguments : List Raw) :
    Step Nat := do
  modify fun s => s.remember (Raw.shown name) file
  let s ← get
  if g.last && !s.hasActions then replaceBy i file name arguments
  else
    let status ← i.waitFor (i.inProcess id do
      let _ ← replaceBy i file name arguments)
    return statusNumber status

/-- The file that is run in place of the shell: the first one of the name that can be run, or else
the first one at all. -/
def insteadFile? (s : Session) (name : String) : Option Path :=
  if name.toList.contains '/' then some ⟨name⟩
  else match findProgram s.disk s.searchPath name with
    | .ok file => some file
    | .error _ => (candidates s.searchPath name).find? s.disk.present

/-- `exec`: runs a program in place of the shell. -/
def runInstead (i : Interpreter) : Builtin := fun arguments => do
  match ← withoutOptions arguments with
  | [] => return 0
  | name :: arguments =>
    match insteadFile? (← get) (Raw.shown name) with
    | some file => replaceBy i file name arguments
    | none =>
      modify fun s => { s.complain (name ++ ": not found".toList) with status := 127 }
      throw .leave

/-- `eval`: its arguments as a script. -/
def runArguments (i : Interpreter) (g : Standing) : Builtin := fun arguments =>
  i.runText g.within false ([' '].intercalate arguments)

/-- The path of a script that is run as a part of another: a name without a slash is looked for in
the search path. -/
def partFile (s : Session) (name : Raw) : Option Path :=
  if name.contains '/' then some ⟨Raw.shown name⟩
  else (candidates s.searchPath (Raw.shown name)).find? s.disk.isFile

/-- `.`: the script in a file as a part of this one. -/
def runPart (i : Interpreter) : Builtin := fun arguments => do
  match ← withoutOptions arguments with
  | [] => return 0
  | name :: _ =>
    match partFile (← get) name with
    | none => Step.fail (name ++ ": not found".toList)
    | some file =>
      let shown := Raw.ofString file.text
      let text ← takeScript (← openFile .read shown)
      modify fun s => { s with activity := some shown }
      ExceptT.mk do
        match ← (i.runText .alone true text).run with
        | .error .leaveFunction => return .ok (← get).status
        | result => return result

/-- `exit`: the end of the shell. -/
def leaveShell : Builtin := fun arguments => do
  match arguments with
  | [] => Step.leave
  | cs :: _ =>
    let n ← countArgument cs
    modify fun s => { s with status := n }
    throw .leave

/-- `return`: the end of a function. -/
def leaveFunction : Builtin := fun arguments => do
  let status ← match arguments with
    | [] => pure (← get).status
    | cs :: _ => countArgument cs
  modify fun s => { s with status }
  throw .leaveFunction

/-- `break` and `continue`, which do nothing outside of loops. -/
def turnLoop (turn : Nat → Break) : Builtin := fun arguments => do
  let n ← match arguments with
    | [] => pure 1
    | cs :: _ => do
      let n ← countArgument cs
      if n = 0 then Step.fail ("Illegal number: ".toList ++ cs)
      pure n
  modify fun s => { s with status := 0 }
  let s ← get
  if s.loops = 0 then return 0 else throw (turn (min n s.loops))

/-- `times`: the time that was used up, which is none. -/
def showTimes : Builtin := fun _ => do
  let line := "0m0.000000s 0m0.000000s\n".toList
  Step.print (line ++ line)
  return 0

/-- The command of a name. -/
def builtin (i : Interpreter) (g : Standing) (name : String) : Builtin :=
  match name with
  | ":" | "true" => constantStatus 0
  | "false" => constantStatus 1
  | "." => runPart i
  | "break" => turnLoop .leaveLoops
  | "continue" => turnLoop .nextRound
  | "eval" => runArguments i g
  | "exec" => runInstead i
  | "exit" => leaveShell
  | "export" => declare name true false
  | "readonly" => declare name false true
  | "local" => declareLocal
  | "return" => leaveFunction
  | "set" => setCommand
  | "shift" => shift
  | "times" => showTimes
  | "trap" => trapCommand
  | "unset" => unsetNames
  | "[" => testBracketed
  | "test" => testCondition
  | "alias" => aliasCommand
  | "unalias" => unaliasCommand
  | "cd" | "chdir" => changeDirectory
  | "pwd" => showDirectory
  | "command" => describeCommand
  | "type" => typeCommand
  | "hash" => hashCommand
  | "echo" => echo
  | "printf" => printFormatted
  | "getopts" => readOption
  | "jobs" => jobsCommand
  | "wait" => waitCommand i
  | "fg" | "bg" => moveJob
  | "kill" => killCommand
  | "read" => readInto
  | "umask" => maskCommand
  | _ => limitCommand

/-- Runs a call. -/
def Call.run (i : Interpreter) (g : Standing) (c : Call) : Step Nat := do
  let s ← get
  match c.words.fields.drop c.skipped with
  | [] => return s.substituted
  | name :: arguments =>
    let text := Raw.shown name
    let searchPath := if c.standard then standardPath else s.searchPath
    let special := c.rank = some true
    match meaningIn s c.functions searchPath text with
    | .function body => runFunction i g body arguments
    | .special | .ordinary => runBuiltin special name (builtin i g text) arguments
    | .program file => runProgram i g file name arguments
    | .nothing fault =>
      Step.warn (name ++ ": ".toList ++ (faultReason "not found" fault).toList)
      return 127

/-- Ends what a command had for its own, unless the shell ends. -/
def closing {α : Type} (notes : Nat) (body : Step α) : Step α :=
  ExceptT.mk do
    let result ← body.run
    match result with
    | .error .leave | .error .failed | .error (.ended _) => return result
    | _ =>
      let s ← get
      set (s.closeNotes notes)
      match s.misnamed? notes with
      | none => return result
      | some name => (Step.fail (name ++ ": bad variable name".toList)).run

/-- Runs a simple command, and returns its exit status. -/
def runSimple (i : Interpreter) (g : Standing) (line : Nat) (assignments : List (String × Word))
    (words : List Word) (redirections : List Redirection) : Step Nat := do
  modify fun s => { s with line, substituted := 0 }
  let c ← callOf i words
  let special := c.rank = some true
  let own := c.name?.isSome && !special
  let instead := c.rank.isSome && c.name?.any fun n => Raw.shown n = insteadCommand
  let before ← get
  if own then modify Session.openNotes
  let ds ← destinations i redirections
  let back (s : Session) : Session :=
    { putBack (ds.map Prod.fst) before s with tracing := before.tracing }
  let kept (s : Session) : Session := { s with tracing := before.tracing }
  closing before.former.length do
    Step.always (do
      if ds.any fun d => d.1 = 2 then
        modify fun s => { s with tracing := s.tracing.or (s.streams.lookup 2) }
      if ← leads i ds then
        let exported := instead && c.skipped + 1 < c.words.fields.length
        let assigned ← makeAssignments i own exported assignments
        trace i assigned c.words.fields
        c.run i g
      else
        modify fun s => { s with status := 2 }
        if special then throw .failed
        return 2) (if instead then kept else back)

end IncrementalBuild.Shell
