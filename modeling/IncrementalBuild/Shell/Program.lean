import IncrementalBuild.Shell.Env
import IncrementalBuild.Shell.Run

/-!
Programs. A file that names an interpreter in its first line is run by it, and the only programs
that are no such scripts are the shell itself and `env`. `start` is how programs are run from
outside of a shell.
-/

namespace IncrementalBuild.Shell

open Text

/-- The variables that a shell starts with if it is not given them. -/
def standardValues : List (String × Raw) :=
  [("PATH", (":".intercalate (standardPath.map Path.text)).toList), ("PS1", ['#', ' ']),
    ("PS2", ['>', ' ']), ("PS4", ['+', ' '])]

/-- The way to the working directory as the variable `PWD` tells it, if it tells the truth. -/
def directoryGiven (s : Session) : Raw :=
  let own := Raw.ofString s.disk.workingPath.text
  match s.value? "PWD" with
  | none => own
  | some way =>
    let there := (s.disk.locate ⟨Raw.shown way⟩).toOption
    if way.head? = some '/' && there = some s.disk.workingDirectory then way else own

/-- The variables of a new shell: those it is given, and those that every shell has. -/
def initialValues (s : Session) (directory : Raw) : List (String × Variable) :=
  let given := s.environment.filter fun v => isName v.1.toList
  let exported (name : String) : Bool := (given.lookup name).isSome
  let parent := (toString (s.lineage.headD 0)).toList
  let fixed : List (String × Variable) :=
    [("IFS", ⟨some [' ', '\t', '\n'], exported "IFS", false⟩),
      ("OPTIND", ⟨some ['1'], exported "OPTIND", false⟩),
      ("PPID", ⟨some parent, exported "PPID", false⟩), ("PWD", ⟨some directory, true, false⟩)]
  let own := given.map fun v => (v.1, Variable.mk (some v.2) true false)
  let standard := standardValues.filterMap fun v =>
    if exported v.1 then none else some (v.1, Variable.mk (some v.2) false false)
  fixed ++ (own ++ standard).filter fun v => (fixed.lookup v.1).isNone

/-- A new shell in the place of a process, which was called by some name. -/
def newShell (called : Raw) (s : Session) : Session :=
  let directory := directoryGiven s
  { s with
    name := called
    arguments := []
    values := initialValues s directory
    functions := []
    aliases := []
    switches := []
    activity := none
    line := 0
    reached := 1
    status := 0
    substituted := 0
    loops := 0
    calls := 0
    former := []
    traps := []
    unheeded := s.unheeded ++ (s.traps.filter fun t => t.2.isEmpty).map Prod.fst
    due := []
    suspended := none
    tracing := none
    written := []
    shellNumber := s.number
    lastBackground := none
    optionIndex := 1
    optionOffset := none
    remembered := []
    directory
    jobs := [] }

/-- The switches that a shell is called with; `c` stands before a script. `limit` bounds the number
of arguments. -/
def callingOptions : (limit : Nat) → List Raw → Step (List Char × List Raw)
  | 0, arguments => return ([], arguments)
  | limit + 1, arguments => do
    let turned (on : Bool) (letters : Raw) (others : List Raw) : Step (List Char × List Raw) := do
      let (first, others) ← turnLetters ['c', 'l'] on letters others
      let (more, others) ← callingOptions limit others
      return (first ++ more, others)
    match arguments with
    | ['-'] :: others | ['-', '-'] :: others => return ([], others)
    | ('-' :: letters) :: others => turned true letters others
    | ('+' :: letters) :: others => turned false letters others
    | _ => return ([], arguments)

/-- Runs the shell: `-c` and a script, or the script in a file, or what it reads. -/
def runArgumentsOf (i : Interpreter) (arguments : List Raw) : Step Unit := do
  let (letters, others) ← callingOptions arguments.length arguments
  let reads := (← get).has .stdin || (others.isEmpty && !letters.contains 'c')
  let run (shown : Bool) (text : Raw) : Step Unit := do
    modify fun s => { s with line := 1 }
    let status ← i.runText .alone shown text
    modify fun s => { s with status }
  let readAll : Step Unit := do
    modify fun s => s.turn true .stdin
    match (← get).streams.lookup 0 with
    | none => return ()
    | some h => run true (← takeScript h)
  if letters.contains 'c' then
    match others with
    | [] => Step.fail "-c requires an argument".toList
    | line :: rest =>
      modify fun s => { s with name := rest.headD s.name, arguments := rest.tail }
      run false line
      if reads then readAll
  else if reads then
    modify fun s => { s with arguments := others }
    readAll
  else
    let file := others.headD []
    let text ← takeScript (← openFile .read file)
    modify fun s => { s with name := file, arguments := others.tail }
    run true text

/-- Runs the shell to its end. -/
def runShell (i : Interpreter) (called : Raw) (arguments : List Raw) (s : Session) :
    Session × ExitStatus :=
  let (result, s) := (runArgumentsOf i arguments).run.run (newShell called s)
  let (status, s) := (i.finish result).run s
  (s, status)

/-- How much of a file is looked at to find its interpreter. -/
def headLength : Nat := 256

/-- Whether a character ends the name of an interpreter. -/
def endsInterpreter (c : Char) : Bool :=
  isGap c || c = '\x00'

/-- The interpreter that the first line of a script names, with its argument if there is one. What
is looked at is filled up; where no line ends in it, it has to show where the name does. -/
def interpreter? (contents : Raw) : Option (Raw × List Raw) := do
  let head := (contents.take headLength).rightpad headLength '\x00'
  let behind ← after? ['#', '!'] head
  if !behind.contains '\n' && !(behind.dropWhile isGap).any endsInterpreter then none
  let line := ((behind.takeWhile (· ≠ '\n')).reverse.dropWhile isGap).reverse.dropWhile isGap
  if line.isEmpty then none
  let program := line.takeWhile fun c => !endsInterpreter c
  match line.drop program.length with
  | [] | '\x00' :: _ => return (program, [])
  | rest => return (program, [(rest.dropWhile isGap).takeWhile (· ≠ '\x00')])

/-- The file name of the shell. -/
def shellName : String := "sh"

/-- The file name of the program that changes variables. -/
def envName : String := "env"

/-- What the file of a program holds that is no script. It is no text. -/
def image (name : String) : Raw :=
  '\x7f' :: name.toList ++ ['\x00']

/-- How long one argument of a program, or one of its variables, must not be. -/
def argumentLimit : Nat := 131072

/-- Whether a program can be given some arguments and the variables of a session. -/
def fits (s : Session) (arguments : List Raw) : Bool :=
  let short (text : Raw) : Bool := (Raw.toBytes text).size < argumentLimit
  arguments.all short && s.environment.all fun v => short (v.1.toList ++ '=' :: v.2)

/-- How many scripts can be one another's interpreters. -/
def interpreterDepth : Nat := 5

/-- Runs a program, or the interpreter of a script, where so many scripts more can have another one
for their interpreter. -/
def launchBy (i : Interpreter) : (scripts : Nat) → Launch
  | scripts, file, called, arguments, s => do
    let l ← s.disk.locate file
    match s.disk.node? l with
    | none => throw .notFound
    | some .directory => throw .permissionDenied
    | some (.file f) =>
      if !f.executable then throw .permissionDenied
      if !fits s (called :: arguments) then throw .argumentsTooLong
      let contents := Raw.ofBytes f.bytes
      if contents = image shellName then return runShell i called arguments s
      if contents = image envName then return runEnv i.launch called arguments s
      match interpreter? contents, scripts with
      | none, _ => throw .notProgram
      | some ([], _), _ => throw .permissionDenied
      | some _, 0 => throw .endlessPath
      | some (program, options), scripts + 1 =>
        let operands := options ++ Raw.ofString file.text :: arguments
        launchBy i scripts ⟨Raw.shown program⟩ program operands s

/-- The signal that ends a process which nests too deep. -/
def tooDeep : Nat := 11

/-- An interpreter for scripts and programs that lie in one another, or start one another, no deeper
than `depth`. -/
def interpreterWithin : (depth : Nat) → Interpreter
  | 0 => {
      launch := fun _ _ _ _ => .error .tooManyPrograms
      run := fun _ _ => throw (.ended (.signal tooDeep))
      finish := fun _ => return .signal tooDeep }
  | depth + 1 => {
      launch := fun file called arguments s =>
        launchBy (interpreterWithin depth) interpreterDepth file called arguments s
      run := fun g script => script.step (interpreterWithin depth) g
      finish := fun result => (interpreterWithin depth).endProcess result }

/-- How deep scripts and programs can lie in one another. -/
def scriptDepth : Nat := 40000

/-- Runs a program. -/
def launch : Launch := (interpreterWithin scriptDepth).launch

/-- Where programs are on every system. -/
def programDirectories : List Location :=
  [["bin"], ["usr", "bin"]]

/-- Other directories that every system has. -/
def systemDirectories : List Location :=
  [["dev"], ["etc"], ["home"], ["opt"], ["root"], ["sbin"], ["tmp"], ["usr"], ["usr", "lib"],
    ["usr", "local"], ["usr", "local", "bin"], ["usr", "share"], ["var"], ["var", "tmp"]]

/-- A disk with the directories and programs of a system, and the shell in some directories more. -/
def install (d : Disk) (more : List Location) : Disk :=
  let add (name : String) (d : Disk) (l : Location) : Disk :=
    d.put (l ++ [name]) (.file ⟨Raw.toBytes (image name), 0, true⟩)
  let directories := programDirectories ++ systemDirectories ++ more
  let d := directories.foldl (fun d l => d.put l .directory) d
  (programDirectories ++ more).foldl (add shellName) (programDirectories.foldl (add envName) d)

/-- What a program leaves behind. -/
structure Completed where
  disk : Disk
  output : Raw
  errorOutput : Raw
  status : ExitStatus
  deriving Inhabited

/-- The number of the process that starts the first program. -/
def firstProcess : Nat := 1000

/-- The session a program is started in: nothing to read, two pipes to write to, and variables for
the search path and the working directory. -/
def freshSession (d : Disk) (searchPath : List Path) : Session where
  name := []
  arguments := []
  values :=
    let value (text : String) : Variable := ⟨some (Raw.ofString text), true, false⟩
    [("PATH", value (":".intercalate (searchPath.map Path.text))),
      ("PWD", value d.workingPath.text)]
  functions := []
  aliases := []
  switches := []
  activity := none
  line := 0
  reached := 1
  status := 0
  substituted := 0
  loops := 0
  calls := 0
  former := []
  traps := []
  unheeded := []
  due := []
  suspended := none
  streams :=
    [(0, ⟨0, true, false, false⟩), (1, Interpreter.pipeEnd 1 false),
      (2, Interpreter.pipeEnd 2 false)]
  tracing := none
  written := []
  number := firstProcess + 1
  shellNumber := firstProcess + 1
  lineage := [firstProcess]
  lastBackground := none
  optionIndex := 1
  optionOffset := none
  remembered := []
  directory := []
  mask := 18
  limits := []
  jobs := []
  disk := d
  channels := #[.nothing, .pipe none [], .pipe none []]
  nextProcess := firstProcess + 2
  mail := []

/-- What was written to a channel. -/
def Session.writtenTo (s : Session) (channel : Nat) : Raw :=
  (s.readable? (Interpreter.pipeEnd channel true)).getD []

/-- Runs a program in a directory to its end. -/
def start (d : Disk) (searchPath : List Path) (directory : Path) (program : String)
    (arguments : List String) : Except Fault Completed := do
  if (directory.text :: program :: arguments).any fun text => text.contains '\x00' then
    throw .nulInArgument
  let l ← d.locate directory
  match d.node? l with
  | none => throw .notFound
  | some (.file _) => throw .notDirectory
  | some .directory =>
    let inside := { d with workingDirectory := l }
    let run (file : Path) : Except Fault (Session × ExitStatus) :=
      launch file (Raw.ofString program) (arguments.map Raw.ofString)
        (freshSession inside searchPath)
    let (s, status) ← runFrom searchPath program run
    return {
      disk := { s.disk with workingDirectory := d.workingDirectory }
      output := s.writtenTo 1
      errorOutput := s.writtenTo 2
      status }

end IncrementalBuild.Shell
