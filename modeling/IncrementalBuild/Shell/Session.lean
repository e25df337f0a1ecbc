import IncrementalBuild.Disk.Basic
import IncrementalBuild.ExitStatus
import IncrementalBuild.Shell.Script
import IncrementalBuild.Shell.Switch

/-!
A shell at work. What belongs to the shell alone is its process: parameters, functions, where its
streams lead. Files, the channels behind the streams and the signals on their way are shared with
the processes it starts.
-/

namespace IncrementalBuild.Shell

open Text

/-- A variable. One without a value is not set, but is remembered for what else is known of it. -/
structure Variable where
  value : Option Raw
  /-- Whether programs see it. -/
  exported : Bool
  readOnly : Bool
  deriving DecidableEq, Repr, Inhabited

/-- What stands behind a stream. -/
inductive Channel where
  /-- What is read from it is nothing, and what is written to it is lost. -/
  | nothing
  /-- Text that was written and not read yet, as it was written piece by piece, the last piece
  first. Where there is a limit, no more characters than that are waiting to be read. -/
  | pipe (limit : Option Nat) (pieces : List Raw)
  /-- A place in a file. -/
  | file (place : Location) (position : Nat)
  deriving DecidableEq, Repr, Inhabited

/-- Where a stream leads. -/
structure Handle where
  /-- The number of the channel. -/
  channel : Nat
  reads : Bool
  writes : Bool
  /-- Whether what is written always goes behind the end of the file. -/
  appends : Bool
  deriving DecidableEq, Repr, Inhabited

/-- What a variable, or the switches, were before a function or a command made them its own. -/
inductive Former where
  | entry (name : String) (v : Option Variable)
  | switches (on : List Switch)
  deriving Repr, Inhabited

/-- What a process may use of something, in bytes or pieces. -/
structure Limit where
  /-- What is limited. -/
  letter : Char
  value : Nat
  /-- The greatest value that can be asked for. -/
  greatest : Nat
  deriving DecidableEq, Repr, Inhabited

/-- What a shell has for itself. -/
structure Process where
  /-- What the shell was called. -/
  name : Raw
  /-- The arguments, the first of which is the parameter `1`. -/
  arguments : List Raw
  /-- The variables, by name. -/
  values : List (String × Variable)
  functions : List (String × Script)
  aliases : List (String × Raw)
  /-- The switches that are on. -/
  switches : List Switch
  /-- The command of the shell that is being run, as messages name it. -/
  activity : Option Raw
  /-- The line of the script that messages name. -/
  line : Nat
  /-- The line that the reading of the script has come to. -/
  reached : Nat
  /-- The exit status of the last command. -/
  status : Nat
  /-- The exit status of the last script in a word of the current command. -/
  substituted : Nat
  /-- In how many loops the command stands. -/
  loops : Nat
  /-- In how many functions the command stands. -/
  calls : Nat
  /-- What is to be put back where functions and commands end, the innermost first. -/
  former : List (List Former)
  /-- What is done on signals, and at the end of the shell, whose number is 0. Nothing is done on a
  signal with an empty action. -/
  traps : List (Nat × Raw)
  /-- The signals that were left unheeded when the shell was started. -/
  unheeded : List Nat
  /-- The signals whose actions are due. -/
  due : List Nat
  /-- The exit status from before the action that is being run. -/
  suspended : Option Nat
  /-- The streams that are open. -/
  streams : List (Nat × Handle)
  /-- Where commands are shown before they are run, if the error stream was led elsewhere. -/
  tracing : Option Handle
  /-- What a command of the shell has written so far. -/
  written : Raw
  /-- The number of the process. -/
  number : Nat
  /-- The number of the process in which the script was started. -/
  shellNumber : Nat
  /-- The processes that wait for this one, the nearest first. -/
  lineage : List Nat
  /-- The number of the last process that was started and not waited for. -/
  lastBackground : Option Nat
  /-- The argument that options are read from, counted from one, and where in it the next option
  stands. -/
  optionIndex : Nat
  optionOffset : Option Nat
  /-- The programs that were found, with where they were found. -/
  remembered : List (String × Path)
  /-- The working directory as the script went there. -/
  directory : Raw
  /-- The permissions that new files do not get. -/
  mask : Nat
  /-- The limits that were set. -/
  limits : List Limit
  deriving Inhabited

/-- How far a process that is not waited for has come. -/
inductive Progress where
  /-- It waits for its turn. The signals are those it was sent. -/
  | waiting (p : Process) (workingDirectory : Location) (script : Script) (signals : List Nat)
  | ended (status : ExitStatus)
  deriving Inhabited

/-- A process that is not waited for. -/
structure Job where
  /-- The number among the jobs of the shell. -/
  index : Nat
  process : Nat
  progress : Progress
  /-- Whether the shell has waited for it since it is over. -/
  waitedFor : Bool
  deriving Inhabited

/-- Whether the process is over. -/
def Job.isOver (j : Job) : Bool :=
  match j.progress with
  | .waiting _ _ _ _ => false
  | .ended _ => true

/-- A shell at work among files and other processes. -/
structure Session extends Process where
  jobs : List Job
  disk : Disk
  channels : Array Channel
  /-- The number that the next process gets. -/
  nextProcess : Nat
  /-- Signals that processes were sent and have not taken note of. -/
  mail : List (Nat × Nat)
  deriving Inhabited

/-- How a script does not go on to its next command. -/
inductive Break where
  /-- The shell ends. -/
  | leave
  /-- The shell ends with a complaint, unless it stands in a command that takes the blame. -/
  | failed
  /-- The process is over. -/
  | ended (status : ExitStatus)
  /-- So many loops end. -/
  | leaveLoops (count : Nat)
  /-- So many loops end but the last of them, which goes on with its next round. -/
  | nextRound (count : Nat)
  /-- The function or the script of a file ends. -/
  | leaveFunction
  deriving DecidableEq, Repr, Inhabited

/-- Something that a shell does. -/
abbrev Step (α : Type) := ExceptT Break (StateM Session) α

namespace Session

/-- Whether a switch is on. -/
def has (s : Session) (w : Switch) : Bool :=
  s.switches.contains w

/-- Adds a channel, and returns its number. -/
def openChannel (s : Session) (c : Channel) : Nat × Session :=
  (s.channels.size, { s with channels := s.channels.push c })

/-- Lets a stream lead somewhere, or closes it. -/
def lead (s : Session) (stream : Nat) (target : Option Handle) : Session :=
  let others := s.streams.filter fun t => t.1 ≠ stream
  { s with streams := match target with
    | some h => (stream, h) :: others
    | none => others }

/-- The bytes of the file at a location. -/
def bytesAt (s : Session) (place : Location) : ByteArray :=
  match s.disk.node? place with
  | some (.file f) => f.bytes
  | _ => ByteArray.empty

/-- What is left to be read where a stream leads. -/
def readable? (s : Session) (h : Handle) : Option Raw :=
  if !h.reads then none
  else match s.channels[h.channel]? with
    | some (.pipe _ pieces) => some pieces.reverse.flatten
    | some (.file place position) =>
      let bytes := s.bytesAt place
      some (Raw.ofBytes (bytes.extract position bytes.size))
    | some .nothing | none => some []

/-- A session in which the first characters of what a stream reads have been read. -/
def consume (s : Session) (h : Handle) (count : Nat) : Session :=
  let read : Channel → Channel
    | .pipe limit pieces => .pipe limit [pieces.reverse.flatten.drop count]
    | .file place position => .file place (position + count)
    | .nothing => .nothing
  { s with channels := s.channels.modify h.channel read }

/-- Bytes written into others from a position on. What is missing before it is filled up. -/
def overwrite (old : ByteArray) (position : Nat) (new : ByteArray) : ByteArray :=
  let gap := position - old.size
  let start := old.extract 0 position ++ ⟨(List.replicate gap 0).toArray⟩
  start ++ new ++ old.extract (position + new.size) old.size

/-- Writes where a handle leads, if it can be written there. -/
def put? (s : Session) (h : Handle) (text : Raw) : Option Session :=
  if !h.writes then none
  else match s.channels[h.channel]? with
    | some (.pipe _ _) =>
      let add : Channel → Channel
        | .pipe limit pieces => .pipe limit (text :: pieces)
        | c => c
      some { s with channels := s.channels.modify h.channel add }
    | some (.file place position) =>
      if text.isEmpty then some s
      else
        let old := s.bytesAt place
        let position := if h.appends then old.size else position
        let new := Raw.toBytes text
        some { s with
          disk := s.disk.replaceAt place (overwrite old position new)
          channels := s.channels.set! h.channel (.file place (position + new.size)) }
    | some .nothing | none => some s

/-- Whether there is no room for a text where a handle leads. -/
def overflows (s : Session) (h : Handle) (text : Raw) : Bool :=
  match s.channels[h.channel]? with
  | some (.pipe (some limit) pieces) =>
    limit < pieces.foldl (fun n p => n + p.length) text.length
  | _ => false

/-- Writes to a stream; what cannot be written is lost. -/
def write (s : Session) (stream : Nat) (text : Raw) : Session :=
  ((s.streams.lookup stream).bind fun h => s.put? h text).getD s

/-- Writes a message about the current command to the error stream. -/
def complain (s : Session) (message : Raw) : Session :=
  let activity := (s.activity.map (· ++ [':', ' '])).getD []
  s.write 2 (s.name ++ Raw.ofString (": " ++ toString s.line ++ ": ") ++ activity ++ message ++
    ['\n'])

/-- What is known of a variable. -/
def entry? (s : Session) (name : String) : Option Variable :=
  s.values.lookup name

/-- The value of a variable that is set. -/
def value? (s : Session) (name : String) : Option Raw :=
  (s.entry? name).bind Variable.value

/-- Puts a variable in the place of the one of that name. -/
def place (s : Session) (name : String) (v : Option Variable) : Session :=
  let others := s.values.filter fun t => t.1 ≠ name
  { s with values := match v with
    | some v => (name, v) :: others
    | none => others }

/-- The characters that words are split at: blanks and line ends, or what the variable `IFS`
holds. -/
def separators (s : Session) : Raw :=
  (s.value? "IFS").getD [' ', '\t', '\n']

/-- The directories programs are looked for in. -/
def searchPath (s : Session) : List Path :=
  match s.value? "PATH" with
  | none => []
  | some value => (splitOn ':' value).map fun p => ⟨Raw.shown p⟩

/-- The variables that programs see. -/
def environment (s : Session) : List (String × Raw) :=
  s.values.filterMap fun (name, v) => if v.exported then v.value.map (name, ·) else none

/-- A session after a process that it started: files, channels and signals are shared, the rest is
as it was. -/
def after (s inner : Session) : Session :=
  { s with
    disk := { inner.disk with workingDirectory := s.disk.workingDirectory }
    channels := inner.channels
    nextProcess := inner.nextProcess
    mail := inner.mail }

/-- A session as a new process finds it that runs a part of the script. Actions on signals are
forgotten, and it has no jobs. -/
def child (s : Session) : Session :=
  { s with
    number := s.nextProcess
    nextProcess := s.nextProcess + 1
    lineage := s.number :: s.lineage
    traps := s.traps.filter fun t => t.2.isEmpty
    reached := 1
    due := []
    jobs := [] }

end Session

namespace Step

/-- Ends what is being run with a complaint. -/
def fail {α : Type} (message : Raw) : Step α := do
  modify fun s => { s.complain message with status := 2 }
  throw .failed

/-- Complains and goes on. -/
def warn (message : Raw) : Step Unit :=
  modify fun s => s.complain message

/-- Adds to what the current command of the shell writes. -/
def print (text : Raw) : Step Unit :=
  modify fun s => { s with written := s.written ++ text }

/-- Does something and then something else, no matter how the first ended. -/
def always {α : Type} (body : Step α) (cleanUp : Session → Session) : Step α :=
  ExceptT.mk do
    let result ← body.run
    modify cleanUp
    return result

end Step

end IncrementalBuild.Shell
