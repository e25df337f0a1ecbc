import IncrementalBuild.Shell.Expansion

/-!
Redirections: streams of a command that lead to other places while the command runs. What they lead
to is told by words, all of which are replaced before the first stream is led anywhere. Streams are
led from left to right, and the first that cannot be led keeps the command from running.
-/

namespace IncrementalBuild.Shell

open Text

/-- Why a file cannot be used, as a shell says it. -/
def faultReason (missing : String) : Fault → String
  | .notFound | .notDirectory => missing
  | fault => fault.reason

/-- Where a stream is to lead. -/
inductive Destination where
  | file (access : Access) (path : Raw)
  /-- Where another stream leads, or nowhere. -/
  | share (source : Option Nat)
  | document (text : Word)

/-- The stream that a word of one character names; a minus sign names none. -/
def sharedStream? : Raw → Option (Option Nat)
  | ['-'] => some none
  | [c] => if c.isDigit then some (some (c.toNat - '0'.toNat)) else none
  | _ => none

/-- The stream of a redirection, and where it is to lead. -/
def Redirection.destination (i : Interpreter) : Redirection → Step (Nat × Destination)
  | file stream access target => do
    return (stream, .file access (← target.value i Manner.value))
  | share stream target => do
    match sharedStream? (← target.value i Manner.value) with
    | some source => return (stream, .share source)
    | none =>
      modify fun s => { s with line := s.reached }
      Step.fail "Syntax error: Bad fd number".toList
  | document stream text => return (stream, .document text)

/-- The streams of redirections, and where they are to lead. -/
def destinations (i : Interpreter) : List Redirection → Step (List (Nat × Destination))
  | [] => return []
  | r :: rs => do
    let d ← r.destination i
    return d :: (← destinations i rs)

/-- Files that are no places on a disk. -/
inductive Device where
  /-- The file that is always empty, and forgets what is written to it. -/
  | null
  /-- The file that has no room for anything. -/
  | full
  /-- What a stream leads to. -/
  | stream (number : Nat)
  deriving DecidableEq, Repr, Inhabited

/-- The device that a path names. -/
def device? (path : Raw) : Option Device :=
  match Raw.shown path with
  | "/dev/null" => some .null
  | "/dev/full" => some .full
  | "/dev/stdin" => some (.stream 0)
  | "/dev/stdout" => some (.stream 1)
  | "/dev/stderr" => some (.stream 2)
  | _ =>
    let number := (after? "/dev/fd/".toList path).or (after? "/proc/self/fd/".toList path)
    (number.bind fun n => if n.all Char.isDigit then count? n else none).map Device.stream

/-- A handle for what an access asks for. -/
def Access.handle (access : Access) (channel : Nat) : Handle :=
  ⟨channel, access = .read || access = .update, access ≠ .read, access = .append⟩

/-- Opens the file at a location of which is known that it can be opened. -/
def openPlace (access : Access) (place : Location) (s : Session) : Handle × Session :=
  let s := if access = .write || access = .overwrite then
      { s with disk := s.disk.replaceAt place ByteArray.empty }
    else s
  let (channel, s) := s.openChannel (.file place 0)
  (access.handle channel, s)

/-- Opens a file that is to be read. What a directory holds cannot be read. -/
def openForReading (path : Raw) (s : Session) : Except Fault (Handle × Session) := do
  let place ← s.disk.locate ⟨Raw.shown path⟩
  match s.disk.node? place with
  | none => throw .notFound
  | some (.file _) => return openPlace .read place s
  | some .directory =>
    let (channel, s) := s.openChannel .nothing
    return (Access.handle .read channel, s)

/-- Opens a file that is to be written, and makes it if it is missing. -/
def openForWriting (access : Access) (path : Raw) (s : Session) :
    Except Fault (Handle × Session) := do
  let target : Path := ⟨Raw.shown path⟩
  let place ← s.disk.writable target
  if access = .write && s.has .noclobber && s.disk.isFile target then throw .alreadyExists
  if (s.disk.node? place).isSome then return openPlace access place s
  else
    let disk ← s.disk.write target ByteArray.empty
    return openPlace access place { s with disk }

/-- Opens a device. -/
def openDevice (access : Access) (d : Device) (s : Session) : Except Fault (Handle × Session) := do
  match d with
  | .null =>
    let (channel, s) := s.openChannel .nothing
    return (access.handle channel, s)
  | .full =>
    let (channel, s) := s.openChannel .nothing
    return ({ access.handle channel with writes := false }, s)
  | .stream n =>
    match s.streams.lookup n with
    | none => throw .notFound
    | some h =>
      match s.channels[h.channel]? with
      | some (.file place _) => return openPlace access place s
      | _ => return (access.handle h.channel, s)

/-- Opens a file. -/
def openFile (access : Access) (path : Raw) : Step Handle := do
  let s ← get
  let result := match device? path, access with
    | some d, _ => openDevice access d s
    | none, .read => openForReading path s
    | none, _ => openForWriting access path s
  match result with
  | .ok (h, s) =>
    set s
    return h
  | .error fault =>
    let (verb, missing) := if access = .read then ("cannot open ", "No such file")
      else ("cannot create ", "Directory nonexistent")
    Step.fail (verb.toList ++ path ++ ": ".toList ++ (faultReason missing fault).toList)

/-- What is left to be read where a handle leads, as a script. It is taken from there; characters
that no text has do not count. -/
def takeScript (h : Handle) : Step Raw := do
  let s ← get
  let text := (s.readable? h).getD []
  set (s.consume h text.length)
  return text.filter (· ≠ '\x00')

/-- Leads a stream somewhere. A stream that can be put back is closed first, so that nothing is said
about it where it is the error stream itself. -/
def leadTo (i : Interpreter) (putBack : Bool) (stream : Nat) : Destination → Step Unit
  | .file access path => do
    let h ← openFile access path
    modify fun s => s.lead stream (some h)
  | .share none => modify fun s => s.lead stream none
  | .share (some source) => do
    if source = stream then return ()
    match (← get).streams.lookup source with
    | some h => modify fun s => s.lead stream (some h)
    | none =>
      if putBack then modify fun s => s.lead stream none
      Step.fail (toString source ++ ": Bad file descriptor").toList
  | .document text => do
    let contents ← text.value i Manner.document
    let (channel, s) := (← get).openChannel (.pipe none [contents])
    set s
    modify fun s => s.lead stream (some ⟨channel, true, false, false⟩)

/-- Leads streams one after another. -/
def leadAll (i : Interpreter) (putBack : Bool) : List (Nat × Destination) → Step Unit
  | [] => return ()
  | (stream, d) :: rest => do
    leadTo i putBack stream d
    leadAll i putBack rest

/-- Puts streams back to where they led. -/
def putBack (streams : List Nat) (before after : Session) : Session :=
  streams.foldl (fun s stream => s.lead stream (before.streams.lookup stream)) after

/-- Leads streams, and says whether all of them could be led. -/
def leads (i : Interpreter) (ds : List (Nat × Destination)) : Step Bool :=
  ExceptT.mk do
    match ← (leadAll i true ds).run with
    | .error .failed => return .ok false
    | .error b => return .error b
    | .ok () => return .ok true

end IncrementalBuild.Shell
