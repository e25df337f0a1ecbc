import IncrementalBuild.Path
import IncrementalBuild.SortedMap

/-!
The files and directories a build works on. A disk holds a node at every location that exists; a
location is the list of names from the root. Operations take paths, which are walked from the root
or from the working directory, and fail with the reason the system would give. Every write stamps
the file with a time that no earlier write had.
-/

namespace IncrementalBuild

/-- Why an operation on files fails. -/
inductive Fault where
  /-- What is asked for is left to others. -/
  | notPermitted
  | notFound
  /-- A program is given more than fits. -/
  | argumentsTooLong
  /-- The file is none that can be run. -/
  | notProgram
  /-- Too many programs are running. -/
  | tooManyPrograms
  | permissionDenied
  /-- What is there is in use. -/
  | busy
  | alreadyExists
  | notDirectory
  | isDirectory
  /-- The last component of the path cannot be meant. -/
  | invalidArgument
  | nameTooLong
  | notEmpty
  /-- The path leads on and on. -/
  | endlessPath
  /-- The file is not a text in UTF-8. -/
  | notText
  /-- The path has a character that ends names. -/
  | nulInPath
  /-- The name, the directory or an argument of a program has a character that ends them. -/
  | nulInArgument
  deriving DecidableEq, Repr, Inhabited

namespace Fault

/-- What a fault is, in words. -/
def reason : Fault → String
  | notPermitted => "Operation not permitted"
  | notFound => "No such file or directory"
  | argumentsTooLong => "Argument list too long"
  | notProgram => "Exec format error"
  | tooManyPrograms => "Resource temporarily unavailable"
  | permissionDenied => "Permission denied"
  | busy => "Device or resource busy"
  | alreadyExists => "File exists"
  | notDirectory => "Not a directory"
  | isDirectory => "Is a directory"
  | invalidArgument => "Invalid argument"
  | nameTooLong => "File name too long"
  | notEmpty => "Directory not empty"
  | endlessPath => "Too many levels of symbolic links"
  | notText => "stream did not contain valid UTF-8"
  | nulInPath => "file name contained an unexpected NUL byte"
  | nulInArgument => "nul byte found in provided data"

/-- The number of a fault, if it comes from the system. -/
def number? : Fault → Option Nat
  | notPermitted => some 1
  | notFound => some 2
  | argumentsTooLong => some 7
  | notProgram => some 8
  | tooManyPrograms => some 11
  | permissionDenied => some 13
  | busy => some 16
  | alreadyExists => some 17
  | notDirectory => some 20
  | isDirectory => some 21
  | invalidArgument => some 22
  | nameTooLong => some 36
  | notEmpty => some 39
  | endlessPath => some 40
  | notText | nulInPath | nulInArgument => none

/-- The wording of a fault in messages. -/
def message (f : Fault) : String :=
  match f.number? with
  | some n => f.reason ++ " (os error " ++ toString n ++ ")"
  | none => f.reason

end Fault

/-- The names from the root down to a file or directory. -/
abbrev Location := List String

/-- Locations are ordered name by name, so a directory stands right before what it holds. -/
def Location.order : Location → Location → Ordering
  | [], [] => .eq
  | [], _ :: _ => .lt
  | _ :: _, [] => .gt
  | a :: as, b :: bs => (compare a b).then (order as bs)

/-- A file: its contents, the time it was last written, in nanoseconds since 1970, and whether it
may be run. -/
structure FileNode where
  bytes : ByteArray
  modified : Int
  executable : Bool
  deriving Inhabited

instance : DecidableEq FileNode
  | ⟨⟨bytes⟩, modified, executable⟩, ⟨⟨bytes'⟩, modified', executable'⟩ =>
    decidable_of_iff (bytes = bytes' ∧ modified = modified' ∧ executable = executable') (by simp)

/-- What stands at a location. -/
inductive Node where
  | directory
  | file (f : FileNode)
  deriving DecidableEq, Inhabited

/-- All files and directories below the root. -/
structure Disk where
  nodes : SortedMap Location Node
  /-- Where relative paths start. -/
  workingDirectory : Location
  /-- The time the next write is stamped with. -/
  clock : Int
  deriving Inhabited

namespace Disk

/-- The working directory as a path. -/
def workingPath (d : Disk) : Path :=
  ⟨"/" ++ "/".intercalate d.workingDirectory⟩

/-- What stands at a location. The root is always there. -/
def node? (d : Disk) (l : Location) : Option Node :=
  if l.isEmpty then some .directory else d.nodes.get? Location.order l

/-- The length that no name of a file exceeds, in bytes. -/
def longestName : Nat := 255

/-- The length that every path stays below, in bytes. -/
def pathLimit : Nat := 4096

/-- Whether a piece of a path is longer than names can be. -/
def tooLong (piece : List Char) : Bool :=
  longestName < (String.ofList piece).utf8ByteSize

/-- Walks a path from a directory. Every piece, an empty one too, is looked up in a directory; only
what the last piece names need not exist. -/
def walk (d : Disk) : Location → List (List Char) → Except Fault Location
  | l, [] => .ok l
  | l, piece :: pieces =>
    match d.node? l with
    | none => .error .notFound
    | some (.file _) => .error .notDirectory
    | some .directory =>
      if piece = [] || piece = ['.'] then d.walk l pieces
      else if piece = ['.', '.'] then d.walk l.dropLast pieces
      else if tooLong piece then .error .nameTooLong
      else d.walk (l ++ [String.ofList piece]) pieces

/-- Where a path starts, and its pieces from there. The empty path leads nowhere. -/
def pieces (d : Disk) (p : Path) : Except Fault (Location × List (List Char)) :=
  let cs := p.text.toList
  if cs.contains '\x00' then .error .nulInPath
  else if pathLimit ≤ p.text.utf8ByteSize then .error .nameTooLong
  else match cs with
    | [] => .error .notFound
    | '/' :: body => .ok ([], Text.splitOn '/' body)
    | cs => .ok (d.workingDirectory, Text.splitOn '/' cs)

/-- The location a path leads to. -/
def locate (d : Disk) (p : Path) : Except Fault Location := do
  let (start, pieces) ← d.pieces p
  d.walk start pieces

/-- What stands where a path leads. -/
def lookup (d : Disk) (p : Path) : Except Fault Node := do
  match d.node? (← d.locate p) with
  | some n => return n
  | none => throw .notFound

/-- Whether there is something where a path leads. -/
def present (d : Disk) (p : Path) : Bool :=
  match d.lookup p with
  | .ok _ => true
  | .error _ => false

/-- Whether a path leads to a file. -/
def isFile (d : Disk) (p : Path) : Bool :=
  match d.lookup p with
  | .ok (.file _) => true
  | _ => false

/-- Whether a path leads to a directory. -/
def isDirectory (d : Disk) (p : Path) : Bool :=
  match d.lookup p with
  | .ok .directory => true
  | _ => false

/-- The contents of a file. -/
def read (d : Disk) (p : Path) : Except Fault ByteArray := do
  match ← d.lookup p with
  | .file f => return f.bytes
  | .directory => throw .isDirectory

/-- The contents of a file as text. -/
def readText (d : Disk) (p : Path) : Except Fault String := do
  match String.fromUTF8? (← d.read p) with
  | some s => return s
  | none => throw .notText

/-- The length of a directory's entry, which says nothing about what it holds. -/
def directoryLength : Nat := 4096

/-- The time of the last write and the length of what a path leads to. -/
def metadata? (d : Disk) (p : Path) : Option (Int × Nat) :=
  match d.lookup p with
  | .ok (.file f) => some (f.modified, f.bytes.size)
  | .ok .directory => some (0, directoryLength)
  | .error _ => none

/-- Puts a node at a location. -/
def put (d : Disk) (l : Location) (n : Node) : Disk :=
  { d with nodes := d.nodes.insert Location.order l n }

/-- Takes away what stands at a location and below it. -/
def erase (d : Disk) (l : Location) : Disk :=
  { d with nodes := d.nodes.keep fun k => !l.isPrefixOf k }

/-- The time a write is stamped with, and the disk whose next write is stamped later. -/
def tick (d : Disk) : Int × Disk :=
  (d.clock, { d with clock := d.clock + 1 })

/-- A path as the name of an entry in a directory. -/
structure Entry where
  /-- The directory that holds the entry. -/
  directory : Location
  /-- The name. There is none if the path leads to the root, or ends with `.` or `..`. -/
  name? : Option String
  /-- Whether slashes stand behind the name. -/
  slashed : Bool
  deriving Repr, Inhabited

/-- The entry a path names. The directory it lies in has to be there. -/
def entry (d : Disk) (p : Path) : Except Fault Entry := do
  let (start, pieces) ← d.pieces p
  let reversed := pieces.reverse.dropWhile List.isEmpty
  let last := reversed.headD []
  let directory ← d.walk start reversed.tail.reverse
  match d.node? directory with
  | none => throw .notFound
  | some (.file _) => throw .notDirectory
  | some .directory =>
    return {
      directory
      name? := if last = [] || last = ['.'] || last = ['.', '.'] then none
        else some (String.ofList last)
      slashed := pieces.getLast? = some [] }

/-- The location of an entry with a name, unless the name is too long. -/
def Entry.locate (e : Entry) (name : String) : Except Fault Location :=
  if longestName < name.utf8ByteSize then .error .nameTooLong else .ok (e.directory ++ [name])

/-- Where a file can be written: in a directory that exists, at a place that holds no directory. -/
def writable (d : Disk) (p : Path) : Except Fault Location := do
  let e ← d.entry p
  match e.name? with
  | none => throw .isDirectory
  | some name =>
    if e.slashed then throw .isDirectory
    let l ← e.locate name
    match d.node? l with
    | some .directory => throw .isDirectory
    | _ => return l

/-- Whether the file at a location may be run. -/
def executableAt (d : Disk) (l : Location) : Bool :=
  match d.node? l with
  | some (.file f) => f.executable
  | _ => false

/-- Writes a file anew; one that exists stays executable if it was. -/
def write (d : Disk) (p : Path) (bytes : ByteArray) : Except Fault Disk := do
  let l ← d.writable p
  let (now, d) := d.tick
  return d.put l (.file ⟨bytes, now, d.executableAt l⟩)

/-- Gives the file at a location other contents, if there is one. -/
def replaceAt (d : Disk) (l : Location) (bytes : ByteArray) : Disk :=
  match d.node? l with
  | some (.file f) =>
    let (now, d) := d.tick
    d.put l (.file { f with bytes, modified := now })
  | _ => d

/-- Sets the time a file was last written. -/
def stamp (d : Disk) (p : Path) (modified : Int) : Except Fault Disk := do
  let l ← d.locate p
  match d.node? l with
  | some (.file f) => return d.put l (.file { f with modified })
  | some .directory => return d
  | none => throw .notFound

/-- Makes one directory. -/
def makeDirectory (d : Disk) (p : Path) : Except Fault Disk := do
  let e ← d.entry p
  match e.name? with
  | none => throw .alreadyExists
  | some name =>
    let l ← e.locate name
    if (d.node? l).isSome then throw .alreadyExists
    return d.put l .directory

/-- Makes the first of some directories, each of which lies in the next one: where that one is
missing, it is made first. What has been made stays where this fails. -/
def makeFrom (d : Disk) : List Path → Except Fault Unit × Disk
  | [] => (.ok (), d)
  | p :: holders =>
    match d.makeDirectory p with
    | .ok d => (.ok (), d)
    | .error .notFound =>
      match d.makeFrom holders with
      | (.error fault, d) => (.error fault, d)
      | (.ok (), d) =>
        match d.makeDirectory p with
        | .ok d => (.ok (), d)
        | .error fault => (if d.isDirectory p then .ok () else .error fault, d)
    | .error fault => (if d.isDirectory p then .ok () else .error fault, d)

/-- Makes the directory a path names, and those it lies in, as far as they do not exist. -/
def createDirectories (d : Disk) (p : Path) : Except Fault Unit × Disk :=
  d.makeFrom p.ancestors

/-- Moves a file to another path, in place of a file that is there. -/
def rename (d : Disk) (source target : Path) : Except Fault Disk := do
  let origin ← d.locate source
  let e ← d.entry target
  match e.name? with
  | none => throw .busy
  | some name =>
    match d.node? origin with
    | none => throw .notFound
    | some .directory => throw .isDirectory
    | some (.file f) =>
      let destination ← e.locate name
      if e.slashed then throw .notDirectory
      match d.node? destination with
      | some .directory => throw .isDirectory
      | _ => return (d.erase origin).put destination (.file f)

/-- Takes away the file a path leads to. -/
def removeFile (d : Disk) (p : Path) : Except Fault Disk := do
  let l ← d.locate p
  match d.node? l with
  | none => throw .notFound
  | some .directory => throw .isDirectory
  | some (.file _) => return d.erase l

/-- Takes away what a directory holds, but not the directory. -/
def eraseBelow (d : Disk) (l : Location) : Disk :=
  { d with nodes := d.nodes.keep fun k => !l.isPrefixOf k || k == l }

/-- Takes away a directory that holds nothing. -/
def removeEmpty (d : Disk) (p : Path) : Except Fault Disk := do
  let e ← d.entry p
  match e.name? with
  | some name => return d.erase (e.directory ++ [name])
  | none => throw .invalidArgument

/-- Takes away all that a directory holds, and then the directory. If that cannot be done the
directory stays, empty; a path that leads nowhere any more by then is none to worry about. -/
def removeDirectory (d : Disk) (p : Path) : Except Fault Unit × Disk :=
  match d.locate p with
  | .error fault => (.error fault, d)
  | .ok l =>
    match d.node? l with
    | none => (.error .notFound, d)
    | some (.file _) => (.error .notDirectory, d)
    | some .directory =>
      let bare := d.eraseBelow l
      match bare.removeEmpty p with
      | .ok d => (.ok (), d)
      | .error .notFound => (.ok (), bare)
      | .error fault => (.error fault, bare)

/-- The nodes below a location with their names from there, a directory before what it holds and
siblings in the order of their names. -/
def below (d : Disk) (l : Location) : List (Location × Node) :=
  d.nodes.entries.filterMap fun (k, n) =>
    if l.isPrefixOf k && l.length < k.length then some (k.drop l.length, n) else none

end Disk

end IncrementalBuild
