import IncrementalBuild.Disk.Basic
import IncrementalBuild.Number.Decimal

/-!
Listings of files. A line of a listing tells the kind of a file or directory, its permissions in
octal, the time of the last write in seconds since 1970, and its path, with a space between each
two. A disk is made from a listing and the contents of the files, and what has become of a disk is
told as a list of changes.
-/

namespace IncrementalBuild

/-- A file or directory as a line of a listing describes it. -/
structure Listed where
  path : Path
  isDirectory : Bool
  executable : Bool
  /-- The time of the last write, in nanoseconds since 1970. -/
  modified : Int
  deriving Repr, Inhabited

namespace Listed

/-- The nanoseconds that a run of digits behind a point stands for. -/
def nanoseconds (fraction : List Char) : Nat :=
  let digits := (fraction.takeWhile Char.isDigit).take 9
  Number.ofDigits (digits ++ List.replicate (9 - digits.length) '0')

/-- The time that a decimal number of seconds stands for, in nanoseconds. -/
def time? (cs : List Char) : Option Int :=
  let seconds := cs.takeWhile Char.isDigit
  let fraction := (cs.drop seconds.length).drop 1
  if seconds.isEmpty then none
  else some ((Number.ofDigits seconds : Int) * 1000000000 + nanoseconds fraction)

/-- Whether permissions in octal let someone run a file. -/
def lets (permissions : List Char) : Bool :=
  (permissions.drop (permissions.length - 3)).any fun c => c.toNat % 2 = 1

/-- What a line of a listing describes, if it is a file or a directory. -/
def ofLine? (line : String) : Option Listed := do
  let (kind, rest) ← Text.splitOnce ' ' line.toList
  let (permissions, rest) ← Text.splitOnce ' ' rest
  let (time, path) ← Text.splitOnce ' ' rest
  let modified ← time? time
  let listed (isDirectory : Bool) : Listed :=
    ⟨⟨String.ofList path⟩, isDirectory, lets permissions, modified⟩
  match kind with
  | ['d'] => some (listed true)
  | ['f'] => some (listed false)
  | _ => none

end Listed

namespace Disk

/-- Puts a listed file with its contents, or a listed directory, where its path leads. What cannot
be placed is left out. -/
def place (d : Disk) (entry : Listed) (bytes : ByteArray) : Disk :=
  if entry.isDirectory then (d.createDirectories entry.path).2
  else
    let d := ((entry.path.parent?).map fun p => (d.createDirectories p).2).getD d
    match d.locate entry.path with
    | .ok l => { d.put l (.file ⟨bytes, entry.modified, entry.executable⟩) with
        clock := max d.clock (entry.modified + 1000000000) }
    | .error _ => d

/-- The disk that a listing and the contents of its files describe, seen from a working directory.
-/
def ofListing (workingDirectory : Location) (entries : List (Listed × ByteArray)) : Disk :=
  let bare : Disk := ⟨.empty, workingDirectory, 0⟩
  let whole := (bare.createDirectories bare.workingPath).2
  entries.foldl (fun d (entry, bytes) => d.place entry bytes) whole

/-- What has become of a file or directory. -/
inductive Change where
  | makeDirectory (p : Path)
  | writeFile (p : Path) (bytes : ByteArray)
  | removeFile (p : Path)
  | removeDirectory (p : Path)

/-- The path from the root to a location. -/
def pathTo (l : Location) : Path :=
  ⟨"/" ++ "/".intercalate l⟩

/-- The change that takes a node away. -/
def removal (l : Location) : Node → Change
  | .directory => .removeDirectory (pathTo l)
  | .file _ => .removeFile (pathTo l)

/-- The change that makes what stood at a location what stands there now, if they differ. -/
def renewal? (l : Location) (before : Option Node) : Node → Option Change
  | .directory =>
    match before with
    | some .directory => none
    | _ => some (.makeDirectory (pathTo l))
  | .file f =>
    let written := Change.writeFile (pathTo l) f.bytes
    match before with
    | some (.file old) => if old.bytes == f.bytes then none else some written
    | _ => some written

/-- The changes that make a disk another one. What is taken away comes first, what a directory holds
before the directory; then comes what is made, a directory before what it holds. -/
def changes (before after : Disk) : List Change :=
  let gone := before.nodes.entries.filterMap fun (l, n) =>
    if (after.node? l).isNone then some (removal l n) else none
  let made := after.nodes.entries.filterMap fun (l, n) => renewal? l (before.node? l) n
  gone.reverse ++ made

end Disk

end IncrementalBuild
