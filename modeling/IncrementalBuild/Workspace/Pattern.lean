import IncrementalBuild.Failure

/-!
File patterns. In a part of a pattern, `*` stands for any run of bytes and `?` for one byte; the
part `**` stands for any number of directories. The parts before the first with a wildcard name the
directory in which files are looked for; a pattern without wildcards names one file, which must
exist.
-/

namespace IncrementalBuild.Workspace

/-- The bytes of a text. -/
def utf8 (s : String) : List UInt8 :=
  s.toList.flatMap String.utf8EncodeChar

/-- The byte that stands for any run of bytes. -/
def anyRun : UInt8 := 0x2A

/-- The byte that stands for any one byte. -/
def anyOne : UInt8 := 0x3F

/-- Whether a name is described by a part of a pattern. -/
def nameMatches : (part name : List UInt8) → Bool
  | [], [] => true
  | [], _ :: _ => false
  | p :: ps, [] => if p = anyRun then nameMatches ps [] else false
  | p :: ps, b :: bs =>
    if p = anyRun then nameMatches ps (b :: bs) || nameMatches (p :: ps) bs
    else if p = anyOne then nameMatches ps bs
    else p = b && nameMatches ps bs
termination_by part name => part.length + name.length

/-- The part that stands for any number of directories. -/
def anyDirectories : String := "**"

/-- Whether the names of a path are described by the parts of a pattern. -/
def pathMatches : (parts names : List String) → Bool
  | [], names => names.isEmpty
  | part :: parts, [] => if part = anyDirectories then pathMatches parts [] else false
  | part :: parts, name :: names =>
    if part = anyDirectories then
      pathMatches parts (name :: names) || pathMatches (part :: parts) names
    else nameMatches (utf8 part) (utf8 name) && pathMatches parts names
termination_by parts names => parts.length + names.length

/-- Whether a part of a pattern has a wildcard. -/
def hasWildcard (part : List Char) : Bool :=
  part.any fun c => c = '*' || c = '?'

/-- `p` seen from `base`. -/
def rooted (base : Path) (p : String) : Path :=
  base.join ⟨p⟩

/-- The files that are described by `parts` below a directory, in the order a walk finds them. A
walk that starts at a file finds the file itself. -/
def filesBelow (d : Disk) (directory : Path) (parts : List String) : Except Failure (List Path) :=
  match d.locate directory with
  | .error fault => .error (.walk directory fault)
  | .ok l =>
    match d.node? l with
    | none => .error (.walk directory .notFound)
    | some (.file _) => .ok (if pathMatches parts [] then [directory] else [])
    | some .directory => .ok <| (d.below l).filterMap fun (names, n) =>
      match n with
      | .directory => none
      | .file _ =>
        if pathMatches parts names then
          some (names.foldl (fun p n => p.join ⟨n⟩) directory)
        else none

/-- The files a pattern describes, seen from `base`. -/
def expandPattern (d : Disk) (base : Path) (pattern : String) : Except Failure (List Path) :=
  let slashed := pattern.toList.map fun c => if c = '\\' then '/' else c
  let parts := (Text.splitOn '/' slashed).filter fun part => part ≠ [] ∧ part ≠ ['.']
  let plain := parts.takeWhile fun part => !hasWildcard part
  let wild := parts.dropWhile fun part => !hasWildcard part
  if wild.isEmpty then
    let file := rooted base (String.ofList slashed)
    if d.isFile file then .ok [file] else .error (.fileNotFound file)
  else
    let start : Path := if slashed.head? = some '/' then ⟨"/"⟩ else base
    let directory := plain.foldl (fun p part => p.join ⟨String.ofList part⟩) start
    filesBelow d directory (wild.map String.ofList)

end IncrementalBuild.Workspace
