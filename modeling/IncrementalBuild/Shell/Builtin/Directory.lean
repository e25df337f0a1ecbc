import IncrementalBuild.Shell.Builtin.Options

/-!
Commands on the working directory. A shell remembers how it went there, so that going back up is
going back the way it came.
-/

namespace IncrementalBuild.Shell

open Text

/-- The names on the way to a directory from another one, where a name and two dots behind it say
nothing. `way` holds the names so far, the last one first. -/
def followNames (way : List Raw) : List Raw → List Raw
  | [] => way
  | name :: names =>
    if name.isEmpty || name = ['.'] then followNames way names
    else if name = ['.', '.'] then followNames way.tail names
    else followNames (name :: way) names

/-- The way to a directory, from the one that was gone to before. Two slashes at the start are
kept. -/
def wayTo (start : Raw) (directory : Raw) : Raw :=
  let absolute := directory.head? = some '/'
  let doubled (cs : Raw) : Bool := cs.take 2 = ['/', '/'] && cs[2]? ≠ some '/'
  let root : Raw := if doubled (if absolute then directory else start) then ['/', '/'] else ['/']
  let way := if absolute then [] else followNames [] (splitOn '/' start)
  root ++ (['/'].intercalate (followNames way (splitOn '/' directory)).reverse)

/-- Goes to a directory, and says whether that is possible. -/
def goTo (physical : Bool) (directory : Raw) : Step Bool := do
  let s ← get
  let way := wayTo s.directory directory
  let target : Path := ⟨Raw.shown (if physical then directory else way)⟩
  match s.disk.locate target with
  | .error _ => return false
  | .ok l =>
    match s.disk.node? l with
    | some .directory =>
      let disk := { s.disk with workingDirectory := l }
      let there := if physical then Raw.ofString disk.workingPath.text else way
      Step.assign "OLDPWD" (some s.directory) true false
      modify fun s => { s with disk, directory := there }
      Step.assign "PWD" (some there) true false
      return true
    | _ => return false

/-- Whether a directory is looked for from the working directory only. -/
def isPlainDirectory (directory : Raw) : Bool :=
  directory.isEmpty || directory.head? = some '/' || directory = ['.'] || directory = ['.', '.'] ||
    directory.take 2 = ['.', '/'] || directory.take 3 = ['.', '.', '/']

/-- The directory in one of those that `CDPATH` lists, and whether it is shown. -/
def listedDirectory? (s : Session) (directory : Raw) : Option (Raw × Bool) :=
  if isPlainDirectory directory then none
  else
    (splitOn ':' ((s.value? "CDPATH").getD [])).findSome? fun start =>
      let path := if start.isEmpty then directory else start ++ '/' :: directory
      if (s.value? "CDPATH").isSome && s.disk.isDirectory ⟨Raw.shown path⟩ then
        some (path, !start.isEmpty)
      else none

/-- Whether the last of some options asks for the directory itself instead of the way there. -/
def asksPhysical (given : List GivenOption) : Bool :=
  (given.getLast?.map Prod.fst) = some 'P'

/-- `cd`: another working directory. Without one it is that of the user, if there is one, and `-`
stands for the one before, which is shown. -/
def changeDirectory : Builtin := fun arguments => do
  let (given, others) ← optionsOf [('L', false), ('P', false)] arguments
  let s ← get
  let back := others.head? = some ['-']
  let directory := match others with
    | [] => (s.value? "HOME").getD []
    | d :: _ => if back then (s.value? "OLDPWD").getD [] else d
  let (target, listed) := (listedDirectory? s directory).getD
    (if directory.isEmpty then ['.'] else directory, false)
  if ← goTo (asksPhysical given) target then
    if back || listed then Step.print ((← get).directory ++ ['\n'])
    return 0
  else Step.fail ("can't cd to ".toList ++ directory)

/-- `pwd`: the working directory. -/
def showDirectory : Builtin := fun arguments => do
  let (given, _) ← optionsOf [('L', false), ('P', false)] arguments
  let s ← get
  let directory := if asksPhysical given then Raw.ofString s.disk.workingPath.text else s.directory
  Step.print (directory ++ ['\n'])
  return 0

end IncrementalBuild.Shell
