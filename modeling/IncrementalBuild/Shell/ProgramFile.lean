import IncrementalBuild.Shell.Session

/-!
Looking for what a name means. A name with a slash is the path of a program; any other can be a
function, a command of the shell, or a program in one of the directories of the search path, which
is remembered.
-/

namespace IncrementalBuild.Shell

open Text

/-- The files that a name without a slash may mean, in the order of the search path. -/
def candidates (searchPath : List Path) (name : String) : List Path :=
  searchPath.map fun p => p.join ⟨name⟩

/-- The file of a program that is called by its name alone, in the first directory that has one
which can be run. -/
def findProgram (d : Disk) (searchPath : List Path) (name : String) : Except Fault Path :=
  let present := (candidates searchPath name).filter d.present
  let runs (p : Path) : Bool := (d.locate p).toOption.any d.executableAt
  match present.find? runs, present with
  | some p, _ => .ok p
  | none, [] => .error .notFound
  | none, _ :: _ => .error .permissionDenied

/-- What a name means. -/
inductive Meaning where
  | function (body : Script)
  | special
  | ordinary
  | program (file : Path)
  | nothing (fault : Fault)
  deriving Inhabited

/-- What a name means in a search path, and whether functions count. -/
def meaningIn (s : Session) (functions : Bool) (searchPath : List Path) (name : String) : Meaning :=
  if name.toList.contains '/' then .program ⟨name⟩
  else match if functions then s.functions.lookup name else none with
    | some body => .function body
    | none =>
      if specialNames.contains name then .special
      else if ordinaryNames.contains name then .ordinary
      else match findProgram s.disk searchPath name with
        | .ok file => .program file
        | .error fault => .nothing fault

/-- What a name means. -/
def meaning (s : Session) (name : String) : Meaning :=
  meaningIn s true s.searchPath name

/-- Remembers where a program was found. -/
def Session.remember (s : Session) (name : String) (file : Path) : Session :=
  if name.toList.contains '/' then s
  else if (s.remembered.lookup name).isSome then s
  else { s with remembered := s.remembered ++ [(name, file)] }

/-- The search path that finds the programs of the system. -/
def standardPath : List Path :=
  ["/usr/local/sbin", "/usr/local/bin", "/usr/sbin", "/usr/bin", "/sbin", "/bin"].map Path.mk

/-- The place of a name among some number of groups that lists of names are shown in. -/
def groupOf (groups : Nat) (name : String) : Nat :=
  let bytes := (Raw.ofString name).map Char.toNat
  ((bytes.foldl (· + ·) (bytes.headD 0 * 16)) % 32768) % groups

/-- Names with what is known of them, group after group. -/
def grouped {α : Type} (groups : Nat) (rows : List (String × α)) : List (String × α) :=
  (List.range groups).flatMap fun g => rows.filter fun r => groupOf groups r.1 = g

end IncrementalBuild.Shell
