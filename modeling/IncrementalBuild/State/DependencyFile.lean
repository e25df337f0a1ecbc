import IncrementalBuild.Failure
import IncrementalBuild.Text.Blank

/-!
Dependency files, as compilers write them beside objects: a target, a colon, and the files it
depends on. A backslash joins lines, and one before a space makes the space part of a name. Lines
that name a target alone contribute nothing.
-/

namespace IncrementalBuild.State

/-- Replaces every occurrence of a piece of text by a space. -/
def joinAt (piece : List Char) (cs : List Char) : List Char :=
  match _h : Text.splitAtPiece piece cs with
  | none => cs
  | some (before, after) =>
    if piece.isEmpty then cs else before ++ ' ' :: joinAt piece after
termination_by cs.length
decreasing_by
  rename_i hpiece
  have := Text.eq_of_splitAtPiece (by assumption)
  cases piece <;> simp_all
  omega

/-- What follows the target of a line: the text behind the first colon that stands before no
slash and no backslash, or the whole line if there is none. -/
def afterTarget? : List Char → Option (List Char)
  | [] => none
  | ':' :: c :: cs => if c = '\\' || c = '/' then afterTarget? (c :: cs) else some (c :: cs)
  | [':'] => some []
  | _ :: cs => afterTarget? cs

/-- The names in a text, cut at blanks that no backslash stands before; `name` is the one being
read, reversed. -/
def namesFrom (name : List Char) : List Char → List (List Char)
  | [] => if name.isEmpty then [] else [name.reverse]
  | '\\' :: ' ' :: cs => namesFrom (' ' :: name) cs
  | c :: cs =>
    if Text.isBlank c then
      if name.isEmpty then namesFrom [] cs else name.reverse :: namesFrom [] cs
    else namesFrom (c :: name) cs

/-- The names of the dependencies in a line. -/
def lineNames (line : List Char) : List (List Char) :=
  let line := Text.trim line
  namesFrom [] ((afterTarget? line).getD line)

/-- A list of paths without those that are earlier in it, in any spelling. -/
def distinct (ps : List Path) : List Path :=
  ps.foldl (fun kept p => if kept.any fun q => q == p then kept else kept ++ [p]) []

/-- The dependencies a text lists. -/
def dependenciesOf (text : String) : List Path :=
  let joined := joinAt ['\\', '\n'] (joinAt ['\\', '\r', '\n'] text.toList)
  distinct <| ((Text.lines joined).flatMap lineNames).map fun n => ⟨String.ofList n⟩

/-- The dependencies a file lists. -/
def readDependencies (d : Disk) (p : Path) : Except Failure (List Path) :=
  match d.readText p with
  | .ok text => .ok (dependenciesOf text)
  | .error fault => .error (.readDependencyFile p fault)

end IncrementalBuild.State
