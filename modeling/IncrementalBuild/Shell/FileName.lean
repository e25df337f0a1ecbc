import IncrementalBuild.Disk.Basic
import IncrementalBuild.Shell.Mark
import IncrementalBuild.Shell.Pattern

/-!
Patterns as names of files. A pattern is followed from directory to directory: a part without
anything that stands for other characters is a name, and any other part stands for the names that
match it. A dot at the start of a name has to be written.
-/

namespace IncrementalBuild.Shell

open Text

/-- A pattern, cut behind the first of its parts that stands for other names. -/
structure FirstPart where
  /-- What stands before that part. -/
  before : Raw
  part : Raw
  /-- What follows the slash behind that part, if there is one. -/
  rest : Option Raw
  deriving Repr, Inhabited

/-- Whether an opening bracket is closed in the same part of a pattern, given what follows it.
`limit` bounds the number of characters. -/
def closesBracket : (limit : Nat) → Raw → Bool
  | 0, _ => false
  | limit + 1, cs =>
    let cs := match cs with
      | '\\' :: rest => rest
      | cs => cs
    match cs with
    | [] | '/' :: _ => false
    | _ :: ']' :: _ => true
    | _ :: rest => closesBracket limit rest

/-- Whether a part of a pattern goes on for the name it is, given what precedes and follows. `part`
holds what was read of the part, its end first; `stands` says whether it stands for other names.
`limit` bounds the number of characters. -/
def firstPartFrom : (limit : Nat) → (before part : Raw) → (stands : Bool) → Raw → Option FirstPart
  | 0, _, _, _, _ => none
  | _, before, part, stands, [] => if stands then some ⟨before, part.reverse, none⟩ else none
  | limit + 1, before, part, stands, '\\' :: '/' :: cs =>
    if stands then some ⟨before, part.reverse, some cs⟩
    else firstPartFrom limit (before ++ part.reverse ++ ['\\', '/']) [] false cs
  | limit + 1, before, part, stands, '\\' :: c :: cs =>
    firstPartFrom limit before (c :: '\\' :: part) stands cs
  | limit + 1, before, part, stands, '/' :: cs =>
    if stands then some ⟨before, part.reverse, some cs⟩
    else firstPartFrom limit (before ++ part.reverse ++ ['/']) [] false cs
  | limit + 1, before, part, stands, c :: cs =>
    let body := match cs with
      | '!' :: rest => rest
      | cs => cs
    let stands := stands || c = '*' || c = '?' ||
      (c = '[' && closesBracket (cs.length + 1) body)
    firstPartFrom limit before (c :: part) stands cs

/-- A text without the backslashes that take the meaning of characters away. -/
def withoutBackslashes : Raw → Raw
  | '\\' :: c :: cs => c :: withoutBackslashes cs
  | c :: cs => c :: withoutBackslashes cs
  | [] => []

/-- The names in a directory, with those that it and its own directory have there. -/
def namesIn (d : Disk) (directory : Raw) : List Raw :=
  let path : Path := ⟨if directory.isEmpty then "." else Raw.shown directory⟩
  match d.locate path with
  | .error _ => []
  | .ok l =>
    match d.node? l with
    | some .directory =>
      ['.'] :: ['.', '.'] :: (d.below l).filterMap fun (names, _) =>
        match names with
        | [name] => some (Raw.ofString name)
        | _ => none
    | _ => []

/-- The files that a pattern stands for behind a directory. `limit` bounds the number of parts. -/
def filesBehind (d : Disk) : (limit : Nat) → (directory pattern : Raw) → List Raw
  | 0, _, _ => []
  | limit + 1, directory, pattern =>
    match firstPartFrom (pattern.length + 1) [] [] false pattern with
    | none =>
      let path := directory ++ withoutBackslashes pattern
      if !directory.isEmpty && d.present ⟨Raw.shown path⟩ then [path] else []
    | some p =>
      let directory := directory ++ withoutBackslashes p.before
      let dotted := p.part.head? = some '.' || p.part.take 2 = ['\\', '.']
      let as := atoms p.part
      let names := (namesIn d directory).filter fun name =>
        (dotted || name.head? ≠ some '.') && atomsMatch as name
      match p.rest with
      | none => names.map (directory ++ ·)
      | some rest => names.flatMap fun name => filesBehind d limit (directory ++ name ++ ['/']) rest

/-- The names of files that a field stands for, in order, or its own text if there are none. -/
def filesMatching (d : Disk) (field : List Mark) : List Raw :=
  let text := Mark.text field
  if text.any fun c => c = '*' || c = '?' || c = '[' then
    let pattern := Mark.pattern field
    let files := filesBehind d (pattern.length + 1) [] pattern
    if files.isEmpty then [text] else files.mergeSort fun a b => !b.lex a fun x y => x.toNat < y.toNat
  else [text]

end IncrementalBuild.Shell
