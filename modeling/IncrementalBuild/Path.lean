import IncrementalBuild.Text.Split

/-!
Paths of files. A path keeps the spelling it was written with, and two spellings name the same
place when their components agree: repeated separators, inner `.` components and a trailing
separator carry no meaning, while a leading `.` and every `..` do.
-/

namespace IncrementalBuild

/-- One step of a path. -/
inductive Component where
  /-- The root directory, at the start of an absolute path. -/
  | root
  /-- A `.` at the start of a relative path. -/
  | current
  /-- A `..` at any place. -/
  | parent
  /-- An ordinary name. -/
  | name (text : String)
  deriving DecidableEq, Repr, Inhabited

namespace Component

/-- The place of a component's kind in the order: root, current, parent, names. -/
def rank : Component → Nat
  | root => 0
  | current => 1
  | parent => 2
  | name _ => 3

/-- Components are ordered by kind, and names by their characters. -/
def order : Component → Component → Ordering
  | name a, name b => compare a b
  | a, b => compare a.rank b.rank

/-- A component as it is written. -/
def text : Component → String
  | root => "/"
  | current => "."
  | parent => ".."
  | name s => s

end Component

/-- A path as it was written. -/
structure Path where
  text : String
  deriving Repr, Inhabited

namespace Path

/-- The component a piece between separators stands for, past the start of a path. -/
def component? (piece : List Char) : Option Component :=
  if piece = [] || piece = ['.'] then none
  else if piece = ['.', '.'] then some .parent
  else some (.name (String.ofList piece))

/-- The components of a path, from the root down. -/
def components (p : Path) : List Component :=
  match p.text.toList with
  | '/' :: body => .root :: (Text.splitOn '/' body).filterMap component?
  | cs =>
    let pieces := Text.splitOn '/' cs
    let inner := pieces.filterMap component?
    if pieces.head? = some ['.'] then .current :: inner else inner

instance : BEq Path where
  beq p q := p.components = q.components

/-- Lexicographic order of component lists. -/
def orderComponents : List Component → List Component → Ordering
  | [], [] => .eq
  | [], _ :: _ => .lt
  | _ :: _, [] => .gt
  | a :: as, b :: bs => (a.order b).then (orderComponents as bs)

/-- Paths are ordered by their components, from the root down. -/
def order (p q : Path) : Ordering :=
  orderComponents p.components q.components

/-- Whether the path starts at the root. -/
def isAbsolute (p : Path) : Bool :=
  p.text.toList.head? = some '/'

/-- `q` seen from the directory `p`: `q` itself when it is absolute, and otherwise its text after
`p`'s, with one separator between them unless `p` is empty or ends with one. -/
def join (p q : Path) : Path :=
  if q.isAbsolute then q
  else if p.text.toList.isEmpty || p.text.toList.getLast? = some '/' then ⟨p.text ++ q.text⟩
  else ⟨p.text ++ "/" ++ q.text⟩

/-- The path spelled by a list of components. -/
def ofComponents (cs : List Component) : Path :=
  cs.foldl (fun p c => p.join ⟨c.text⟩) ⟨""⟩

/-- The pieces of a path between separators, last first, after the root of an absolute path. -/
def piecesReversed (p : Path) : List (List Char) :=
  match p.text.toList with
  | '/' :: body => (Text.splitOn '/' body).reverse
  | cs => (Text.splitOn '/' cs).reverse

/-- The pieces of a path, last first, without those at the end that name no component. A piece that
is the only one left of a relative path is its start, where a `.` does count. -/
def dropIdle (absolute : Bool) : List (List Char) → List (List Char)
  | [] => []
  | [piece] => if piece = [] || (absolute && piece = ['.']) then [] else [piece]
  | piece :: rest =>
    if piece = [] || piece = ['.'] then dropIdle absolute rest else piece :: rest

/-- The path written by pieces in reverse order. -/
def ofReversed (absolute : Bool) (pieces : List (List Char)) : Path :=
  let body := List.intercalate ['/'] pieces.reverse
  ⟨String.ofList (if absolute then '/' :: body else body)⟩

/-- The directory that holds the last component. The root and the empty path have none. -/
def parent? (p : Path) : Option Path :=
  match dropIdle p.isAbsolute p.piecesReversed with
  | [] => none
  | _ :: rest => some (ofReversed p.isAbsolute (dropIdle p.isAbsolute rest))

/-- The last component, if it is an ordinary name. -/
def fileName? (p : Path) : Option String :=
  match p.components.getLast? with
  | some (.name s) => some s
  | _ => none

/-- A file name cut at its last dot; a dot at the start cuts nothing. -/
def cutExtension (fileName : List Char) : List Char × Option (List Char) :=
  match Text.splitLast '.' fileName with
  | some (stem, extension) => if stem.isEmpty then (fileName, none) else (stem, some extension)
  | none => (fileName, none)

/-- What follows the last dot of the file name. -/
def extension? (p : Path) : Option String :=
  p.fileName?.bind fun n => (cutExtension n.toList).2.map String.ofList

/-- The path with another extension behind the stem of its file name, or with none if `extension` is
empty. A path without a file name stays as it is. -/
def setExtension (p : Path) (extension : String) : Path :=
  match p.fileName? with
  | none => p
  | some n =>
    let stem := (cutExtension n.toList).1
    let file := if extension.isEmpty then stem else stem ++ '.' :: extension.toList
    match dropIdle p.isAbsolute p.piecesReversed with
    | [] => p
    | _ :: rest => ofReversed p.isAbsolute (file :: rest)

/-- The path with another extension, or with none if `extension` is empty. The old one is cut off
first, as many characters from the end as it has; what that leaves as `..` is no file name. -/
def withExtension (p : Path) (extension : String) : Path :=
  let cut := match p.extension? with
    | none => p
    | some old => ⟨String.ofList (p.text.toList.take (p.text.length - old.length))⟩
  cut.setExtension extension

/-- A path and the directories that hold it, from the inside out, up to the root or the start of a
relative path, neither of which is among them. `limit` bounds their number. -/
def ancestorsWithin : (limit : Nat) → Path → List Path
  | 0, _ => []
  | limit + 1, p =>
    match p.parent? with
    | none => []
    | some q => p :: ancestorsWithin limit q

/-- A path and the directories that hold it, from the inside out, up to the root or the start of a
relative path, neither of which is among them. -/
def ancestors (p : Path) : List Path :=
  ancestorsWithin p.piecesReversed.length p

/-- The list after `initial`, if it starts with it. -/
def dropInitial? : (initial cs : List Component) → Option (List Component)
  | [], cs => some cs
  | _ :: _, [] => none
  | a :: as, b :: bs => if a = b then dropInitial? as bs else none

/-- The part of `p` below `base`, if `p` starts with all components of `base`. -/
def relativeTo? (p base : Path) : Option Path :=
  (dropInitial? base.components p.components).map ofComponents

end Path

end IncrementalBuild
