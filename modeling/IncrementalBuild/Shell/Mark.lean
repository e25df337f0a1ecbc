import IncrementalBuild.Text.Utf8

/-!
What words become when their parameters, scripts and expressions are replaced: characters that were
quoted or not, with marks for what characters do not show. Where words are split is told by the
spans that came from replacing something outside of quotes.
-/

namespace IncrementalBuild.Shell

open Text

/-- A piece of a word in which everything is replaced. -/
inductive Mark where
  | char (c : Char) (quoted : Bool)
  /-- Quotes start here, so that there is a field even if it has no characters. -/
  | anchor
  /-- An argument ends here and another one starts. -/
  | boundary
  /-- A span starts in which words are split, at boundaries only or also at separators. -/
  | opening (boundariesOnly : Bool)
  /-- A span in which words are split ends. -/
  | closing
  deriving DecidableEq, Repr, Inhabited

namespace Mark

/-- Characters that are all quoted, or none of which is. -/
def ofText (quoted : Bool) (cs : Raw) : List Mark :=
  cs.map (char · quoted)

/-- The characters of marks. -/
def text (marks : List Mark) : Raw :=
  marks.filterMap fun m =>
    match m with
    | char c _ => some c
    | _ => none

/-- Marks in a span of their own. -/
def span (boundariesOnly : Bool) (marks : List Mark) : List Mark :=
  opening boundariesOnly :: marks ++ [closing]

/-- The characters of a value's marks, where boundaries stand as characters of their own. -/
def characters (marks : List Mark) : Raw :=
  marks.map fun m =>
    match m with
    | char c _ => c
    | _ => '\x00'

/-- The pattern that marks stand for. A backslash stands before characters that were quoted, unless
one that was not quoted is there already. -/
def patternFrom (escaped : Bool) : List Mark → Raw
  | [] => []
  | char '\\' false :: ms => '\\' :: patternFrom true ms
  | char c true :: ms => (if escaped then [c] else ['\\', c]) ++ patternFrom false ms
  | char c false :: ms => c :: patternFrom false ms
  | boundary :: ms => '\x00' :: patternFrom false ms
  | anchor :: ms => patternFrom false ms
  | _ :: ms => patternFrom escaped ms

/-- The pattern that marks stand for. -/
def pattern (marks : List Mark) : Raw :=
  patternFrom false marks

end Mark

/-- How far a word has been split. -/
structure Splitting where
  /-- The fields that are complete, the last one first. -/
  fields : List (List Mark)
  /-- The field that is being read, its end first. -/
  current : List Mark
  /-- Whether separators are passed over until something else stands. -/
  passing : Bool
  /-- In a span, whether words are split only at boundaries. -/
  within : Option Bool
  /-- Whether the last span was one of boundaries only. -/
  behindBoundaries : Bool
  /-- How many fields there may be still. -/
  left : Option Nat
  /-- The last field without what it loses at its end if no other character of a span follows, its
  end first. -/
  trailing : Option (List Mark)
  deriving Inhabited

namespace Splitting

/-- A character of a span where no more than one field may follow. Blanks at the end are lost, and
so is one separator. -/
def takeLast (s : Splitting) (separates blank : Bool) (m : Mark) : Splitting :=
  let s := { s with current := m :: s.current }
  if blank then { s with trailing := s.trailing.or (some s.current.tail) }
  else
    let trailing := if separates && s.passing then s.trailing else none
    { s with trailing, passing := false }

/-- A separator in a span ends the field before it. Blanks at the start of a field end none. -/
def separate (s : Splitting) (blank : Bool) (m : Mark) : Splitting :=
  let counts := !(s.behindBoundaries || s.within = some true)
  let s := if counts then { s with passing := blank } else s
  if s.current.isEmpty && s.passing then { s with passing := false }
  else match s.left with
    | some 1 =>
      { s with left := some 0, current := m :: s.current, trailing := some s.current }
    | left =>
      { s with
        left := left.map (· - 1)
        fields := s.current.reverse :: s.fields
        current := [] }

/-- Takes a character of a span, which can be a separator. -/
def take (s : Splitting) (separates blank : Bool) (m : Mark) : Splitting :=
  if s.left = some 0 then s.takeLast separates blank m
  else if s.passing then
    if separates && blank then { s with current := [] }
    else if separates then { s with current := [], passing := false }
    else { s with current := [m], passing := false }
  else if separates then s.separate blank m
  else { s with current := m :: s.current, passing := false }

/-- Takes a mark. -/
def step (separators : Raw) (s : Splitting) : Mark → Splitting
  | .opening boundariesOnly =>
    { s with
      behindBoundaries := s.within.isNone && s.behindBoundaries
      within := some boundariesOnly
      passing := false }
  | .closing => { s with within := none, behindBoundaries := s.within = some true }
  | m =>
    match s.within, m with
    | some boundariesOnly, .char c _ =>
      let separates := !boundariesOnly && separators.contains c
      s.take separates (separates && " \t\n".toList.contains c) m
    | some _, .boundary => s.take true true m
    | some _, _ => s.take false false m
    | none, _ => { s with current := m :: s.current }

/-- The fields of a word that was split. -/
def result (s : Splitting) : List (List Mark) :=
  let last := (s.trailing.getD s.current).reverse
  let fields := s.fields.reverse
  if last.isEmpty && !(s.behindBoundaries) then fields else fields ++ [last]

end Splitting

/-- The fields of a word: it is split at the boundaries and separators in its spans. No more than
`limit` fields are made, if one is given. -/
def fieldsOf (separators : Raw) (limit : Option Nat) (marks : List Mark) : List (List Mark) :=
  (marks.foldl (Splitting.step separators) {
    fields := []
    current := []
    passing := false
    within := none
    behindBoundaries := false
    left := limit
    trailing := none }).result

end IncrementalBuild.Shell
