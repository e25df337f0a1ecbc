import IncrementalBuild.Shell.Script.Source

/-!
Words of scripts. Outside quotes, blanks and operators end a word; single quotes keep everything as
it is, double quotes all but the uses of parameters, the output of scripts and the values of
expressions, and a backslash the character after it. The operand of a parameter ends at its closing
brace, an expression at two closing parentheses, and a script where it ends as a script.
-/

namespace IncrementalBuild.Shell

open Reading Text

/-- Whether a character separates words. -/
def isGap (c : Char) : Bool :=
  c = ' ' || c = '\t'

/-- Whether a character ends an unquoted word. -/
def endsWord (c : Char) : Bool :=
  isGap c || "\n;&|<>()".toList.contains c

/-- The parameters that have a sign for a name. -/
def isSign (c : Char) : Bool :=
  "@*#?-$!".toList.contains c

/-- What a piece of a word stands in. `text` is the text in the script that it is part of, if it is
part of one. -/
inductive Place where
  | bare
  | quotes (text : Option Awaited)
  /-- The operand of a parameter. Quotes that stand in a quoted one are passed over, but braces
  between them do not end it. -/
  | braces (quoted passing : Bool) (text : Option Awaited)
  /-- An expression, inside so many parentheses of its own. -/
  | expression (depth : Nat) (text : Option Awaited)
  /-- A text in a script. -/
  | document (a : Awaited)
  deriving DecidableEq, Repr, Inhabited

namespace Place

/-- Whether what stands there is quoted. -/
def isQuoted : Place → Bool
  | bare => false
  | braces quoted _ _ => quoted
  | quotes _ | expression _ _ | document _ => true

/-- The text in a script that the place is part of. -/
def text? : Place → Option Awaited
  | bare => none
  | quotes text | braces _ _ text | expression _ text => text
  | document a => some a

/-- Whether the place is the operand of a parameter. -/
def inBraces : Place → Bool
  | braces _ _ _ => true
  | _ => false

/-- Why a place cannot end where the script, or the text it is part of, does. -/
def unfinished? : Place → Option String
  | bare | document _ => none
  | quotes text => some (if text.isNone then "Unterminated quoted string" else "Missing '\x7d'")
  | braces quoted _ text =>
    some (if quoted && text.isNone then "Unterminated quoted string" else "Missing '\x7d'")
  | expression _ _ => some "Missing '))'"

/-- Whether a backslash takes the meaning of a character away there. -/
def escapes (p : Place) (c : Char) : Bool :=
  !p.isQuoted || c = '\\' || c = '\x60' || c = '$' || (c = '"' && (p.text?.isNone || p.inBraces)) ||
    (c = '\x7d' && p.inBraces)

end Place

/-- Readers for scripts that stand in words: one that reads up to the closing parenthesis, and one
that reads a whole text. -/
structure Nested where
  enclosed : Reading Script
  whole : Reading Script

/-- The use of a parameter behind its name, and whether an operand follows. -/
def readUse : Reading (Use × Bool) := do
  let chosen (alsoEmpty : Bool) : Option Char → Option Use
    | some '-' => some (.orElse alsoEmpty)
    | some '=' => some (.orAssign alsoEmpty)
    | some '?' => some (.orFail alsoEmpty)
    | some '+' => some (.whereSet alsoEmpty)
    | _ => none
  match ← takeUncounted? with
  | some '\x7d' => return (.value, false)
  | some '%' => return (.withoutEnd (← takeChar '%'), true)
  | some '#' => return (.withoutStart (← takeChar '#'), true)
  | some ':' => return ((chosen true (← takeUncounted?)).getD .meaningless, true)
  | c => return ((chosen false c).getD .meaningless, true)

/-- The name of a parameter that starts with a character, which is not taken yet. -/
def readParameterName (first : Char) : Reading String := do
  let limit := (← get).rest.length
  let belongs := if startsName first then continuesName else Char.isDigit
  return String.ofList (← takeWhile belongs limit)

/-- The parameter that is counted behind a number sign, if one is. -/
def readCounted? : Reading (Option String) := do
  match ← peek? with
  | none => return none
  | some c =>
    if continuesName c then return some (← readParameterName c)
    else
      let s ← get
      let _ ← takeUncounted?
      if c ≠ '\x7d' && (← peek?) = some '\x7d' then return some (String.singleton c)
      else
        set s
        return none

/-- A parameter behind its opening brace: its name, its use, and whether an operand follows. -/
def readBraced : Reading (String × Use × Bool) := do
  match ← peek? with
  | none | some '\x7d' => return ("", .meaningless, true)
  | some c =>
    if continuesName c then
      let name ← readParameterName c
      return (name, ← readUse)
    else
      let _ ← takeUncounted?
      let counted ← if c = '#' then readCounted? else pure none
      match counted with
      | some name =>
        let valid := (name.toList.head?.any fun c => continuesName c || isSign c) &&
          (← peek?) = some '\x7d'
        return (name, if valid then .length else .meaningless, true)
      | none =>
        if isSign c then return (String.singleton c, ← readUse)
        else return ("", .meaningless, true)

/-- Whether the operand of a use is a pattern. -/
def Use.takesPattern : Use → Bool
  | withoutStart _ | withoutEnd _ => true
  | _ => false

/-- What a dollar sign starts, as a function of what follows it in the word; nothing if it stands
for itself. `operand` reads what stands in some place. -/
def readSubstitution? (nested : Nested) (operand : Place → Reading Word) (place : Place) :
    Reading (Option (Word → Word)) := do
  let quoted := place.isQuoted
  if (← get).plain then return none
  match ← peek? with
  | none => return none
  | some c =>
    if c = '(' then
      let _ ← take?
      if ← takeChar '(' then
        let expression ← operand (.expression 0 place.text?)
        return some (.number quoted expression)
      else
        let script ← nested.enclosed
        return some (.output quoted script)
    else if c = '\x7b' then
      let _ ← take?
      let (name, use, open_) ← readBraced
      let inner := Place.braces (quoted && !use.takesPattern) false place.text?
      let operand ← if open_ then operand inner else pure .done
      return some (.parameter quoted name use operand)
    else if startsName c then
      let name ← readParameterName c
      return some (.parameter quoted name .value .done)
    else if c.isDigit || isSign c then
      let _ ← take?
      return some (.parameter quoted (String.singleton c) .value .done)
    else return none

/-- The script between backquotes, behind the first of them. A backslash before some characters is
taken away. -/
def takeBackquoted (quoted : Bool) : (limit : Nat) → Reading Raw
  | 0 => refuse "EOF in backquote substitution"
  | limit + 1 => do
    match ← take? with
    | none => refuse "EOF in backquote substitution"
    | some '\x60' => return []
    | some '\\' =>
      match ← takeRaw? with
      | none => refuse "EOF in backquote substitution"
      | some c =>
        let rest ← takeBackquoted quoted limit
        if c = '\\' || c = '\x60' || c = '$' || (quoted && c = '"') then return c :: rest
        else return '\\' :: c :: rest
    | some c => return c :: (← takeBackquoted quoted limit)

/-- Double-quoted pieces of a word. They make a field, unless they are just all arguments. -/
def quotedWord : Word → Word
  | .parameter true "@" .value .done .done => allArguments
  | w => .text true [] w

/-- Takes what stands between single quotes in a text, behind the first of them. `limit` bounds its
length. -/
def takeQuotedLines (a : Awaited) : (limit : Nat) → Reading Raw
  | 0 => refuse "word too long"
  | limit + 1 => do
    match ← takeRaw? with
    | none => refuse "Missing '\x7d'"
    | some '\'' => return []
    | some c =>
      if c = '\n' && (← takeEnding a) then refuse "Missing '\x7d'"
      else return c :: (← takeQuotedLines a limit)

/-- Takes what stands between single quotes, behind the first of them. `limit` bounds its length in
a text. -/
def takeQuoted (limit : Nat) : Option Awaited → Reading Raw
  | some a => takeQuotedLines a limit
  | none => do
    match ← takeUntil '\'' with
    | (inner, true) => return inner
    | (_, false) => refuse "Unterminated quoted string"

/-- Reads what stands in some place, up to its end. `limit` bounds the number of pieces. -/
def readPieces (nested : Nested) : (limit : Nat) → Place → Reading Word
  | 0, _ => refuse "word too long"
  | limit + 1, place => do
    let quoted := place.isQuoted
    let literally (c : Char) : Reading Word := do
      return (← readPieces nested limit place).push quoted c
    let ending (last : Word) : Reading Word :=
      match place.unfinished? with
      | some reason => refuse reason
      | none => return last
    match ← peek? with
    | none => ending .done
    | some c =>
      if place = .bare && endsWord c then return .done
      let _ ← take?
      match c, place with
      | '"', .quotes _ => return .done
      | '"', .braces true passing text =>
        readPieces nested limit (.braces true (!passing) text)
      | '"', .bare | '"', .braces false _ _ =>
        let inner ← readPieces nested limit (.quotes place.text?)
        return (quotedWord inner).append (← readPieces nested limit place)
      | '\x7d', .braces _ false _ => return .done
      | '(', .expression depth text =>
        return (← readPieces nested limit (.expression (depth + 1) text)).push quoted c
      | ')', .expression (depth + 1) text =>
        return (← readPieces nested limit (.expression depth text)).push quoted c
      | ')', .expression 0 _ => if ← takeChar ')' then return .done else literally c
      | '\n', _ =>
        match place.text? with
        | some a => if ← takeEnding a then ending (.text true ['\n'] .done) else literally c
        | none => literally c
      | '\'', .bare | '\'', .braces false _ _ =>
        let inner ← takeQuoted limit place.text?
        return .text true inner (← readPieces nested limit place)
      | '\\', _ =>
        match ← takeRaw? with
        | none => return (← readPieces nested limit place).push true '\\'
        | some d =>
          let rest ← readPieces nested limit place
          if place.escapes d then return rest.push true d
          else return (rest.push true d).push true '\\'
      | '$', _ =>
        match ← readSubstitution? nested (readPieces nested limit) place with
        | none => literally c
        | some piece => return piece (← readPieces nested limit place)
      | '\x60', _ =>
        if (← get).plain then literally c
        else
          let text ← takeBackquoted quoted limit
          let script ← within text nested.whole
          return .output quoted script (← readPieces nested limit place)
      | _, _ => literally c

end IncrementalBuild.Shell
