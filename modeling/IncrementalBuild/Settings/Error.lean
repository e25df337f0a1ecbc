import IncrementalBuild.Path

/-!
What can be wrong with a description file, and where. A position counts lines from one, and columns
from one in characters; reading a character moves it, so the position after a text is the fold of
`Position.after` over it. An error holds its cause and the place it was found at; `Error.message` is
the only place where the wording is fixed.
-/

namespace IncrementalBuild.Settings

/-- A line and a column, both counted from one. -/
structure Position where
  line : Nat
  column : Nat
  deriving DecidableEq, Repr, Inhabited

namespace Position

/-- Where a text starts. -/
def start : Position := ⟨1, 1⟩

/-- The position after reading `c` at `p`: a line feed opens the next line. -/
def after (p : Position) (c : Char) : Position :=
  if c = '\n' then ⟨p.line + 1, 1⟩ else ⟨p.line, p.column + 1⟩

/-- The position after reading a whole text at `p`. -/
def afterAll (p : Position) (cs : List Char) : Position :=
  cs.foldl after p

end Position

/-- A position in a file. -/
structure Place where
  file : Path
  position : Position
  deriving Repr, Inhabited

namespace Place

instance : BEq Place where
  beq a b := a.file == b.file && a.position = b.position

/-- A place as messages show it: file, line and column with colons between. -/
def text (p : Place) : String :=
  p.file.text ++ ":" ++ toString p.position.line ++ ":" ++ toString p.position.column

end Place

/-- A fatal error of reading a description file. -/
inductive Error where
  /-- The file could not be read; `cause` is the system's reason. -/
  | unreadable (path : Path) (cause : String)
  /-- A character that starts no token. -/
  | unexpectedCharacter (place : Place) (c : Char)
  /-- A quoted string without its closing quote; the place is the opening quote. -/
  | unterminatedString (place : Place)
  /-- A group marker without its closing bracket; the place is the opening bracket. -/
  | unterminatedGroup (place : Place)
  /-- A token that does not fit the grammar where it stands. -/
  | unexpectedToken (place : Place) (found : String)
  /-- The text ends inside a statement or a block; the place is the last token's. -/
  | unexpectedEnd (place : Place)
  /-- A group marker inside a conditional block. -/
  | nestedGroup (place : Place)
  /-- A comparison of a comparison; the place is the second operator. -/
  | chainedComparison (place : Place)
  /-- A value or string with a `$(` that nothing closes. -/
  | unterminatedReference (place : Place) (value : String)
  /-- The same in a value that was set from outside. -/
  | unterminatedSetting (group key value : String)
  deriving Repr, Inhabited

/-- The wording of an error. -/
def Error.message : Error → String
  | unreadable path cause => "failed to read " ++ path.text ++ ": " ++ cause
  | unexpectedCharacter place c =>
    place.text ++ ": unexpected character '" ++ c.toString ++ "'"
  | unterminatedString place => place.text ++ ": unterminated string"
  | unterminatedGroup place => place.text ++ ": unterminated group name"
  | unexpectedToken place found => place.text ++ ": unexpected token '" ++ found ++ "'"
  | unexpectedEnd place => place.text ++ ": unexpected end of input"
  | nestedGroup place => place.text ++ ": groups cannot be nested inside conditionals"
  | chainedComparison place => place.text ++ ": comparison operators cannot be chained"
  | unterminatedReference place value =>
    place.text ++ ": unterminated \x60$(\x60 substitution in '" ++ value ++ "'"
  | unterminatedSetting group key value =>
    "unterminated \x60$(\x60 substitution in injected value " ++ group ++ "." ++ key ++
      " = '" ++ value ++ "'"

end IncrementalBuild.Settings
