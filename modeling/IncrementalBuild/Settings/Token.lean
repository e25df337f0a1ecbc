import IncrementalBuild.Settings.Error

/-!
The tokens of description files. Line ends carry no meaning, except that an unquoted value after
`=` runs to the end of its line.
-/

namespace IncrementalBuild.Settings

/-- A comparison operator. The four orders compare numbers, equality compares text. -/
inductive Comparison where
  | less
  | lessEqual
  | greater
  | greaterEqual
  | equal
  | notEqual
  deriving DecidableEq, Repr, Inhabited

/-- A comparison operator as it is written. -/
def Comparison.text : Comparison → String
  | less => "<"
  | lessEqual => "<="
  | greater => ">"
  | greaterEqual => ">="
  | equal => "=="
  | notEqual => "!="

/-- What can be read from a description file. -/
inductive Token where
  /-- A group marker, brackets stripped. -/
  | group (name : String)
  /-- A bare word: the name of a key, or a reference in a condition. -/
  | word (text : String)
  /-- A quoted string, with its escapes applied. -/
  | quoted (text : String)
  /-- An unquoted value, trimmed. -/
  | value (text : String)
  | ifWord
  | elseWord
  | andOp
  | orOp
  | notOp
  | assign
  | comparison (op : Comparison)
  | openParen
  | closeParen
  | openBrace
  | closeBrace
  deriving DecidableEq, Repr, Inhabited

namespace Token

/-- A token as messages show it. -/
def text : Token → String
  | group name => "[" ++ name ++ "]"
  | word s => s
  | quoted s => "\"" ++ s ++ "\""
  | value s => s
  | ifWord => "if"
  | elseWord => "else"
  | andOp => "and"
  | orOp => "or"
  | notOp => "not"
  | assign => "="
  | comparison op => op.text
  | openParen => "("
  | closeParen => ")"
  | openBrace => "\x7b"
  | closeBrace => "\x7d"

/-- The token a bare word stands for: five words are keywords. -/
def ofWord (s : String) : Token :=
  if s = "if" then ifWord
  else if s = "else" then elseWord
  else if s = "and" then andOp
  else if s = "or" then orOp
  else if s = "not" then notOp
  else word s

end Token

/-- A token and the place where its text begins. -/
structure Placed where
  token : Token
  place : Place
  deriving Repr, Inhabited

end IncrementalBuild.Settings
