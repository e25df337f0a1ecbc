import IncrementalBuild.Settings.Token

/-!
Conditions: the expressions that guard values. Parentheses are kept in the tree, so a condition can
be shown the way it was written.
-/

namespace IncrementalBuild.Settings

/-- A leaf of a condition. -/
inductive Literal where
  /-- A bare word. It names a key, or stands for itself where no such key exists. -/
  | reference (name : String)
  /-- A quoted string, in which references are substituted. -/
  | quoted (text : String)
  deriving DecidableEq, Repr, Inhabited

/-- A condition. -/
inductive Condition where
  | literal (l : Literal)
  | not (c : Condition)
  | and (l r : Condition)
  | or (l r : Condition)
  | compare (op : Comparison) (l r : Condition)
  | paren (c : Condition)
  deriving DecidableEq, Repr, Inhabited

/-- A literal as it is shown. -/
def Literal.text : Literal → String
  | reference name => name
  | quoted s => "\"" ++ s ++ "\""

/-- A condition as it is shown. -/
def Condition.text : Condition → String
  | literal l => l.text
  | not c => "not " ++ c.text
  | and l r => l.text ++ " and " ++ r.text
  | or l r => l.text ++ " or " ++ r.text
  | compare op l r => l.text ++ " " ++ op.text ++ " " ++ r.text
  | paren c => "(" ++ c.text ++ ")"

end IncrementalBuild.Settings
