import IncrementalBuild.Text.Utf8

/-!
What a shell is told to do. A script is the tree of its commands; the words of a command are kept as
they were written, since what they stand for is known only when the command is run. Scripts that
stand in words are read together with them.
-/

namespace IncrementalBuild.Shell

/-- Whether a name can start with a character. -/
def startsName (c : Char) : Bool :=
  c.isAlpha || c = '_'

/-- Whether a name can go on with a character. -/
def continuesName (c : Char) : Bool :=
  c.isAlphanum || c = '_'

/-- Whether a text is the name of a variable. -/
def isName (cs : Text.Raw) : Bool :=
  cs.head?.any startsName && cs.all continuesName

/-- The commands of a shell that end it where they go wrong, and whose names no function can
have. -/
def specialNames : List String :=
  [".", ":", "break", "continue", "eval", "exec", "exit", "export", "local", "readonly", "return",
    "set", "shift", "times", "trap", "unset"]

/-- The other commands that a shell runs itself. -/
def ordinaryNames : List String :=
  ["[", "alias", "bg", "cd", "chdir", "command", "echo", "false", "fg", "getopts", "hash", "jobs",
    "kill", "printf", "pwd", "read", "test", "true", "type", "ulimit", "umask", "unalias", "wait"]

/-- What the use of a parameter stands for. -/
inductive Use where
  | value
  /-- The number of bytes in the value. -/
  | length
  /-- The value, or the operand where the parameter is unset (or empty). -/
  | orElse (alsoEmpty : Bool)
  /-- Like `orElse`, and the parameter keeps the operand as its value. -/
  | orAssign (alsoEmpty : Bool)
  /-- The value; where the parameter is unset (or empty), the operand is the complaint that ends the
  shell. -/
  | orFail (alsoEmpty : Bool)
  /-- The operand where the parameter is set (and not empty), and nothing otherwise. -/
  | whereSet (alsoEmpty : Bool)
  /-- The value without the shortest or longest start that the operand matches. -/
  | withoutStart (longest : Bool)
  /-- The value without the shortest or longest end that the operand matches. -/
  | withoutEnd (longest : Bool)
  /-- A use that means nothing. -/
  | meaningless
  deriving DecidableEq, Repr, Inhabited

/-- What is done with a file that a stream is led to. -/
inductive Access where
  | read
  /-- The file is made, or emptied unless files are protected. -/
  | write
  /-- The file is made or emptied, even if files are protected. -/
  | overwrite
  /-- What is written goes behind what is there. -/
  | append
  /-- The file is made if it is missing, read, and written over. -/
  | update
  deriving DecidableEq, Repr, Inhabited

mutual

/-- A word of a command: pieces of text, uses of parameters, the output of scripts and the values of
expressions, quoted or not. -/
inductive Word where
  | done
  /-- A piece of text. One that is quoted makes a field even if it has no characters. -/
  | text (quoted : Bool) (chars : Text.Raw) (rest : Word)
  | parameter (quoted : Bool) (name : String) (use : Use) (operand rest : Word)
  | output (quoted : Bool) (script : Script) (rest : Word)
  | number (quoted : Bool) (expression rest : Word)

/-- A stream of a command that is read from or written to somewhere else. -/
inductive Redirection where
  | file (stream : Nat) (access : Access) (target : Word)
  /-- The target is the number of a stream to share. -/
  | share (stream : Nat) (target : Word)
  /-- What is read is a text of the script. -/
  | document (stream : Nat) (text : Word)

/-- The commands of a script. -/
inductive Script where
  /-- Assignments, words and redirections of a command, with the line it stands on. -/
  | simple (line : Nat) (assignments : List (String × Word)) (words : List Word)
    (redirections : List Redirection)
  | redirected (line : Nat) (body : Script) (redirections : List Redirection)
  | sequence (parts : List Script)
  /-- A script that nobody waits for. -/
  | background (line : Nat) (body : Script)
  /-- The second where the first succeeds. -/
  | both (first second : Script)
  /-- The second where the first fails. -/
  | either (first second : Script)
  | negated (body : Script)
  /-- Each part reads what the part before it writes. -/
  | pipe (parts : List Script)
  /-- A script that leaves variables and the working directory as they were. -/
  | subshell (line : Nat) (body : Script) (redirections : List Redirection)
  | choice (test yes no : Script)
  /-- The body again and again, as long as the test succeeds, or until it does. -/
  | loop (untilSuccess : Bool) (test body : Script)
  /-- The body for each value. -/
  | each (line : Nat) (name : String) (words : List Word) (body : Script)
  /-- The first body with a pattern that the subject matches. -/
  | matching (line : Nat) (subject : Word) (clauses : List (List Word × Script))
  /-- A name for a script. -/
  | define (name : String) (body : Script)

end

instance : Inhabited Word := ⟨.done⟩

namespace Script

/-- The script that does nothing. -/
def nothing : Script := .sequence []

instance : Inhabited Script := ⟨nothing⟩

/-- Whether a script is the one that does nothing. -/
def isNothing : Script → Bool
  | sequence [] => true
  | _ => false

/-- The script of some parts one after another. -/
def ofParts : List Script → Script
  | [part] => part
  | parts => .sequence parts

end Script

namespace Word

/-- A word followed by another without a gap. -/
def append : Word → Word → Word
  | done, w => w
  | text quoted chars rest, w => .text quoted chars (rest.append w)
  | parameter quoted name use operand rest, w => .parameter quoted name use operand (rest.append w)
  | output quoted script rest, w => .output quoted script (rest.append w)
  | number quoted expression rest, w => .number quoted expression (rest.append w)

/-- A character before a word. -/
def push (quoted : Bool) (c : Char) : Word → Word
  | .text q cs rest =>
    if q = quoted then .text q (c :: cs) rest else .text quoted [c] (.text q cs rest)
  | w => .text quoted [c] w

/-- The text of a word in which nothing is quoted and nothing is replaced. -/
def bare? : Word → Option Text.Raw
  | .text false cs .done => some cs
  | _ => none

/-- All text of a word, quoted or not. -/
def literal : Word → Text.Raw
  | done => []
  | text _ chars rest => chars ++ rest.literal
  | parameter _ _ _ _ rest => rest.literal
  | output _ _ rest => rest.literal
  | number _ _ rest => rest.literal

/-- Whether a part of a word is quoted. -/
def hasQuotes : Word → Bool
  | done => false
  | text quoted _ rest => quoted || rest.hasQuotes
  | parameter _ _ _ _ rest => rest.hasQuotes
  | output _ _ rest => rest.hasQuotes
  | number _ _ rest => rest.hasQuotes

/-- The name and the value of a word that is an assignment. -/
def assignment? : Word → Option (String × Word)
  | .text false cs rest =>
    let name := cs.takeWhile continuesName
    match cs.drop name.length with
    | '=' :: value =>
      if isName name then
        some (String.ofList name, if value.isEmpty then rest else .text false value rest)
      else none
    | _ => none
  | _ => none

end Word

/-- The word for all arguments of a script, each of which stays one field. -/
def allArguments : Word :=
  .parameter true "@" .value .done .done

end IncrementalBuild.Shell
