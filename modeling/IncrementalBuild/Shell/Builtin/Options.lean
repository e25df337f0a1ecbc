import IncrementalBuild.Shell.Variable

/-!
Commands that a shell runs itself, and the options of their arguments. Options stand before the
other arguments, several of them in one argument if they like; one that takes a value has it behind
it or in the next argument.
-/

namespace IncrementalBuild.Shell

open Text

/-- What a command of the shell does with its arguments; the result is its exit status. -/
abbrev Builtin := List Raw → Step Nat

/-- The options a command knows, with the information whether they take a value. -/
abbrev KnownOptions := List (Char × Bool)

/-- An option that was given, with its value. -/
abbrev GivenOption := Char × Option Raw

/-- Reads the options in one argument; the second result is the other arguments. -/
def readLetters (known : KnownOptions) : (letters : Raw) → (others : List Raw) →
    Step (List GivenOption × List Raw)
  | [], others => return ([], others)
  | c :: cs, others => do
    match known.lookup c with
    | none => Step.fail ("Illegal option -".toList ++ [c])
    | some false =>
      let (given, others) ← readLetters known cs others
      return ((c, none) :: given, others)
    | some true =>
      if !cs.isEmpty then return ([(c, some cs)], others)
      else match others with
        | value :: others => return ([(c, some value)], others)
        | [] => Step.fail ("No arg for -".toList ++ c :: " option".toList)

/-- Reads the options that stand before the other arguments. `limit` bounds the number of arguments.
-/
def readOptions (known : KnownOptions) : (limit : Nat) → List Raw →
    Step (List GivenOption × List Raw)
  | 0, arguments => return ([], arguments)
  | limit + 1, arguments => do
    match arguments with
    | ['-', '-'] :: others => return ([], others)
    | ('-' :: c :: cs) :: others =>
      let (given, others) ← readLetters known (c :: cs) others
      let (more, others) ← readOptions known limit others
      return (given ++ more, others)
    | _ => return ([], arguments)

/-- The options and the other arguments of a command. -/
def optionsOf (known : KnownOptions) (arguments : List Raw) : Step (List GivenOption × List Raw) :=
  readOptions known arguments.length arguments

/-- The arguments of a command that knows no options. -/
def withoutOptions (arguments : List Raw) : Step (List Raw) := do
  return (← optionsOf [] arguments).2

/-- The number that an argument has to be. -/
def countArgument (cs : Raw) : Step Nat := do
  match count? cs with
  | some n => return n
  | none => Step.fail ("Illegal number: ".toList ++ cs)

/-- Writes to the error stream as it is. -/
def putError (text : Raw) : Step Unit :=
  modify fun s => s.write 2 text

end IncrementalBuild.Shell
