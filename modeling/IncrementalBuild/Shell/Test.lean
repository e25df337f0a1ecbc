import IncrementalBuild.Disk.Basic
import IncrementalBuild.Shell.Number

/-!
The conditions of `test` and `[`. Whether an argument is an operator or an operand can depend on the
number of arguments behind it, and, where there are three, on the one in the middle.
-/

namespace IncrementalBuild.Shell

open Text

/-- What an argument of a condition is. -/
inductive TestWord where
  | ending
  | operand
  | unary (operator : String)
  | binary (operator : String)
  | and
  | or
  | not
  | opening
  | closing
  deriving DecidableEq, Repr, Inhabited

namespace TestWord

/-- The operators before one operand. -/
def unaryOperators : List String :=
  ["-n", "-z", "-e", "-f", "-d", "-r", "-w", "-x", "-s", "-h", "-L", "-t", "-p", "-S", "-b", "-c",
    "-u", "-g", "-k", "-O", "-G"]

/-- The operators between two operands. -/
def binaryOperators : List String :=
  ["=", "!=", "<", ">", "-eq", "-ne", "-lt", "-le", "-gt", "-ge", "-nt", "-ot", "-ef"]

/-- The operator an argument looks like. -/
def operator? (word : Raw) : Option TestWord :=
  match Raw.shown word with
  | "-a" => some and
  | "-o" => some or
  | "!" => some not
  | "(" => some opening
  | ")" => some closing
  | text =>
    if unaryOperators.contains text then some (unary text)
    else if binaryOperators.contains text then some (binary text)
    else none

/-- Whether an argument looks like an operator between two operands. -/
def isBinary (word : Raw) : Bool :=
  match operator? word with
  | some (binary _) => true
  | _ => false

/-- What the first of some arguments is. An operator before one operand is an operand itself if
nothing or an operator between two operands follows it. -/
def first : List Raw → TestWord
  | [] => ending
  | word :: rest =>
    match operator? word, rest with
    | some (unary text), next :: _ :: _ => if isBinary next then operand else unary text
    | some (unary _), [] | some opening, [] | none, _ => operand
    | some w, _ => w

end TestWord

/-- The files that every system has and that are no places on its disks. -/
def deviceFiles : List String :=
  ["/dev/null", "/dev/zero", "/dev/full", "/dev/random", "/dev/urandom", "/dev/tty"]

/-- The number an operand stands for. -/
def numberOperand (cs : Raw) : Except Raw Int :=
  match integer? false cs with
  | some n => .ok n
  | none => .error ("Illegal number: ".toList ++ cs)

/-- What an operator before one operand says of it. No stream leads to a terminal. -/
def unaryTest (d : Disk) (operator : String) (operand : Raw) : Except Raw Bool :=
  let path : Path := ⟨Raw.shown operand⟩
  let device := deviceFiles.contains path.text
  match operator with
  | "-n" => .ok (!operand.isEmpty)
  | "-z" => .ok operand.isEmpty
  | "-t" => (numberOperand operand).map fun _ => false
  | "-e" | "-r" | "-w" | "-O" | "-G" => .ok (device || d.present path)
  | "-c" => .ok device
  | "-f" => .ok (d.isFile path)
  | "-d" => .ok (d.isDirectory path)
  | "-x" => .ok (d.isDirectory path || ((d.locate path).toOption.any d.executableAt))
  | "-s" => .ok (((d.metadata? path).map Prod.snd).any (0 < ·))
  | _ => .ok false

/-- Whether the file of one operand was written later than that of another. -/
def writtenLater (d : Disk) (left right : Raw) : Bool :=
  match d.metadata? ⟨Raw.shown left⟩, d.metadata? ⟨Raw.shown right⟩ with
  | some (l, _), some (r, _) => r < l
  | _, _ => false

/-- What an operator between two operands says of them. -/
def binaryTest (d : Disk) (operator : String) (left right : Raw) : Except Raw Bool :=
  let numbers (holds : Int → Int → Bool) : Except Raw Bool := do
    return holds (← numberOperand left) (← numberOperand right)
  match operator with
  | "=" => .ok (left = right)
  | "!=" => .ok (left ≠ right)
  | "<" => .ok (left < right)
  | ">" => .ok (right < left)
  | "-eq" => numbers (· = ·)
  | "-ne" => numbers (· ≠ ·)
  | "-lt" => numbers (· < ·)
  | "-le" => numbers (· ≤ ·)
  | "-gt" => numbers (· > ·)
  | "-ge" => numbers (· ≥ ·)
  | "-nt" => .ok (writtenLater d left right)
  | "-ot" => .ok (writtenLater d right left)
  | _ => .ok (d.present ⟨Raw.shown left⟩ &&
      (d.locate ⟨Raw.shown left⟩).toOption = (d.locate ⟨Raw.shown right⟩).toOption)

/-- Reads a condition from arguments. What is read stays in front until something follows it. -/
abbrev TestReading (α : Type) := StateT (List Raw) (Except Raw) α

mutual

/-- Reads conditions of which one has to hold. `limit` bounds the number of arguments. -/
def readOr (d : Disk) : (limit : Nat) → TestReading Bool
  | 0 => return false
  | limit + 1 => do
    let holds ← readAnd d limit
    let words ← get
    if TestWord.first words.tail = .or then
      set (words.drop 2)
      let other ← readOr d limit
      return holds || other
    else return holds

/-- Reads conditions all of which have to hold. -/
def readAnd (d : Disk) : (limit : Nat) → TestReading Bool
  | 0 => return false
  | limit + 1 => do
    let holds ← readNot d limit
    let words ← get
    if TestWord.first words.tail = .and then
      set (words.drop 2)
      let other ← readAnd d limit
      return holds && other
    else return holds

/-- Reads a condition, possibly negated. -/
def readNot (d : Disk) : (limit : Nat) → TestReading Bool
  | 0 => return false
  | limit + 1 => do
    let words ← get
    if TestWord.first words = .not then
      set words.tail
      return !(← readNot d limit)
    else readPrimary d limit

/-- Reads a condition without operators around it. -/
def readPrimary (d : Disk) : (limit : Nat) → TestReading Bool
  | 0 => return false
  | limit + 1 => do
    let words ← get
    match TestWord.first words with
    | .ending => return false
    | .opening =>
      set words.tail
      if TestWord.first words.tail = .closing then return false
      let holds ← readOr d limit
      let inner ← get
      set inner.tail
      if TestWord.first inner.tail = .closing then return holds
      else throw "closing paren expected".toList
    | .unary operator =>
      match words.tail with
      | [] => throw (operator ++ ": argument expected").toList
      | operand :: rest =>
        set (operand :: rest)
        unaryTest d operator operand
    | _ =>
      match words, TestWord.first words.tail with
      | left :: _ :: rest, .binary operator =>
        match rest with
        | [] => throw (operator ++ ": argument expected").toList
        | right :: rest =>
          set (right :: rest)
          binaryTest d operator left right
      | word :: _, _ => return !word.isEmpty
      | [], _ => return false

end

/-- Reads the condition that all arguments describe. -/
def readWhole (d : Disk) (words : List Raw) : Except Raw Bool := do
  let (holds, rest) ← (readOr d (4 * words.length + 4)).run words
  match rest with
  | word :: _ :: _ =>
    throw ((if word.isEmpty then [] else word ++ [':', ' ']) ++ "unexpected operator".toList)
  | _ => return holds

/-- The condition of three arguments, if the one in the middle is an operator between two operands.
-/
def middleTest? (d : Disk) (left : Raw) : List Raw → Option (Except Raw Bool)
  | [operator, right] =>
    match TestWord.operator? operator with
    | some (.binary text) => some (binaryTest d text left right)
    | _ => none
  | _ => none

/-- The arguments of a condition between brackets, if the last one starts with the closing one. -/
def betweenBrackets? (words : List Raw) : Option (List Raw) :=
  if (words.getLast?.bind List.head?) = some ']' then some words.dropLast else none

/-- Whether the condition that all arguments describe holds. Of three or four arguments, a negation
at the front or parentheses around the others come first. -/
def condition (d : Disk) : List Raw → Except Raw Bool
  | [] => .ok false
  | word :: rest =>
    match middleTest? d word rest with
    | some verdict => verdict
    | none =>
      let few := rest.length = 2 || rest.length = 3
      if few && word = ['('] && rest.getLast? = some [')'] then readWhole d rest.dropLast
      else if few && word = ['!'] then (condition d rest).map not
      else readWhole d (word :: rest)

end IncrementalBuild.Shell
