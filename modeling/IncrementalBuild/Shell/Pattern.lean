import IncrementalBuild.Text.Utf8
import IncrementalBuild.Text.Split

/-!
Patterns of a shell. `*` stands for any run of characters, `?` for one, and a bracket expression for
one of those it lists; a backslash takes the meaning of the character behind it away, and everything
else stands for itself.
-/

namespace IncrementalBuild.Shell

open Text

/-- What a bracket expression lists. -/
inductive Listed where
  | range (low high : Char)
  /-- The characters of a class with a name. -/
  | kind (holds : Char → Bool)

/-- What a part of a pattern stands for. -/
inductive Atom where
  | char (c : Char)
  | anyOne
  | anyRun
  /-- One character that is listed, or one that is not. -/
  | oneOf (negated : Bool) (listed : List Listed)

/-- The place of a byte in the order of ranges: the bytes that are no characters of their own come
first. -/
def byteRank (c : Char) : Nat :=
  (c.toNat + 128) % 256

/-- Whether a character is a sign, neither letter nor digit. -/
def isPunctuation (c : Char) : Bool :=
  '!' ≤ c && c ≤ '~' && !c.isAlphanum

/-- The classes of characters with names. -/
def characterKinds : List (String × (Char → Bool)) :=
  [("alnum", Char.isAlphanum), ("alpha", Char.isAlpha), ("digit", Char.isDigit),
    ("lower", Char.isLower), ("upper", Char.isUpper), ("punct", isPunctuation),
    ("blank", fun c => c = ' ' || c = '\t'), ("space", fun c => c = ' ' || ('\t' ≤ c && c ≤ '\r')),
    ("cntrl", fun c => c < ' ' || c = '\x7f'), ("print", fun c => ' ' ≤ c && c ≤ '~'),
    ("graph", fun c => '!' ≤ c && c ≤ '~'),
    ("xdigit", fun c => c.isDigit || ('a' ≤ c && c ≤ 'f') || ('A' ≤ c && c ≤ 'F'))]

/-- The class whose name stands at the front of a text, between a colon and a colon with a bracket,
and what follows it. -/
def kindAt? (cs : Raw) : Option ((Char → Bool) × Raw) :=
  characterKinds.findSome? fun (name, holds) =>
    (after? (":" ++ name ++ ":]").toList cs).map (holds, ·)

/-- What a bracket expression lists from a character on, and what follows its closing bracket, if it
has one. `limit` bounds the number of characters. -/
def listedFrom : (limit : Nat) → (c : Char) → Raw → Option (List Listed × Raw)
  | 0, _, _ => none
  | limit + 1, c, cs =>
    let onward (l : Listed) : Raw → Option (List Listed × Raw)
      | [] => none
      | ']' :: rest => some ([l], rest)
      | d :: rest => (listedFrom limit d rest).map fun (ls, rest) => (l :: ls, rest)
    let single (c : Char) : Raw → Option (List Listed × Raw)
      | '-' :: ']' :: rest => onward (.range c c) ('-' :: ']' :: rest)
      | '-' :: '\\' :: high :: rest => onward (.range c high) rest
      | '-' :: high :: rest => onward (.range c high) rest
      | rest => onward (.range c c) rest
    match c, cs with
    | '[', cs =>
      match kindAt? cs with
      | some (holds, rest) => onward (.kind holds) rest
      | none => single '[' cs
    | '\\', d :: cs => single d cs
    | '\\', [] => none
    | c, cs => single c cs

/-- A bracket expression behind its opening bracket, and what follows it. -/
def bracket? (cs : Raw) : Option (Atom × Raw) :=
  let (negated, body) := match cs with
    | '!' :: rest => (true, rest)
    | cs => (false, cs)
  match body with
  | [] => none
  | c :: rest =>
    (listedFrom body.length c rest).map fun (listed, rest) => (.oneOf negated listed, rest)

/-- The parts of a pattern. `limit` bounds their number. -/
def atomsWithin : (limit : Nat) → Raw → List Atom
  | 0, _ | _, [] => []
  | limit + 1, '*' :: cs => .anyRun :: atomsWithin limit cs
  | limit + 1, '?' :: cs => .anyOne :: atomsWithin limit cs
  | limit + 1, '\\' :: c :: cs => .char c :: atomsWithin limit cs
  | limit + 1, '[' :: cs =>
    match bracket? cs with
    | some (a, rest) => a :: atomsWithin limit rest
    | none => .char '[' :: atomsWithin limit cs
  | limit + 1, c :: cs => .char c :: atomsWithin limit cs

/-- The parts of a pattern. -/
def atoms (pattern : Raw) : List Atom :=
  atomsWithin pattern.length pattern

/-- Whether a character is listed. -/
def Listed.includes (c : Char) : Listed → Bool
  | range low high => byteRank low ≤ byteRank c && byteRank c ≤ byteRank high
  | kind holds => holds c

/-- Whether a text is one that the parts of a pattern stand for. -/
def atomsMatch : List Atom → Raw → Bool
  | [], cs => cs.isEmpty
  | .anyRun :: as, [] => atomsMatch as []
  | .anyRun :: as, c :: cs => atomsMatch as (c :: cs) || atomsMatch (.anyRun :: as) cs
  | _ :: _, [] => false
  | .char d :: as, c :: cs => c = d && atomsMatch as cs
  | .anyOne :: as, _ :: cs => atomsMatch as cs
  | .oneOf negated listed :: as, c :: cs =>
    (listed.any (Listed.includes c) != negated) && atomsMatch as cs
termination_by as cs => as.length + cs.length

/-- Whether a text is one that a pattern stands for. -/
def patternMatches (pattern cs : Raw) : Bool :=
  atomsMatch (atoms pattern) cs

/-- The numbers at which a text of some length can be cut, the smallest first. -/
def cuts (length : Nat) : List Nat :=
  List.range (length + 1)

/-- The length of the shortest or longest start of a text that a pattern matches. -/
def matchedStart? (longest : Bool) (pattern cs : Raw) : Option Nat :=
  let as := atoms pattern
  let order := if longest then (cuts cs.length).reverse else cuts cs.length
  order.find? fun n => atomsMatch as (cs.take n)

/-- Where the shortest or longest end of a text starts that a pattern matches. -/
def matchedEnd? (longest : Bool) (pattern cs : Raw) : Option Nat :=
  let as := atoms pattern
  let order := if longest then cuts cs.length else (cuts cs.length).reverse
  order.find? fun n => atomsMatch as (cs.drop n)

end IncrementalBuild.Shell
