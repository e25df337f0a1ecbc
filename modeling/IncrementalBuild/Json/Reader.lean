import IncrementalBuild.Json.Value
import IncrementalBuild.Number.Decimal

/-!
Reading JSON texts. The reader takes the strict grammar: blanks are spaces, tabs and line ends,
numbers have no leading zeros, and strings hold no control characters. Half of a surrogate pair may
be written in a string, but then the string stands for no text.
-/

namespace IncrementalBuild.Json

/-- Whether blanks of the grammar include `c`. -/
def isGap (c : Char) : Bool :=
  c = ' ' || c = '\t' || c = '\n' || c = '\r'

/-- A text without its leading blanks. -/
def skipGap (cs : List Char) : List Char :=
  cs.dropWhile isGap

/-- The value of four hexadecimal digits. -/
def hexWord? (a b c d : Char) : Option Nat := do
  let high := (← Number.hexValue? a) * 16 + (← Number.hexValue? b)
  let low := (← Number.hexValue? c) * 16 + (← Number.hexValue? d)
  return high * 256 + low

/-- What a backslash and `c` stand for, except for the escapes by number. -/
def unescape? (c : Char) : Option Char :=
  match c with
  | '"' => some '"'
  | '\\' => some '\\'
  | '/' => some '/'
  | 'b' => some (Char.ofNat 0x08)
  | 'f' => some (Char.ofNat 0x0C)
  | 'n' => some '\n'
  | 'r' => some '\r'
  | 't' => some '\t'
  | _ => none

/-- Whether a word is the first half of a surrogate pair. -/
def isHighHalf (word : Nat) : Bool :=
  0xD800 ≤ word && word < 0xDC00

/-- Whether a word is the second half of a surrogate pair. -/
def isLowHalf (word : Nat) : Bool :=
  0xDC00 ≤ word && word < 0xE000

/-- The character that the two halves of a surrogate pair stand for. -/
def pairedChar (high low : Nat) : Char :=
  Char.ofNat (0x10000 + (high - 0xD800) * 0x400 + (low - 0xDC00))

/-- The text of a string whose characters, or halves of pairs, have these numbers; `high` is a first
half that waits for its second. There is none if a half stands alone. -/
def textOf? : (high : Option Nat) → List Nat → Option (List Char)
  | none, [] => some []
  | some _, [] => none
  | none, word :: words =>
    if isHighHalf word then textOf? (some word) words
    else if isLowHalf word then none
    else (textOf? none words).map (Char.ofNat word :: ·)
  | some high, word :: words =>
    if isLowHalf word then (textOf? none words).map (pairedChar high word :: ·) else none

/-- The numbers of the characters, or halves of pairs, in a string, and the text after it, from
behind the opening quote. -/
def readWords : (cs : List Char) → Option (List Nat × List Char)
  | [] => none
  | '"' :: cs => some ([], cs)
  | '\\' :: 'u' :: a :: b :: c :: d :: cs =>
    match hexWord? a b c d with
    | none => none
    | some word => (readWords cs).map fun (words, r) => (word :: words, r)
  | '\\' :: c :: cs =>
    match unescape? c with
    | none => none
    | some e => (readWords cs).map fun (words, r) => (e.toNat :: words, r)
  | c :: cs =>
    if c.toNat < 0x20 then none else (readWords cs).map fun (words, r) => (c.toNat :: words, r)

/-- The content of a string, if it stands for a text, and the text after it, from behind the opening
quote. -/
def readString (cs : List Char) : Option (Option String × List Char) :=
  (readWords cs).map fun (words, r) => ((textOf? none words).map String.ofList, r)

/-- The digits at the front of a text, and the rest. -/
def digits (cs : List Char) : List Char × List Char :=
  (cs.takeWhile Char.isDigit, cs.dropWhile Char.isDigit)

/-- The whole part of a number: a single zero, or digits that start with another. -/
def readWhole (cs : List Char) : Option (List Char × List Char) :=
  match cs with
  | '0' :: r => if (r.head?.map Char.isDigit).getD false then none else some (['0'], r)
  | cs => if (digits cs).1.isEmpty then none else some (digits cs)

/-- The fraction of a number, if it has one. -/
def readFraction (cs : List Char) : Option (List Char × List Char) :=
  match cs with
  | '.' :: r => if (digits r).1.isEmpty then none else some ('.' :: (digits r).1, (digits r).2)
  | cs => some ([], cs)

/-- The exponent of a number, if it has one. -/
def readExponent (cs : List Char) : Option (List Char × List Char) :=
  match cs with
  | c :: r =>
    if c = 'e' || c = 'E' then
      let (sign, r) := match r with
        | s :: r' => if s = '+' || s = '-' then ([s], r') else ([], r)
        | [] => ([], r)
      if (digits r).1.isEmpty then none else some (c :: sign ++ (digits r).1, (digits r).2)
    else some ([], c :: r)
  | [] => some ([], [])

/-- A number and the text after it. -/
def readNumber (cs : List Char) : Option (Value × List Char) := do
  let (sign, r) := match cs with
    | '-' :: r => (['-'], r)
    | r => ([], r)
  let (whole, r) ← readWhole r
  let (fraction, r) ← readFraction r
  let (exponent, r) ← readExponent r
  if sign.isEmpty && fraction.isEmpty && exponent.isEmpty then
    return (.natural (Number.ofDigits whole), r)
  else return (.number (sign ++ whole ++ fraction ++ exponent), r)

/-- The words that are values. -/
def words : List (List Char × Value) :=
  [("null".toList, .null), ("true".toList, .bool true), ("false".toList, .bool false)]

/-- A word that is a value, and the text after it. -/
def readWord (cs : List Char) : Option (Value × List Char) :=
  words.findSome? fun (w, v) => if w.isPrefixOf cs then some (v, cs.drop w.length) else none

/-- A value that is no list and no object, and the text after it. -/
def readScalar (cs : List Char) : Option (Value × List Char) :=
  match cs with
  | '"' :: r => (readString r).map fun (s, r) =>
      (match s with
        | some s => .string s
        | none => .unpaired, r)
  | cs => (readWord cs).orElse fun _ => readNumber cs

/-- The object with some fields, each of which may have a key that stands for no text. -/
def objectOf (fields : List (Option String × Value)) : Value :=
  match fields.mapM fun (key, value) => key.map fun k => (k, value) with
  | some fields => .object fields
  | none => .unpaired

mutual

/-- A value after blanks, and the text after it. The reader takes at most `room` steps
into the text, which is no bound if there are twice as many as characters. -/
def readValue : (room : Nat) → List Char → Option (Value × List Char)
  | 0, _ => none
  | room + 1, cs =>
    match skipGap cs with
    | '[' :: r =>
      match skipGap r with
      | ']' :: r => some (.array [], r)
      | r => (readItems room r).map fun (items, r) => (.array items, r)
    | '{' :: r =>
      match skipGap r with
      | '}' :: r => some (.object [], r)
      | r => (readFields room r).map fun (fields, r) => (objectOf fields, r)
    | r => readScalar r

/-- The items of a list up to its end. -/
def readItems : (room : Nat) → List Char → Option (List Value × List Char)
  | 0, _ => none
  | room + 1, cs =>
    match readValue room cs with
    | none => none
    | some (item, r) =>
      match skipGap r with
      | ',' :: r => (readItems room r).map fun (items, r) => (item :: items, r)
      | ']' :: r => some ([item], r)
      | _ => none

/-- The fields of an object up to its end. -/
def readFields : (room : Nat) → List Char → Option (List (Option String × Value) × List Char)
  | 0, _ => none
  | room + 1, cs =>
    match skipGap cs with
    | '"' :: r =>
      match readString r with
      | none => none
      | some (key, r) =>
        match skipGap r with
        | ':' :: r =>
          match readValue room r with
          | none => none
          | some (value, r) =>
            match skipGap r with
            | ',' :: r => (readFields room r).map fun (fields, r) => ((key, value) :: fields, r)
            | '}' :: r => some ([(key, value)], r)
            | _ => none
        | _ => none
    | _ => none

end

/-- The value a whole text is. -/
def Value.ofText? (s : String) : Option Value :=
  let cs := s.toList
  match readValue (2 * cs.length + 2) cs with
  | some (v, r) => if (skipGap r).isEmpty then some v else none
  | none => none

end IncrementalBuild.Json
