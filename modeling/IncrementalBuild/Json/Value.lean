import IncrementalBuild.Number.Hexadecimal

/-!
JSON values and their indented form. An indented text has one entry per line, two blanks deeper than
what holds it, and empty lists and objects on one line.
-/

namespace IncrementalBuild.Json

/-- A JSON value. Numbers that are not plain natural numbers keep their text. -/
inductive Value where
  | null
  | bool (b : Bool)
  | natural (n : Nat)
  | number (text : List Char)
  | string (s : String)
  /-- A string with half of a surrogate pair, or an object with such a key: something that stands
  for no text and can only be passed over. -/
  | unpaired
  | array (items : List Value)
  | object (fields : List (String × Value))
  deriving Inhabited

/-- A character inside a string. Quotes, backslashes and control characters are escaped. -/
def escape (c : Char) : List Char :=
  if c = '"' then ['\\', '"']
  else if c = '\\' then ['\\', '\\']
  else if c = '\n' then ['\\', 'n']
  else if c = '\r' then ['\\', 'r']
  else if c = '\t' then ['\\', 't']
  else if c.toNat = 0x08 then ['\\', 'b']
  else if c.toNat = 0x0C then ['\\', 'f']
  else if c.toNat < 0x20 then
    ['\\', 'u', '0', '0', Number.hexDigit (c.toNat / 16), Number.hexDigit (c.toNat % 16)]
  else [c]

/-- A string in quotes. -/
def quote (s : String) : List Char :=
  '"' :: s.toList.flatMap escape ++ ['"']

/-- A new line that is `depth` levels deep. -/
def newLine (depth : Nat) : List Char :=
  '\n' :: List.replicate (2 * depth) ' '

namespace Value

mutual

/-- The indented text of a value that is `depth` levels deep. -/
def print (depth : Nat) : Value → List Char
  | null => "null".toList
  | bool b => (if b then "true" else "false").toList
  | natural n => (toString n).toList
  | number text => text
  | string s => quote s
  | unpaired => ['"', '\\', 'u', 'd', '8', '0', '0', '"']
  | array [] => ['[', ']']
  | array (item :: items) =>
    '[' :: newLine (depth + 1) ++ item.print (depth + 1) ++ printItems (depth + 1) items ++
      newLine depth ++ [']']
  | object [] => ['{', '}']
  | object ((key, value) :: fields) =>
    '{' :: newLine (depth + 1) ++ quote key ++ [':', ' '] ++ value.print (depth + 1) ++
      printFields (depth + 1) fields ++ newLine depth ++ ['}']

/-- The items of a list after its first. -/
def printItems (depth : Nat) : List Value → List Char
  | [] => []
  | item :: items => ',' :: newLine depth ++ item.print depth ++ printItems depth items

/-- The fields of an object after its first. -/
def printFields (depth : Nat) : List (String × Value) → List Char
  | [] => []
  | (key, value) :: fields =>
    ',' :: newLine depth ++ quote key ++ [':', ' '] ++ value.print depth ++
      printFields depth fields

end

/-- The indented text of a value. -/
def text (v : Value) : String :=
  String.ofList (v.print 0)

end Value

end IncrementalBuild.Json
