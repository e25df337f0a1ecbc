import IncrementalBuild.Shell.Variable

/-!
Expressions. An expression is computed while it is read, so that what is wrong with its end is found
after the assignments before it were made. What the value does not depend on is read but not
computed.
-/

namespace IncrementalBuild.Shell

open Text

/-- An operator between two numbers. -/
inductive BinaryOperator where
  | times | divided | modulo | plus | minus | shiftedLeft | shiftedRight | less | atMost | greater
  | atLeast | equal | different | bitAnd | bitXor | bitOr
  deriving DecidableEq, Repr, Inhabited

/-- A token of an expression. -/
inductive Symbol where
  | ending
  | number (n : Int)
  | name (text : String)
  | binary (o : BinaryOperator)
  | assign
  | assignWith (o : BinaryOperator)
  | and
  | or
  | not
  | complement
  | opening
  | closing
  | question
  | colon
  | stray
  deriving DecidableEq, Repr, Inhabited

namespace BinaryOperator

/-- How closely an operator binds; the smaller, the closer. -/
def rank : BinaryOperator → Nat
  | times | divided | modulo => 0
  | plus | minus => 1
  | shiftedLeft | shiftedRight => 2
  | less | atMost | greater | atLeast => 3
  | equal | different => 4
  | bitAnd => 5
  | bitXor => 6
  | bitOr => 7

/-- A rank that every operator binds closer than. -/
def lastRank : Nat := 8

/-- The number that stands for a truth value. -/
def truth (b : Bool) : Int :=
  if b then 1 else 0

/-- The value of an operator, unless it divides by zero. -/
def value? (o : BinaryOperator) (a b : Int) : Option Int :=
  let words (f : UInt64 → UInt64 → UInt64) : Int :=
    (f (Int64.ofInt a).toUInt64 (Int64.ofInt b).toUInt64).toInt64.toInt
  match o with
  | times => some (wrapped (a * b))
  | divided => if b = 0 then none else some (wrapped (a.tdiv b))
  | modulo => if b = 0 then none else some (a.tmod b)
  | plus => some (wrapped (a + b))
  | minus => some (wrapped (a - b))
  | shiftedLeft => some (words (· <<< ·))
  | shiftedRight => some ((Int64.ofInt a >>> Int64.ofInt b).toInt)
  | less => some (truth (a < b))
  | atMost => some (truth (a ≤ b))
  | greater => some (truth (b < a))
  | atLeast => some (truth (b ≤ a))
  | equal => some (truth (a = b))
  | different => some (truth (a ≠ b))
  | bitAnd => some (words (· &&& ·))
  | bitXor => some (words (· ^^^ ·))
  | bitOr => some (words (· ||| ·))

end BinaryOperator

namespace Symbol

/-- The operators of two characters that can stand before an equals sign. -/
def shift? : Raw → Option (BinaryOperator × Raw)
  | '<' :: '<' :: cs => some (.shiftedLeft, cs)
  | '>' :: '>' :: cs => some (.shiftedRight, cs)
  | _ => none

/-- The operators of one character that can stand before an equals sign. -/
def plain? : Char → Option BinaryOperator
  | '*' => some .times
  | '/' => some .divided
  | '%' => some .modulo
  | '+' => some .plus
  | '-' => some .minus
  | '&' => some .bitAnd
  | '^' => some .bitXor
  | '|' => some .bitOr
  | _ => none

/-- An operator, or the assignment that it makes with the equals sign behind it. -/
def ofOperator (o : BinaryOperator) : Raw → Symbol × Raw
  | '=' :: cs => (assignWith o, cs)
  | cs => (binary o, cs)

/-- The symbol at the front of a text that starts with no digit and no name. -/
def ofSigns : Raw → Symbol × Raw
  | [] => (ending, [])
  | '=' :: '=' :: cs => (binary .equal, cs)
  | '=' :: cs => (assign, cs)
  | '!' :: '=' :: cs => (binary .different, cs)
  | '!' :: cs => (not, cs)
  | '<' :: '=' :: cs => (binary .atMost, cs)
  | '>' :: '=' :: cs => (binary .atLeast, cs)
  | '&' :: '&' :: cs => (and, cs)
  | '|' :: '|' :: cs => (or, cs)
  | '~' :: cs => (complement, cs)
  | '(' :: cs => (opening, cs)
  | ')' :: cs => (closing, cs)
  | '?' :: cs => (question, cs)
  | ':' :: cs => (colon, cs)
  | c :: cs =>
    match shift? (c :: cs), plain? c with
    | some (o, rest), _ => ofOperator o rest
    | none, some o => ofOperator o cs
    | none, none =>
      if c = '<' then (binary .less, cs)
      else if c = '>' then (binary .greater, cs)
      else (stray, c :: cs)

/-- The first symbol of a text, and what follows it. Digits say no more than the greatest number. -/
def ofText (cs : Raw) : Symbol × Raw :=
  let cs := cs.dropWhile fun c => c = ' ' || c = '\t' || c = '\n'
  match cs.head? with
  | none => (ending, [])
  | some c =>
    if c.isDigit then
      match scanInteger? true cs with
      | some scan => (number (clamped scan.value), scan.rest)
      | none => (stray, cs)
    else if startsName c then
      let text := cs.takeWhile continuesName
      (name (String.ofList text), cs.drop text.length)
    else ofSigns cs

end Symbol

/-- An expression that is being computed. -/
structure Computation where
  /-- The whole expression. -/
  whole : Raw
  rest : Raw
  /-- The symbol behind what was read. -/
  next : Symbol
  deriving Inhabited

/-- Computes something from the front of an expression. -/
abbrev Computing (α : Type) := StateT Computation (ExceptT Break (StateM Session)) α

namespace Computing

/-- Stops with a complaint about the expression. -/
def refuse {α : Type} (reason : String) : Computing α := do
  let c ← get
  Step.fail (("arithmetic expression: " ++ reason ++ ": \"").toList ++ c.whole ++ ['"'])

/-- Takes a symbol from the front. -/
def read : Computing Symbol := do
  let c ← get
  let (symbol, rest) := Symbol.ofText c.rest
  set { c with rest }
  return symbol

/-- Notes the symbol behind what was read. -/
def stopAt (symbol : Symbol) : Computing Unit :=
  modify fun c => { c with next := symbol }

/-- The number that a variable holds. -/
def valueOf (name : String) : Computing Int := do
  let s : Session ← getThe Session
  let value := (s.value? name).getD []
  match integer? true value with
  | some n => return n
  | none => Step.fail ("Illegal number: ".toList ++ value)

/-- The value of an operator. A division that has no result ends the process. -/
def apply (o : BinaryOperator) (a b : Int) : Computing Int := do
  if a = leastNumber && b = -1 && (o = .divided || o = .modulo) then
    throw (.ended (.signal 8))
  match o.value? a b with
  | some n => return n
  | none => refuse "division by zero"

mutual

/-- Computes an operand that starts with a symbol, before which another one has been read. Nothing
is computed where `idle` holds. `limit` bounds the number of symbols. -/
def operand (idle : Bool) : (limit : Nat) → (symbol behind : Symbol) → Computing Int
  | 0, _, _ => refuse "expecting primary"
  | limit + 1, symbol, behind => do
    match symbol with
    | .opening =>
      let n ← assignment idle limit behind
      if (← get).next ≠ .closing then refuse "expecting ')'"
      stopAt (← read)
      return n
    | .number n =>
      stopAt behind
      return n
    | .name text =>
      stopAt behind
      if idle then return 0 else valueOf text
    | .binary .plus => operand idle limit behind (← read)
    | .binary .minus => return wrapped (-(← operand idle limit behind (← read)))
    | .not => return BinaryOperator.truth ((← operand idle limit behind (← read)) = 0)
    | .complement => return -(← operand idle limit behind (← read)) - 1
    | _ => refuse "expecting primary"

/-- Computes what operators make of a number, up to one that binds no closer than a rank. -/
def operation (idle : Bool) : (limit : Nat) → Int → BinaryOperator → (rank : Nat) → Computing Int
  | 0, _, _, _ => refuse "expecting primary"
  | limit + 1, a, o, rank => do
    let symbol ← read
    let b ← operand idle limit symbol (← read)
    let b ← match (← get).next with
      | .binary closer =>
        if closer.rank < o.rank then operation idle limit b closer o.rank else pure b
      | _ => pure b
    let a ← if idle then pure b else apply o a b
    match (← get).next with
    | .binary further =>
      if further.rank < rank then operation idle limit a further rank else return a
    | _ => return a

/-- Computes operands with operators between them. -/
def operations (idle : Bool) : (limit : Nat) → (symbol behind : Symbol) → Computing Int
  | 0, _, _ => refuse "expecting primary"
  | limit + 1, symbol, behind => do
    let a ← operand idle limit symbol behind
    match (← get).next with
    | .binary o => operation idle limit a o BinaryOperator.lastRank
    | _ => return a

/-- Computes whether all of some numbers are true. -/
def conjunction (idle : Bool) : (limit : Nat) → (symbol behind : Symbol) → Computing Int
  | 0, _, _ => refuse "expecting primary"
  | limit + 1, symbol, behind => do
    let a ← operations idle limit symbol behind
    if (← get).next ≠ .and then return a
    let symbol ← read
    let b ← conjunction (idle || a = 0) limit symbol (← read)
    return BinaryOperator.truth (a ≠ 0 && b ≠ 0)

/-- Computes whether one of some numbers is true. -/
def disjunction (idle : Bool) : (limit : Nat) → (symbol behind : Symbol) → Computing Int
  | 0, _, _ => refuse "expecting primary"
  | limit + 1, symbol, behind => do
    let a ← conjunction idle limit symbol behind
    if (← get).next ≠ .or then return a
    let symbol ← read
    let b ← disjunction (idle || a ≠ 0) limit symbol (← read)
    return BinaryOperator.truth (a ≠ 0 || b ≠ 0)

/-- Computes a number, or the one of two numbers that a third one chooses. -/
def choice (idle : Bool) : (limit : Nat) → (symbol behind : Symbol) → Computing Int
  | 0, _, _ => refuse "expecting primary"
  | limit + 1, symbol, behind => do
    let a ← disjunction idle limit symbol behind
    if (← get).next ≠ .question then return a
    let b ← assignment (idle || a = 0) limit (← read)
    if (← get).next ≠ .colon then refuse "expecting ':'"
    let symbol ← read
    let c ← choice (idle || a ≠ 0) limit symbol (← read)
    return if a ≠ 0 then b else c

/-- Computes a number that starts with a symbol, and that a variable may be set to. -/
def assignment (idle : Bool) : (limit : Nat) → (symbol : Symbol) → Computing Int
  | 0, _ => refuse "expecting primary"
  | limit + 1, symbol => do
    let behind ← read
    let assigned (name : String) (o : Option BinaryOperator) : Computing Int := do
      let b ← assignment idle limit (← read)
      if idle then return b
      else
        let n ← match o with
          | none => pure b
          | some o => apply o (← valueOf name) b
        Step.set name (toString n).toList
        return n
    match symbol, behind with
    | .name text, .assign => assigned text none
    | .name text, .assignWith o => assigned text (some o)
    | _, _ => choice idle limit symbol behind

end

/-- Computes a whole expression. -/
def whole : Computing Int := do
  let limit := 8 * (← get).whole.length + 16
  let n ← assignment false limit (← read)
  if (← get).next ≠ .ending then refuse "expecting EOF"
  return n

end Computing

/-- The value of an expression. -/
def evaluate (expression : Raw) : Step Int := do
  let (n, _) ← Computing.whole.run ⟨expression, expression, .ending⟩
  return n

end IncrementalBuild.Shell
