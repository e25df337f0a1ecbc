import IncrementalBuild.Settings.Condition
import IncrementalBuild.Number.Decimal
import IncrementalBuild.Text.Blank

/-!
What conditions evaluate to. Logical operators and comparisons give truth values, literals give
text, and either is read as the other where an operator asks for it. Literals are asked for in
order, and the right side of `and` and `or` only where the left side does not decide.
-/

namespace IncrementalBuild.Settings

/-- The value of a condition or of a part of one. -/
inductive Operand where
  | truth (b : Bool)
  | text (s : String)
  deriving DecidableEq, Repr, Inhabited

namespace Operand

/-- The words that read as false, whatever their case. -/
def falseWords : List String :=
  ["false", "no", "off"]

/-- The number a text reads as, blanks around it ignored. -/
def number? (s : String) : Option Float :=
  Number.float? (Text.trim s.toList)

/-- A text is false when it is blank, spells one of the false words, or reads as a number equal
to zero. -/
def toBool : Operand → Bool
  | truth b => b
  | text s =>
    let word := (Text.trim s.toList).map Char.toLower
    if word.isEmpty || falseWords.contains (String.ofList word) then false
    else match number? s with
      | some x => !(x == 0.0)
      | none => true

/-- A text that reads as no number counts as zero. -/
def toFloat : Operand → Float
  | truth b => if b then 1.0 else 0.0
  | text s =>
    match number? s with
    | some x => if x.isNaN then 0.0 else x
    | none => 0.0

/-- A truth value reads as its name. -/
def asText : Operand → String
  | truth true => "true"
  | truth false => "false"
  | text s => s

end Operand

/-- Whether two operands are in the relation of the operator. -/
def Comparison.holds (op : Comparison) (l r : Operand) : Bool :=
  match op with
  | less => l.toFloat < r.toFloat
  | lessEqual => l.toFloat ≤ r.toFloat
  | greater => l.toFloat > r.toFloat
  | greaterEqual => l.toFloat ≥ r.toFloat
  | equal => l.asText == r.asText
  | notEqual => l.asText != r.asText

namespace Condition

/-- The value of a condition, where `literal` gives the text of a literal. -/
def operand {m : Type → Type} [Monad m] (literal : Literal → m String) :
    Condition → m Operand
  | .literal l => do return .text (← literal l)
  | .paren c => c.operand literal
  | .not c => do
    let v ← c.operand literal
    return .truth (!v.toBool)
  | .and l r => do
    let v ← l.operand literal
    if v.toBool then return .truth (← r.operand literal).toBool else return .truth false
  | .or l r => do
    let v ← l.operand literal
    if v.toBool then return .truth true else return .truth (← r.operand literal).toBool
  | .compare op l r => do
    let v ← l.operand literal
    let w ← r.operand literal
    return .truth (op.holds v w)

/-- Whether a condition holds. -/
def holds {m : Type → Type} [Monad m] (literal : Literal → m String) (c : Condition) : m Bool := do
  return (← c.operand literal).toBool

end Condition

end IncrementalBuild.Settings
