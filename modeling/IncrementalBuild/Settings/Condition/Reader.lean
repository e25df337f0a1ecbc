import IncrementalBuild.Settings.Condition
import IncrementalBuild.Settings.Error
import IncrementalBuild.Settings.Template

/-!
Reading conditions from tokens. `and` and `or` share one tier and group to the left; a comparison
joins two unaries and cannot be chained; `not` binds to the unary after it. Every reader returns the
rest of the tokens together with the fact that it is shorter, which is what the recursion ends by.
-/

namespace IncrementalBuild.Settings

/-- What is read from the front of `ts`, with the tokens after it. -/
abbrev Reading (α : Type) (ts : List Placed) :=
  Except Error (α × { rest : List Placed // rest.length < ts.length })

/-- The first token, or the error that the text ends at `finish`. -/
def takeToken (finish : Place) : (ts : List Placed) → Reading Placed ts
  | [] => .error (.unexpectedEnd finish)
  | t :: ts => .ok (t, ⟨ts, by simp⟩)

/-- Reads the token `expected`. -/
def expectToken (finish : Place) (expected : Token) (ts : List Placed) : Reading Unit ts := do
  let (t, rest) ← takeToken finish ts
  if t.token = expected then .ok ((), rest)
  else .error (.unexpectedToken t.place t.token.text)

/-- The comparison operator at the front of the tokens. -/
def comparisonAt? : List Placed → Option (Comparison × List Placed)
  | ⟨.comparison op, _⟩ :: ts => some (op, ts)
  | _ => none

/-- The logical operator at the front of the tokens, as what it makes of its two sides. -/
def connectiveAt? : List Placed → Option ((Condition → Condition → Condition) × List Placed)
  | ⟨.andOp, _⟩ :: ts => some (.and, ts)
  | ⟨.orOp, _⟩ :: ts => some (.or, ts)
  | _ => none

/-- An operator takes one token. -/
theorem length_of_comparisonAt? {ts rest : List Placed} {op : Comparison}
    (h : comparisonAt? ts = some (op, rest)) : rest.length < ts.length := by
  unfold comparisonAt? at h
  split at h <;> simp_all

/-- A connective takes one token. -/
theorem length_of_connectiveAt? {ts rest : List Placed} {f : Condition → Condition → Condition}
    (h : connectiveAt? ts = some (f, rest)) : rest.length < ts.length := by
  unfold connectiveAt? at h
  split at h <;> simp_all

mutual

/-- A condition: comparisons joined by `and` and `or`. -/
def readCondition (finish : Place) (ts : List Placed) : Reading Condition ts := do
  let (first, rest) ← readComparison finish ts
  let (c, rest₁) ← readConnectives finish first rest.1
  .ok (c, ⟨rest₁.1, by have := rest.2; have := rest₁.2; omega⟩)
termination_by (ts.length, 4)

/-- The rest of a chain of comparisons, of which `left` has been read. -/
def readConnectives (finish : Place) (left : Condition) (ts : List Placed) :
    Except Error (Condition × { rest : List Placed // rest.length ≤ ts.length }) :=
  match h : connectiveAt? ts with
  | none => .ok (left, ⟨ts, Nat.le_refl _⟩)
  | some (join, rest) => do
    have hrest := length_of_connectiveAt? h
    let (right, rest₁) ← readComparison finish rest
    let (c, rest₂) ← readConnectives finish (join left right) rest₁.1
    .ok (c, ⟨rest₂.1, by have := rest₁.2; have := rest₂.2; omega⟩)
termination_by (ts.length, 3)

/-- A unary, or two unaries with a comparison operator between them. -/
def readComparison (finish : Place) (ts : List Placed) : Reading Condition ts := do
  let (left, rest) ← readUnary finish ts
  match h : comparisonAt? rest.1 with
  | none => .ok (left, rest)
  | some (op, rest₁) =>
    have hrest₁ := length_of_comparisonAt? h
    have hrest := rest.2
    let (right, rest₂) ← readUnary finish rest₁
    match rest₂.1 with
    | ⟨.comparison _, place⟩ :: _ => .error (.chainedComparison place)
    | _ => .ok (.compare op left right, ⟨rest₂.1, by have := rest₂.2; omega⟩)
termination_by (ts.length, 2)

/-- A word, a string or a condition in parentheses, behind any number of `not`s. -/
def readUnary (finish : Place) (ts : List Placed) : Reading Condition ts :=
  match ts with
  | [] => .error (.unexpectedEnd finish)
  | ⟨.notOp, _⟩ :: rest => do
    let (c, rest₁) ← readUnary finish rest
    .ok (.not c, ⟨rest₁.1, by have := rest₁.2; simp only [List.length_cons]; omega⟩)
  | ⟨.openParen, _⟩ :: rest => do
    let (c, rest₁) ← readCondition finish rest
    let (_, rest₂) ← expectToken finish .closeParen rest₁.1
    .ok (.paren c, ⟨rest₂.1, by
      have := rest₁.2; have := rest₂.2; simp only [List.length_cons]; omega⟩)
  | ⟨.word name, _⟩ :: rest => .ok (.literal (.reference name), ⟨rest, by simp⟩)
  | ⟨.quoted s, place⟩ :: rest =>
    if isUnterminated s then .error (.unterminatedReference place s)
    else .ok (.literal (.quoted s), ⟨rest, by simp⟩)
  | t :: _ => .error (.unexpectedToken t.place t.token.text)
termination_by (ts.length, 1)

end

end IncrementalBuild.Settings
