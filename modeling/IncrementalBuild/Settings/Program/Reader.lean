import IncrementalBuild.Settings.Program
import IncrementalBuild.Settings.Condition.Reader
import IncrementalBuild.Settings.Lexeme

/-!
Reading programs from tokens. A block is read up to the first token that starts no assignment and no
conditional: the closing brace inside one, a group marker or the end outside. Group markers are
refused inside conditionals, and every value must have its references closed.
-/

namespace IncrementalBuild.Settings

/-- What is read from the front of `ts`, possibly nothing, with the tokens after it. -/
abbrev Scanning (α : Type) (ts : List Placed) :=
  Except Error (α × { rest : List Placed // rest.length ≤ ts.length })

/-- `= value` after a key. -/
def readValue (finish : Place) (ts : List Placed) : Reading String ts := do
  let (_, rest) ← expectToken finish .assign ts
  let (t, rest₁) ← takeToken finish rest.1
  match t.token with
  | .value s | .quoted s =>
    if isUnterminated s then .error (.unterminatedReference t.place s)
    else .ok (s, ⟨rest₁.1, by have := rest.2; have := rest₁.2; omega⟩)
  | other => .error (.unexpectedToken t.place other.text)

/-- The condition of an `if`, in parentheses, and the brace that opens its block. -/
def readHead (finish : Place) (ts : List Placed) : Reading Condition ts := do
  let (_, rest) ← expectToken finish .openParen ts
  let (c, rest₁) ← readCondition finish rest.1
  let (_, rest₂) ← expectToken finish .closeParen rest₁.1
  let (_, rest₃) ← expectToken finish .openBrace rest₂.1
  .ok (c, ⟨rest₃.1, by
    have := rest.2; have := rest₁.2; have := rest₂.2; have := rest₃.2; omega⟩)

/-- The end of a block that was opened by a brace. -/
def readBlockEnd (finish : Place) : (ts : List Placed) → Reading Unit ts
  | [] => .error (.unexpectedEnd finish)
  | ⟨.closeBrace, _⟩ :: rest => .ok ((), ⟨rest, Nat.lt_succ_self rest.length⟩)
  | ⟨.group _, place⟩ :: _ => .error (.nestedGroup place)
  | t :: _ => .error (.unexpectedToken t.place t.token.text)

mutual

/-- Assignments and conditionals, up to the first token that starts neither. -/
def readBlock (finish : Place) (ts : List Placed) : Scanning Block ts :=
  match ts with
  | ⟨.word key, place⟩ :: rest => do
    let (value, rest₁) ← readValue finish rest
    have h₁ := rest₁.2
    let (block, rest₂) ← readBlock finish rest₁.1
    .ok (.assign ⟨key, place, value⟩ block, ⟨rest₂.1, by
      have := rest₂.2; simp only [List.length_cons]; omega⟩)
  | ⟨.ifWord, _⟩ :: rest => do
    let ((c, body, otherwise), rest₁) ← readChoice finish rest
    have h₁ := rest₁.2
    let (block, rest₂) ← readBlock finish rest₁.1
    .ok (.choose c body otherwise block, ⟨rest₂.1, by
      have := rest₂.2; simp only [List.length_cons]; omega⟩)
  | ts => .ok (.done, ⟨ts, Nat.le_refl _⟩)
termination_by (ts.length, 2)

/-- A conditional, from behind its `if`. -/
def readChoice (finish : Place) (ts : List Placed) :
    Reading (Condition × Block × Otherwise) ts := do
  let (c, rest) ← readHead finish ts
  have h := rest.2
  let (body, rest₁) ← readBlock finish rest.1
  have h₁ := rest₁.2
  let (_, rest₂) ← readBlockEnd finish rest₁.1
  have h₂ := rest₂.2
  let (otherwise, rest₃) ← readOtherwise finish rest₂.1
  .ok ((c, body, otherwise), ⟨rest₃.1, by have := rest₃.2; omega⟩)
termination_by (ts.length, 1)

/-- What follows the first branch of a conditional. -/
def readOtherwise (finish : Place) (ts : List Placed) : Scanning Otherwise ts :=
  match ts with
  | ⟨.elseWord, _⟩ :: ⟨.ifWord, _⟩ :: rest => do
    let ((c, body, otherwise), rest₁) ← readChoice finish rest
    .ok (.choose c body otherwise, ⟨rest₁.1, by
      have := rest₁.2; simp only [List.length_cons]; omega⟩)
  | ⟨.elseWord, _⟩ :: rest => do
    let (_, rest₁) ← expectToken finish .openBrace rest
    have h₁ := rest₁.2
    let (body, rest₂) ← readBlock finish rest₁.1
    have h₂ := rest₂.2
    let (_, rest₃) ← readBlockEnd finish rest₂.1
    .ok (.block body, ⟨rest₃.1, by
      have := rest₃.2; simp only [List.length_cons]; omega⟩)
  | ts => .ok (.nothing, ⟨ts, Nat.le_refl _⟩)
termination_by (ts.length, 1)

end

/-- The sections of a program, each with its marker, up to the end of the tokens. -/
def readSections (finish : Place) (ts : List Placed) : Except Error (List Section) :=
  match ts with
  | [] => .ok []
  | ⟨.group name, place⟩ :: rest => do
    let (body, rest₁) ← readBlock finish rest
    have _h₁ := rest₁.2
    let sections ← readSections finish rest₁.1
    .ok (⟨name, place, body⟩ :: sections)
  | t :: _ => .error (.unexpectedToken t.place t.token.text)
termination_by ts.length
decreasing_by exact Nat.lt_succ_of_le _h₁

/-- The place a text is said to end at: its last token, or its start if it has none. -/
def endPlace (file : Path) (ts : List Placed) : Place :=
  (ts.getLast?.map Placed.place).getD ⟨file, .start⟩

/-- The program written by a list of tokens. -/
def readProgram (file : Path) (ts : List Placed) : Except Error Program := do
  let finish := endPlace file ts
  let (leading, rest) ← readBlock finish ts
  let sections ← readSections finish rest.1
  .ok ⟨leading, sections⟩

/-- The statements of a description file. -/
def statements? (file : Path) (source : String) : Except Error (List Statement) := do
  let ts ← tokens? file source
  let program ← readProgram file ts
  .ok program.statements

end IncrementalBuild.Settings
