import IncrementalBuild.Shell.Arithmetic
import IncrementalBuild.Shell.FileName
import IncrementalBuild.Shell.Interpreter

/-!
What words stand for. Uses of parameters are replaced by their values, scripts by what they write,
expressions by their numbers, and a tilde by a home directory. What came from outside of quotes is
split at separators, and fields with wildcards become the names of files, as far as there are any.
-/

namespace IncrementalBuild.Shell

open Text

/-- What is done with a word. -/
structure Manner where
  /-- Whether the word is split into fields. -/
  splits : Bool
  /-- Whether a tilde also counts behind colons. -/
  colons : Bool
  /-- Whether the word is the operand of a parameter, so that its own text is split, too. -/
  operand : Bool
  /-- Whether a tilde counts at the start. -/
  tilde : Bool
  deriving DecidableEq, Repr, Inhabited

namespace Manner

/-- The word of a command. -/
def field : Manner := ⟨true, false, false, true⟩

/-- A value that is not split. -/
def value : Manner := ⟨false, false, false, true⟩

/-- The value of an assignment. -/
def assigned : Manner := ⟨false, true, false, true⟩

/-- A text in which nothing but parameters, scripts and expressions is replaced. -/
def document : Manner := ⟨false, false, false, false⟩

end Manner

/-- The home directory of the user who may do everything. -/
def rootHome : Raw := "/root".toList

/-- What a tilde and the name behind it stand for. -/
def homeOf (s : Session) (name : Raw) : Option Raw :=
  if name.isEmpty then s.value? "HOME"
  else if name = "root".toList then some rootHome
  else none

/-- The marks of the text of a word, in which a tilde may count: at the start if `tilde` holds, and
behind colons. `whole` tells whether the word ends with the text. `limit` bounds the number of
tildes and colons. -/
def tildeMarks (s : Session) (colons whole : Bool) : (limit : Nat) → (tilde : Bool) → Raw →
    List Mark
  | 0, _, cs => Mark.ofText false cs
  | limit + 1, tilde, cs =>
    let name := cs.tail.takeWhile fun c => c ≠ '/' && !(colons && c = ':')
    let rest := cs.tail.drop name.length
    let stands := tilde && cs.head? = some '~' && (whole || !rest.isEmpty)
    match if stands then homeOf s name else none with
    | some home => Mark.ofText true home ++ tildeMarks s colons whole limit false rest
    | none =>
      let plain := if colons then cs.takeWhile (· ≠ ':') else cs
      match cs.drop plain.length with
      | colon :: behind =>
        Mark.ofText false (plain ++ [colon]) ++ tildeMarks s colons whole limit true behind
      | [] => Mark.ofText false plain

/-- The arguments with a text between them. -/
def joinedArguments (quoted : Bool) (between : List Mark) (arguments : List Raw) : List Mark :=
  between.intercalate (arguments.map (Mark.ofText quoted))

/-- The marks of all arguments. In a word that is split they are kept apart, unless they are joined
by quotes. -/
def argumentMarks (s : Session) (splits quoted : Bool) (name : String) : List Mark :=
  let apart := splits && (!quoted || name = "@")
  let between : List Mark := match s.value? "IFS" with
    | none => if apart && quoted then [.boundary] else [.char ' ' quoted]
    | some separators => if apart then [.boundary] else Mark.ofText quoted (separators.take 1)
  joinedArguments quoted between s.arguments

/-- The value of a parameter that has a sign or a number for a name. -/
def Session.signValue? (s : Session) (name : String) : Option Raw :=
  match name with
  | "#" => some (toString s.arguments.length).toList
  | "?" => some (toString s.status).toList
  | "$" => some (toString s.shellNumber).toList
  | "-" => some (Switch.letters s.switches)
  | "!" => s.lastBackground.map fun n => (toString n).toList
  | _ =>
    match name.toNat? with
    | some 0 => some s.name
    | some n => s.arguments[n - 1]?
    | none => none

/-- The marks of a parameter's value, if it is set. -/
def parameterMarks? (s : Session) (splits quoted : Bool) (name : String) : Option (List Mark) :=
  if name = "@" || name = "*" then some (argumentMarks s splits quoted name)
  else
    let value := if isName name.toList then s.value? name else s.signValue? name
    value.map (Mark.ofText quoted)

/-- The marks of something that was replaced. Outside of quotes it is split, and inside of them so
are the arguments. -/
def replaced (s : Session) (quoted : Bool) (name : String) (marks : List Mark) : List Mark :=
  if !quoted then Mark.span false marks
  else if name = "@" && !s.arguments.isEmpty then Mark.span true marks
  else marks

/-- The complaint about a parameter that is not set. -/
def unsetComplaint (name : String) (reason : Raw) : Raw :=
  name.toList ++ ": ".toList ++ reason

/-- The marks of a word. -/
def Word.marks (i : Interpreter) (m : Manner) : Word → Step (List Mark)
  | done => return []
  | text quoted chars rest => do
    let s ← get
    let own := if quoted then
        if chars.isEmpty then [.anchor] else Mark.ofText true chars
      else
        let whole := match rest with
          | .done => true
          | _ => false
        tildeMarks s m.colons whole (chars.length + 1) m.tilde chars
    let here := if m.operand && !quoted then Mark.span false own else own
    return here ++ (← rest.marks i { m with tilde := false })
  | output quoted script rest => do
    let here := Mark.ofText quoted (← i.output script)
    let here := if quoted then here else Mark.span false here
    return here ++ (← rest.marks i { m with tilde := false })
  | number quoted expression rest => do
    let n ← evaluate (Mark.text (← expression.marks i Manner.document))
    let here := Mark.ofText quoted (toString n).toList
    let here := if quoted then here else Mark.span false here
    return here ++ (← rest.marks i { m with tilde := false })
  | parameter quoted name use operand rest => do
    let s ← get
    if use = .meaningless then Step.fail "Bad substitution".toList
    let value := parameterMarks? s m.splits quoted name
    let present (alsoEmpty : Bool) : Bool := value.any fun v => !(alsoEmpty && v.isEmpty)
    let whole := replaced s quoted name (value.getD [])
    let checked : Step Unit := do
      if value.isNone && s.has .nounset then
        Step.fail (unsetComplaint name "parameter not set".toList)
    let here ← match use with
      | .value => do
        checked
        pure whole
      | .length => do
        checked
        pure (replaced s quoted "" (Mark.ofText quoted (toString (value.getD []).length).toList))
      | .orElse alsoEmpty =>
        if present alsoEmpty then pure whole
        else operand.marks i { m with operand := true, tilde := true }
      | .whereSet alsoEmpty =>
        if present alsoEmpty then operand.marks i { m with operand := true, tilde := true }
        else pure []
      | .orAssign alsoEmpty =>
        if present alsoEmpty then pure whole
        else do
          let assigned := Mark.text (← operand.marks i Manner.value)
          Step.assignNamed name.toList (some assigned) false false
          pure (replaced s quoted name (Mark.ofText quoted assigned))
      | .orFail alsoEmpty =>
        if present alsoEmpty then pure whole
        else do
          let reason := Mark.text (← operand.marks i Manner.value)
          let standard := if alsoEmpty then "parameter not set or null" else "parameter not set"
          let given := match operand with
            | .done => standard.toList
            | _ => reason
          Step.fail (unsetComplaint name given)
      | .withoutStart longest => do
        checked
        match value with
        | none => pure []
        | some value =>
          let pattern := Mark.pattern (← operand.marks i Manner.value)
          let cut := (matchedStart? longest pattern (Mark.characters value)).getD 0
          pure (replaced s quoted name (value.drop cut))
      | .withoutEnd longest => do
        checked
        match value with
        | none => pure []
        | some value =>
          let pattern := Mark.pattern (← operand.marks i Manner.value)
          let cut := (matchedEnd? longest pattern (Mark.characters value)).getD value.length
          pure (replaced s quoted name (value.take cut))
      | .meaningless => pure []
    return here ++ (← rest.marks i { m with tilde := false })

/-- What a word stands for where it is not split. -/
def Word.value (i : Interpreter) (m : Manner) (w : Word) : Step Raw := do
  return Mark.text (← w.marks i m)

/-- The pattern that a word stands for. -/
def Word.pattern (i : Interpreter) (w : Word) : Step Raw := do
  return Mark.pattern (← w.marks i Manner.value)

/-- What a word of a command stands for. -/
def Word.fields (i : Interpreter) (w : Word) : Step (List Raw) := do
  let marks ← w.marks i Manner.field
  let s ← get
  let fields := fieldsOf s.separators none marks
  return if s.has .noglob then fields.map Mark.text else fields.flatMap (filesMatching s.disk)

/-- What the words of a command stand for. -/
def wordFields (i : Interpreter) : List Word → Step (List Raw)
  | [] => return []
  | w :: ws => do
    let first ← w.fields i
    return first ++ (← wordFields i ws)

end IncrementalBuild.Shell
