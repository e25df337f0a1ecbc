import IncrementalBuild.Settings.Token
import IncrementalBuild.Settings.Error
import IncrementalBuild.Text.Alphanumeric
import IncrementalBuild.Text.Blank

/-!
Reading tokens from the text of a description file. `lexeme` takes one token, blank or comment from
the front of the text, and `tokens?` repeats it to the end. The rest after a lexeme is a shorter
text, except after an empty value, which leaves the mode that allowed it.
-/

namespace IncrementalBuild.Settings

/-- What the reader remembers between lexemes. -/
structure Mode where
  /-- The last token was `=`, so a value comes next. -/
  expectsValue : Bool
  /-- How many blocks are open. -/
  depth : Nat
  deriving DecidableEq, Repr, Inhabited

namespace Mode

/-- The mode at the start of a text. -/
def start : Mode := ⟨false, 0⟩

/-- The mode after a lexeme, which may be a token or a gap. -/
def after (m : Mode) : Option Token → Mode
  | none => m
  | some .assign => { m with expectsValue := true }
  | some .openBrace => ⟨false, m.depth + 1⟩
  | some .closeBrace => ⟨false, m.depth - 1⟩
  | some _ => { m with expectsValue := false }

/-- Whether `c` can be part of an unquoted value: in a block, a closing brace ends one. -/
def inValue (m : Mode) (c : Char) : Bool :=
  c != '\n' && !(m.depth > 0 && c == '}')

end Mode

/-- The characters a word can start with. -/
def isWordStart (c : Char) : Bool :=
  Text.isAlphanumeric c || c == '_'

/-- The characters a word can go on with. -/
def isWordInner (c : Char) : Bool :=
  Text.isAlphanumeric c || c == '_' || c == '.' || c == '-' || c == '+'

/-- What a backslash and `c` stand for in a quoted string. -/
def unescape : Char → List Char
  | 'n' => ['\n']
  | 't' => ['\t']
  | '\\' => ['\\']
  | '"' => ['"']
  | c => ['\\', c]

/-- The content of a quoted string and the text after it, from behind the opening quote. A line
end that is not escaped, or the end of the text, leaves the string open. -/
def quotedText : List Char → Option (List Char × List Char)
  | [] => none
  | '"' :: cs => some ([], cs)
  | '\n' :: _ => none
  | ['\\'] => none
  | '\\' :: c :: cs => (quotedText cs).map fun (s, r) => (unescape c ++ s, r)
  | c :: cs => (quotedText cs).map fun (s, r) => (c :: s, r)

/-- The content of a group marker and the text after it, from behind the opening bracket. -/
def markerText : List Char → Option (List Char × List Char)
  | [] => none
  | ']' :: cs => some ([], cs)
  | '\n' :: _ => none
  | c :: cs => (markerText cs).map fun (s, r) => (c :: s, r)

/-- Why no lexeme can be read. -/
inductive LexicalFault where
  | character (c : Char)
  | openString
  | openMarker
  deriving DecidableEq, Repr, Inhabited

/-- A fault as an error of the file. -/
def LexicalFault.toError (place : Place) : LexicalFault → Error
  | character c => .unexpectedCharacter place c
  | openString => .unterminatedString place
  | openMarker => .unterminatedGroup place

/-- A lexeme at the front of a text, `none` for a blank or a comment, and the text after it. -/
abbrev LexemeResult := Except LexicalFault (Option Token × List Char)

/-- The lexeme that starts with `c` where no unquoted value is expected. -/
def symbol (c : Char) (cs : List Char) : LexemeResult :=
  match c with
  | ' ' | '\t' | '\r' | '\n' => .ok (none, cs)
  | '#' => .ok (none, cs.dropWhile (· != '\n'))
  | '/' =>
    if cs.head? = some '/' then .ok (none, cs.dropWhile (· != '\n')) else .error (.character c)
  | '"' =>
    match quotedText cs with
    | some (s, r) => .ok (some (.quoted (String.ofList s)), r)
    | none => .error .openString
  | '[' =>
    match markerText cs with
    | some (s, r) => .ok (some (.group (String.ofList (Text.trim s))), r)
    | none => .error .openMarker
  | '=' => if cs.head? = some '=' then .ok (some (.comparison .equal), cs.tail)
    else .ok (some .assign, cs)
  | '!' => if cs.head? = some '=' then .ok (some (.comparison .notEqual), cs.tail)
    else .ok (some .notOp, cs)
  | '<' => if cs.head? = some '=' then .ok (some (.comparison .lessEqual), cs.tail)
    else .ok (some (.comparison .less), cs)
  | '>' => if cs.head? = some '=' then .ok (some (.comparison .greaterEqual), cs.tail)
    else .ok (some (.comparison .greater), cs)
  | '&' => if cs.head? = some '&' then .ok (some .andOp, cs.tail) else .error (.character c)
  | '|' => if cs.head? = some '|' then .ok (some .orOp, cs.tail) else .error (.character c)
  | '(' => .ok (some .openParen, cs)
  | ')' => .ok (some .closeParen, cs)
  | '{' => .ok (some .openBrace, cs)
  | '}' => .ok (some .closeBrace, cs)
  | _ =>
    if isWordStart c then
      .ok (some (.ofWord (String.ofList (c :: cs.takeWhile isWordInner))),
        cs.dropWhile isWordInner)
    else .error (.character c)

/-- The lexeme that starts with `c`. Where a value is expected, everything but a blank before it
and a quoted string is read as an unquoted value. -/
def lexeme (m : Mode) (c : Char) (cs : List Char) : LexemeResult :=
  if m.expectsValue && c != ' ' && c != '\t' && c != '"' then
    .ok (some (.value (String.ofList (Text.trim ((c :: cs).takeWhile m.inValue)))),
      (c :: cs).dropWhile m.inValue)
  else symbol c cs

/-- What is dropped from a text shortens it. -/
theorem length_dropWhile_le (p : Char → Bool) (cs : List Char) :
    (cs.dropWhile p).length ≤ cs.length :=
  (List.dropWhile_suffix p).length_le

/-- A quoted string takes characters from the text. -/
theorem length_of_quotedText {cs s r : List Char} (h : quotedText cs = some (s, r)) :
    r.length < cs.length := by
  fun_induction quotedText cs generalizing s with
  | case1 => simp at h
  | case2 cs => simp at h; simp [h.2]
  | case3 => simp at h
  | case4 => simp at h
  | case5 c cs ih =>
    simp only [Option.map_eq_some_iff, Prod.exists, Prod.mk.injEq] at h
    obtain ⟨s', r', h', _, rfl⟩ := h
    have := ih h'
    simp only [List.length_cons]
    omega
  | case6 c cs _ _ _ _ ih =>
    simp only [Option.map_eq_some_iff, Prod.exists, Prod.mk.injEq] at h
    obtain ⟨s', r', h', _, rfl⟩ := h
    have := ih h'
    simp only [List.length_cons]
    omega

/-- A group marker takes characters from the text. -/
theorem length_of_markerText {cs s r : List Char} (h : markerText cs = some (s, r)) :
    r.length < cs.length := by
  fun_induction markerText cs generalizing s with
  | case1 => simp at h
  | case2 cs => simp at h; simp [h.2]
  | case3 => simp at h
  | case4 c cs _ _ ih =>
    simp only [Option.map_eq_some_iff, Prod.exists, Prod.mk.injEq] at h
    obtain ⟨s', r', h', _, rfl⟩ := h
    have := ih h'
    simp only [List.length_cons]
    omega

/-- A symbol takes at least its first character. -/
theorem length_of_symbol {c : Char} {cs r : List Char} {t : Option Token}
    (h : symbol c cs = .ok (t, r)) : r.length ≤ cs.length := by
  have tail : cs.tail.length ≤ cs.length := by simp
  have drop := fun p => length_dropWhile_le p cs
  unfold symbol at h
  split at h <;> (try split at h) <;>
    simp only [Except.ok.injEq, Prod.mk.injEq, reduceCtorEq] at h <;> obtain ⟨_, rfl⟩ := h
  all_goals
    first
      | exact Nat.le_refl _
      | exact tail
      | exact drop _
      | exact Nat.le_of_lt (length_of_quotedText (by assumption))
      | exact Nat.le_of_lt (length_of_markerText (by assumption))

/-- How much there is left to read: the text, and the mode in which a value may be empty. -/
def Mode.weight (m : Mode) (cs : List Char) : Nat :=
  2 * cs.length + m.expectsValue.toNat

/-- Every lexeme leaves less to read. -/
theorem weight_of_lexeme {m : Mode} {c : Char} {cs r : List Char} {t : Option Token}
    (h : lexeme m c cs = .ok (t, r)) : (m.after t).weight r < m.weight (c :: cs) := by
  have bound (b : Bool) : b.toNat ≤ 1 := by cases b <;> decide
  unfold lexeme at h
  split at h
  next hv =>
    simp only [Except.ok.injEq, Prod.mk.injEq] at h
    obtain ⟨rfl, rfl⟩ := h
    have := length_dropWhile_le m.inValue (c :: cs)
    simp only [Bool.and_eq_true] at hv
    simp only [Mode.weight, Mode.after, hv.1.1.1, Bool.toNat_true, Bool.toNat_false]
    omega
  next =>
    have := length_of_symbol h
    have := bound (m.after t).expectsValue
    simp only [Mode.weight, List.length_cons]
    omega

/-- The tokens of the text that starts at `place` and is read in mode `m`. -/
def tokensFrom (file : Path) (m : Mode) (position : Position) :
    List Char → Except Error (List Placed)
  | [] => .ok []
  | c :: cs =>
    match _h : lexeme m c cs with
    | .error fault => .error (fault.toError ⟨file, position⟩)
    | .ok (t, rest) =>
      let next := position.afterAll ((c :: cs).take ((c :: cs).length - rest.length))
      match tokensFrom file (m.after t) next rest with
      | .error e => .error e
      | .ok ts =>
        match t with
        | none => .ok ts
        | some token => .ok (⟨token, ⟨file, position⟩⟩ :: ts)
termination_by cs => m.weight cs
decreasing_by exact weight_of_lexeme (by assumption)

/-- The tokens of a description file. -/
def tokens? (file : Path) (source : String) : Except Error (List Placed) :=
  tokensFrom file .start .start source.toList

end IncrementalBuild.Settings
