import IncrementalBuild.Text.Blank
import IncrementalBuild.Text.Split

/-!
Texts with references. A `$(` opens a reference and the next `)` closes it; what stands between is
the name referred to. A text is read as the list of its pieces, or refused at the first `$(` that
nothing closes.
-/

namespace IncrementalBuild.Settings

/-- A piece of a text with references. -/
inductive Piece where
  | text (s : String)
  /-- What stands between `$(` and the next `)`, trimmed. -/
  | reference (name : String)
  deriving DecidableEq, Repr, Inhabited

/-- The mark that opens a reference. -/
def referenceMark : List Char :=
  ['$', '(']

/-- How many bytes a text takes. -/
def byteLength : List Char → Nat
  | [] => 0
  | c :: cs => c.utf8Size + byteLength cs

/-- A text piece, unless it is empty. -/
def textPiece (cs : List Char) : List Piece :=
  if cs.isEmpty then [] else [.text (String.ofList cs)]

/-- The pieces of a text that starts `offset` bytes into the whole, or the offset of the first
`$(` that nothing closes. -/
def piecesFrom (offset : Nat) (cs : List Char) : Except Nat (List Piece) :=
  match _hmark : Text.splitAtPiece referenceMark cs with
  | none => .ok (textPiece cs)
  | some (before, opened) =>
    match _hclose : Text.splitOnce ')' opened with
    | none => .error (offset + byteLength before)
    | some (name, rest) =>
      match piecesFrom (offset + byteLength (before ++ referenceMark ++ name) + 1) rest with
      | .error unclosed => .error unclosed
      | .ok pieces =>
        .ok (textPiece before ++ .reference (String.ofList (Text.trim name)) :: pieces)
termination_by cs.length
decreasing_by
  have h₁ := Text.eq_of_splitAtPiece (by assumption)
  have h₂ := Text.eq_of_splitOnce (by assumption)
  simp [h₁, h₂]
  omega

/-- The pieces of a text, or the byte offset of the first `$(` that nothing closes. -/
def pieces? (s : String) : Except Nat (List Piece) :=
  piecesFrom 0 s.toList

/-- Whether a text has a `$(` that nothing closes. -/
def isUnterminated (s : String) : Bool :=
  match pieces? s with
  | .ok _ => false
  | .error _ => true

end IncrementalBuild.Settings
