/-!
Cutting texts at characters and at fixed pieces of text. Each function says on the list of
characters where it cuts, and nothing but the cut itself is lost.
-/

namespace IncrementalBuild.Text

/-- The text before the first `c` and the text after it, if there is a `c`. -/
def splitOnce (c : Char) : List Char → Option (List Char × List Char)
  | [] => none
  | d :: ds => if d = c then some ([], ds) else (splitOnce c ds).map fun (l, r) => (d :: l, r)

/-- A cut loses the character it is made at and nothing else. -/
theorem eq_of_splitOnce {c : Char} {cs l r : List Char} (h : splitOnce c cs = some (l, r)) :
    cs = l ++ c :: r := by
  induction cs generalizing l with
  | nil => simp [splitOnce] at h
  | cons d ds ih =>
    unfold splitOnce at h
    split at h
    next hd =>
      simp only [Option.some.injEq, Prod.mk.injEq] at h
      obtain ⟨rfl, rfl⟩ := h
      simp [hd]
    next =>
      simp only [Option.map_eq_some_iff, Prod.exists, Prod.mk.injEq] at h
      obtain ⟨l', r', h', rfl, rfl⟩ := h
      simp [ih h']

/-- The text before the last `c` and the text after it, if there is a `c`. -/
def splitLast (c : Char) (cs : List Char) : Option (List Char × List Char) :=
  (splitOnce c cs.reverse).map fun (l, r) => (r.reverse, l.reverse)

/-- `cs` without the piece it starts with, if it starts with it. -/
def after? : (piece : List Char) → (cs : List Char) → Option (List Char)
  | [], cs => some cs
  | _ :: _, [] => none
  | p :: ps, c :: cs => if p = c then after? ps cs else none

/-- What follows the piece a text starts with, and the piece, make up the text. -/
theorem eq_of_after? {piece cs r : List Char} (h : after? piece cs = some r) : cs = piece ++ r := by
  induction piece generalizing cs with
  | nil => simpa [after?] using h
  | cons p ps ih =>
    cases cs with
    | nil => simp [after?] at h
    | cons c cs =>
      unfold after? at h
      split at h
      next hc => simp [hc, ih h]
      next => simp at h

/-- The text before the first occurrence of `piece` and the text after it. -/
def splitAtPiece (piece : List Char) : List Char → Option (List Char × List Char)
  | [] => (after? piece []).map fun r => ([], r)
  | c :: cs =>
    match after? piece (c :: cs) with
    | some r => some ([], r)
    | none => (splitAtPiece piece cs).map fun (l, r) => (c :: l, r)

/-- A cut loses the piece it is made at and nothing else. -/
theorem eq_of_splitAtPiece {piece cs l r : List Char} (h : splitAtPiece piece cs = some (l, r)) :
    cs = l ++ piece ++ r := by
  induction cs generalizing l with
  | nil =>
    simp only [splitAtPiece, Option.map_eq_some_iff, Prod.mk.injEq] at h
    obtain ⟨r', h', rfl, rfl⟩ := h
    simpa using eq_of_after? h'
  | cons c cs ih =>
    unfold splitAtPiece at h
    split at h
    next r' h' =>
      simp only [Option.some.injEq, Prod.mk.injEq] at h
      obtain ⟨rfl, rfl⟩ := h
      simpa using eq_of_after? h'
    next =>
      simp only [Option.map_eq_some_iff, Prod.exists, Prod.mk.injEq] at h
      obtain ⟨l', r', h', rfl, rfl⟩ := h
      simp [ih h']

/-- The pieces between the `c`s of a text: one more than there are `c`s. -/
def splitOn (c : Char) : List Char → List (List Char)
  | [] => [[]]
  | d :: ds =>
    if d = c then [] :: splitOn c ds
    else match splitOn c ds with
      | [] => [[d]]
      | p :: ps => (d :: p) :: ps

/-- A line without the carriage return at its end. -/
def withoutReturn (line : List Char) : List Char :=
  if line.getLast? = some '\r' then line.dropLast else line

/-- The lines of a text. A line ends at a line feed, or a carriage return and a line feed; the last
line needs no end, and a text that ends with a line end has no empty line after it. A carriage
return stays where no line feed follows. -/
def lines (cs : List Char) : List (List Char) :=
  let pieces := splitOn '\n' cs
  let ended := pieces.dropLast.map withoutReturn
  match pieces.getLast? with
  | none | some [] => ended
  | some l => ended ++ [l]

/-- Replaces every occurrence of the character `c` by a piece of text. -/
def replaceChar (c : Char) (piece : List Char) (cs : List Char) : List Char :=
  cs.flatMap fun d => if d = c then piece else [d]

end IncrementalBuild.Text
