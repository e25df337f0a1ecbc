import IncrementalBuild.Proofs.Text.Blank
import IncrementalBuild.Proofs.Text.Split
import IncrementalBuild.Settings.Template

/-!
How a text is cut at its references. The cut goes from the left: a segment without the mark that
opens a reference, then the reference up to the first `)` behind the mark, and so on with the rest,
until no mark is left or nothing closes the one that is found. Put together again as they are
written, the segments are the text up to there.
-/

namespace IncrementalBuild.Settings

/-- A part of a text with references, as it is written in characters or in bytes. -/
inductive Segment (α : Type) where
  | text (cs : List α)
  /-- What stands between `$(` and the next `)`, with its blanks. -/
  | reference (inner : List α)

namespace Segment

/-- A text segment, unless it is empty. -/
def ofText {α : Type} (cs : List α) : List (Segment α) :=
  if cs.isEmpty then [] else [.text cs]

/-- What a segment is in the text. -/
def source : Segment Char → List Char
  | text cs => cs
  | reference inner => referenceMark ++ inner ++ [')']

/-- The piece that a segment is read as. -/
def piece : Segment Char → Piece
  | text cs => .text (String.ofList cs)
  | reference inner => .reference (String.ofList (Text.trim inner))

/-- A text segment has something in it and opens no reference; a reference ends with the first `)`
behind its mark. -/
def Proper : Segment Char → Prop
  | text cs => cs ≠ [] ∧ ¬ referenceMark <:+: cs
  | reference inner => ')' ∉ inner

@[simp] theorem source_ofText (cs : List Char) : (ofText cs).flatMap source = cs := by
  cases cs <;> simp [ofText, source]

@[simp] theorem map_piece_ofText (cs : List Char) : (ofText cs).map piece = textPiece cs := by
  cases cs <;> rfl

theorem proper_ofText {cs : List Char} (h : ¬ referenceMark <:+: cs) :
    ∀ seg ∈ ofText cs, seg.Proper := by
  cases cs with
  | nil => nofun
  | cons c cs => exact List.forall_mem_singleton.2 ⟨List.cons_ne_nil c cs, h⟩

end Segment

variable {cs before inner opened rest l r : List Char} {segs : List (Segment Char)}
  {unclosed : Option (List Char)} {offset : Nat}

/-- A text is cut into segments, up to the first mark that nothing closes if there is one; then
what is behind that mark is left. -/
inductive Cut : List Char → List (Segment Char) → Option (List Char) → Prop where
  | last {cs : List Char} (hcs : ¬ referenceMark <:+: cs) : Cut cs (Segment.ofText cs) none
  | unclosed {before opened : List Char} (hbefore : ¬ referenceMark <:+: before)
      (hopened : ')' ∉ opened) :
      Cut (before ++ (referenceMark ++ opened)) (Segment.ofText before) (some opened)
  | reference {before inner rest : List Char} {segs : List (Segment Char)}
      {unclosed : Option (List Char)} (hbefore : ¬ referenceMark <:+: before)
      (hinner : ')' ∉ inner) (hrest : Cut rest segs unclosed) :
      Cut (before ++ (referenceMark ++ (inner ++ ')' :: rest)))
        (Segment.ofText before ++ .reference inner :: segs) unclosed

theorem splitAtMark_append (h : ¬ referenceMark <:+: l) (r : List Char) :
    Text.splitAtPiece referenceMark (l ++ (referenceMark ++ r)) = some (l, r) := by
  have hpassed : ∀ s, s ≠ [] → s <:+ l → ¬ referenceMark <+: s ++ (referenceMark ++ r) := by
    -- The mark does not overlap itself, so one that starts here ends before the next one.
    intro s hs hsuffix hmark
    match s with
    | [c] => simp [referenceMark] at hmark
    | c :: d :: ds =>
      simp only [referenceMark, List.cons_append, List.cons_prefix_cons] at hmark
      obtain ⟨rfl, rfl, -⟩ := hmark
      exact h (List.IsInfix.trans ⟨[], ds, rfl⟩ hsuffix.isInfix)
  simp [Text.splitAtPiece_append hpassed, Text.splitAtPiece_of_prefix]

/-- A text has no mark, or a first one. -/
theorem mark_cases (cs : List Char) : ¬ referenceMark <:+: cs ∨
    ∃ l r, cs = l ++ (referenceMark ++ r) ∧ ¬ referenceMark <:+: l := by
  induction cs with
  | nil => exact .inl (by simp [referenceMark])
  | cons c cs ih =>
    by_cases hhere : referenceMark <+: c :: cs
    · obtain ⟨r, hr⟩ := hhere
      exact .inr ⟨[], r, hr.symm, by simp [referenceMark]⟩
    obtain hnone | ⟨l, r, rfl, hl⟩ := ih
    · exact .inl fun h => (List.infix_cons_iff.1 h).elim hhere hnone
    · refine .inr ⟨c :: l, r, rfl, fun h => (List.infix_cons_iff.1 h).elim ?_ hl⟩
      exact fun hinitial => hhere (hinitial.trans ⟨referenceMark ++ r, rfl⟩)

/-- Every text can be cut. -/
theorem exists_cut (cs : List Char) : ∃ segs unclosed, Cut cs segs unclosed := by
  induction hn : cs.length using Nat.strongRecOn generalizing cs with
  | _ n ih =>
    obtain hcs | ⟨before, opened, rfl, hbefore⟩ := mark_cases cs
    · exact ⟨_, _, .last hcs⟩
    by_cases hopened : ')' ∈ opened
    · obtain ⟨inner, rest, rfl, hinner⟩ := List.eq_append_cons_of_mem hopened
      obtain ⟨segs, unclosed, hrest⟩ := ih rest.length (by simp at hn; omega) rest rfl
      exact ⟨_, _, .reference hbefore hinner hrest⟩
    · exact ⟨_, _, .unclosed hbefore hopened⟩

theorem piecesFrom_of_unmarked (h : ¬ referenceMark <:+: cs) :
    piecesFrom offset cs = .ok (textPiece cs) := by
  rw [piecesFrom]
  split
  next => rfl
  next hmark =>
    rw [Text.splitAtPiece_eq_none_iff.2 h] at hmark
    cases hmark

theorem piecesFrom_unclosed (hbefore : ¬ referenceMark <:+: before) (hopened : ')' ∉ opened) :
    piecesFrom offset (before ++ (referenceMark ++ opened)) =
      .error (offset + byteLength before) := by
  rw [piecesFrom]
  split
  next hmark =>
    rw [splitAtMark_append hbefore] at hmark
    cases hmark
  next hmark =>
    rw [splitAtMark_append hbefore] at hmark
    cases hmark
    rw [Text.splitOnce_of_not_mem hopened]

theorem piecesFrom_reference (hbefore : ¬ referenceMark <:+: before) (hinner : ')' ∉ inner) :
    piecesFrom offset (before ++ (referenceMark ++ (inner ++ ')' :: rest))) =
      (piecesFrom (offset + byteLength (before ++ referenceMark ++ inner) + 1) rest).map
        fun ps => textPiece before ++ .reference (String.ofList (Text.trim inner)) :: ps := by
  rw [piecesFrom]
  split
  next hmark =>
    rw [splitAtMark_append hbefore] at hmark
    cases hmark
  next hmark =>
    rw [splitAtMark_append hbefore] at hmark
    cases hmark
    rw [Text.splitOnce_append_cons hinner]
    dsimp only
    cases piecesFrom (offset + byteLength (before ++ referenceMark ++ inner) + 1) rest <;> rfl

theorem byteLength_append (l r : List Char) :
    byteLength (l ++ r) = byteLength l + byteLength r := by
  induction l with
  | nil => simp [byteLength]
  | cons c cs ih => rw [List.cons_append, byteLength, byteLength, ih, Nat.add_assoc]

theorem byteLength_close : byteLength [')'] = 1 := rfl

namespace Cut

/-- The pieces of a text are those of its cut; what is refused is the mark behind the segments. -/
theorem piecesFrom_eq (h : Cut cs segs unclosed) (offset : Nat) :
    piecesFrom offset cs = match unclosed with
      | none => .ok (segs.map Segment.piece)
      | some _ => .error (offset + byteLength (segs.flatMap Segment.source)) := by
  induction h generalizing offset with
  | last hcs => rw [piecesFrom_of_unmarked hcs, Segment.map_piece_ofText]
  | unclosed hbefore hopened => rw [piecesFrom_unclosed hbefore hopened, Segment.source_ofText]
  | @reference before inner rest segs unclosed hbefore hinner hrest ih =>
    rw [piecesFrom_reference hbefore hinner, ih]
    cases unclosed with
    | none => simp [Except.map, Segment.piece]
    | some opened =>
      simp only [Except.map, List.flatMap_append, List.flatMap_cons, Segment.source_ofText,
        Segment.source, byteLength_append, byteLength_close]
      congr 1
      omega

/-- Nothing is lost but what is behind the mark that nothing closes. -/
theorem source_eq (h : Cut cs segs unclosed) :
    cs = segs.flatMap Segment.source ++ unclosed.elim [] (referenceMark ++ ·) := by
  induction h with
  | last => simp
  | unclosed => simp
  | reference _ _ _ ih =>
    conv => lhs; rw [ih]
    simp [Segment.source]

theorem proper (h : Cut cs segs unclosed) : ∀ seg ∈ segs, seg.Proper := by
  induction h with
  | last hcs => exact Segment.proper_ofText hcs
  | unclosed hbefore _ => exact Segment.proper_ofText hbefore
  | reference hbefore hinner _ ih =>
    intro seg hseg
    obtain hseg | rfl | hseg := by simpa using hseg
    · exact Segment.proper_ofText hbefore seg hseg
    · exact hinner
    · exact ih seg hseg

theorem not_mem_unclosed (h : Cut cs segs (some opened)) : ')' ∉ opened := by
  generalize hu : some opened = u at h
  induction h with
  | last => cases hu
  | unclosed _ hopened =>
    cases hu
    exact hopened
  | reference _ _ _ ih => exact ih hu

/-- What is before the mark that nothing closes is cut into the same segments. -/
theorem front (h : Cut cs segs unclosed) : Cut (segs.flatMap Segment.source) segs none := by
  induction h with
  | last hcs => simpa using Cut.last hcs
  | unclosed hbefore _ => simpa using Cut.last hbefore
  | reference hbefore hinner _ ih =>
    simpa [Segment.source] using Cut.reference hbefore hinner ih

/-- Behind a text that is cut to its end, a mark that nothing closes is the first one. -/
theorem append_unclosed (h : Cut cs segs none) (hopened : ')' ∉ opened) :
    Cut (cs ++ (referenceMark ++ opened)) segs (some opened) := by
  generalize hu : none = u at h
  induction h with
  | last hcs => exact .unclosed hcs hopened
  | unclosed => cases hu
  | reference hbefore hinner _ ih => simpa using Cut.reference hbefore hinner (ih hu)

/-- In a text that is cut to its end, every mark is followed by what closes a reference. -/
theorem closed (h : Cut cs segs none) (hcs : cs = l ++ (referenceMark ++ r)) : ')' ∈ r := by
  by_contra hr
  generalize hu : none = u at h
  induction h generalizing l with
  | last hnot => exact hnot ⟨l, r, by simp [hcs]⟩
  | unclosed => cases hu
  | @reference before inner rest _ _ _ _ _ ih =>
    -- The mark is behind what closes the first reference, so the rest has it too.
    have hmark : ')' ∉ referenceMark ++ r := by simpa [referenceMark] using hr
    have heq : (before ++ (referenceMark ++ inner)) ++ ')' :: rest = l ++ (referenceMark ++ r) := by
      simpa using hcs
    obtain ⟨behind, -, hbehind⟩ | ⟨behind, -, hbehind⟩ := List.append_eq_append_iff.1 heq
    · cases behind with
      | nil => exact hmark (hbehind ▸ List.mem_cons_self)
      | cons c behind =>
        obtain ⟨-, hrest⟩ := List.cons.inj hbehind
        exact ih hrest hu
    · exact hmark (hbehind ▸ List.mem_append_right behind List.mem_cons_self)

end Cut

theorem isUnterminated_iff {s : String} : isUnterminated s = true ↔
    ∃ l r, s.toList = l ++ (referenceMark ++ r) ∧ ')' ∉ r := by
  obtain ⟨segs, unclosed, hcut⟩ := exists_cut s.toList
  rw [isUnterminated, pieces?, hcut.piecesFrom_eq]
  cases unclosed with
  | none => simpa using fun l r hs => hcut.closed hs
  | some opened => simpa using ⟨_, opened, hcut.source_eq, hcut.not_mem_unclosed⟩

end IncrementalBuild.Settings
