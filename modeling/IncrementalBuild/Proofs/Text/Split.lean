import IncrementalBuild.Text.Split

/-!
Cuts of texts taken together again: what is cut out of an appended text is cut out of its parts. A
piece is found at its first occurrence, which what stands before it can only move. Of texts that are
written line by line, each line comes back without the line feed that ends it, and without a carriage
return before that.
-/

namespace IncrementalBuild.Text

variable {c : Char} {cs l r : List Char}

theorem splitOn_append {suffix : List Char} (hsuffix : c ∉ suffix) (cs : List Char) :
    ∃ init last, splitOn c cs = init ++ [last] ∧
      splitOn c (cs ++ suffix) = init ++ [last ++ suffix] := by
  induction cs with
  | nil =>
    refine ⟨[], [], rfl, ?_⟩
    induction suffix with
    | nil => rfl
    | cons d ds ih =>
      obtain ⟨hd, hds⟩ := List.ne_and_not_mem_of_not_mem_cons hsuffix
      have hrest := ih hds
      simp only [List.nil_append] at hrest ⊢
      rw [splitOn, if_neg (Ne.symm hd), hrest]
  | cons d ds ih =>
    obtain ⟨init, last, hold, hnew⟩ := ih
    rw [List.cons_append, splitOn, splitOn, hold, hnew]
    by_cases hd : d = c
    · exact ⟨[] :: init, last, by simp [hd], by simp [hd]⟩
    · rw [if_neg hd, if_neg hd]
      cases init with
      | nil => exact ⟨[], d :: last, rfl, rfl⟩
      | cons p ps => exact ⟨(d :: p) :: ps, last, rfl, rfl⟩

theorem splitOn_ne_nil (c : Char) (cs : List Char) : splitOn c cs ≠ [] := by
  obtain ⟨init, last, hsplit, -⟩ := splitOn_append (List.not_mem_nil (a := c)) cs
  simp [hsplit]

theorem splitOn_of_not_mem (h : c ∉ cs) : splitOn c cs = [cs] := by
  obtain ⟨init, last, hempty, hsplit⟩ := splitOn_append h []
  obtain ⟨rfl, rfl⟩ : init = [] ∧ last = [] := by
    simpa [splitOn, List.append_eq_singleton_iff] using hempty.symm
  simpa using hsplit

/-- A text that has a separator is cut there. -/
theorem splitOn_append_cons (l r : List Char) :
    splitOn c (l ++ c :: r) = splitOn c l ++ splitOn c r := by
  induction l with
  | nil => simp [splitOn]
  | cons d ds ih =>
    rw [List.cons_append, splitOn, splitOn, ih]
    split
    · rfl
    · cases hsplit : splitOn c ds with
      | nil => exact absurd hsplit (splitOn_ne_nil c ds)
      | cons p ps => rfl

theorem not_mem_of_mem_splitOn {piece : List Char} (h : piece ∈ splitOn c cs) : c ∉ piece := by
  induction cs generalizing piece with
  | nil => simp_all [splitOn]
  | cons d ds ih =>
    rw [splitOn] at h
    split at h
    next =>
      rcases List.mem_cons.1 h with rfl | h
      · exact List.not_mem_nil
      · exact ih h
    next hd =>
      split at h
      next hsplit => exact absurd hsplit (splitOn_ne_nil c ds)
      next p ps hsplit =>
        rcases List.mem_cons.1 h with rfl | h
        · simpa [Ne.symm hd] using ih (hsplit ▸ List.mem_cons_self)
        · exact ih (hsplit ▸ List.mem_cons_of_mem p h)

/-- Pieces without separators are found again where they are written between separators. -/
theorem splitOn_intercalate {pieces : List (List Char)} (hne : pieces ≠ [])
    (h : ∀ piece ∈ pieces, c ∉ piece) : splitOn c ([c].intercalate pieces) = pieces := by
  induction pieces with
  | nil => exact absurd rfl hne
  | cons p ps ih =>
    cases ps with
    | nil => simpa using splitOn_of_not_mem (h p List.mem_cons_self)
    | cons q ps =>
      have hrest := ih (by simp) fun piece hpiece => h piece (List.mem_cons_of_mem p hpiece)
      rw [List.intercalate_cons_cons, List.append_assoc, List.singleton_append,
        splitOn_append_cons, splitOn_of_not_mem (h p List.mem_cons_self), hrest]
      rfl

theorem intercalate_splitOn (c : Char) (cs : List Char) : [c].intercalate (splitOn c cs) = cs := by
  induction cs with
  | nil => rfl
  | cons d ds ih =>
    rw [splitOn]
    cases hsplit : splitOn c ds with
    | nil => exact absurd hsplit (splitOn_ne_nil c ds)
    | cons p ps =>
      rw [hsplit] at ih
      split
      next hd => simp [List.intercalate_cons_cons, ih, hd]
      next =>
        cases ps with
        | nil => simpa using ih
        | cons q ps => simpa [List.intercalate_cons_cons] using ih

theorem splitOnce_append_cons (h : c ∉ l) (r : List Char) :
    splitOnce c (l ++ c :: r) = some (l, r) := by
  induction l with
  | nil => simp [splitOnce]
  | cons d ds ih =>
    obtain ⟨hd, hds⟩ := List.ne_and_not_mem_of_not_mem_cons h
    simp [splitOnce, Ne.symm hd, ih hds]

theorem splitOnce_of_not_mem (h : c ∉ cs) : splitOnce c cs = none := by
  induction cs with
  | nil => rfl
  | cons d ds ih =>
    obtain ⟨hd, hds⟩ := List.ne_and_not_mem_of_not_mem_cons h
    simp [splitOnce, Ne.symm hd, ih hds]

theorem not_mem_of_splitOnce (h : splitOnce c cs = some (l, r)) : c ∉ l := by
  induction cs generalizing l with
  | nil => cases h
  | cons d ds ih =>
    rw [splitOnce] at h
    split at h
    next => simp_all
    next hd =>
      obtain ⟨⟨l', r'⟩, hcut, hl⟩ := Option.map_eq_some_iff.1 h
      cases hl
      simp [Ne.symm hd, ih hcut]

theorem splitLast_append_cons (l : List Char) (h : c ∉ r) :
    splitLast c (l ++ c :: r) = some (l, r) := by
  have hreverse : (l ++ c :: r).reverse = r.reverse ++ c :: l.reverse := by simp
  rw [splitLast, hreverse, splitOnce_append_cons (by simpa using h)]
  simp

theorem splitLast_of_not_mem (h : c ∉ cs) : splitLast c cs = none := by
  rw [splitLast, splitOnce_of_not_mem (by simpa using h)]
  rfl

theorem after?_eq_some_iff {piece : List Char} : after? piece cs = some r ↔ cs = piece ++ r := by
  refine ⟨eq_of_after?, ?_⟩
  rintro rfl
  induction piece with
  | nil => rfl
  | cons p ps ih => rw [List.cons_append, after?, if_pos rfl, ih]

theorem splitAtPiece_singleton (c : Char) (cs : List Char) :
    splitAtPiece [c] cs = splitOnce c cs := by
  induction cs with
  | nil => rfl
  | cons d ds ih =>
    rw [splitAtPiece, splitOnce, ih, after?]
    by_cases hd : d = c
    · rw [if_pos hd.symm, if_pos hd]
      rfl
    · rw [if_neg (Ne.symm hd), if_neg hd]

section Pieces

variable {piece before : List Char}

theorem after?_eq_none_iff : after? piece cs = none ↔ ¬ piece <+: cs := by
  rw [Option.eq_none_iff_forall_ne_some]
  refine ⟨fun h ⟨r, hr⟩ => h r (after?_eq_some_iff.2 hr.symm), fun h r hr => h ⟨r, ?_⟩⟩
  exact (after?_eq_some_iff.1 hr).symm

@[simp] theorem after?_append (piece r : List Char) : after? piece (piece ++ r) = some r :=
  after?_eq_some_iff.2 rfl

theorem splitAtPiece_of_prefix (piece r : List Char) :
    splitAtPiece piece (piece ++ r) = some ([], r) := by
  cases hcs : piece ++ r with
  | nil => rw [splitAtPiece, ← hcs, after?_append]; rfl
  | cons c cs => rw [splitAtPiece, ← hcs, after?_append]

/-- A text is not cut just if the piece occurs nowhere in it. -/
theorem splitAtPiece_eq_none_iff : splitAtPiece piece cs = none ↔ ¬ piece <:+: cs := by
  induction cs with
  | nil => simp [splitAtPiece, after?_eq_none_iff]
  | cons c cs ih =>
    rw [splitAtPiece, List.infix_cons_iff, not_or, ← after?_eq_none_iff, ← ih]
    cases after? piece (c :: cs) <;> simp

/-- What stands before the first occurrence of a piece is in the part before the cut. -/
theorem splitAtPiece_append {rest : List Char}
    (h : ∀ r, r ≠ [] → r <:+ before → ¬ piece <+: r ++ rest) :
    splitAtPiece piece (before ++ rest) =
      (splitAtPiece piece rest).map fun (l, r) => (before ++ l, r) := by
  induction before with
  | nil => simp
  | cons c cs ih =>
    have hhere : after? piece (c :: (cs ++ rest)) = none :=
      after?_eq_none_iff.2 (h (c :: cs) (by simp) List.suffix_rfl)
    have hrest := ih fun r hr hsuffix => h r hr (hsuffix.trans (List.suffix_cons c cs))
    rw [List.cons_append, splitAtPiece, hhere, hrest, Option.map_map]
    rfl

end Pieces

section Lines

/-- How a line of a text ends. -/
inductive LineEnd where
  | feed
  | returnFeed
  deriving DecidableEq, Repr

namespace LineEnd

/-- What stands before the line feed. -/
def beforeFeed : LineEnd → List Char
  | feed => []
  | returnFeed => ['\r']

/-- The characters that end the line. -/
def text (e : LineEnd) : List Char :=
  e.beforeFeed ++ ['\n']

theorem not_mem_beforeFeed (e : LineEnd) : '\n' ∉ e.beforeFeed := by
  cases e <;> decide

end LineEnd

/-- A text with a line feed is the line before it and the lines behind it. -/
theorem lines_append_feed (h : '\n' ∉ l) (cs : List Char) :
    lines (l ++ '\n' :: cs) = withoutReturn l :: lines cs := by
  obtain ⟨piece, pieces, hsplit⟩ := List.exists_cons_of_ne_nil (splitOn_ne_nil '\n' cs)
  rw [lines, splitOn_append_cons, splitOn_of_not_mem h, lines, hsplit, List.singleton_append,
    List.dropLast_cons_cons, List.getLast?_cons_cons]
  split <;> simp

theorem lines_append_lineEnd (h : '\n' ∉ l) (e : LineEnd) (cs : List Char) :
    lines (l ++ (e.text ++ cs)) = withoutReturn (l ++ e.beforeFeed) :: lines cs := by
  have hline : '\n' ∉ l ++ e.beforeFeed := by simpa [h] using e.not_mem_beforeFeed
  rw [← lines_append_feed hline]
  simp [LineEnd.text]

/-- A line feed at the end is not needed, but it takes one for the last line to be empty. -/
theorem lines_of_not_mem (h : '\n' ∉ l) : lines l = if l.isEmpty then [] else [l] := by
  rw [lines, splitOn_of_not_mem h]
  cases l <;> rfl

theorem withoutReturn_of_getLast? (h : l.getLast? ≠ some '\r') : withoutReturn l = l :=
  if_neg h

@[simp] theorem withoutReturn_append_return (l : List Char) : withoutReturn (l ++ ['\r']) = l := by
  simp [withoutReturn]

/-- A line is found again, whichever way it ends, unless it ends in a carriage return itself. -/
theorem withoutReturn_append_beforeFeed (h : l.getLast? ≠ some '\r') (e : LineEnd) :
    withoutReturn (l ++ e.beforeFeed) = l := by
  cases e with
  | feed => simpa [LineEnd.beforeFeed] using withoutReturn_of_getLast? h
  | returnFeed => exact withoutReturn_append_return l

theorem withoutReturn_prefix (l : List Char) : withoutReturn l <+: l := by
  unfold withoutReturn
  split
  · exact List.dropLast_prefix l
  · exact List.prefix_rfl

/-- No more than the line is read of it, whichever way it ends. -/
theorem withoutReturn_append_beforeFeed_prefix (l : List Char) (e : LineEnd) :
    withoutReturn (l ++ e.beforeFeed) <+: l := by
  cases e with
  | feed => simpa [LineEnd.beforeFeed] using withoutReturn_prefix l
  | returnFeed => exact (withoutReturn_append_return l).symm ▸ List.prefix_rfl

end Lines

end IncrementalBuild.Text
