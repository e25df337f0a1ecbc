import IncrementalBuild.Proofs.Disk.Walk
import IncrementalBuild.Proofs.Path
import IncrementalBuild.Proofs.Text.Blank
import IncrementalBuild.Proofs.Text.Split
import IncrementalBuild.State.DependencyFile

/-!
Dependency files are read back as what they list. A backslash in one stands before a space of a
name or before the end of a line, so joining the lines leaves every name as it is, and the names
are then cut at the blanks that no backslash stands before.
-/

namespace IncrementalBuild.State

open Text (LineEnd)

/-- A path that can be listed: a name is there, it has no backslash, no colon and no blanks but
spaces, and there are none of those at its ends. -/
structure Listable (p : Path) : Prop where
  ne_nil : p.text.toList ≠ []
  backslash : '\\' ∉ p.text.toList
  colon : ':' ∉ p.text.toList
  blank : ∀ c ∈ p.text.toList, Text.isBlank c = true → c = ' '
  head : p.text.toList.head? ≠ some ' '
  last : p.text.toList.getLast? ≠ some ' '

instance (p : Path) : Decidable (Listable p) :=
  have : Decidable (∀ c ∈ p.text.toList, Text.isBlank c = true → c = ' ') := List.decidableBAll _ _
  decidable_of_iff
    (p.text.toList ≠ [] ∧ '\\' ∉ p.text.toList ∧ ':' ∉ p.text.toList ∧
      (∀ c ∈ p.text.toList, Text.isBlank c = true → c = ' ') ∧
        p.text.toList.head? ≠ some ' ' ∧ p.text.toList.getLast? ≠ some ' ')
    ⟨fun ⟨h₁, h₂, h₃, h₄, h₅, h₆⟩ => ⟨h₁, h₂, h₃, h₄, h₅, h₆⟩,
      fun ⟨h₁, h₂, h₃, h₄, h₅, h₆⟩ => ⟨h₁, h₂, h₃, h₄, h₅, h₆⟩⟩

/-- A text with a backslash before each space. -/
def escapeSpaces (cs : List Char) : List Char :=
  Text.replaceChar ' ' ['\\', ' '] cs

/-- What stands before a name: a space, or one at the end of a line that the next line continues,
with an indentation. -/
inductive Gap where
  | space
  | continued (e : LineEnd) (indentation : List Char)

namespace Gap

/-- The characters of a gap. -/
def text : Gap → List Char
  | space => [' ']
  | continued e indentation => ' ' :: '\\' :: (e.text ++ indentation)

/-- What is left of a gap when the lines are joined. -/
def joined : Gap → List Char
  | space => [' ']
  | continued _ indentation => ' ' :: ' ' :: indentation

/-- An indentation is made of blanks, on one line. -/
def Legible : Gap → Prop
  | space => True
  | continued _ indentation => ∀ c ∈ indentation, Text.isBlank c = true ∧ c ≠ '\n'

instance : (g : Gap) → Decidable g.Legible
  | space => inferInstanceAs (Decidable True)
  | continued _ _ => List.decidableBAll _ _

end Gap

/-- A line behind the one that lists the dependencies: a blank one, or one that names a target
alone. -/
inductive Trailer where
  | blank (cs : List Char)
  | phony (target : Path)

namespace Trailer

/-- The characters of the line. -/
def text : Trailer → List Char
  | blank cs => cs
  | phony target => escapeSpaces target.text.toList ++ [':']

/-- The line is a single one, and a target in it can be listed. -/
def Legible : Trailer → Prop
  | blank cs => ∀ c ∈ cs, Text.isBlank c = true ∧ c ≠ '\n'
  | phony target => Listable target

instance : (t : Trailer) → Decidable t.Legible
  | blank _ => List.decidableBAll _ _
  | phony target => inferInstanceAs (Decidable (Listable target))

end Trailer

/-- What a dependency file says, and how it is laid out: a target with its dependencies, each with
the gap before it, and the lines behind them. -/
structure Listing where
  target : Path
  entries : List (Gap × Path)
  lineEnd : LineEnd
  trailers : List (Trailer × LineEnd)

namespace Listing

/-- The dependencies, in order. -/
def dependencies (l : Listing) : List Path :=
  l.entries.map Prod.snd

/-- The text of the file. -/
def text (l : Listing) : String :=
  String.ofList <|
    escapeSpaces l.target.text.toList ++ (':' ::
      ((l.entries.flatMap fun (gap, p) => gap.text ++ escapeSpaces p.text.toList) ++
        (l.lineEnd.text ++ l.trailers.flatMap fun (line, e) => line.text ++ e.text)))

/-- All paths can be listed, and the layout is one that tools write. -/
structure Legible (l : Listing) : Prop where
  target : Listable l.target
  entries : ∀ entry ∈ l.entries, entry.1.Legible ∧ Listable entry.2
  trailers : ∀ line ∈ l.trailers, line.1.Legible

end Listing

variable {c d : Char} {cs l r piece rest : List Char} {p : Path}

/-! ### Joining lines -/

theorem joinAt_of_none (h : Text.splitAtPiece piece cs = none) : joinAt piece cs = cs := by
  rw [joinAt]
  split <;> simp_all

theorem joinAt_of_some (hne : piece ≠ []) (h : Text.splitAtPiece piece cs = some (l, r)) :
    joinAt piece cs = l ++ ' ' :: joinAt piece r := by
  rw [joinAt]
  split <;> simp_all

theorem joinAt_piece_append (hne : piece ≠ []) (cs : List Char) :
    joinAt piece (piece ++ cs) = ' ' :: joinAt piece cs :=
  joinAt_of_some hne (Text.splitAtPiece_of_prefix piece cs)

theorem joinAt_cons_of_passed (h : ¬ piece <+: c :: cs) :
    joinAt piece (c :: cs) = c :: joinAt piece cs := by
  have hne : piece ≠ [] := by
    rintro rfl
    exact h List.nil_prefix
  have hhere := Text.after?_eq_none_iff.2 h
  cases hrest : Text.splitAtPiece piece cs with
  | none =>
    have hcut : Text.splitAtPiece piece (c :: cs) = none := by
      rw [Text.splitAtPiece, hhere, hrest]
      rfl
    rw [joinAt_of_none hcut, joinAt_of_none hrest]
  | some cut =>
    obtain ⟨l, r⟩ := cut
    have hcut : Text.splitAtPiece piece (c :: cs) = some (c :: l, r) := by
      rw [Text.splitAtPiece, hhere, hrest]
      rfl
    rw [joinAt_of_some hne hcut, joinAt_of_some hne hrest, List.cons_append]

/-- A text with its lines joined, whichever way they end. -/
def joinLines (cs : List Char) : List Char :=
  joinAt ['\\', '\n'] (joinAt ['\\', '\r', '\n'] cs)

theorem joinLines_nil : joinLines [] = [] := by
  have hfirst : joinAt ['\\', '\r', '\n'] [] = [] := joinAt_of_none rfl
  rw [joinLines, hfirst, joinAt_of_none rfl]

theorem joinLines_cons (h : c ≠ '\\') (cs : List Char) : joinLines (c :: cs) = c :: joinLines cs := by
  rw [joinLines, joinAt_cons_of_passed (by simp [h.symm]),
    joinAt_cons_of_passed (by simp [h.symm]), joinLines]

theorem joinLines_append (h : '\\' ∉ l) (cs : List Char) :
    joinLines (l ++ cs) = l ++ joinLines cs := by
  induction l with
  | nil => rfl
  | cons c l ih =>
    obtain ⟨hc, hl⟩ := List.ne_and_not_mem_of_not_mem_cons h
    rw [List.cons_append, joinLines_cons hc.symm, ih hl, List.cons_append]

/-- A backslash before a space joins nothing. -/
theorem joinLines_escape (cs : List Char) :
    joinLines ('\\' :: ' ' :: cs) = '\\' :: ' ' :: joinLines cs := by
  have hfirst : joinAt ['\\', '\r', '\n'] ('\\' :: ' ' :: cs) =
      '\\' :: ' ' :: joinAt ['\\', '\r', '\n'] cs := by
    rw [joinAt_cons_of_passed (by simp), joinAt_cons_of_passed (by simp)]
  rw [joinLines, hfirst, joinAt_cons_of_passed (by simp),
    joinAt_cons_of_passed (by simp), joinLines]

theorem joinLines_continued (e : LineEnd) (cs : List Char) :
    joinLines ('\\' :: (e.text ++ cs)) = ' ' :: joinLines cs := by
  cases e with
  | feed =>
    have hfirst : joinAt ['\\', '\r', '\n'] ('\\' :: '\n' :: cs) =
        ['\\', '\n'] ++ joinAt ['\\', '\r', '\n'] cs := by
      rw [joinAt_cons_of_passed (by simp), joinAt_cons_of_passed (by simp)]
      rfl
    rw [joinLines]
    exact (congrArg _ hfirst).trans (joinAt_piece_append (by simp) _)
  | returnFeed =>
    have hfirst : joinAt ['\\', '\r', '\n'] ('\\' :: '\r' :: '\n' :: cs) =
        ' ' :: joinAt ['\\', '\r', '\n'] cs := joinAt_piece_append (by simp) cs
    rw [joinLines]
    exact (congrArg _ hfirst).trans (joinAt_cons_of_passed (by simp))

theorem joinLines_escapeSpaces (h : '\\' ∉ l) (cs : List Char) :
    joinLines (escapeSpaces l ++ cs) = escapeSpaces l ++ joinLines cs := by
  induction l with
  | nil => rfl
  | cons c l ih =>
    obtain ⟨hc, hl⟩ := List.ne_and_not_mem_of_not_mem_cons h
    have hrest := ih hl
    simp only [escapeSpaces, Text.replaceChar, List.flatMap_cons, List.append_assoc] at hrest ⊢
    by_cases hspace : c = ' '
    · simp [hspace, joinLines_escape, hrest]
    · simp [hspace, joinLines_cons hc.symm, hrest]

/-! ### Paths as they are listed -/

theorem mem_escapeSpaces (h : c ∈ escapeSpaces cs) : c ∈ cs ∨ c = '\\' := by
  obtain ⟨d, hd, hc⟩ := List.mem_flatMap.1 h
  split at hc
  next hspace =>
    subst hspace
    rcases List.mem_cons.1 hc with rfl | hc
    · exact .inr rfl
    · exact .inl (List.mem_singleton.1 hc ▸ hd)
  next => exact .inl (List.mem_singleton.1 hc ▸ hd)

namespace Listable

theorem colon_not_mem_escaped (h : Listable p) : ':' ∉ escapeSpaces p.text.toList := fun hmem =>
  (mem_escapeSpaces hmem).elim h.colon (by decide)

theorem isBlank_of_mem (h : Listable p) (hc : c ∈ p.text.toList) (hspace : c ≠ ' ') :
    Text.isBlank c = false :=
  Bool.eq_false_iff.2 fun hblank => hspace (h.blank c hc hblank)

theorem feed_not_mem_escaped (h : Listable p) : '\n' ∉ escapeSpaces p.text.toList := by
  intro hmem
  rcases mem_escapeSpaces hmem with hmem | heq
  · exact absurd (h.blank _ hmem (by decide)) (by decide)
  · exact absurd heq (by decide)

theorem escapeSpaces_ne_nil (h : Listable p) : escapeSpaces p.text.toList ≠ [] := by
  obtain ⟨d, ds, hds⟩ := List.exists_cons_of_ne_nil h.ne_nil
  by_cases hd : d = ' ' <;> simp [hds, escapeSpaces, Text.replaceChar, hd]

/-- A listed path starts with a character that is no blank. -/
theorem isBlank_of_head? (h : Listable p) (rest : List Char) :
    ∀ c ∈ (escapeSpaces p.text.toList ++ rest).head?, Text.isBlank c = false := by
  obtain ⟨d, ds, hds⟩ := List.exists_cons_of_ne_nil h.ne_nil
  have hd : d ≠ ' ' := by simpa [hds] using h.head
  have hblank := h.isBlank_of_mem (c := d) (by simp [hds]) hd
  rintro c hc
  obtain rfl : d = c := by simpa [hds, escapeSpaces, Text.replaceChar, hd] using hc
  exact hblank

/-- It ends with one too. -/
theorem isBlank_of_getLast? (h : Listable p) :
    ∀ c ∈ (escapeSpaces p.text.toList).getLast?, Text.isBlank c = false := by
  obtain hnil | ⟨ds, d, hds⟩ := List.eq_nil_or_concat p.text.toList
  · exact absurd hnil h.ne_nil
  have hd : d ≠ ' ' := by simpa [hds] using h.last
  have hblank := h.isBlank_of_mem (c := d) (by simp [hds]) hd
  rintro c hc
  obtain rfl : d = c := by simpa [hds, escapeSpaces, Text.replaceChar, hd] using hc
  exact hblank

end Listable

/-! ### Names between blanks -/

theorem afterTarget?_append (h : ':' ∉ l) (cs : List Char) :
    afterTarget? (l ++ cs) = afterTarget? cs := by
  induction l with
  | nil => rfl
  | cons c l ih =>
    obtain ⟨hc, hl⟩ := List.ne_and_not_mem_of_not_mem_cons h
    rw [List.cons_append, afterTarget?, ih hl]
    · simp [hc.symm]
    · simp [hc.symm]

/-- The name that has been read, if there is one. -/
def finished (name : List Char) : List (List Char) :=
  if name.isEmpty then [] else [name.reverse]

theorem namesFrom_nil (name : List Char) : namesFrom name [] = finished name := rfl

theorem namesFrom_cons (h : c ≠ '\\') (name cs : List Char) : namesFrom name (c :: cs) =
    if Text.isBlank c then finished name ++ namesFrom [] cs else namesFrom (c :: name) cs := by
  conv => lhs; unfold namesFrom
  split
  next heq => cases heq
  next heq =>
    cases heq
    exact absurd rfl h
  next heq =>
    cases heq
    unfold finished
    split <;> [split <;> rfl; rfl]

theorem namesFrom_cons_of_blank (h : Text.isBlank c = true) (name cs : List Char) :
    namesFrom name (c :: cs) = finished name ++ namesFrom [] cs := by
  have hc : c ≠ '\\' := by
    rintro rfl
    exact absurd h (by decide)
  rw [namesFrom_cons hc, if_pos h]

theorem namesFrom_append_of_blank (h : ∀ c ∈ l, Text.isBlank c = true) (cs : List Char) :
    namesFrom [] (l ++ cs) = namesFrom [] cs := by
  induction l with
  | nil => rfl
  | cons c l ih =>
    rw [List.cons_append, namesFrom_cons_of_blank (h c List.mem_cons_self),
      ih fun c hc => h c (List.mem_cons_of_mem _ hc)]
    rfl

/-- The spaces of a name are read with it where they are escaped. -/
theorem namesFrom_escapeSpaces (hbackslash : '\\' ∉ l)
    (hblank : ∀ c ∈ l, Text.isBlank c = true → c = ' ') (name cs : List Char) :
    namesFrom name (escapeSpaces l ++ cs) = namesFrom (l.reverse ++ name) cs := by
  induction l generalizing name with
  | nil => rfl
  | cons c l ih =>
    obtain ⟨hc, hl⟩ := List.ne_and_not_mem_of_not_mem_cons hbackslash
    have hrest := ih hl (fun c hc => hblank c (List.mem_cons_of_mem _ hc)) (c :: name)
    rw [List.reverse_cons, List.append_assoc, List.singleton_append, ← hrest]
    by_cases hspace : c = ' '
    · subst hspace
      rfl
    · have hsolid : Text.isBlank c = false :=
        Bool.eq_false_iff.2 fun h => hspace (hblank c List.mem_cons_self h)
      simp only [escapeSpaces, Text.replaceChar, List.flatMap_cons, if_neg hspace,
        List.cons_append, List.nil_append]
      rw [namesFrom_cons hc.symm, if_neg (by simp [hsolid])]

/-- Dependencies as they stand in the joined text are the names in it, behind the name that is being
read when they start. -/
theorem namesFrom_entries (entries : List (Gap × Path))
    (h : ∀ entry ∈ entries, entry.1.Legible ∧ Listable entry.2) (name : List Char) :
    namesFrom name (entries.flatMap fun (gap, p) => gap.joined ++ escapeSpaces p.text.toList) =
      finished name ++ entries.map fun entry => entry.2.text.toList := by
  induction entries generalizing name with
  | nil => rw [List.flatMap_nil, namesFrom_nil, List.map_nil, List.append_nil]
  | cons entry entries ih =>
    obtain ⟨gap, p⟩ := entry
    obtain ⟨hgap, hp⟩ := h (gap, p) List.mem_cons_self
    have hrest := ih fun entry hentry => h entry (List.mem_cons_of_mem _ hentry)
    have hcut (cs : List Char) :
        namesFrom name (gap.joined ++ cs) = finished name ++ namesFrom [] cs := by
      cases gap with
      | space => exact namesFrom_cons_of_blank (by decide) name cs
      | continued e indentation =>
        have hblank : ∀ c ∈ ' ' :: indentation, Text.isBlank c = true :=
          List.forall_mem_cons.2 ⟨by decide, fun c hc => (hgap c hc).1⟩
        rw [Gap.joined, List.cons_append, namesFrom_cons_of_blank (by decide),
          namesFrom_append_of_blank hblank]
    have hname : finished (p.text.toList.reverse ++ []) = [p.text.toList] := by
      simpa [finished] using hp.ne_nil
    rw [List.flatMap_cons, List.append_assoc, hcut, namesFrom_escapeSpaces hp.backslash hp.blank,
      hrest, hname, List.map_cons, List.singleton_append]

/-! ### Whole lines -/

/-- A line that lists dependencies of a target, as it stands in the joined text. -/
def joinedLine (target : Path) (entries : List (Gap × Path)) : List Char :=
  escapeSpaces target.text.toList ++
    ':' :: entries.flatMap fun (gap, p) => gap.joined ++ escapeSpaces p.text.toList

section Line

variable {entries : List (Gap × Path)}

theorem joinLines_entries (h : ∀ entry ∈ entries, entry.1.Legible ∧ Listable entry.2)
    (cs : List Char) :
    joinLines ((entries.flatMap fun (gap, p) => gap.text ++ escapeSpaces p.text.toList) ++ cs) =
      (entries.flatMap fun (gap, p) => gap.joined ++ escapeSpaces p.text.toList) ++
        joinLines cs := by
  induction entries with
  | nil => rfl
  | cons entry entries ih =>
    obtain ⟨gap, p⟩ := entry
    obtain ⟨hgap, hp⟩ := h (gap, p) List.mem_cons_self
    have hrest := ih fun entry hentry => h entry (List.mem_cons_of_mem _ hentry)
    have hjoined (cs : List Char) : joinLines (gap.text ++ cs) = gap.joined ++ joinLines cs := by
      cases gap with
      | space => exact joinLines_cons (by decide) cs
      | continued e indentation =>
        have hindentation : '\\' ∉ indentation := fun hmem =>
          absurd (hgap _ hmem).1 (by decide)
        rw [Gap.text, List.cons_append, joinLines_cons (by decide), List.cons_append,
          List.append_assoc, joinLines_continued, joinLines_append hindentation]
        rfl
    rw [List.flatMap_cons, List.append_assoc, List.append_assoc, hjoined,
      joinLines_escapeSpaces hp.backslash, hrest, List.flatMap_cons, List.append_assoc,
      List.append_assoc]

variable {target : Path}

theorem feed_not_mem_joinedLine (htarget : Listable target)
    (h : ∀ entry ∈ entries, entry.1.Legible ∧ Listable entry.2) :
    '\n' ∉ joinedLine target entries := by
  have hentries : '\n' ∉
      entries.flatMap fun (gap, p) => gap.joined ++ escapeSpaces p.text.toList := by
    intro hmem
    obtain ⟨⟨gap, p⟩, hentry, hmem⟩ := List.mem_flatMap.1 hmem
    obtain ⟨hgap, hp⟩ := h (gap, p) hentry
    rcases List.mem_append.1 hmem with hmem | hmem
    · cases gap with
      | space => exact absurd hmem (by decide)
      | continued e indentation =>
        have hindentation : '\n' ∈ indentation := by simpa [Gap.joined] using hmem
        exact (hgap _ hindentation).2 rfl
    · exact hp.feed_not_mem_escaped hmem
  simp [joinedLine, htarget.feed_not_mem_escaped, hentries]

/-- The line ends with the colon or with the last listed path. -/
theorem isBlank_of_getLast?_joinedLine
    (h : ∀ entry ∈ entries, entry.1.Legible ∧ Listable entry.2) :
    ∀ c ∈ (joinedLine target entries).getLast?, Text.isBlank c = false := by
  intro c hc
  obtain rfl | ⟨init, ⟨gap, p⟩, rfl⟩ := List.eq_nil_or_concat entries
  · obtain rfl : ':' = c := by simpa [joinedLine] using hc
    decide
  · have hp : Listable p := (h (gap, p) (by simp)).2
    have hline : joinedLine target (init ++ [(gap, p)]) =
        (joinedLine target init ++ gap.joined) ++ escapeSpaces p.text.toList := by
      simp [joinedLine]
    rw [List.concat_eq_append, hline, List.getLast?_append,
      List.getLast?_eq_some_getLast hp.escapeSpaces_ne_nil, Option.some_or,
      ← List.getLast?_eq_some_getLast] at hc
    exact hp.isBlank_of_getLast? c hc

/-- The names of a line, whichever way it ends. -/
theorem lineNames_joinedLine (htarget : Listable target)
    (h : ∀ entry ∈ entries, entry.1.Legible ∧ Listable entry.2) (e : LineEnd) :
    lineNames (Text.withoutReturn (joinedLine target entries ++ e.beforeFeed)) =
      entries.map fun entry => entry.2.text.toList := by
  have hlast : ∀ c ∈ (joinedLine target entries).getLast?, Text.isBlank c = false :=
    isBlank_of_getLast?_joinedLine h
  have hreturn : (joinedLine target entries).getLast? ≠ some '\r' := fun heq =>
    absurd (hlast _ heq) (by decide)
  have htrim : Text.trim (joinedLine target entries) = joinedLine target entries :=
    Text.trim_of_ends (htarget.isBlank_of_head? _) hlast
  have hbehind : afterTarget? (joinedLine target entries) =
      some (entries.flatMap fun (gap, p) => gap.joined ++ escapeSpaces p.text.toList) := by
    rw [joinedLine, afterTarget?_append htarget.colon_not_mem_escaped]
    -- a gap starts with a space, so the colon is the one that ends the target
    cases entries with
    | nil => rfl
    | cons entry entries =>
      obtain ⟨gap, p⟩ := entry
      cases gap <;> rfl
  rw [Text.withoutReturn_append_beforeFeed hreturn, lineNames, htrim, hbehind, Option.getD_some,
    namesFrom_entries entries h]
  rfl

end Line

/-! ### Whole files -/

theorem joinLines_trailers (trailers : List (Trailer × LineEnd))
    (h : ∀ line ∈ trailers, line.1.Legible) :
    joinLines (trailers.flatMap fun (line, e) => line.text ++ e.text) =
      trailers.flatMap fun (line, e) => line.text ++ e.text := by
  induction trailers with
  | nil => exact joinLines_nil
  | cons line trailers ih =>
    obtain ⟨line, e⟩ := line
    have hline : line.Legible := h (line, e) List.mem_cons_self
    have hend : '\\' ∉ e.text := by cases e <;> decide
    have hrest := ih fun line hline => h line (List.mem_cons_of_mem _ hline)
    rw [List.flatMap_cons, List.append_assoc]
    cases line with
    | blank cs =>
      have hblank : '\\' ∉ cs := fun hmem => absurd (hline _ hmem).1 (by decide)
      rw [Trailer.text, joinLines_append hblank, joinLines_append hend, hrest]
    | phony target =>
      rw [Trailer.text, List.append_assoc, joinLines_escapeSpaces (Listable.backslash hline),
        List.singleton_append, joinLines_cons (by decide), joinLines_append hend, hrest]

/-- Lines behind the one that lists the dependencies contribute nothing. -/
theorem flatMap_lineNames_trailers (trailers : List (Trailer × LineEnd))
    (h : ∀ line ∈ trailers, line.1.Legible) :
    (Text.lines (trailers.flatMap fun (line, e) => line.text ++ e.text)).flatMap lineNames = [] := by
  induction trailers with
  | nil => rfl
  | cons line trailers ih =>
    obtain ⟨line, e⟩ := line
    have hline : line.Legible := h (line, e) List.mem_cons_self
    have hrest := ih fun line hline => h line (List.mem_cons_of_mem _ hline)
    rw [List.flatMap_cons, List.append_assoc]
    cases line with
    | blank cs =>
      have hfeed : '\n' ∉ cs := fun hmem => (hline _ hmem).2 rfl
      have hinitial := Text.withoutReturn_append_beforeFeed_prefix cs e
      have htrim : Text.trim (Text.withoutReturn (cs ++ e.beforeFeed)) = [] :=
        Text.trim_of_blank fun c hc => (hline c (hinitial.subset hc)).1
      rw [Trailer.text, Text.lines_append_lineEnd hfeed, List.flatMap_cons, hrest, lineNames, htrim]
      rfl
    | phony target =>
      have htarget : Listable target := hline
      have hline : (Trailer.phony target).text = joinedLine target [] := rfl
      have hnone : ∀ entry ∈ ([] : List (Gap × Path)), entry.1.Legible ∧ Listable entry.2 := by simp
      rw [hline, Text.lines_append_lineEnd (feed_not_mem_joinedLine htarget hnone),
        List.flatMap_cons, hrest, lineNames_joinedLine htarget hnone]
      rfl

/-- Keeping what is not there yet is dropping what is there already. -/
theorem distinct_eq_eraseDups (ps : List Path) : distinct ps = ps.eraseDups := by
  have hkept (ps kept : List Path) :
      ps.foldl (fun kept p => if kept.any fun q => q == p then kept else kept ++ [p]) kept =
        List.eraseDupsBy.loop (fun p q => p == q) ps kept.reverse := by
    induction ps generalizing kept with
    | nil => simp [List.eraseDupsBy.loop]
    | cons p ps ih =>
      rw [List.foldl_cons, ih, List.eraseDupsBy.loop, List.any_reverse]
      simp only [Path.beq_comm p]
      split
      next hany => simp [hany]
      next hnone => simp [hnone]
  exact hkept ps []

namespace Listing

/-- The text of a listing lists its dependencies, each once and in the order they have there. -/
theorem Legible.dependenciesOf_text {l : Listing} (h : l.Legible) :
    dependenciesOf l.text = l.dependencies.eraseDups := by
  have hend : '\\' ∉ l.lineEnd.text := by cases l.lineEnd <;> decide
  have hjoined : joinLines l.text.toList = joinedLine l.target l.entries ++
      (l.lineEnd.text ++ l.trailers.flatMap fun (line, e) => line.text ++ e.text) := by
    rw [text, String.toList_ofList, joinLines_escapeSpaces h.target.backslash,
      joinLines_cons (by decide), joinLines_entries h.entries, joinLines_append hend,
      joinLines_trailers _ h.trailers, joinedLine, List.append_assoc, List.cons_append]
  have hnames : (Text.lines (joinLines l.text.toList)).flatMap lineNames =
      l.entries.map fun entry => entry.2.text.toList := by
    rw [hjoined, Text.lines_append_lineEnd (feed_not_mem_joinedLine h.target h.entries),
      List.flatMap_cons, lineNames_joinedLine h.target h.entries,
      flatMap_lineNames_trailers _ h.trailers, List.append_nil]
  rw [joinLines] at hnames
  rw [dependenciesOf, hnames, distinct_eq_eraseDups, List.map_map, dependencies]
  congr 2
  funext entry
  simp

/-- A dependency file is read as what it lists: the dependencies in order, without those that name
a path which is earlier among them. -/
theorem Legible.readDependencies_eq {l : Listing} (h : l.Legible) {d : Disk} {p : Path}
    (hfile : d.contents? p = some l.text.toUTF8) :
    readDependencies d p = .ok l.dependencies.eraseDups := by
  rw [readDependencies, Disk.readText_of_contents? hfile]
  exact congrArg _ h.dependenciesOf_text

/-- A target and headers with spaces in their names, over three lines that end in two ways, one of
the headers twice. Behind them stand a blank line and one that names a header alone. -/
def spaced : Listing where
  target := ⟨"out dir/a.o"⟩
  entries := [
    (.space, ⟨"src/a.c"⟩),
    (.continued .feed "  ".toList, ⟨"my  headers/b.h"⟩),
    (.space, ⟨"./src/a.c"⟩),
    (.continued .returnFeed "\t".toList, ⟨"src//a.c"⟩)]
  lineEnd := .returnFeed
  trailers := [(.blank " ".toList, .feed), (.phony ⟨"my  headers/b.h"⟩, .feed)]

theorem readDependencies_spaced :
    let d : Disk := ⟨⟨[(["a.d"], .file ⟨spaced.text.toUTF8, 1, false⟩)]⟩, [], 2⟩
    spaced.Legible ∧ d.contents? ⟨"a.d"⟩ = some spaced.text.toUTF8 ∧
      readDependencies d ⟨"a.d"⟩ =
        .ok [⟨"src/a.c"⟩, ⟨"my  headers/b.h"⟩, ⟨"./src/a.c"⟩] := by
  intro d
  have hlegible : spaced.Legible := ⟨by decide +kernel, by decide +kernel, by decide +kernel⟩
  have hcontents : d.contents? ⟨"a.d"⟩ = some spaced.text.toUTF8 :=
    Disk.contents?_eq_some_iff.2 ⟨⟨spaced.text.toUTF8, 1, false⟩, rfl, rfl⟩
  exact ⟨hlegible, hcontents, hlegible.readDependencies_eq hcontents⟩

end Listing

end IncrementalBuild.State
