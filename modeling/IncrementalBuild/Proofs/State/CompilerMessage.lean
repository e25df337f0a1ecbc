import IncrementalBuild.Proofs.Text.Blank
import IncrementalBuild.Proofs.Text.Split
import IncrementalBuild.State.CompilerMessage
import Mathlib.Tactic.Common

/-!
Messages of compilers are read back from the lines that show them. The leftmost mark of a severity
is the one the message was shown with: its file holds none, the numbers behind the file cannot be
part of one, and no mark starts with another. What the text holds behind the mark does not matter.
-/

namespace IncrementalBuild.State

open Text (LineEnd)

/-- No mark of a severity stands anywhere in the text. -/
def Unmarked (cs : List Char) : Prop :=
  ∀ mark ∈ severityMarks, ¬ mark.1 <:+: cs

instance (cs : List Char) : Decidable (Unmarked cs) :=
  inferInstanceAs (Decidable (∀ _ ∈ _, _))

/-- The mark messages of a severity are shown with. -/
def Severity.mark (s : Severity) : List Char :=
  ": ".toList ++ (s.text.toList ++ ": ".toList)

namespace CompilerMessage

/-- The place of a message, as it is shown. -/
def place (m : CompilerMessage) : List Char :=
  m.file.text.toList ++ (':' :: Nat.toDigits 10 m.line ++ ':' :: Nat.toDigits 10 m.column)

/-- A message that the line showing it determines. Of the file it takes that it is there and holds
no mark, of the text only that there are no blanks around it. -/
structure Legible (m : CompilerMessage) : Prop where
  file_ne : m.file.text ≠ ""
  file_line : '\n' ∉ m.file.text.toList
  file_unmarked : Unmarked m.file.text.toList
  line_lt : m.line < UInt32.size
  column_lt : m.column < UInt32.size
  text_line : '\n' ∉ m.text.toList
  text_trimmed : Text.trimmed m.text = m.text

instance (m : CompilerMessage) : Decidable m.Legible :=
  decidable_of_iff
    (m.file.text ≠ "" ∧ '\n' ∉ m.file.text.toList ∧ Unmarked m.file.text.toList ∧
      m.line < UInt32.size ∧ m.column < UInt32.size ∧ '\n' ∉ m.text.toList ∧
        Text.trimmed m.text = m.text)
    ⟨fun ⟨h₁, h₂, h₃, h₄, h₅, h₆, h₇⟩ => ⟨h₁, h₂, h₃, h₄, h₅, h₆, h₇⟩,
      fun ⟨h₁, h₂, h₃, h₄, h₅, h₆, h₇⟩ => ⟨h₁, h₂, h₃, h₄, h₅, h₆, h₇⟩⟩

end CompilerMessage

/-- A line of what a compiler writes: a message, or anything else. -/
inductive OutputLine where
  | message (m : CompilerMessage)
  | other (line : String)

namespace OutputLine

/-- The characters of a line. -/
def text : OutputLine → List Char
  | message m => m.shown.toList
  | other line => line.toList

/-- The message of a line. -/
def message? : OutputLine → Option CompilerMessage
  | message m => some m
  | other _ => none

/-- The line is a single one, and it is a message just if it is meant to be one. -/
def Legible : OutputLine → Prop
  | message m => m.Legible
  | other line => '\n' ∉ line.toList ∧ Unmarked line.toList

instance : (line : OutputLine) → Decidable line.Legible
  | message m => inferInstanceAs (Decidable m.Legible)
  | other _ => inferInstanceAs (Decidable (_ ∧ _))

end OutputLine

/-- What a compiler writes: lines with their ends, and perhaps one more that has no end. -/
structure Output where
  ended : List (OutputLine × LineEnd)
  last : Option OutputLine

namespace Output

/-- All lines, in order. -/
def lines (o : Output) : List OutputLine :=
  o.ended.map Prod.fst ++ o.last.toList

/-- The text of the output. -/
def text (o : Output) : String :=
  String.ofList
    ((o.ended.flatMap fun (line, e) => line.text ++ e.text) ++ (o.last.map OutputLine.text).getD [])

/-- The messages among the lines, in order. -/
def messages (o : Output) : List CompilerMessage :=
  o.lines.filterMap OutputLine.message?

end Output

variable {m : CompilerMessage} {mark : List Char × Severity} {ds cs line rest : List Char}

/-! ### Marks -/

theorem Severity.mark_mem (s : Severity) : (s.mark, s) ∈ severityMarks := by
  cases s <;> decide

theorem exists_eq_of_mem_severityMarks (h : mark ∈ severityMarks) :
    ∃ word, mark.1 = ':' :: ' ' :: word := by
  simp only [severityMarks, List.mem_cons, List.not_mem_nil, or_false] at h
  rcases h with rfl | rfl | rfl | rfl <;> exact ⟨_, rfl⟩

theorem getLast?_of_mem_severityMarks : ∀ mark ∈ severityMarks, mark.1.getLast? = some ' ' := by
  decide

theorem isDigit_of_mem_severityMarks :
    ∀ mark ∈ severityMarks, ∀ c ∈ mark.1, c.isDigit = false := by
  have hall : (severityMarks.all fun mark => mark.1.all fun c => !c.isDigit) = true := by decide
  intro mark hmark c hc
  simpa using List.all_eq_true.1 (List.all_eq_true.1 hall mark hmark) c hc

theorem eq_of_severityMarks_prefix : ∀ mark ∈ severityMarks, ∀ other ∈ severityMarks,
    (mark.1 <+: other.1 ∨ other.1 <+: mark.1) → mark = other := by
  decide

/-! ### The leftmost mark -/

theorem splitSeverity_of_unmarked (h : Unmarked line) : splitSeverity line = none := by
  rw [splitSeverity, List.filterMap_eq_nil_iff.2]
  · rfl
  · intro mark hmark
    rw [Option.map_eq_none_iff, Text.splitAtPiece_eq_none_iff]
    exact h mark hmark

/-- What starts before everything else that is found is kept, whatever the order. -/
theorem foldl_eq_of_earliest {found : List (List Char × Severity × List Char)}
    {x : List Char × Severity × List Char} (h : ∀ y ∈ found, y = x ∨ x.1.length < y.1.length)
    (best : Option (List Char × Severity × List Char))
    (hbest : ∀ b ∈ best, b = x ∨ x.1.length < b.1.length) (hmem : x ∈ best ∨ x ∈ found) :
    found.foldl (fun best found =>
      match best with
      | none => some found
      | some b => if found.1.length < b.1.length then some found else some b) best = some x := by
  induction found generalizing best with
  | nil => simpa using hmem
  | cons y ys ih =>
    have hy := h y List.mem_cons_self
    have hys : ∀ y ∈ ys, y = x ∨ x.1.length < y.1.length :=
      fun z hz => h z (List.mem_cons_of_mem y hz)
    rw [List.foldl_cons]
    cases best with
    | none =>
      refine ih hys (some y) (by simpa using hy) ?_
      simpa [eq_comm] using hmem
    | some b =>
      have hb := hbest b rfl
      dsimp only
      split
      next hlt =>
        refine ih hys (some y) (by simpa using hy) ?_
        rcases hb with rfl | hb
        · -- `b` is the earliest, so nothing is before it
          rcases hy with rfl | hy <;> omega
        · rcases hmem with hmem | hmem
          · simp_all
          · simpa [eq_comm] using hmem
      next hnlt =>
        refine ih hys (some b) (by simpa using hb) ?_
        rcases hmem with hmem | hmem
        · exact .inl hmem
        · rcases List.mem_cons.1 hmem with rfl | hmem
          · rcases hb with rfl | hb
            · exact .inl rfl
            · exact absurd hb hnlt
          · exact .inr hmem

/-- No mark starts in a text that `rest` follows. -/
def Clear (cs rest : List Char) : Prop :=
  ∀ mark ∈ severityMarks, ∀ r, r ≠ [] → r <:+ cs → ¬ mark.1 <+: r ++ rest

/-- A text in which no mark starts goes before the first cut. -/
theorem splitSeverity_append_mark (h : ∀ rest, Clear cs (mark.1 ++ rest))
    (hmark : mark ∈ severityMarks) (rest : List Char) :
    splitSeverity (cs ++ (mark.1 ++ rest)) = some (cs, mark.2, rest) := by
  have hmoved (other : List Char × Severity) (hother : other ∈ severityMarks) :
      Text.splitAtPiece other.1 (cs ++ (mark.1 ++ rest)) =
        (Text.splitAtPiece other.1 (mark.1 ++ rest)).map (Prod.map (cs ++ ·) id) :=
    Text.splitAtPiece_append (h rest other hother)
  refine foldl_eq_of_earliest ?_ none (by simp) (.inr ?_)
  · intro found hfound
    obtain ⟨⟨piece, severity⟩, hother, hfound⟩ := List.mem_filterMap.1 hfound
    simp only [hmoved _ hother, Option.map_map, Option.map_eq_some_iff] at hfound
    obtain ⟨⟨l, r⟩, hcut, rfl⟩ := hfound
    cases l with
    | nil =>
      have hprefix : piece <+: mark.1 ++ rest := ⟨r, (Text.eq_of_splitAtPiece hcut).symm⟩
      obtain rfl : (piece, severity) = mark := eq_of_severityMarks_prefix _ hother mark hmark
        (List.prefix_or_prefix_of_prefix hprefix (List.prefix_append _ _))
      left
      simpa [Text.splitAtPiece_of_prefix] using hcut.symm
    | cons c l => exact .inr (by simp)
  · rw [List.mem_filterMap]
    exact ⟨mark, hmark, by simp [hmoved mark hmark, Text.splitAtPiece_of_prefix]⟩

/-! ### What stands before the mark -/

theorem clear_append (hcs : Clear cs (ds ++ rest)) (hds : Clear ds rest) :
    Clear (cs ++ ds) rest := by
  intro mark hmark r hr hsuffix
  rcases List.suffix_or_suffix_of_suffix hsuffix (List.suffix_append cs ds) with hin | ⟨t, rfl⟩
  · exact hds mark hmark r hr hin
  · obtain ⟨u, hu⟩ := hsuffix
    rw [← List.append_assoc, List.append_cancel_right_eq] at hu
    cases t with
    | nil => exact hds mark hmark ds (by simpa using hr) List.suffix_rfl
    | cons c t =>
      rw [List.append_assoc]
      exact hcs mark hmark (c :: t) (by simp) ⟨u, hu⟩

/-- A mark has a blank where a number behind a colon has a digit. -/
theorem clear_number (hne : ds ≠ []) (hds : ∀ c ∈ ds, c.isDigit = true) (rest : List Char) :
    Clear (':' :: ds) rest := by
  intro mark hmark r hr hsuffix hprefix
  obtain ⟨word, hword⟩ := exists_eq_of_mem_severityMarks hmark
  rw [hword] at hprefix
  rcases List.suffix_cons_iff.1 hsuffix with rfl | hin
  · obtain ⟨d, ds, rfl⟩ := List.exists_cons_of_ne_nil hne
    simp only [List.cons_append, List.cons_prefix_cons] at hprefix
    have hd := hds d List.mem_cons_self
    rw [← hprefix.2.1] at hd
    exact absurd hd (by decide)
  · obtain ⟨c, r, rfl⟩ := List.exists_cons_of_ne_nil hr
    rw [List.cons_append, List.cons_prefix_cons] at hprefix
    have hc := hds c (hin.subset List.mem_cons_self)
    rw [← hprefix.1] at hc
    exact absurd hc (by decide)

/-- A mark that starts in a text without marks goes on behind it; there it would end in a colon or
go past a digit. -/
theorem clear_of_unmarked (h : Unmarked cs) {d : Char} (hd : d.isDigit = true) (rest : List Char) :
    Clear cs (':' :: d :: rest) := by
  intro mark hmark r hr hsuffix hprefix
  have hout : ¬ mark.1 <+: r := fun hin => h mark hmark (hin.isInfix.trans hsuffix.isInfix)
  rcases List.prefix_or_prefix_of_prefix hprefix (List.prefix_append _ _) with hin | ⟨t, ht⟩
  · exact hout hin
  · rw [← ht, List.prefix_append_right_inj, List.prefix_cons_iff] at hprefix
    rcases hprefix with rfl | ⟨t, rfl, hprefix⟩
    · exact hout ⟨[], by simpa using ht.symm⟩
    rcases List.prefix_cons_iff.1 hprefix with rfl | ⟨t, rfl, -⟩
    · have hlast := getLast?_of_mem_severityMarks mark hmark
      simp [← ht] at hlast
    · have hdigit := isDigit_of_mem_severityMarks mark hmark d (by simp [← ht])
      exact absurd hd (by simp [hdigit])

/-! ### Places -/

theorem placeNumber?_toDigits {n : Nat} (h : n < UInt32.size) :
    placeNumber? (Nat.toDigits 10 n) = some n := by
  have hdigits : ∀ c ∈ Nat.toDigits 10 n, c.isDigit = true := fun c hc =>
    Nat.isDigit_of_mem_toDigits (by decide) (by decide) hc
  have hvalue : Number.ofDigits (Nat.toDigits 10 n) = n := Nat.ofDigitChars_ten_toDigits
  have hsign : ∀ ds, Nat.toDigits 10 n ≠ '+' :: ds := fun ds hds =>
    absurd (hdigits '+' (by simp [hds])) (by decide)
  rw [placeNumber?, Number.natBelow?,
    if_pos ⟨Nat.toDigits_ne_nil, List.all_eq_true.2 hdigits, by rwa [hvalue]⟩, hvalue]
  exact hsign

theorem not_mem_toDigits {c : Char} (hc : c.isDigit = false) (n : Nat) :
    c ∉ Nat.toDigits 10 n := by
  intro hmem
  have hdigit := Nat.isDigit_of_mem_toDigits (by decide) (by decide) hmem
  simp [hc] at hdigit

namespace CompilerMessage

theorem Legible.trim_text (h : m.Legible) : Text.trim m.text.toList = m.text.toList := by
  simpa [Text.trimmed] using congrArg String.toList h.text_trimmed

/-- Read from the right, the place of a message gives its column, its line and its file. -/
theorem Legible.splitPlace_place (h : m.Legible) :
    splitPlace m.place = some (m.file.text.toList, m.line, m.column) := by
  have hplace : m.place = (m.file.text.toList ++ ':' :: Nat.toDigits 10 m.line) ++
      ':' :: Nat.toDigits 10 m.column := by simp [place]
  have hfile : m.file.text.toList.isEmpty = false := by
    simpa [String.toList_eq_nil_iff] using h.file_ne
  have hcolon : ':'.isDigit = false := by decide
  rw [splitPlace, hplace, Text.splitLast_append_cons _ (not_mem_toDigits hcolon m.column)]
  simp only [Option.bind_eq_bind, Option.bind_some, placeNumber?_toDigits h.column_lt,
    Text.splitLast_append_cons _ (not_mem_toDigits hcolon m.line), hfile, Bool.false_eq_true,
    if_false, placeNumber?_toDigits h.line_lt]
  rfl

/-- Up to the mark a message is shown with, no mark starts in its line. -/
theorem Legible.clear_place (h : m.Legible) (rest : List Char) : Clear m.place rest := by
  have hdigits (n : Nat) : ∀ c ∈ Nat.toDigits 10 n, c.isDigit = true := fun c hc =>
    Nat.isDigit_of_mem_toDigits (by decide) (by decide) hc
  have hnumber (n : Nat) (rest : List Char) : Clear (':' :: Nat.toDigits 10 n) rest :=
    clear_number Nat.toDigits_ne_nil (hdigits n) rest
  refine clear_append ?_ (clear_append (hnumber m.line _) (hnumber m.column rest))
  obtain ⟨d, ds, hds⟩ := List.exists_cons_of_ne_nil (Nat.toDigits_ne_nil (n := m.line) (b := 10))
  rw [hds]
  exact clear_of_unmarked h.file_unmarked (hdigits m.line d (by simp [hds])) _

theorem toList_shown (m : CompilerMessage) :
    m.shown.toList = m.place ++ (m.severity.mark ++ m.text.toList) := by
  simp [shown, place, Severity.mark, Nat.toString_eq_repr]

/-- A legible message is the one that the line showing it holds. -/
theorem Legible.messageOf?_shown (h : m.Legible) : messageOf? m.shown.toList = some m := by
  rw [toList_shown, messageOf?, splitSeverity_append_mark (fun _ => h.clear_place _)
    m.severity.mark_mem]
  simp [h.splitPlace_place, h.trim_text]

/-- The line of a legible message is a single one. -/
theorem Legible.not_mem_shown (h : m.Legible) : '\n' ∉ m.shown.toList := by
  have hfeed : '\n'.isDigit = false := by decide
  have hmark : '\n' ∉ m.severity.mark := by cases m.severity <;> decide
  simp [toList_shown, place, h.file_line, h.text_line, hmark, not_mem_toDigits hfeed]

/-- The line ends in the blank of the mark or in the last character of a trimmed text. -/
theorem Legible.getLast?_shown (h : m.Legible) : m.shown.toList.getLast? ≠ some '\r' := by
  intro hlast
  rw [toList_shown, ← List.append_assoc, List.getLast?_append] at hlast
  cases htext : m.text.toList.getLast? with
  | none =>
    have hmark := getLast?_of_mem_severityMarks _ m.severity.mark_mem
    simp [htext, List.getLast?_append, hmark] at hlast
  | some c =>
    obtain rfl : c = '\r' := by simpa [htext] using hlast
    rw [← h.trim_text] at htext
    exact absurd (Text.isBlank_of_getLast?_trim _ htext) (by decide)

end CompilerMessage

/-! ### Whole outputs -/

namespace OutputLine

variable {line : OutputLine}

theorem Legible.not_mem_text (h : line.Legible) : '\n' ∉ line.text := by
  cases line with
  | message m => exact CompilerMessage.Legible.not_mem_shown h
  | other line => exact h.1

theorem messageOf?_of_unmarked {cs : List Char} (h : Unmarked cs) : messageOf? cs = none := by
  rw [messageOf?, splitSeverity_of_unmarked h]
  rfl

theorem Legible.messageOf?_text (h : line.Legible) : messageOf? line.text = line.message? := by
  cases line with
  | message m => exact CompilerMessage.Legible.messageOf?_shown h
  | other line => exact messageOf?_of_unmarked h.2

/-- A line holds its message whichever way it ends. Of a line without one, a carriage return at its
own end may be lost. -/
theorem Legible.messageOf?_ended (h : line.Legible) (e : LineEnd) :
    messageOf? (Text.withoutReturn (line.text ++ e.beforeFeed)) = line.message? := by
  cases line with
  | message m =>
    have hlast : (message m).text.getLast? ≠ some '\r' := CompilerMessage.Legible.getLast?_shown h
    rw [Text.withoutReturn_append_beforeFeed hlast, h.messageOf?_text]
  | other line =>
    have hprefix := Text.withoutReturn_append_beforeFeed_prefix (other line).text e
    exact messageOf?_of_unmarked fun mark hmark hin =>
      h.2 mark hmark (hin.trans hprefix.isInfix)

theorem filterMap_lines_text (ended : List (OutputLine × LineEnd))
    (h : ∀ line ∈ ended, line.1.Legible) (cs : List Char) :
    (Text.lines ((ended.flatMap fun (line, e) => line.text ++ e.text) ++ cs)).filterMap messageOf? =
      (ended.map Prod.fst).filterMap message? ++ (Text.lines cs).filterMap messageOf? := by
  induction ended with
  | nil => rfl
  | cons first ended ih =>
    obtain ⟨line, e⟩ := first
    have hline : line.Legible := h (line, e) List.mem_cons_self
    have hrest := ih fun line hline => h line (List.mem_cons_of_mem _ hline)
    rw [List.flatMap_cons, List.append_assoc, List.append_assoc,
      Text.lines_append_lineEnd hline.not_mem_text, List.map_cons, List.filterMap_cons,
      List.filterMap_cons, hline.messageOf?_ended, hrest]
    cases line.message? <;> rfl

end OutputLine

/-- The messages of an output are read back from its text, in order, whatever other lines stand
between them. -/
theorem Output.compilerMessages_text (o : Output) (h : ∀ line ∈ o.lines, line.Legible) :
    compilerMessages o.text = o.messages := by
  have hended : ∀ line ∈ o.ended, line.1.Legible := fun line hline =>
    h line.1 (List.mem_append_left _ (List.mem_map_of_mem hline))
  rw [compilerMessages, text, String.toList_ofList, OutputLine.filterMap_lines_text _ hended,
    messages, lines, List.filterMap_append]
  congr 1
  cases hlast : o.last with
  | none => rfl
  | some line =>
    have hline : line.Legible := h line (by simp [lines, hlast])
    have hmessage : [line.text].filterMap messageOf? = [line].filterMap OutputLine.message? := by
      rw [List.filterMap_cons, List.filterMap_cons, hline.messageOf?_text]
      rfl
    rw [Option.map_some, Option.getD_some, Text.lines_of_not_mem hline.not_mem_text]
    split
    next hempty =>
      -- an empty last line is no line, and it holds no message
      have hnone : messageOf? [] = none := OutputLine.messageOf?_of_unmarked (by decide)
      rw [List.isEmpty_iff.1 hempty] at hmessage
      simpa [hnone] using hmessage
    next => exact hmessage

/-- Two messages whose files and texts look like places and marks themselves, one without a column,
between lines of other kinds. -/
def nestedOutput : Output where
  ended := [
    (.other "In file included from main.c:1:", .returnFeed),
    (.message ⟨.error, ⟨"lib:3: a.c"⟩, 12, 0, "b.c:7:1: note: see here: warning: old"⟩, .feed),
    (.other "", .feed),
    (.other "   12 | int x;\r", .feed)]
  last := some (.message ⟨.note, ⟨"./:4"⟩, 0, 4294967295, ""⟩)

theorem compilerMessages_nested : (∀ line ∈ nestedOutput.lines, line.Legible) ∧
    compilerMessages nestedOutput.text =
      [⟨.error, ⟨"lib:3: a.c"⟩, 12, 0, "b.c:7:1: note: see here: warning: old"⟩,
        ⟨.note, ⟨"./:4"⟩, 0, 4294967295, ""⟩] := by
  have hlegible : ∀ line ∈ nestedOutput.lines, line.Legible := by decide +kernel
  exact ⟨hlegible, nestedOutput.compilerMessages_text hlegible⟩

end IncrementalBuild.State
