import IncrementalBuild.Text.Blank
import Mathlib.Tactic.Common

/-!
What trimming takes away: blanks at either end, and nothing else.
-/

namespace IncrementalBuild.Text

variable {c : Char} {cs before : List Char}

theorem exists_eq_trimEnd (cs : List Char) :
    ∃ behind, cs = trimEnd cs ++ behind ∧ ∀ c ∈ behind, isBlank c = true := by
  refine ⟨(cs.reverse.takeWhile isBlank).reverse, ?_, fun c hc => ?_⟩
  · rw [trimEnd, ← List.reverse_append, List.takeWhile_append_dropWhile, List.reverse_reverse]
  · exact List.all_eq_true.1 List.all_takeWhile c (List.mem_reverse.1 hc)

/-- A text is its trimmed text with blanks on both sides. -/
theorem exists_eq_trim (cs : List Char) : ∃ before behind, cs = before ++ (trim cs ++ behind) ∧
    (∀ c ∈ before, isBlank c = true) ∧ ∀ c ∈ behind, isBlank c = true := by
  obtain ⟨behind, hbehind, hblank⟩ := exists_eq_trimEnd (trimStart cs)
  refine ⟨cs.takeWhile isBlank, behind, ?_, List.all_eq_true.1 List.all_takeWhile, hblank⟩
  rw [trim, ← hbehind, trimStart, List.takeWhile_append_dropWhile]

theorem isBlank_of_head?_trimStart (cs : List Char) (hc : c ∈ (trimStart cs).head?) : isBlank c = false := by
  have hhead := List.head?_dropWhile_not isBlank cs
  rw [← trimStart, Option.mem_def.1 hc] at hhead
  simpa using hhead

/-- A trimmed text does not start with a blank. -/
theorem isBlank_of_head?_trim (cs : List Char) (hc : c ∈ (trim cs).head?) : isBlank c = false := by
  obtain ⟨behind, hbehind, -⟩ := exists_eq_trimEnd (trimStart cs)
  apply isBlank_of_head?_trimStart cs
  rw [hbehind, ← trim]
  cases htrim : trim cs with
  | nil => simp [htrim] at hc
  | cons d ds => simpa [htrim] using hc

/-- A trimmed text does not end with a blank. -/
theorem isBlank_of_getLast?_trim (cs : List Char) (hc : c ∈ (trim cs).getLast?) :
    isBlank c = false := by
  rw [trim, trimEnd, List.getLast?_reverse] at hc
  exact isBlank_of_head?_trimStart _ hc

/-- Blanks in front of a text are trimmed away. -/
theorem trim_append (hbefore : ∀ c ∈ before, isBlank c = true) :
    trim (before ++ cs) = trim cs := by
  rw [trim, trimStart, List.dropWhile_append_of_pos hbefore, ← trimStart, ← trim]

theorem trimStart_of_head? (h : ∀ c ∈ cs.head?, isBlank c = false) : trimStart cs = cs := by
  cases cs with
  | nil => rfl
  | cons c cs => rw [trimStart, List.dropWhile_cons_of_neg (by simp [h c rfl])]

/-- Where no blank stands at either end, nothing is trimmed. -/
theorem trim_of_ends (hhead : ∀ c ∈ cs.head?, isBlank c = false)
    (hlast : ∀ c ∈ cs.getLast?, isBlank c = false) : trim cs = cs := by
  rw [← List.head?_reverse] at hlast
  have hend := trimStart_of_head? hlast
  rw [trim, trimStart_of_head? hhead, trimEnd, ← trimStart, hend, List.reverse_reverse]

theorem trim_of_blank (h : ∀ c ∈ cs, isBlank c = true) : trim cs = [] := by
  have htrim : trim (cs ++ []) = trim [] := trim_append h
  rwa [List.append_nil] at htrim

theorem trimEnd_trimEnd (cs : List Char) : trimEnd (trimEnd cs) = trimEnd cs := by
  rw [trimEnd, trimEnd, List.reverse_reverse, ← trimStart, ← trimStart,
    trimStart_of_head? fun _ => isBlank_of_head?_trimStart cs.reverse]

/-- A trimmed text has nothing left to trim. -/
theorem trim_trim (cs : List Char) : trim (trim cs) = trim cs := by
  rw [trim, trimStart_of_head? fun _ => isBlank_of_head?_trim cs, trim, trimEnd_trimEnd]

theorem mem_of_mem_trim (h : c ∈ trim cs) : c ∈ cs := by
  obtain ⟨before, behind, hcs, -, -⟩ := exists_eq_trim cs
  rw [hcs]
  exact List.mem_append_right before (List.mem_append_left behind h)

end IncrementalBuild.Text
