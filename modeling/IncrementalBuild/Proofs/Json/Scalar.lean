import IncrementalBuild.Json.Reader
import Mathlib.Tactic.Common

/-!
Strings and natural numbers are read back as they were written.
-/

namespace IncrementalBuild.Json

/-- Nothing that a number could go on with stands at the front of a text. -/
def EndsNumber (cs : List Char) : Prop :=
  ∀ c, cs.head? = some c → c.isDigit = false ∧ c ≠ '.' ∧ c ≠ 'e' ∧ c ≠ 'E'

theorem hexWord?_of_lt : ∀ n < 0x20,
    hexWord? '0' '0' (Number.hexDigit (n / 16)) (Number.hexDigit (n % 16)) = some n := by
  decide

/-- One character is read back from its escaped form. -/
theorem readWords_escape (c : Char) (cs : List Char) :
    readWords (escape c ++ cs) = (readWords cs).map fun (words, r) => (c.toNat :: words, r) := by
  unfold escape
  split
  next h =>
    subst h
    rfl
  split
  next h =>
    subst h
    rfl
  split
  next h =>
    subst h
    rfl
  split
  next h =>
    subst h
    rfl
  split
  next h =>
    subst h
    rfl
  split
  next h =>
    rw [h]
    rfl
  split
  next h =>
    rw [h]
    rfl
  split
  next h =>
    simp only [List.cons_append, List.nil_append, readWords, hexWord?_of_lt c.toNat h]
  next hquote hbackslash _ _ _ _ _ h =>
    rw [List.singleton_append, readWords]
    · rw [if_neg h]
    all_goals simp_all

theorem readWords_quoted (cs rest : List Char) :
    readWords (cs.flatMap escape ++ '"' :: rest) = some (cs.map Char.toNat, rest) := by
  induction cs with
  | nil => rfl
  | cons c cs ih =>
    rw [List.flatMap_cons, List.append_assoc, readWords_escape, ih]
    rfl

theorem textOf?_map_toNat (cs : List Char) : textOf? none (cs.map Char.toNat) = some cs := by
  induction cs with
  | nil => rfl
  | cons c cs ih =>
    have hvalid : c.toNat.isValidChar := c.valid
    have hhigh : isHighHalf c.toNat = false := by
      unfold isHighHalf
      rcases hvalid with h | h <;> simp <;> omega
    have hlow : isLowHalf c.toNat = false := by
      unfold isLowHalf
      rcases hvalid with h | h <;> simp <;> omega
    rw [List.map_cons, textOf?, hhigh, hlow, ih]
    simp [Char.ofNat_toNat]

theorem readString_quoted (s : String) (rest : List Char) :
    readString (s.toList.flatMap escape ++ '"' :: rest) = some (some s, rest) := by
  rw [readString, readWords_quoted]
  simp [textOf?_map_toNat]

theorem digits_append {ds rest : List Char} (hds : ∀ c ∈ ds, c.isDigit = true)
    (hrest : EndsNumber rest) : digits (ds ++ rest) = (ds, rest) := by
  unfold digits
  have hhead : ∀ c, rest.head? = some c → c.isDigit = false := fun c hc => (hrest c hc).1
  rw [List.takeWhile_append_of_pos hds, List.dropWhile_append_of_pos hds]
  cases rest with
  | nil => simp
  | cons c rest => simp [hhead c rfl]

theorem readFraction_of_endsNumber {rest : List Char} (hrest : EndsNumber rest) :
    readFraction rest = some ([], rest) := by
  unfold readFraction
  split
  · exact absurd rfl (hrest '.' rfl).2.1
  · rfl

theorem readExponent_of_endsNumber {rest : List Char} (hrest : EndsNumber rest) :
    readExponent rest = some ([], rest) := by
  unfold readExponent
  split
  next c r =>
    have hc := (hrest c rfl).2.2
    simp [hc]
  · rfl

/-- The digits of a number that is not zero do not start with a zero. -/
theorem head?_toDigits_ne (n : Nat) (hn : n ≠ 0) : (Nat.toDigits 10 n).head? ≠ some '0' := by
  induction n using Nat.strongRecOn with
  | ind n ih =>
    rw [Nat.toDigits_eq_if (by decide)]
    split
    next h =>
      have hdigit : ∀ k < 10, k ≠ 0 → [k.digitChar].head? ≠ some '0' := by decide
      exact hdigit n h hn
    next h =>
      have hrest := ih (n / 10) (by omega) (by omega)
      cases hd : Nat.toDigits 10 (n / 10) with
      | nil => exact absurd hd Nat.toDigits_ne_nil
      | cons c cs => simpa [hd] using hrest

theorem readWhole_toDigits (n : Nat) {rest : List Char} (hrest : EndsNumber rest) :
    readWhole (Nat.toDigits 10 n ++ rest) = some (Nat.toDigits 10 n, rest) := by
  have hdigits : ∀ c ∈ Nat.toDigits 10 n, c.isDigit = true := fun c hc =>
    Nat.isDigit_of_mem_toDigits (by decide) (by decide) hc
  by_cases hn : n = 0
  · subst hn
    rw [Nat.toDigits_zero, List.singleton_append, readWhole]
    cases rest with
    | nil => simp
    | cons c rest => simp [(hrest c rfl).1]
  · have hne := head?_toDigits_ne n hn
    have hnil : Nat.toDigits 10 n ≠ [] := Nat.toDigits_ne_nil
    have hcut := digits_append hdigits hrest
    rw [readWhole]
    · rw [hcut]
      simp
    · intro r hr
      cases hd : Nat.toDigits 10 n with
      | nil => exact hnil hd
      | cons c cs =>
        rw [hd, List.cons_append] at hr
        cases hr
        simp [hd] at hne

theorem readNumber_toDigits (n : Nat) {rest : List Char} (hrest : EndsNumber rest) :
    readNumber (Nat.toDigits 10 n ++ rest) = some (.natural n, rest) := by
  have hsign : ∀ r, Nat.toDigits 10 n ++ rest ≠ '-' :: r := by
    intro r hr
    cases hd : Nat.toDigits 10 n with
    | nil => exact Nat.toDigits_ne_nil hd
    | cons c cs =>
      rw [hd, List.cons_append] at hr
      cases hr
      have hdigit : ('-' : Char).isDigit = true :=
        Nat.isDigit_of_mem_toDigits (n := n) (b := 10) (by decide) (by decide) (by simp [hd])
      cases hdigit
  have hvalue : Number.ofDigits (Nat.toDigits 10 n) = n := Nat.ofDigitChars_ten_toDigits
  rw [readNumber]
  · simp only [readWhole_toDigits n hrest, readFraction_of_endsNumber hrest,
      readExponent_of_endsNumber hrest, Option.bind_eq_bind, Option.bind_some, List.isEmpty_nil,
      Bool.and_self, if_true, hvalue]
    rfl
  · exact hsign

end IncrementalBuild.Json
