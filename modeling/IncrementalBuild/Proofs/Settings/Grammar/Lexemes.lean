import IncrementalBuild.Settings.Lexeme

/-!
What the reader of tokens finds, as a relation between texts: from the front of a text some tokens
are taken, and a mode and the rest of the text remain. Texts that are put together from lexemes are
read lexeme by lexeme, as long as no word runs on into what stands behind it.
-/

namespace IncrementalBuild.Settings

/-- From the front of a text, read in a mode, these tokens are taken; then the other text is to be
read in the other mode. -/
inductive Lexed : Mode → List Char → List Token → Mode → List Char → Prop where
  | done (m : Mode) (cs : List Char) : Lexed m cs [] m cs
  | step {m m' : Mode} {c : Char} {cs us rest : List Char} {t : Option Token} {ts : List Token} :
      lexeme m c cs = .ok (t, us) → Lexed (m.after t) us ts m' rest →
      Lexed m (c :: cs) (t.toList ++ ts) m' rest

/-- A text is read as tokens exactly where its lexemes lead to its end. -/
theorem tokensFrom_iff_lexed {file : Path} {m : Mode} {position : Position} {cs : List Char}
    {ts : List Token} :
    (∃ placed, tokensFrom file m position cs = .ok placed ∧ placed.map Placed.token = ts) ↔
      ∃ m', Lexed m cs ts m' [] := by
  constructor
  · rintro ⟨placed, hplaced, rfl⟩
    fun_induction tokensFrom file m position cs generalizing placed with
    | case1 m position =>
      cases hplaced
      exact ⟨m, .done m []⟩
    | case2 => cases hplaced
    | case3 => cases hplaced
    | case4 m position c cs rest next us h _ hus ih =>
      cases hplaced
      obtain ⟨m', hlexed⟩ := ih us hus
      exact ⟨m', .step h hlexed⟩
    | case5 m position c cs rest next us token h _ hus ih =>
      cases hplaced
      obtain ⟨m', hlexed⟩ := ih us hus
      exact ⟨m', .step h hlexed⟩
  · rintro ⟨m', hlexed⟩
    generalize hrest : ([] : List Char) = rest at hlexed
    induction hlexed generalizing position with
    | done m cs =>
      subst hrest
      exact ⟨[], by rw [tokensFrom], rfl⟩
    | @step m m' c cs us rest t ts h _ ih =>
      obtain ⟨placed, hplaced, rfl⟩ :=
        @ih (position.afterAll ((c :: cs).take ((c :: cs).length - us.length))) hrest
      rw [tokensFrom]
      split
      next fault heq =>
        rw [h] at heq
        cases heq
      next t' us' heq =>
        rw [h] at heq
        cases heq
        simp only [hplaced]
        cases t with
        | none => exact ⟨placed, rfl, rfl⟩
        | some token => exact ⟨⟨token, ⟨file, position⟩⟩ :: placed, rfl, rfl⟩

namespace Lexed

variable {m m' m'' : Mode} {c : Char} {cs us rest : List Char} {t : Token} {ts ts' : List Token}

theorem trans (h : Lexed m cs ts m' us) (h' : Lexed m' us ts' m'' rest) :
    Lexed m cs (ts ++ ts') m'' rest := by
  induction h with
  | done => exact h'
  | step hlexeme _ ih =>
    rw [List.append_assoc]
    exact .step hlexeme (ih h')

theorem token (h : lexeme m c cs = .ok (some t, rest)) :
    Lexed m (c :: cs) [t] (m.after (some t)) rest :=
  .step h (.done _ rest)

theorem gap (h : lexeme m c cs = .ok (none, rest)) : Lexed m (c :: cs) [] m rest :=
  .step h (.done m rest)

end Lexed

/-- A text that is read as one word. -/
def IsWord (cs : List Char) : Prop :=
  ∃ c inner, cs = c :: inner ∧ isWordStart c = true ∧ ∀ d ∈ inner, isWordInner d = true

theorem isWord_iff {cs : List Char} :
    IsWord cs ↔ (cs.head?.any isWordStart && cs.tail.all isWordInner) = true := by
  cases cs with
  | nil => simp [IsWord]
  | cons c inner =>
    simp only [List.head?_cons, Option.any_some, List.tail_cons, Bool.and_eq_true,
      List.all_eq_true]
    constructor
    · rintro ⟨_, _, heq, h⟩
      cases heq
      exact h
    · exact fun h => ⟨c, inner, rfl, h⟩

instance : DecidablePred IsWord := fun _ => decidable_of_iff _ isWord_iff.symm

/-- No word goes on with what stands here. -/
def Stops (rest : List Char) : Prop :=
  ∀ d ∈ rest.head?, isWordInner d = false

@[simp] theorem stops_cons {d : Char} {rest : List Char} :
    Stops (d :: rest) ↔ isWordInner d = false := by
  simp [Stops]

/-- What satisfies `p` is taken from a text up to where something does not. -/
theorem takeWhile_of_head {p : Char → Bool} {own rest : List Char} (hown : ∀ d ∈ own, p d = true)
    (hrest : ∀ d ∈ rest.head?, p d = false) : (own ++ rest).takeWhile p = own := by
  rw [List.takeWhile_append_of_pos hown]
  cases rest with
  | nil => simp
  | cons d rest => simp [hrest d rfl]

theorem dropWhile_of_head {p : Char → Bool} {own rest : List Char} (hown : ∀ d ∈ own, p d = true)
    (hrest : ∀ d ∈ rest.head?, p d = false) : (own ++ rest).dropWhile p = rest := by
  rw [List.dropWhile_append_of_pos hown]
  cases rest with
  | nil => rfl
  | cons d rest => simp [hrest d rfl]

theorem symbol_of_isWordStart {c : Char} (h : isWordStart c = true) (cs : List Char) :
    symbol c cs = .ok (some (.ofWord (String.ofList (c :: cs.takeWhile isWordInner))),
      cs.dropWhile isWordInner) := by
  unfold symbol
  split
  case h_19 => rw [if_pos h]
  all_goals exact absurd h (by decide)

theorem eq_of_ofWord {s name : String} (h : Token.ofWord s = .word name) : s = name := by
  unfold Token.ofWord at h
  iterate 5
    split at h
    · cases h
  exact Token.word.inj h

theorem isWord_of_symbol {c : Char} {cs rest : List Char} {name : String}
    (h : symbol c cs = .ok (some (.word name), rest)) :
    IsWord name.toList ∧ Token.ofWord name = .word name := by
  unfold symbol at h
  split at h
  case h_19 =>
    split at h
    next hc =>
      simp only [Except.ok.injEq, Prod.mk.injEq, Option.some.injEq] at h
      obtain ⟨hword, -⟩ := h
      obtain rfl := eq_of_ofWord hword
      exact ⟨⟨c, _, String.toList_ofList, hc, List.all_eq_true.1 List.all_takeWhile⟩, hword⟩
    · cases h
  all_goals first
    | cases h
    | split at h <;> cases h

/-- The words among the tokens of a text are words of the text, and none of them is a keyword. -/
theorem Lexed.isWord {m m' : Mode} {cs rest : List Char} {ts : List Token}
    (h : Lexed m cs ts m' rest) {name : String} (hname : .word name ∈ ts) :
    IsWord name.toList ∧ Token.ofWord name = .word name := by
  induction h with
  | done => cases hname
  | @step m m' c cs us rest t ts hlexeme _ ih =>
    rcases List.mem_append.1 hname with hhead | hmore
    · obtain rfl : t = some (.word name) := by simpa using hhead
      unfold lexeme at hlexeme
      split at hlexeme
      · cases hlexeme
      · exact isWord_of_symbol hlexeme
    · exact ih hmore

section Pieces

variable {m : Mode} {rest : List Char}

/-- Where no value is expected, everything is a symbol. -/
theorem lexeme_of_not_expectsValue (hm : m.expectsValue = false) (c : Char) (cs : List Char) :
    lexeme m c cs = symbol c cs := by
  simp [lexeme, hm]

theorem lexed_word {s : String} (hm : m.expectsValue = false) (hword : IsWord s.toList)
    (hrest : Stops rest) :
    Lexed m (s.toList ++ rest) [.ofWord s] (m.after (some (.ofWord s))) rest := by
  obtain ⟨c, inner, hs, hc, hinner⟩ := hword
  rw [hs, List.cons_append]
  apply Lexed.token
  rw [lexeme_of_not_expectsValue hm, symbol_of_isWordStart hc, takeWhile_of_head hinner hrest,
    dropWhile_of_head hinner hrest, ← hs, String.ofList_toList]

theorem lexed_space (m : Mode) (rest : List Char) : Lexed m (' ' :: rest) [] m rest :=
  .gap (by simp [lexeme, symbol])

/-- What can stand between two quotes as it is: no quote, no backslash and no line end. -/
def isPlain (cs : List Char) : Bool :=
  cs.all fun c => c != '"' && c != '\\' && c != '\n'

theorem quotedText_of_isPlain {cs : List Char} (h : isPlain cs = true) :
    quotedText (cs ++ '"' :: rest) = some (cs, rest) := by
  induction cs with
  | nil => rfl
  | cons c cs ih =>
    simp only [isPlain, List.all_cons, Bool.and_eq_true, bne_iff_ne] at h
    obtain ⟨⟨⟨hquote, hbackslash⟩, hline⟩, hcs⟩ := h
    rw [List.cons_append, quotedText]
    · rw [ih hcs]
      rfl
    all_goals simp_all

theorem lexed_quoted {s : String} (h : isPlain s.toList = true) (m : Mode) (rest : List Char) :
    Lexed m ('"' :: (s.toList ++ '"' :: rest)) [.quoted s] (m.after (some (.quoted s))) rest := by
  apply Lexed.token
  simp [lexeme, symbol, quotedText_of_isPlain h]

/-- An operator is printed with a space behind it, and so reads as no longer one. -/
theorem lexed_comparison (hm : m.expectsValue = false) (op : Comparison) :
    Lexed m (op.text.toList ++ ' ' :: rest) [.comparison op] (m.after (some (.comparison op)))
      (' ' :: rest) := by
  cases op <;> exact .token (lexeme_of_not_expectsValue hm _ _)

end Pieces

end IncrementalBuild.Settings
