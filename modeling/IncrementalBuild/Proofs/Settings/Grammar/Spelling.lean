import IncrementalBuild.Proofs.Settings.Grammar.Lexemes

/-!
The texts that tokens are written as. What is read as a token at the front of a text is one of the
token's spellings, and a spelling is read as its token wherever nothing stands behind it that would
go on with it.
-/

namespace IncrementalBuild.Settings

/-- What stands between two quotes, and the content it stands for. -/
inductive Quotes : (content text : List Char) → Prop where
  | nil : Quotes [] []
  | plain {c : Char} {s cs : List Char} :
      c ≠ '"' → c ≠ '\\' → c ≠ '\n' → Quotes s cs → Quotes (c :: s) (c :: cs)
  | escape (c : Char) {s cs : List Char} :
      Quotes s cs → Quotes (unescape c ++ s) ('\\' :: c :: cs)

theorem quotedText_eq_some_iff {cs s rest : List Char} :
    quotedText cs = some (s, rest) ↔ ∃ own, cs = own ++ '"' :: rest ∧ Quotes s own := by
  constructor
  · intro h
    fun_induction quotedText cs generalizing s with
    | case1 => cases h
    | case2 cs =>
      cases h
      exact ⟨[], rfl, .nil⟩
    | case3 => cases h
    | case4 => cases h
    | case5 c cs ih =>
      obtain ⟨⟨s', rest'⟩, h', heq⟩ := Option.map_eq_some_iff.1 h
      cases heq
      obtain ⟨own, rfl, hown⟩ := ih h'
      exact ⟨'\\' :: c :: own, rfl, .escape c hown⟩
    | case6 c cs hquote hline hlast hescape ih =>
      obtain ⟨⟨s', rest'⟩, h', heq⟩ := Option.map_eq_some_iff.1 h
      cases heq
      obtain ⟨own, rfl, hown⟩ := ih h'
      refine ⟨c :: own, rfl, .plain hquote ?_ hline hown⟩
      rintro rfl
      cases own with
      | nil => exact hescape _ _ rfl rfl
      | cons d own => exact hescape _ _ rfl rfl
  · rintro ⟨own, rfl, hown⟩
    induction hown with
    | nil => rfl
    | plain hquote hbackslash hline _ ih =>
      rw [List.cons_append, quotedText, ih]
      · rfl
      all_goals simp_all
    | escape c _ ih => rw [List.cons_append, List.cons_append, quotedText, ih]; rfl

theorem markerText_eq_some_iff {cs s rest : List Char} :
    markerText cs = some (s, rest) ↔ cs = s ++ ']' :: rest ∧ ']' ∉ s ∧ '\n' ∉ s := by
  constructor
  · intro h
    fun_induction markerText cs generalizing s with
    | case1 => cases h
    | case2 cs =>
      cases h
      simp
    | case3 => cases h
    | case4 c cs hbracket hline ih =>
      obtain ⟨⟨s', rest'⟩, h', heq⟩ := Option.map_eq_some_iff.1 h
      cases heq
      obtain ⟨rfl, hclose, hfeed⟩ := ih h'
      simp_all [eq_comm]
  · rintro ⟨rfl, hclose, hfeed⟩
    induction s with
    | nil => rfl
    | cons c s ih =>
      simp only [List.mem_cons, not_or] at hclose hfeed
      rw [List.cons_append, markerText, ih hclose.2 hfeed.2]
      · rfl
      all_goals simp_all [eq_comm]

/-- The texts that a token can be written as. An unquoted value is what is left of its text when the
blanks at both ends are taken away. -/
inductive Token.SpelledBy : Token → List Char → Prop where
  | group {s : List Char} : ']' ∉ s → '\n' ∉ s →
      SpelledBy (.group (String.ofList (Text.trim s))) ('[' :: (s ++ [']']))
  | word {cs : List Char} : IsWord cs → SpelledBy (.ofWord (String.ofList cs)) cs
  | quoted {s cs : List Char} : Quotes s cs →
      SpelledBy (.quoted (String.ofList s)) ('"' :: (cs ++ ['"']))
  | value {cs : List Char} : (∀ c ∈ cs.head?, c ≠ ' ' ∧ c ≠ '\t' ∧ c ≠ '"') → '\n' ∉ cs →
      SpelledBy (.value (String.ofList (Text.trim cs))) cs
  | comparison (op : Comparison) : SpelledBy (.comparison op) op.text.toList
  | andSign : SpelledBy .andOp ['&', '&']
  | orSign : SpelledBy .orOp ['|', '|']
  | notSign : SpelledBy .notOp ['!']
  | assign : SpelledBy .assign ['=']
  | openParen : SpelledBy .openParen ['(']
  | closeParen : SpelledBy .closeParen [')']
  | openBrace : SpelledBy .openBrace ['{']
  | closeBrace : SpelledBy .closeBrace ['}']

/-- A bare word is a keyword or a word of its own. -/
theorem ofWord_mem (s : String) :
    Token.ofWord s ∈ [.ifWord, .elseWord, .andOp, .orOp, .notOp, .word s] := by
  unfold Token.ofWord
  iterate 5
    split
    · simp
  simp

section Own

variable {m : Mode} {c d : Char} {cs rest : List Char} {t : Option Token}

/-- What is read at the front of a text, from its first character on: a spelling of the token, if it
is one. -/
def Takes (c : Char) (cs : List Char) (t : Option Token) (rest : List Char) : Prop :=
  ∃ own, cs = own ++ rest ∧ ∀ token, t = some token → token.SpelledBy (c :: own)

theorem takes_gap (hrest : rest <:+ cs) : Takes c cs none rest := by
  obtain ⟨own, rfl⟩ := hrest
  exact ⟨own, rfl, by simp⟩

theorem takes_token {token : Token} (own : List Char) (h : token.SpelledBy (c :: own)) :
    Takes c (own ++ rest) (some token) rest := by
  refine ⟨own, rfl, ?_⟩
  rintro _ ⟨⟩
  exact h

/-- An operator of two characters, or of the first one only. -/
theorem takes_sign {long short : Token} (hlong : long.SpelledBy [c, d])
    (hshort : short.SpelledBy [c])
    (h : (if cs.head? = some d then .ok (some long, cs.tail) else .ok (some short, cs) :
      LexemeResult) = .ok (t, rest)) : Takes c cs t rest := by
  split at h
  next hd =>
    obtain ⟨tail, rfl⟩ := List.head?_eq_some_iff.1 hd
    cases h
    exact takes_token [d] hlong
  · cases h
    exact takes_token [] hshort

/-- An operator that is a character written twice. -/
theorem takes_pair {token : Token} (htoken : token.SpelledBy [c, c])
    (h : (if cs.head? = some c then .ok (some token, cs.tail) else .error (.character c) :
      LexemeResult) = .ok (t, rest)) : Takes c cs t rest := by
  split at h
  next hc =>
    obtain ⟨tail, rfl⟩ := List.head?_eq_some_iff.1 hc
    cases h
    exact takes_token [c] htoken
  · cases h

theorem takes_of_symbol (h : symbol c cs = .ok (t, rest)) : Takes c cs t rest := by
  unfold symbol at h
  split at h
  case h_1 | h_2 | h_3 | h_4 =>
    cases h
    exact takes_gap (List.suffix_refl cs)
  case h_5 =>
    cases h
    exact takes_gap (List.dropWhile_suffix _)
  case h_6 =>
    split at h
    · cases h
      exact takes_gap (List.dropWhile_suffix _)
    · cases h
  case h_7 =>
    split at h
    next s r hquoted =>
      cases h
      obtain ⟨own, rfl, hown⟩ := quotedText_eq_some_iff.1 hquoted
      rw [List.append_cons]
      exact takes_token _ (.quoted hown)
    · cases h
  case h_8 =>
    split at h
    next s r hmarker =>
      cases h
      obtain ⟨rfl, hclose, hline⟩ := markerText_eq_some_iff.1 hmarker
      rw [List.append_cons]
      exact takes_token _ (.group hclose hline)
    · cases h
  case h_9 => exact takes_sign (.comparison .equal) .assign h
  case h_10 => exact takes_sign (.comparison .notEqual) .notSign h
  case h_11 => exact takes_sign (.comparison .lessEqual) (.comparison .less) h
  case h_12 => exact takes_sign (.comparison .greaterEqual) (.comparison .greater) h
  case h_13 => exact takes_pair .andSign h
  case h_14 => exact takes_pair .orSign h
  case h_15 =>
    cases h
    exact takes_token [] .openParen
  case h_16 =>
    cases h
    exact takes_token [] .closeParen
  case h_17 =>
    cases h
    exact takes_token [] .openBrace
  case h_18 =>
    cases h
    exact takes_token [] .closeBrace
  case h_19 =>
    split at h
    next hstart =>
      cases h
      refine ⟨cs.takeWhile isWordInner, List.takeWhile_append_dropWhile.symm, ?_⟩
      rintro _ ⟨⟩
      exact .word ⟨c, _, rfl, hstart, List.all_eq_true.1 List.all_takeWhile⟩
    · cases h

/-- A lexeme takes its text from the front, and the text of a token is one of its spellings. Only an
empty value takes nothing. -/
theorem exists_own_of_lexeme (h : lexeme m c cs = .ok (t, rest)) :
    ∃ own, c :: cs = own ++ rest ∧ (∀ token, t = some token → token.SpelledBy own) ∧
      (own = [] → t = some (.value "")) := by
  unfold lexeme at h
  split at h
  next hvalue =>
    simp only [Bool.and_eq_true, bne_iff_ne] at hvalue
    obtain ⟨⟨⟨-, hspace⟩, htab⟩, hquote⟩ := hvalue
    cases h
    refine ⟨(c :: cs).takeWhile m.inValue, List.takeWhile_append_dropWhile.symm, ?_, ?_⟩
    · rintro _ ⟨⟩
      refine .value ?_ fun hline => ?_
      · intro d hd
        rw [List.head?_takeWhile] at hd
        obtain rfl : c = d := by
          have := Option.eq_some_of_filter_eq_some hd
          simpa using this
        exact ⟨hspace, htab, hquote⟩
      · have hin := List.all_eq_true.1 List.all_takeWhile _ hline
        simp [Mode.inValue] at hin
    · intro hnil
      rw [hnil]
      rfl
  next =>
    obtain ⟨own, rfl, hown⟩ := takes_of_symbol h
    exact ⟨c :: own, rfl, hown, by simp⟩

end Own

section Reading

variable {m : Mode} {own rest : List Char} {t : Token}

/-- What a token must not be followed by: a character that would go on with it. -/
def Detached (rest : List Char) : Prop :=
  Stops rest ∧ rest.head? ≠ some '='

/-- Where no value is expected, a spelling of a token is read as the token. -/
theorem Token.SpelledBy.lexed (h : t.SpelledBy own) (hm : m.expectsValue = false)
    (hvalue : ∀ v, t ≠ .value v) (hrest : Detached rest) :
    Lexed m (own ++ rest) [t] (m.after (some t)) rest := by
  obtain ⟨hstops, hequals⟩ := hrest
  have hsymbol {c : Char} {cs : List Char} (hc : symbol c (cs ++ rest) = .ok (some t, rest)) :
      Lexed m (c :: cs ++ rest) [t] (m.after (some t)) rest :=
    .token ((lexeme_of_not_expectsValue hm _ _).trans hc)
  cases h with
  | @group s hclose hline =>
    refine hsymbol ?_
    have hmarker : markerText (s ++ [']'] ++ rest) = some (s, rest) :=
      markerText_eq_some_iff.2 ⟨by simp, hclose, hline⟩
    simp only [symbol, hmarker]
  | word hword =>
    have hlexed := @lexed_word m rest (String.ofList own) hm (by simpa using hword) hstops
    simpa using hlexed
  | @quoted s cs hquotes =>
    refine hsymbol ?_
    have hquoted : quotedText (cs ++ ['"'] ++ rest) = some (s, rest) :=
      quotedText_eq_some_iff.2 ⟨cs, by simp, hquotes⟩
    simp only [symbol, hquoted]
  | value => exact absurd rfl (hvalue _)
  | comparison op =>
    cases op with
    | less | greater => exact hsymbol (if_neg hequals)
    | _ => exact hsymbol rfl
  | assign | notSign => exact hsymbol (if_neg hequals)
  | _ => exact hsymbol rfl

theorem lexed_quotes {s : List Char} (h : Quotes s own) (m : Mode) (rest : List Char) :
    Lexed m ('"' :: (own ++ '"' :: rest)) [.quoted (String.ofList s)]
      (m.after (some (.quoted (String.ofList s)))) rest := by
  refine .token ?_
  simp [lexeme, symbol, quotedText_eq_some_iff.2 ⟨own, rfl, h⟩]

/-- An unquoted value ends with its line, and in a block before a closing brace. -/
theorem lexed_value {c : Char} {cs : List Char} (hm : m.expectsValue = true)
    (hsplit : c :: cs = own ++ rest) (hown : ∀ d ∈ own, m.inValue d = true)
    (hrest : ∀ d ∈ rest.head?, m.inValue d = false) (hc : c ≠ ' ' ∧ c ≠ '\t' ∧ c ≠ '"') :
    Lexed m (c :: cs) [.value (String.ofList (Text.trim own))]
      (m.after (some (.value (String.ofList (Text.trim own))))) rest := by
  refine .token ?_
  rw [lexeme, if_pos (by simp [hm, hc]), hsplit, takeWhile_of_head hown hrest,
    dropWhile_of_head hown hrest]

end Reading

end IncrementalBuild.Settings
