import IncrementalBuild.Proofs.Settings.Grammar.Spelling
import IncrementalBuild.Proofs.Text.Blank
import Mathlib

/-!
Where the tokens of a text stand in it. The reader of tokens counts lines and columns as it goes; at
every token and every fault, its count is that of an offset of the text.

A string is a token that may take more than a line. A line end leaves it open, unless a backslash
stands before it that is not escaped itself: a backslash takes whatever character is behind it. So a
string that is not closed in its line is an error at its opening quote, or it goes on in the next
line.
-/

namespace IncrementalBuild.Settings

namespace Position

/-- The position of an offset of a text: the line feeds before it end the lines before its own, and
its column counts the characters since the last of them. -/
def ofOffset (cs : List Char) (i : Nat) : Position :=
  ⟨1 + (cs.take i).count '\n', 1 + ((cs.take i).reverse.takeWhile (· != '\n')).length⟩

@[simp] theorem afterAll_append {p : Position} {cs ds : List Char} :
    p.afterAll (cs ++ ds) = (p.afterAll cs).afterAll ds :=
  List.foldl_append

/-- Reading a text from its start leads to the position of its end. -/
theorem start_afterAll (cs : List Char) :
    start.afterAll cs = ⟨1 + cs.count '\n', 1 + (cs.reverse.takeWhile (· != '\n')).length⟩ := by
  induction cs using List.reverseRecOn with
  | nil => rfl
  | append_singleton cs c ih =>
    rw [afterAll_append, ih]
    by_cases hc : c = '\n'
    · simp [afterAll, after, hc]
      omega
    · simp [afterAll, after, hc]
      omega

theorem start_afterAll_eq_ofOffset (before behind : List Char) :
    start.afterAll before = ofOffset (before ++ behind) before.length := by
  rw [start_afterAll, ofOffset, List.take_left]

end Position

/-- A token of a text, with the text it was read from and the offset this begins at. -/
structure Found where
  placed : Placed
  offset : Nat
  own : List Char

/-- The token was found in the text of a file: it is what its own text spells, and its place is that
of the offset. Only an empty value has no text. -/
structure Found.In (file : Path) (cs : List Char) (f : Found) : Prop where
  offset_lt : f.offset < cs.length
  spelled : f.placed.token.SpelledBy f.own
  own_prefix : f.own <+: cs.drop f.offset
  place_eq : f.placed.place = ⟨file, .ofOffset cs f.offset⟩
  value_of_own : f.own = [] → f.placed.token = .value ""

/-- An unquoted value begins behind the blanks its text begins with, the first of which is neither a
space nor a tab: its place is that of its first character if there are none. -/
theorem Found.In.exists_blanks {file : Path} {cs : List Char} {f : Found} {v : String}
    (h : f.In file cs) (hvalue : f.placed.token = .value v) :
    ∃ blanks, (∀ c ∈ blanks, Text.isBlank c = true) ∧
      (∀ c ∈ blanks.head?, c ≠ ' ' ∧ c ≠ '\t') ∧ blanks ++ v.toList <+: cs.drop f.offset ∧
      (v ≠ "" → (v.toList <+: cs.drop f.offset ↔ blanks = [])) := by
  have hspelled := h.spelled
  have hprefix := h.own_prefix
  rw [hvalue] at hspelled
  generalize f.own = own at hspelled hprefix
  generalize htoken : Token.value v = token at hspelled
  cases hspelled with
  | value hhead _ =>
    obtain rfl : v = String.ofList (Text.trim own) := Token.value.inj htoken
    obtain ⟨blanks, behind, hown, hblank, -⟩ := Text.exists_eq_trim own
    have hvalue : blanks ++ Text.trim own <+: cs.drop f.offset :=
      List.IsPrefix.trans ⟨behind, by rw [List.append_assoc, ← hown]⟩ hprefix
    refine ⟨blanks, hblank, fun c hc => ?_, by simpa using hvalue, fun hne => ?_⟩
    · have hfirst : c ∈ own.head? := by
        rw [hown]
        cases blanks with
        | nil => cases hc
        | cons => exact hc
      exact ⟨(hhead c hfirst).1, (hhead c hfirst).2.1⟩
    · rw [String.toList_ofList]
      constructor
      · rintro ⟨_, hstart⟩
        obtain ⟨_, hblanks⟩ := hvalue
        rw [← hstart] at hblanks
        cases blanks with
        | nil => rfl
        | cons b blanks =>
          obtain ⟨c, text, htrim⟩ : ∃ c text, Text.trim own = c :: text :=
            List.exists_cons_of_ne_nil (by simpa using hne)
          have hc : Text.isBlank c = false :=
            Text.isBlank_of_head?_trim own (by simp [htrim])
          obtain rfl : b = c := by simpa [htrim] using congrArg List.head? hblanks
          simp [hblank b] at hc
      · rintro rfl
        exact hvalue
  | word =>
    have hword := ofWord_mem (String.ofList own)
    rw [← htoken] at hword
    simp at hword
  | _ => cases htoken

section Reading

variable {file : Path} {m : Mode} {c : Char} {before cs own rest : List Char} {ts : List Placed}
  {t : Option Token}

/-- The position behind a lexeme is that of the text read so far. -/
theorem afterAll_lexeme (before : List Char) (hown : c :: cs = own ++ rest) :
    (Position.start.afterAll before).afterAll ((c :: cs).take ((c :: cs).length - rest.length)) =
      Position.start.afterAll (before ++ own) := by
  rw [hown, List.length_append, Nat.add_sub_cancel, List.take_left, Position.afterAll_append]

/-- The tokens of a text were found in it one after the other. -/
theorem exists_found_of_tokensFrom
    (h : tokensFrom file m (Position.start.afterAll before) cs = .ok ts) :
    ∃ found : List Found, found.map Found.placed = ts ∧
      (∀ f ∈ found, f.In file (before ++ cs) ∧ before.length ≤ f.offset) ∧
      found.Pairwise fun f g => f.offset + f.own.length ≤ g.offset := by
  generalize hposition : Position.start.afterAll before = position at h
  fun_induction tokensFrom file m position cs generalizing before ts
  case case1 m position =>
    cases h
    exact ⟨[], rfl, by simp, .nil⟩
  case case2 => cases h
  case case3 => cases h
  case case4 m position c cs rest next us hlexeme _ hus ih =>
    cases h
    obtain ⟨own, hown, -, -⟩ := exists_own_of_lexeme hlexeme
    subst hposition
    obtain ⟨found, rfl, hin, hpairwise⟩ := ih (afterAll_lexeme before hown).symm hus
    refine ⟨found, rfl, fun f hf => ?_, hpairwise⟩
    have := hin f hf
    rw [List.append_assoc, ← hown, List.length_append] at this
    exact ⟨this.1, by omega⟩
  case case5 m position c cs rest next us token hlexeme _ hus ih =>
    cases h
    obtain ⟨own, hown, hspelled, hempty⟩ := exists_own_of_lexeme hlexeme
    subst hposition
    obtain ⟨found, rfl, hin, hpairwise⟩ := ih (afterAll_lexeme before hown).symm hus
    rw [List.append_assoc, ← hown, List.length_append] at hin
    have hfirst : Found.In file (before ++ c :: cs)
        ⟨⟨token, ⟨file, Position.start.afterAll before⟩⟩, before.length, own⟩ :=
      { offset_lt := by simp
        spelled := hspelled token rfl
        own_prefix := by simp [hown]
        place_eq := by simp [Position.start_afterAll_eq_ofOffset before (c :: cs)]
        value_of_own := fun hnil => Option.some.inj (hempty hnil) }
    refine ⟨⟨_, before.length, own⟩ :: found, rfl, fun f hf => ?_,
      List.pairwise_cons.2 ⟨fun f hf => (hin f hf).2, hpairwise⟩⟩
    rcases List.mem_cons.1 hf with rfl | hf
    · exact ⟨hfirst, Nat.le_refl _⟩
    · exact ⟨(hin f hf).1, Nat.le_of_add_right_le (hin f hf).2⟩

/-- A fault is reported where the text that is no token begins. -/
theorem exists_fault_of_tokensFrom {e : Error}
    (h : tokensFrom file m (Position.start.afterAll before) cs = .error e) :
    ∃ fault i, e = LexicalFault.toError ⟨file, .ofOffset (before ++ cs) i⟩ fault ∧
      i < (before ++ cs).length := by
  generalize hposition : Position.start.afterAll before = position at h
  fun_induction tokensFrom file m position cs generalizing before
  case case1 => cases h
  case case2 m position c cs fault hlexeme =>
    cases h
    subst hposition
    exact ⟨fault, before.length, by rw [Position.start_afterAll_eq_ofOffset before (c :: cs)],
      by simp⟩
  case case3 m position c cs t rest hlexeme next _ hus ih =>
    cases h
    obtain ⟨own, hown, -, -⟩ := exists_own_of_lexeme hlexeme
    subst hposition
    rw [hown, ← List.append_assoc]
    exact ih (afterAll_lexeme before hown).symm hus
  case case4 => cases h
  case case5 => cases h

end Reading

/-- Read from behind an opening quote, a text comes to `mark` before its first line ends. -/
def ReachesInLine (mark cs : List Char) : Prop :=
  ∃ content body, Quotes content body ∧ '\n' ∉ body ∧ body ++ mark <+: cs

/-- The string is closed in the line it begins in. -/
def ClosesInLine (cs : List Char) : Prop :=
  ReachesInLine ['"'] cs

/-- The end of the line the string begins in is escaped. -/
def EscapesLineEnd (cs : List Char) : Prop :=
  ReachesInLine ['\\', '\n'] cs

section Reaches

variable {mark content body cs : List Char} {c : Char}

theorem reachesInLine_of_isPrefix (h : mark <+: cs) : ReachesInLine mark cs :=
  ⟨[], [], .nil, List.not_mem_nil, h⟩

theorem ReachesInLine.plain (hquote : c ≠ '"') (hbackslash : c ≠ '\\') (hline : c ≠ '\n')
    (h : ReachesInLine mark cs) : ReachesInLine mark (c :: cs) := by
  obtain ⟨content, body, hbody, hnone, hprefix⟩ := h
  exact ⟨c :: content, c :: body, .plain hquote hbackslash hline hbody, by simp [hnone, hline.symm],
    List.cons_prefix_cons.2 ⟨rfl, hprefix⟩⟩

theorem ReachesInLine.escape (hline : c ≠ '\n') (h : ReachesInLine mark cs) :
    ReachesInLine mark ('\\' :: c :: cs) := by
  obtain ⟨content, body, hbody, hnone, hprefix⟩ := h
  exact ⟨unescape c ++ content, '\\' :: c :: body, .escape c hbody, by simp [hnone, hline.symm],
    List.cons_prefix_cons.2 ⟨rfl, List.cons_prefix_cons.2 ⟨rfl, hprefix⟩⟩⟩

/-- What a text comes to before its first line ends begins in its first line. -/
theorem ReachesInLine.mem_line (h : ReachesInLine (c :: mark) cs) (hc : c ≠ '\n') :
    c ∈ cs.takeWhile (· != '\n') := by
  obtain ⟨content, body, -, hnone, rest, rfl⟩ := h
  have hbody : ∀ d ∈ body, (d != '\n') = true := by
    intro d hd
    exact bne_iff_ne.2 fun hline => hnone (hline ▸ hd)
  rw [List.append_assoc, List.takeWhile_append_of_pos hbody]
  simp [hc]

theorem Quotes.exists_escape_of_mem (h : Quotes content body) (hline : '\n' ∈ body) :
    EscapesLineEnd body := by
  induction h with
  | nil => cases hline
  | plain hquote hbackslash hfeed _ ih =>
    have hmore := (List.mem_cons.1 hline).resolve_left (Ne.symm hfeed)
    exact (ih hmore).plain hquote hbackslash hfeed
  | @escape c s cs _ ih =>
    by_cases hc : c = '\n'
    · exact reachesInLine_of_isPrefix ⟨cs, by rw [hc]; rfl⟩
    · have hmore : '\n' ∈ cs := by simpa [Ne.symm hc] using hline
      exact (ih hmore).escape hc

/-- What stands between two quotes is on one line just if no line end in it is escaped. -/
theorem Quotes.mem_line_end_iff (h : Quotes content body) : '\n' ∈ body ↔ EscapesLineEnd body := by
  refine ⟨h.exists_escape_of_mem, ?_⟩
  rintro ⟨content, front, -, -, hprefix⟩
  exact hprefix.subset (by simp)

/-- A string that is not closed in its line, and does not escape the end of it, is not closed. -/
theorem quotedText_eq_none (hopen : ¬ ClosesInLine cs) (hend : ¬ EscapesLineEnd cs) :
    quotedText cs = none := by
  fun_induction quotedText cs with
  | case1 | case3 | case4 => rfl
  | case2 cs => exact absurd (reachesInLine_of_isPrefix ⟨cs, rfl⟩) hopen
  | case5 c cs ih =>
    have hc : c ≠ '\n' := by
      rintro rfl
      exact hend (reachesInLine_of_isPrefix ⟨cs, rfl⟩)
    rw [ih (fun h => hopen (h.escape hc)) fun h => hend (h.escape hc)]
    rfl
  | case6 c cs hquote hline hlast hescape ih =>
    by_cases hbackslash : c = '\\'
    · cases cs with
      | nil => exact absurd rfl (hlast hbackslash)
      | cons d ds => exact absurd rfl (hescape d ds hbackslash)
    · rw [ih (fun h => hopen (h.plain hquote hbackslash hline))
        fun h => hend (h.plain hquote hbackslash hline)]
      rfl

theorem Token.SpelledBy.exists_quotes {s : String} {own : List Char}
    (h : (Token.quoted s).SpelledBy own) :
    ∃ body, own = '"' :: (body ++ ['"']) ∧ Quotes s.toList body := by
  generalize htoken : Token.quoted s = token at h
  cases h with
  | @quoted content body hbody =>
    obtain rfl : s = String.ofList content := Token.quoted.inj htoken
    exact ⟨body, rfl, by simpa using hbody⟩
  | word =>
    have hword := ofWord_mem (String.ofList own)
    rw [← htoken] at hword
    simp at hword
  | _ => cases htoken

end Reaches

section Strings

variable {file : Path} {m m' : Mode} {c : Char} {before cs rest : List Char} {ts : List Token}

/-- Where the reader comes to a character that no lexeme begins with, it ends with the fault, at the
offset it has come to. -/
theorem tokensFrom_of_fault {fault : LexicalFault} (h : Lexed m cs ts m' (c :: rest))
    (hfault : lexeme m' c rest = .error fault) :
    tokensFrom file m (Position.start.afterAll before) cs =
      .error (fault.toError ⟨file,
        .ofOffset (before ++ cs) ((before ++ cs).length - (c :: rest).length)⟩) := by
  generalize hend : c :: rest = behind at h
  induction h generalizing before with
  | done m cs =>
    subst hend
    rw [tokensFrom]
    split
    next fault' heq =>
      cases hfault.symm.trans heq
      rw [Position.start_afterAll_eq_ofOffset before (c :: rest), List.length_append,
        Nat.add_sub_cancel]
    next heq => cases hfault.symm.trans heq
  | @step m m' d ds us behind t ts hlexeme _ ih =>
    obtain ⟨own, hown, -, -⟩ := exists_own_of_lexeme hlexeme
    rw [tokensFrom]
    split
    next heq => cases hlexeme.symm.trans heq
    next heq =>
      cases hlexeme.symm.trans heq
      dsimp only
      rw [afterAll_lexeme before hown, ih hfault hend, hown, List.append_assoc]

/-- Where the reader of a file comes to a quote, the string that begins there is read if it is
closed, on whatever line, and otherwise is an error at the quote. It is one if it is not closed in
its line, unless the end of this line is escaped. So a string that was read is on one line just if
no line end in it is escaped. -/
theorem tokens?_quoted (file : Path) (source : String) :
    (∀ ts m before cs, source.toList = before ++ '"' :: cs →
      Lexed .start source.toList ts m ('"' :: cs) →
      (∀ content own rest, Quotes content own → cs = own ++ '"' :: rest →
        Lexed .start source.toList (ts ++ [.quoted (String.ofList content)])
          (m.after (some (.quoted (String.ofList content)))) rest) ∧
      ((∀ content own rest, Quotes content own → cs ≠ own ++ '"' :: rest) →
        tokens? file source =
          .error (.unterminatedString ⟨file, .ofOffset source.toList before.length⟩)) ∧
      (¬ ClosesInLine cs → EscapesLineEnd cs ∨ tokens? file source =
          .error (.unterminatedString ⟨file, .ofOffset source.toList before.length⟩))) ∧
    ∀ placed, tokens? file source = .ok placed →
      ∃ found : List Found, found.map Found.placed = placed ∧
        ∀ f ∈ found, f.In file source.toList ∧ ∀ s, f.placed.token = .quoted s →
          ∃ body, f.own = '"' :: (body ++ ['"']) ∧ Quotes s.toList body ∧
            ('\n' ∈ f.own ↔ EscapesLineEnd body) := by
  refine ⟨fun ts m before cs hsource h => ?_, fun placed hplaced => ?_⟩
  · have hopen (hnone : quotedText cs = none) : tokens? file source =
        .error (.unterminatedString ⟨file, .ofOffset source.toList before.length⟩) := by
      have hfault : lexeme m '"' cs = .error .openString := by simp [lexeme, symbol, hnone]
      have herror := @tokensFrom_of_fault file _ _ _ [] _ _ _ _ h hfault
      have hoffset : source.toList.length - ('"' :: cs).length = before.length := by
        rw [hsource, List.length_append, Nat.add_sub_cancel]
      rw [List.nil_append, hoffset] at herror
      exact herror
    refine ⟨?_, fun hunclosed => hopen ?_, fun hline => ?_⟩
    · rintro content own rest hown rfl
      exact h.trans (lexed_quotes hown m rest)
    · refine Option.eq_none_iff_forall_ne_some.2 ?_
      rintro ⟨content, rest⟩ hread
      obtain ⟨own, hcs, hown⟩ := quotedText_eq_some_iff.1 hread
      exact hunclosed content own rest hown hcs
    · exact or_iff_not_imp_left.2 fun hend => hopen (quotedText_eq_none hline hend)
  · obtain ⟨found, hmap, hin, -⟩ :=
      @exists_found_of_tokensFrom file .start [] source.toList _ hplaced
    refine ⟨found, hmap, fun f hf => ⟨(hin f hf).1, fun s hs => ?_⟩⟩
    have hspelled := (hin f hf).1.spelled
    rw [hs] at hspelled
    obtain ⟨body, hown, hbody⟩ := hspelled.exists_quotes
    refine ⟨body, hown, hbody, ?_⟩
    rw [← hbody.mem_line_end_iff, hown]
    simp

/-- A string that is closed in the line after its own, behind a line end that is escaped. -/
def continuedString : String :=
  "X = \"a\\\nb\"\n"

/-- A string that its line leaves open. -/
def openString : String :=
  "X = \"a\nb\"\n"

theorem continuedString_quoted :
    tokens? ⟨"app"⟩ openString = .error (.unterminatedString ⟨⟨"app"⟩, ⟨1, 5⟩⟩) ∧
      ∃ f : Found, f.placed = ⟨.quoted "a\\\nb", ⟨⟨"app"⟩, ⟨1, 5⟩⟩⟩ ∧
        f.In ⟨"app"⟩ continuedString.toList ∧ '\n' ∈ f.own := by
  constructor
  · have hlexed : Lexed .start openString.toList [.word "X", .assign] ⟨true, 0⟩
        ('"' :: "a\nb\"\n".toList) :=
      (Lexed.token rfl).trans ((lexed_space _ _).trans ((Lexed.token rfl).trans (lexed_space _ _)))
    have hline {c : Char} {mark : List Char} (hc : c ≠ 'a') (hfeed : c ≠ '\n') :
        ¬ ReachesInLine (c :: mark) "a\nb\"\n".toList :=
      fun h => hc (List.mem_singleton.1 (h.mem_line hfeed))
    have hquote := ((tokens?_quoted ⟨"app"⟩ openString).1 _ _ "X = ".toList _ rfl hlexed).2.2
    exact (hquote (hline (by decide) (by decide))).resolve_left (hline (by decide) (by decide))
  · have htokens : tokens? ⟨"app"⟩ continuedString = .ok [⟨.word "X", ⟨⟨"app"⟩, ⟨1, 1⟩⟩⟩,
        ⟨.assign, ⟨⟨"app"⟩, ⟨1, 3⟩⟩⟩, ⟨.quoted "a\\\nb", ⟨⟨"app"⟩, ⟨1, 5⟩⟩⟩] := by
      cbv
    obtain ⟨found, hmap, hfound⟩ := (tokens?_quoted ⟨"app"⟩ continuedString).2 _ htokens
    obtain ⟨f, hf, hplaced⟩ : ∃ f ∈ found, f.placed = ⟨.quoted "a\\\nb", ⟨⟨"app"⟩, ⟨1, 5⟩⟩⟩ := by
      rw [← List.mem_map, hmap]
      simp
    obtain ⟨hin, hquoted⟩ := hfound f hf
    obtain ⟨body, hown, -, -⟩ := hquoted _ (by rw [hplaced])
    have hposition : ∀ i < continuedString.toList.length,
        Position.ofOffset continuedString.toList i = ⟨1, 5⟩ → i = 4 := by
      decide
    have hplace := hin.place_eq
    rw [hplaced] at hplace
    have hoffset := hposition f.offset hin.offset_lt (Place.mk.inj hplace).2.symm
    have hprefix := hin.own_prefix
    rw [hown, hoffset] at hprefix
    obtain ⟨rest, hrest⟩ := hprefix
    -- With a shorter body, another character would stand where the second quote is.
    have hmem : '\n' ∈ body := by
      rcases body with _ | ⟨c, _ | ⟨d, _ | ⟨e, body⟩⟩⟩ <;> simp_all [continuedString]
    exact ⟨f, hplaced, hin, by rw [hown]; simp [hmem]⟩

end Strings

end IncrementalBuild.Settings
