import IncrementalBuild.Proofs.Settings.Grammar.Rendering
import IncrementalBuild.Proofs.Settings.Grammar.Statements
import Mathlib

/-!
How deep the statements of a program stand. The reader of tokens counts braces and knows no grammar;
where the tokens spell a program, its count is positive exactly at the assignments that carry
conditions, and no brace is closed that was not opened.
-/

namespace IncrementalBuild.Settings

/-- A token that declares nothing and neither opens nor closes a block, whatever follows it. -/
def Token.isNeutral : Token → Bool
  | .group _ | .word _ | .value _ | .openBrace | .closeBrace => false
  | _ => true

/-- The declarations among some tokens, each with whether a brace is open around it, where `depth`
braces are open at the start. No brace is closed that was not opened, and every unquoted value is
assigned to a key. -/
inductive Outline : (depth : Nat) → List Placed → List (Declaration × Bool) → Prop where
  | nil (depth : Nat) : Outline depth [] []
  | group {depth : Nat} {ts : List Placed} {ds : List (Declaration × Bool)} (name : String)
      (place : Place) : Outline depth ts ds →
      Outline depth (⟨.group name, place⟩ :: ts) ((.group name place, decide (0 < depth)) :: ds)
  | assign {depth : Nat} {ts : List Placed} {ds : List (Declaration × Bool)} {a : Assignment}
      {value : Placed} (place : Place) :
      value.token = .value a.value ∨ value.token = .quoted a.value → Outline depth ts ds →
      Outline depth (⟨.word a.key, a.place⟩ :: ⟨.assign, place⟩ :: value :: ts)
        ((.assignment a, decide (0 < depth)) :: ds)
  | openBrace {depth : Nat} {ts : List Placed} {ds : List (Declaration × Bool)} (place : Place) :
      Outline (depth + 1) ts ds → Outline depth (⟨.openBrace, place⟩ :: ts) ds
  | closeBrace {depth : Nat} {ts : List Placed} {ds : List (Declaration × Bool)} (place : Place) :
      Outline depth ts ds → Outline (depth + 1) (⟨.closeBrace, place⟩ :: ts) ds
  | word {depth : Nat} {ts : List Placed} {ds : List (Declaration × Bool)} (name : String)
      (place : Place) : Avoids (· = .assign) ts → Outline depth ts ds →
      Outline depth (⟨.word name, place⟩ :: ts) ds
  | neutral {depth : Nat} {t : Placed} {ts : List Placed} {ds : List (Declaration × Bool)} :
      t.token.isNeutral = true → Outline depth ts ds → Outline depth (t :: ts) ds

/-- A statement as it stands in an outline: a brace is open around those with conditions. -/
def Statement.outlined : Statement → Declaration × Bool
  | .group name place => (.group name place, false)
  | .assignment _ key value conditions place =>
    (.assignment ⟨key, place, value⟩, !conditions.isEmpty)

section Outline

variable {depth : Nat} {t : Placed} {ts us vs rest : List Placed} {ds : List (Declaration × Bool)}

/-- A condition is no part of the outline. -/
theorem Condition.Spelled.outline {tier : Tier} {c : Condition} (h : c.Spelled tier ts rest)
    (hrest : Avoids (· = .assign) rest) (ho : Outline depth rest ds) : Outline depth ts ds := by
  induction h with
  | word name place => exact .word name place hrest ho
  | quoted => exact .neutral rfl ho
  | not _ _ ih => exact .neutral rfl (ih hrest ho)
  | paren _ _ _ ih => exact .neutral rfl (ih (avoids_cons (by simp)) (.neutral rfl ho))
  | ofUnary _ ih | ofComparison _ ih => exact ih hrest ho
  | compare _ _ _ ihl ihr | and _ _ _ ihl ihr | or _ _ _ ihl ihr =>
    exact ihl (avoids_cons (by simp)) (.neutral rfl (ihr hrest ho))

mutual

theorem Block.Spelled.outline (group : String) (opened : List Condition) {depth : Nat}
    (hopened : opened ≠ [] ↔ 0 < depth) {b : Block} {ts rest : List Placed}
    {ds : List (Declaration × Bool)} : b.Spelled ts rest → Outline depth rest ds →
      Outline depth ts ((b.statements group opened).map Statement.outlined ++ ds)
  | .done _, ho => ho
  | .assign place hvalue _ hblock, ho => by
    have hinside : (!opened.isEmpty) = decide (0 < depth) := by
      rw [Bool.eq_iff_iff, decide_eq_true_iff, ← hopened]
      simp
    rw [Block.statements, List.map_cons, Statement.outlined, hinside]
    exact .assign place hvalue (hblock.outline group opened hopened ho)
  | .choose place hchoice hblock, ho => by
    rw [Block.statements, ← List.append_assoc, List.map_append, List.append_assoc]
    exact .neutral rfl (hchoice.outline group opened (hblock.outline group opened hopened ho))

theorem ChoiceSpelled.outline (group : String) (opened : List Condition) {depth : Nat}
    {c : Condition} {body : Block} {otherwise : Otherwise} {ts rest : List Placed}
    {ds : List (Declaration × Bool)} :
    ChoiceSpelled c body otherwise ts rest → Outline depth rest ds →
      Outline depth ts ((body.statements group (opened ++ [c]) ++
        otherwise.statements group (opened ++ [.not c])).map Statement.outlined ++ ds)
  | .mk _ _ openBrace closeBrace hc hbody hotherwise, ho => by
    rw [List.map_append, List.append_assoc]
    have hbehind := hotherwise.outline group (opened ++ [.not c]) (by simp) ho
    have hinside := hbody.outline group (opened ++ [c]) (by simp)
      (.closeBrace closeBrace hbehind)
    refine .neutral rfl (hc.outline (avoids_cons (by simp)) (.neutral rfl ?_))
    exact .openBrace openBrace hinside

theorem Otherwise.Spelled.outline (group : String) (opened : List Condition) {depth : Nat}
    (hopened : opened ≠ []) {otherwise : Otherwise} {ts rest : List Placed}
    {ds : List (Declaration × Bool)} : otherwise.Spelled ts rest → Outline depth rest ds →
      Outline depth ts ((otherwise.statements group opened).map Statement.outlined ++ ds)
  | .nothing _, ho => ho
  | .block _ openBrace closeBrace hbody, ho => by
    have hinside := hbody.outline group opened (iff_of_true hopened (Nat.succ_pos depth))
      (.closeBrace closeBrace ho)
    exact .neutral rfl (.openBrace openBrace hinside)
  | .choose _ _ hchoice, ho => .neutral rfl (.neutral rfl (hchoice.outline group opened ho))

end

theorem SectionsSpelled.outline {sections : List Section} (h : SectionsSpelled sections ts) :
    Outline 0 ts ((sections.flatMap Section.statements).map Statement.outlined) := by
  induction h with
  | nil => exact .nil 0
  | @cons s sections ts us hbody _ ih =>
    have hblock := hbody.outline s.name [] (by simp) ih
    simpa [Section.statements, Statement.outlined] using hblock.group s.name s.place

/-- Where tokens spell a program, counting braces finds its statements, and a brace is open around
exactly those that carry conditions. -/
theorem Program.Spelled.outline {p : Program} (h : p.Spelled ts) :
    Outline 0 ts (p.statements.map Statement.outlined) := by
  obtain ⟨us, hleading, hsections⟩ := h
  rw [Program.statements, List.map_append]
  exact hleading.outline "" [] (by simp) hsections.outline

/-- An outline holds the declarations of its tokens. -/
theorem Outline.declarations (h : Outline depth ts ds) : declarations ts = ds.map Prod.fst := by
  induction h with
  | nil => rfl
  | group name place _ ih => rw [Settings.declarations, ih, List.map_cons]
  | assign place hvalue _ ih => rw [declarations_assign place hvalue, ih, List.map_cons]
  | openBrace place _ ih | closeBrace place _ ih => rw [declarations_skip (by simp) (by simp), ih]
  | word name place hrest _ ih => rw [declarations_word place hrest, ih]
  | @neutral depth t ts ds ht _ ih =>
    rw [declarations_skip _ _, ih] <;> rintro _ heq <;> rw [heq] at ht <;> cases ht

/-- A token that is neutral leaves the number of open braces. -/
theorem Token.depth_after_of_isNeutral {m : Mode} {token : Token} (h : token.isNeutral = true) :
    (m.after (some token)).depth = m.depth := by
  cases token <;> first | rfl | cases h

/-- No brace is closed that was not opened. -/
theorem Outline.depth_pos_of_closeBrace {m : Mode} {place : Place}
    (h : Outline m.depth (us ++ ⟨.closeBrace, place⟩ :: vs) ds) :
    0 < (m.afterTokens (us.map Placed.token)).depth := by
  generalize hdepth : m.depth = depth at h
  generalize hts : us ++ ⟨.closeBrace, place⟩ :: vs = ts at h
  induction h generalizing m us with
  | nil => simp at hts
  | group _ _ _ ih | openBrace _ _ ih | word _ _ _ _ ih =>
    rcases List.append_eq_cons_iff.1 hts with ⟨-, heq⟩ | ⟨us, rfl, rfl⟩
    · cases heq
    · simpa using ih (by simp [Mode.after, hdepth]) rfl
  | closeBrace _ _ ih =>
    rcases List.append_eq_cons_iff.1 hts with ⟨rfl, -⟩ | ⟨us, rfl, rfl⟩
    · simp [hdepth]
    · simpa using ih (by simp [Mode.after, hdepth]) rfl
  | @assign depth ts ds a value _ hvalue _ ih =>
    obtain ⟨token, valuePlace⟩ := value
    rcases us with _ | ⟨_, _ | ⟨_, _ | ⟨_, us⟩⟩⟩
    · cases hts
    · cases hts
    · cases hts
      simp at hvalue
    · cases hts
      rcases hvalue with rfl | rfl <;> simpa using ih (by simp [Mode.after, hdepth]) rfl
  | neutral ht _ ih =>
    rcases List.append_eq_cons_iff.1 hts with ⟨-, heq⟩ | ⟨us, rfl, rfl⟩
    · cases heq
      cases ht
    · simpa using ih ((Token.depth_after_of_isNeutral ht).trans hdepth) rfl

/-- Between the tokens `us`, which are read from the mode `m` on, and the tokens `vs`, the value `s`
is assigned to the key that stands before it, and the outline `ds` says whether a brace is open. -/
def Assigns (m : Mode) (us : List Placed) (s : String) (vs : List Placed)
    (ds : List (Declaration × Bool)) : Prop :=
  ∃ before key keyPlace assignPlace front back,
    us = before ++ [⟨.word key, keyPlace⟩, ⟨.assign, assignPlace⟩] ∧
      ds = front ++ (.assignment ⟨key, keyPlace, s⟩,
        decide (0 < (m.afterTokens (us.map Placed.token)).depth)) :: back ∧
      declarations vs = back.map Prod.fst

theorem Assigns.cons {m : Mode} {s : String} (h : Assigns (m.after (some t.token)) us s vs ds) :
    Assigns m (t :: us) s vs ds := by
  obtain ⟨before, key, keyPlace, assignPlace, front, back, rfl, hds, hback⟩ := h
  exact ⟨t :: before, key, keyPlace, assignPlace, front, back, rfl, hds, hback⟩

theorem Assigns.behind {m : Mode} {s : String} (d : Declaration × Bool)
    (h : Assigns m us s vs ds) : Assigns m us s vs (d :: ds) := by
  obtain ⟨before, key, keyPlace, assignPlace, front, back, hus, rfl, hback⟩ := h
  exact ⟨before, key, keyPlace, assignPlace, d :: front, back, hus, rfl, hback⟩

/-- In an outline, every unquoted value is assigned to the key before it. -/
theorem Outline.assigns {m : Mode} {s : String} {place : Place}
    (h : Outline m.depth (us ++ ⟨.value s, place⟩ :: vs) ds) : Assigns m us s vs ds := by
  generalize hdepth : m.depth = depth at h
  generalize hts : us ++ ⟨.value s, place⟩ :: vs = ts at h
  induction h generalizing m us with
  | nil => simp at hts
  | group _ _ _ ih =>
    rcases List.append_eq_cons_iff.1 hts with ⟨-, heq⟩ | ⟨us, rfl, rfl⟩
    · cases heq
    · exact ((ih (by simp [Mode.after, hdepth]) rfl).behind _).cons
  | openBrace _ _ ih | closeBrace _ _ ih | word _ _ _ _ ih =>
    rcases List.append_eq_cons_iff.1 hts with ⟨-, heq⟩ | ⟨us, rfl, rfl⟩
    · cases heq
    · exact (ih (by simp [Mode.after, hdepth]) rfl).cons
  | @assign depth ts ds a value _ hvalue hmore ih =>
    obtain ⟨token, valuePlace⟩ := value
    rcases us with _ | ⟨_, _ | ⟨_, _ | ⟨_, us⟩⟩⟩
    · cases hts
    · cases hts
    · cases hts
      obtain rfl : s = a.value := by simpa using hvalue
      exact ⟨[], a.key, a.place, _, [], ds, rfl, by simp [Mode.after, hdepth], hmore.declarations⟩
    · cases hts
      refine ((ih ?_ rfl).behind _).cons.cons.cons
      rcases hvalue with rfl | rfl <;> simp [Mode.after, hdepth]
  | neutral ht _ ih =>
    rcases List.append_eq_cons_iff.1 hts with ⟨-, heq⟩ | ⟨us, rfl, rfl⟩
    · cases heq
      cases ht
    · exact (ih ((Token.depth_after_of_isNeutral ht).trans hdepth) rfl).cons

end Outline

theorem Token.SpelledBy.eq_of_assign {own : List Char} (h : Token.SpelledBy .assign own) :
    own = ['='] := by
  generalize htoken : Token.assign = token at h
  cases h with
  | assign => rfl
  | word =>
    have hword := ofWord_mem (String.ofList own)
    rw [← htoken] at hword
    simp at hword
  | _ => cases htoken

namespace Lexed

variable {m m' : Mode} {cs rest : List Char} {t : Token} {ts us : List Token} {s : String}

theorem mode_eq (h : Lexed m cs ts m' rest) : m' = m.afterTokens ts := by
  induction h with
  | done => rfl
  | @step m m' c cs us rest t ts _ _ ih => cases t <;> exact ih

theorem suffix (h : Lexed m cs ts m' rest) : rest <:+ cs := by
  induction h with
  | done => exact List.suffix_refl _
  | step hlexeme _ ih =>
    obtain ⟨own, hown, -⟩ := exists_own_of_lexeme hlexeme
    exact ih.trans ⟨own, hown.symm⟩

/-- Where a token is read, the tokens before it were read up to it. -/
theorem exists_lexeme (h : Lexed m cs (ts ++ t :: us) m' rest) :
    ∃ m₀ c cs₀ cs₁, Lexed m cs ts m₀ (c :: cs₀) ∧ lexeme m₀ c cs₀ = .ok (some t, cs₁) ∧
      Lexed (m₀.after (some t)) cs₁ us m' rest := by
  generalize hall : ts ++ t :: us = all at h
  induction h generalizing ts with
  | done => simp at hall
  | @step m m' c cs behind rest found more hlexeme hmore ih =>
    cases found with
    | none =>
      obtain ⟨m₀, c₀, cs₀, cs₁, hread, hfound⟩ := ih hall
      exact ⟨m₀, c₀, cs₀, cs₁, .step hlexeme hread, hfound⟩
    | some first =>
      rcases List.append_eq_cons_iff.1 hall with ⟨rfl, heq⟩ | ⟨ts, rfl, heq⟩
      · cases heq
        exact ⟨m, c, cs, behind, .done _ _, hlexeme, hmore⟩
      · obtain ⟨m₀, c₀, cs₀, cs₁, hread, hfound⟩ := ih heq.symm
        exact ⟨m₀, c₀, cs₀, cs₁, .step hlexeme hread, hfound⟩

/-- Where a value is expected, a space or a tab is passed over, and everything else is a value. -/
theorem lexeme_of_expectsValue {c : Char} {found : Option Token} (hm : m.expectsValue = true)
    (h : lexeme m c cs = .ok (found, rest)) :
    (found = none ∧ rest = cs ∧ (c = ' ' ∨ c = '\t')) ∨ (∃ s, found = some (.quoted s)) ∨
      found = some (.value (String.ofList (Text.trim ((c :: cs).takeWhile m.inValue)))) := by
  unfold lexeme at h
  split at h
  · cases h
    exact .inr (.inr rfl)
  next hfirst =>
    have hcases : c = ' ' ∨ c = '\t' ∨ c = '"' := by
      simp only [hm, Bool.true_and, Bool.and_eq_true, bne_iff_ne] at hfirst
      tauto
    rcases hcases with rfl | rfl | rfl
    · cases h
      exact .inl ⟨rfl, rfl, .inl rfl⟩
    · cases h
      exact .inl ⟨rfl, rfl, .inr rfl⟩
    · simp only [symbol] at h
      split at h <;> cases h
      exact .inr (.inl ⟨_, rfl⟩)

/-- An unquoted value is its text up to where it ends, once that is trimmed. -/
theorem value_eq (h : Lexed m cs (.value s :: ts) m' rest) (hm : m.expectsValue = true) :
    s.toList = Text.trim (cs.takeWhile m.inValue) := by
  generalize hall : .value s :: ts = all at h
  induction h with
  | done => cases hall
  | @step m m' c cs behind rest found more hlexeme hmore ih =>
    rcases lexeme_of_expectsValue hm hlexeme with ⟨rfl, rfl, hc⟩ | ⟨quoted, rfl⟩ | rfl
    · have hin : m.inValue c = true ∧ ∀ d ∈ [c], Text.isBlank d = true := by
        rcases hc with rfl | rfl <;> simp [Mode.inValue] <;> decide
      rw [List.takeWhile_cons_of_pos hin.1, ← List.singleton_append, Text.trim_append hin.2]
      exact ih hm hall
    · cases hall
    · cases hall
      exact String.toList_ofList

/-- An unquoted value starts behind its equals sign. -/
theorem value_behind_assign (h : Lexed m cs (ts ++ .assign :: .value s :: us) m' rest) :
    ∃ line behind n, cs = line ++ '=' :: behind ∧ Lexed m cs (ts ++ [.assign]) n behind ∧
      s.toList = Text.trim (behind.takeWhile n.inValue) := by
  obtain ⟨n, c, behind, _, hbefore, hassign, hvalue⟩ := h.exists_lexeme
  obtain ⟨own, hown, hspelled, -⟩ := exists_own_of_lexeme hassign
  obtain rfl := (hspelled .assign rfl).eq_of_assign
  obtain ⟨rfl, rfl⟩ := List.cons.inj hown
  obtain ⟨line, hline⟩ := hbefore.suffix
  exact ⟨line, behind, _, hline.symm, hbefore.trans (.token hassign), hvalue.value_eq rfl⟩

end Lexed

/-- Where the tokens of a text spell a program, the reader of tokens has a brace open at exactly the
unquoted values whose assignments carry conditions, and before every closing brace. So outside all
blocks a value is the trimmed rest of its line, and inside one it ends before a closing brace. -/
theorem depth_pos_iff_conditions {file : Path} {source : String} {ts : List Placed} {p : Program}
    (htokens : tokens? file source = .ok ts) (hread : readProgram file ts = .ok p) :
    (∀ us s place vs, ts = us ++ ⟨.value s, place⟩ :: vs →
      ∃ line cs m, source.toList = line ++ '=' :: cs ∧
        Lexed .start source.toList (us.map Placed.token) m cs ∧
        ∃ before key keyPlace assignPlace front group conditions back,
          us = before ++ [⟨.word key, keyPlace⟩, ⟨.assign, assignPlace⟩] ∧
          p.statements = front ++ .assignment group key s conditions keyPlace :: back ∧
          back.map Statement.declaration = declarations vs ∧
          (0 < m.depth ↔ conditions ≠ []) ∧
          (conditions = [] → s.toList = Text.trim (cs.takeWhile fun c => c != '\n')) ∧
          (conditions ≠ [] →
            s.toList = Text.trim (cs.takeWhile fun c => c != '\n' && c != '}'))) ∧
      ∀ us place vs, ts = us ++ ⟨.closeBrace, place⟩ :: vs →
        ∀ m cs, Lexed .start source.toList (us.map Placed.token) m cs → 0 < m.depth := by
  obtain ⟨mEnd, hlexed⟩ := tokensFrom_iff_lexed.1 ⟨ts, htokens, rfl⟩
  have houtline : Outline Mode.start.depth ts (p.statements.map Statement.outlined) :=
    (readProgram_eq_ok_iff.1 hread).outline
  constructor
  · rintro us s place vs rfl
    obtain ⟨before, key, keyPlace, assignPlace, front, back, rfl, hds, hback⟩ :=
      houtline.assigns
    obtain ⟨front, more, hp, rfl, hmore⟩ := List.map_eq_append_iff.1 hds
    obtain ⟨statement, back, rfl, hstatement, rfl⟩ := List.map_eq_cons_iff.1 hmore
    cases statement with
    | group => cases hstatement
    | assignment group _ _ conditions _ =>
    obtain ⟨hassignment, hinside⟩ := Prod.mk.inj hstatement
    cases hassignment
    replace hlexed : Lexed .start source.toList ((before.map Placed.token ++ [.word key]) ++
        .assign :: .value s :: vs.map Placed.token) mEnd [] := by
      simpa using hlexed
    obtain ⟨line, cs, m, hline, hupto, htext⟩ := hlexed.value_behind_assign
    replace hupto : Lexed .start source.toList (List.map Placed.token
        (before ++ [⟨.word key, keyPlace⟩, ⟨.assign, assignPlace⟩])) m cs := by
      simpa using hupto
    have hdepth : 0 < m.depth ↔ conditions ≠ [] := by
      rw [← hupto.mode_eq] at hinside
      rw [← decide_eq_true_iff (p := 0 < m.depth), ← hinside]
      simp
    refine ⟨line, cs, m, hline, hupto, before, key, keyPlace, assignPlace, front, group, conditions,
      back, rfl, hp, ?_, hdepth, fun hnone => ?_, fun hsome => ?_⟩
    · rw [hback, List.map_map]
      refine List.map_congr_left fun statement _ => ?_
      cases statement <;> rfl
    · have hzero : m.depth = 0 := by simpa [hnone] using hdepth
      have hin : m.inValue = fun c => c != '\n' := by simp [funext_iff, Mode.inValue, hzero]
      rw [htext, hin]
    · have hin : m.inValue = fun c => c != '\n' && c != '}' := by
        simp [funext_iff, Mode.inValue, hdepth.2 hsome, bne]
      rw [htext, hin]
  · rintro us place vs rfl m cs hm
    rw [hm.mode_eq]
    exact houtline.depth_pos_of_closeBrace

/-- A value that is a brace, and a conditional that opens another in its `else`. -/
def bracedSource : String :=
  "A = \x7b\nif (B) \x7b C = 1 \x7d else if (D) \x7b E = 2 \x7d\n"

def bracedTokens : List Placed :=
  [(.word "A", 1, 1), (.assign, 1, 3), (.value "\x7b", 1, 5), (.ifWord, 2, 1), (.openParen, 2, 4),
    (.word "B", 2, 5), (.closeParen, 2, 6), (.openBrace, 2, 8), (.word "C", 2, 10),
    (.assign, 2, 12), (.value "1", 2, 14), (.closeBrace, 2, 16), (.elseWord, 2, 18),
    (.ifWord, 2, 23), (.openParen, 2, 26), (.word "D", 2, 27), (.closeParen, 2, 28),
    (.openBrace, 2, 30), (.word "E", 2, 32), (.assign, 2, 34), (.value "2", 2, 36),
    (.closeBrace, 2, 38)].map fun (token, line, column) => ⟨token, ⟨⟨"app"⟩, ⟨line, column⟩⟩⟩

def bracedProgram : Program where
  leading := .assign ⟨"A", ⟨⟨"app"⟩, ⟨1, 1⟩⟩, "\x7b"⟩
    (.choose (.literal (.reference "B")) (.assign ⟨"C", ⟨⟨"app"⟩, ⟨2, 10⟩⟩, "1"⟩ .done)
      (.choose (.literal (.reference "D")) (.assign ⟨"E", ⟨⟨"app"⟩, ⟨2, 32⟩⟩, "2"⟩ .done) .nothing)
      .done)
  sections := []

theorem bracedSource_depth_pos :
    tokens? ⟨"app"⟩ bracedSource = .ok bracedTokens ∧
      readProgram ⟨"app"⟩ bracedTokens = .ok bracedProgram ∧
      ∃ m cs, Lexed .start bracedSource.toList ((bracedTokens.take 20).map Placed.token) m cs ∧
        0 < m.depth := by
  have htokens : tokens? ⟨"app"⟩ bracedSource = .ok bracedTokens := by cbv
  have hread : readProgram ⟨"app"⟩ bracedTokens = .ok bracedProgram := by cbv
  obtain ⟨_, cs, m, -, hlexed, _, key, place, _, front, group, conditions, back, -, hp, -, hdepth,
    -⟩ := (depth_pos_iff_conditions htokens hread).1 (bracedTokens.take 20) "2"
      ⟨⟨"app"⟩, ⟨2, 36⟩⟩ (bracedTokens.drop 21) rfl
  refine ⟨htokens, hread, m, cs, hlexed, hdepth.2 ?_⟩
  have hmem : .assignment group key "2" conditions place ∈ bracedProgram.statements := by simp [hp]
  simp only [bracedProgram, Program.statements, Block.statements, Otherwise.statements,
    List.mem_append, List.mem_cons, Statement.assignment.injEq] at hmem
  rintro rfl
  simp at hmem

end IncrementalBuild.Settings
