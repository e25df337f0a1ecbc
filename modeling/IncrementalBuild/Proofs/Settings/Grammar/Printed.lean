import IncrementalBuild.Proofs.Settings.Grammar.Lexemes
import IncrementalBuild.Proofs.Settings.Grammar.Statements
import IncrementalBuild.Proofs.Settings.Grammar.Tokens
import Mathlib

/-!
What a condition is read as from the text it is shown as. Conditions are shown without parentheses
but those they were written with, so the text of a condition of the grammar is read as that condition
again. The negations that the branches of an `else` add are no conditions of the grammar where they
negate an operation: their `not` is read as one of the first operand.
-/

namespace IncrementalBuild.Settings

/-- A token that is read again from what it is shown as. -/
def Token.Printable : Token → Prop
  | word name => IsWord name.toList ∧ Token.ofWord name = word name
  | quoted s => isPlain s.toList = true
  | _ => True

section Text

variable {depth : Nat} {rest : List Char}

/-- What stands between two operands, with a space on either side. -/
theorem lexed_operator {l op r : List Char} {ls rs : List Token} {t : Token}
    (hl : Lexed ⟨false, depth⟩ (l ++ ' ' :: (op ++ ' ' :: (r ++ rest))) ls ⟨false, depth⟩
      (' ' :: (op ++ ' ' :: (r ++ rest))))
    (hop : Lexed ⟨false, depth⟩ (op ++ ' ' :: (r ++ rest)) [t] ⟨false, depth⟩ (' ' :: (r ++ rest)))
    (hr : Lexed ⟨false, depth⟩ (r ++ rest) rs ⟨false, depth⟩ rest) :
    Lexed ⟨false, depth⟩ (l ++ ' ' :: (op ++ ' ' :: (r ++ rest))) (ls ++ t :: rs) ⟨false, depth⟩
      rest := by
  have hleft := hl.trans (lexed_space _ _)
  have hright := hop.trans ((lexed_space _ _).trans hr)
  simpa using hleft.trans hright

/-- The text of a condition is read as its tokens, whatever its shape. -/
theorem Condition.lexed_text {c : Condition} (hc : ∀ t ∈ c.tokens, t.Printable)
    (hrest : Stops rest) :
    Lexed ⟨false, depth⟩ (c.text.toList ++ rest) c.tokens ⟨false, depth⟩ rest := by
  have hspace (cs : List Char) : Stops (' ' :: cs) := by simp; decide
  induction c generalizing rest with
  | literal l =>
    cases l with
    | reference name =>
      obtain ⟨hword, hname⟩ : (Token.word name).Printable := hc _ (by simp [tokens])
      have hlexed : Lexed ⟨false, depth⟩ _ [.ofWord name] _ rest := lexed_word rfl hword hrest
      rw [hname] at hlexed
      exact hlexed
    | quoted s =>
      have hplain : (Token.quoted s).Printable := hc _ (by simp [tokens])
      have hlexed : Lexed ⟨false, depth⟩ _ _ ⟨false, depth⟩ rest := lexed_quoted hplain _ rest
      simpa [text, Literal.text, tokens] using hlexed
  | not c ih =>
    have hnot : Lexed ⟨false, depth⟩ ("not".toList ++ ' ' :: (c.text.toList ++ rest)) [.notOp]
        ⟨false, depth⟩ _ := lexed_word rfl (by decide) (hspace _)
    have hoperand := ih (fun t ht => hc t (by simp [tokens, ht])) hrest
    simpa [text, tokens] using hnot.trans ((lexed_space _ _).trans hoperand)
  | paren c ih =>
    have hopen : Lexed ⟨false, depth⟩ ('(' :: (c.text.toList ++ ')' :: rest)) [.openParen]
        ⟨false, depth⟩ _ := .token rfl
    have hinner := @ih (')' :: rest) (fun t ht => hc t (by simp [tokens, ht])) (by simp; decide)
    have hclose : Lexed ⟨false, depth⟩ (')' :: rest) [.closeParen] ⟨false, depth⟩ rest := .token rfl
    simpa [text, tokens] using hopen.trans (hinner.trans hclose)
  | and l r ihl ihr =>
    have hop : Lexed ⟨false, depth⟩ ("and".toList ++ ' ' :: (r.text.toList ++ rest)) [.andOp]
        ⟨false, depth⟩ _ := lexed_word rfl (by decide) (hspace _)
    simpa [text, tokens] using lexed_operator
      (ihl (fun t ht => hc t (by simp [tokens, ht])) (hspace _)) hop
      (ihr (fun t ht => hc t (by simp [tokens, ht])) hrest)
  | or l r ihl ihr =>
    have hop : Lexed ⟨false, depth⟩ ("or".toList ++ ' ' :: (r.text.toList ++ rest)) [.orOp]
        ⟨false, depth⟩ _ := lexed_word rfl (by decide) (hspace _)
    simpa [text, tokens] using lexed_operator
      (ihl (fun t ht => hc t (by simp [tokens, ht])) (hspace _)) hop
      (ihr (fun t ht => hc t (by simp [tokens, ht])) hrest)
  | compare op l r ihl ihr =>
    have hop : Lexed ⟨false, depth⟩ (op.text.toList ++ ' ' :: (r.text.toList ++ rest))
        [.comparison op] ⟨false, depth⟩ _ := lexed_comparison rfl op
    simpa [text, tokens] using lexed_operator
      (ihl (fun t ht => hc t (by simp [tokens, ht])) (hspace _)) hop
      (ihr (fun t ht => hc t (by simp [tokens, ht])) hrest)

end Text

/-- A description in which one assignment counts where what is written holds. -/
def guardedBy (condition : String) : String :=
  "if (" ++ condition ++ ") \x7b X = \"1\" \x7d"

theorem lexed_guardedBy {c : Condition} (hc : ∀ t ∈ c.tokens, t.Printable) :
    Lexed .start (guardedBy c.text).toList
      ([.ifWord, .openParen] ++ (c.tokens ++ [.closeParen, .openBrace, .word "X", .assign,
        .quoted "1", .closeBrace])) .start [] := by
  have hbefore (cs : List Char) :
      Lexed .start ("if (".toList ++ cs) [.ifWord, .openParen] .start cs := by
    have hif : Lexed .start ("if".toList ++ ' ' :: '(' :: cs) [.ifWord] .start _ :=
      lexed_word rfl (by decide) (by simp; decide)
    have hopen : Lexed .start ('(' :: cs) [.openParen] .start cs := .token rfl
    simpa using hif.trans ((lexed_space _ _).trans hopen)
  have hbehind : Lexed .start ") \x7b X = \"1\" \x7d".toList
      [.closeParen, .openBrace, .word "X", .assign, .quoted "1", .closeBrace] .start [] :=
    .step (t := some .closeParen) rfl <| .step (t := none) rfl <|
    .step (t := some .openBrace) rfl <| .step (t := none) rfl <|
    .step (t := some (.word "X")) rfl <| .step (t := none) rfl <|
    .step (t := some .assign) rfl <| .step (t := none) rfl <|
    .step (t := some (.quoted "1")) rfl <| .step (t := none) rfl <|
    .step (t := some .closeBrace) rfl <| .done _ []
  have hcondition : Lexed .start (c.text.toList ++ ") \x7b X = \"1\" \x7d".toList) c.tokens
      .start _ := c.lexed_text hc (by simp; decide)
  simpa [guardedBy] using (hbefore _).trans (hcondition.trans hbehind)

/-- What the text of a condition of the grammar is read as: the condition. -/
theorem statements?_guardedBy {c d : Condition} (file : Path) (hd : d.Within .chain)
    (htokens : d.tokens = c.tokens) (hc : ∀ t ∈ c.tokens, t.Printable) :
    ∃ place, statements? file (guardedBy c.text) = .ok [.assignment "" "X" "1" [d] place] := by
  obtain ⟨placed, hplaced, hmap⟩ : ∃ placed, tokens? file (guardedBy c.text) = .ok placed ∧
    placed.map Placed.token = _ := tokensFrom_iff_lexed.2 ⟨_, lexed_guardedBy hc⟩
  obtain ⟨head, tail, rfl, hhead, htail⟩ := List.map_eq_append_iff.1 hmap
  obtain ⟨us, behind, rfl, hus, hbehind⟩ := List.map_eq_append_iff.1 htail
  simp only [List.map_eq_cons_iff, List.map_eq_nil_iff] at hhead hbehind
  obtain ⟨⟨_, ifPlace⟩, _, rfl, rfl, ⟨_, opening⟩, _, rfl, rfl, rfl⟩ := hhead
  obtain ⟨⟨_, closing⟩, _, rfl, rfl, ⟨_, openBrace⟩, _, rfl, rfl, ⟨_, place⟩, _, rfl, rfl,
    ⟨_, assign⟩, _, rfl, rfl, ⟨_, value⟩, _, rfl, rfl, ⟨_, closeBrace⟩, _, rfl, rfl, rfl⟩ := hbehind
  have hbody : Block.Spelled (.assign ⟨"X", place, "1"⟩ .done)
      [⟨.word "X", place⟩, ⟨.assign, assign⟩, ⟨.quoted "1", value⟩, ⟨.closeBrace, closeBrace⟩]
      [⟨.closeBrace, closeBrace⟩] :=
    .assign assign (.inr rfl) (show isUnterminated "1" = false by decide +kernel) (.done _)
  have hchoice : ChoiceSpelled d _ .nothing _ [] :=
    .mk opening closing openBrace closeBrace (hd.spelled ⟨us, rfl, hus.trans htokens.symm⟩) hbody
      (.nothing [])
  have hspelled : Program.Spelled ⟨_, []⟩ _ := ⟨[], .choose ifPlace hchoice (.done []), .nil⟩
  have hread : readProgram file _ = .ok _ := readProgram_eq_ok_iff.2 hspelled
  exact ⟨place, bind_eq_ok_iff.2 ⟨_, hplaced, bind_eq_ok_iff.2 ⟨_, hread, rfl⟩⟩⟩

/-- The condition that the text of a negation is read as: the `not` binds to the first operand. -/
def Condition.negateFirst : Condition → Condition
  | .and l r => .and l.negateFirst r
  | .or l r => .or l.negateFirst r
  | .compare op l r => .compare op (.not l) r
  | c => .not c

/-- The condition that the text of a condition is read as. -/
def Condition.asRead : Condition → Condition
  | .not c => c.negateFirst
  | c => c

/-- A negation that stands before a comparison, an `and` or an `or` without parentheses. -/
def Condition.negatesOperation : Condition → Bool
  | .not (.and _ _) | .not (.or _ _) | .not (.compare _ _ _) => true
  | _ => false

namespace Condition

variable {c d : Condition} {tier : Tier}

theorem asRead_eq_self_iff : c.asRead = c ↔ c.negatesOperation = false := by
  cases c with
  | not c => cases c <;> simp [asRead, negateFirst, negatesOperation]
  | _ => simp [asRead, negatesOperation]

theorem Within.negateFirst (h : c.Within tier) : c.negateFirst.Within tier := by
  induction h with
  | reference name => exact .not (.reference name)
  | quoted hs => exact .not (.quoted hs)
  | not h => exact .not (.not h)
  | paren h => exact .not (.paren h)
  | ofUnary _ ih => exact .ofUnary ih
  | compare op hl hr => exact .compare op (.not hl) hr
  | ofComparison _ ih => exact .ofComparison ih
  | and _ hr ih => exact .and ih hr
  | or _ hr ih => exact .or ih hr

theorem tokens_negateFirst (c : Condition) : c.negateFirst.tokens = .notOp :: c.tokens := by
  induction c with
  | and l r ih => simp [Condition.negateFirst, tokens, ih]
  | or l r ih => simp [Condition.negateFirst, tokens, ih]
  | _ => rfl

/-- No condition of the grammar negates an operation: one would stand in parentheses. -/
theorem Within.negatesOperation (h : c.Within tier) : c.negatesOperation = false := by
  induction h with
  | not h => cases h <;> rfl
  | ofUnary _ ih | ofComparison _ ih => exact ih
  | _ => rfl

end Condition

/-- The conditions under which a statement counts. -/
def Statement.conditions : Statement → List Condition
  | .group _ _ => []
  | .assignment _ _ _ conditions _ => conditions

/-- A condition is written in some tokens, or it is the negation of one that is. -/
def Condition.Attached (ts : List Placed) (d : Condition) : Prop :=
  ∃ c us rest, us <:+ ts ∧ c.Spelled .chain us rest ∧ (d = c ∨ d = .not c)

section Attached

variable {ts us rest : List Placed} {opened : List Condition} {d : Condition} {statement : Statement}

theorem Condition.Attached.mono (h : d.Attached us) (hsuffix : us <:+ ts) : d.Attached ts := by
  obtain ⟨c, vs, rest, hvs, hc⟩ := h
  exact ⟨c, vs, rest, hvs.trans hsuffix, hc⟩

/-- Inside a branch, one condition more is open. -/
theorem Condition.Attached.leave {e : Condition} (he : e.Attached ts) (hsuffix : us <:+ ts)
    (h : d ∈ opened ++ [e] ∨ d.Attached us) : d ∈ opened ∨ d.Attached ts := by
  rcases h with hmem | hattached
  · rcases List.mem_append.1 hmem with hopened | hlast
    · exact .inl hopened
    · obtain rfl := List.mem_singleton.1 hlast
      exact .inr he
  · exact .inr (hattached.mono hsuffix)

theorem Condition.Spelled.suffix {c : Condition} {tier : Tier} (h : c.Spelled tier ts rest) :
    rest <:+ ts := by
  obtain ⟨us, rfl, -⟩ := h.written
  exact List.suffix_append us rest

mutual

theorem Block.Spelled.suffix {b : Block} {ts rest : List Placed} :
    b.Spelled ts rest → rest <:+ ts
  | .done _ => List.suffix_refl _
  | .assign _ _ _ hblock => hblock.suffix.trans ⟨[_, _, _], rfl⟩
  | .choose _ hchoice hblock =>
    (hblock.suffix.trans hchoice.suffix).trans (List.suffix_cons _ _)

theorem ChoiceSpelled.suffix {c : Condition} {body : Block} {otherwise : Otherwise}
    {ts rest : List Placed} : ChoiceSpelled c body otherwise ts rest → rest <:+ ts
  | .mk _ _ _ _ hc hbody hotherwise =>
    hotherwise.suffix.trans <| (List.suffix_cons _ _).trans <| hbody.suffix.trans <|
      List.IsSuffix.trans ⟨[_, _], rfl⟩ <| hc.suffix.trans (List.suffix_cons _ _)

theorem Otherwise.Spelled.suffix {otherwise : Otherwise} {ts rest : List Placed} :
    otherwise.Spelled ts rest → rest <:+ ts
  | .nothing _ => List.suffix_refl _
  | .block _ _ _ hbody => (List.suffix_cons _ _).trans (hbody.suffix.trans ⟨[_, _], rfl⟩)
  | .choose _ _ hchoice => hchoice.suffix.trans ⟨[_, _], rfl⟩

end

mutual

theorem Block.Spelled.attached (group : String) (opened : List Condition) {b : Block}
    {ts rest : List Placed} : b.Spelled ts rest → ∀ s ∈ b.statements group opened,
      ∀ d ∈ s.conditions, d ∈ opened ∨ d.Attached ts
  | .done _, s, hs, d, hd => by simp [Block.statements] at hs
  | .assign place _ _ hblock, s, hs, d, hd => by
    rw [Block.statements, List.mem_cons] at hs
    rcases hs with rfl | hs
    · exact .inl hd
    · exact (hblock.attached group opened s hs d hd).imp_right fun h => h.mono ⟨[_, _, _], rfl⟩
  | .choose place hchoice hblock, s, hs, d, hd => by
    have hsuffix := hchoice.suffix
    rw [Block.statements, ← List.append_assoc, List.mem_append] at hs
    rcases hs with hs | hs
    · exact (hchoice.attached group opened s hs d hd).imp_right fun h => h.mono (List.suffix_cons _ _)
    · exact (hblock.attached group opened s hs d hd).imp_right fun h =>
        h.mono (hsuffix.trans (List.suffix_cons _ _))

theorem ChoiceSpelled.attached (group : String) (opened : List Condition) {c : Condition}
    {body : Block} {otherwise : Otherwise} {ts rest : List Placed} :
    ChoiceSpelled c body otherwise ts rest →
      ∀ s ∈ body.statements group (opened ++ [c]) ++
          otherwise.statements group (opened ++ [.not c]),
        ∀ d ∈ s.conditions, d ∈ opened ∨ d.Attached ts
  | .mk opening _ _ _ hc hbody hotherwise, s, hs, d, hd => by
    have hbodySuffix := List.IsSuffix.trans ⟨[_, _], rfl⟩
      (hc.suffix.trans (List.suffix_cons ⟨.openParen, opening⟩ _))
    have hotherwiseSuffix := (List.suffix_cons _ _).trans (hbody.suffix.trans hbodySuffix)
    rcases List.mem_append.1 hs with hs | hs
    · exact Condition.Attached.leave ⟨c, _, _, List.suffix_cons _ _, hc, .inl rfl⟩ hbodySuffix
        (hbody.attached group _ s hs d hd)
    · exact Condition.Attached.leave ⟨c, _, _, List.suffix_cons _ _, hc, .inr rfl⟩ hotherwiseSuffix
        (hotherwise.attached group _ s hs d hd)

theorem Otherwise.Spelled.attached (group : String) (opened : List Condition)
    {otherwise : Otherwise} {ts rest : List Placed} : otherwise.Spelled ts rest →
      ∀ s ∈ otherwise.statements group opened,
        ∀ d ∈ s.conditions, d ∈ opened ∨ d.Attached ts
  | .nothing _, s, hs, d, hd => by simp [Otherwise.statements] at hs
  | .block _ _ _ hbody, s, hs, d, hd =>
    (hbody.attached group opened s hs d hd).imp_right fun h => h.mono ⟨[_, _], rfl⟩
  | .choose _ _ hchoice, s, hs, d, hd =>
    (hchoice.attached group opened s hs d hd).imp_right fun h => h.mono ⟨[_, _], rfl⟩

end

theorem SectionsSpelled.attached {sections : List Section} (h : SectionsSpelled sections ts) :
    ∀ s ∈ sections.flatMap Section.statements, ∀ d ∈ s.conditions, d.Attached ts := by
  induction h with
  | nil => simp
  | @cons own sections ts us hbody _ ih =>
    intro s hs d hd
    rw [List.flatMap_cons, Section.statements, List.cons_append, List.mem_cons,
      List.mem_append] at hs
    rcases hs with rfl | hs | hs
    · cases hd
    · exact ((hbody.attached _ [] s hs d hd).resolve_left (by simp)).mono (List.suffix_cons _ _)
    · exact (ih s hs d hd).mono (hbody.suffix.trans (List.suffix_cons _ _))

theorem Program.Spelled.attached {p : Program} (h : p.Spelled ts) :
    ∀ s ∈ p.statements, ∀ d ∈ s.conditions, d.Attached ts := by
  obtain ⟨us, hleading, hsections⟩ := h
  intro s hs d hd
  rcases List.mem_append.1 hs with hs | hs
  · exact (hleading.attached _ [] s hs d hd).resolve_left (by simp)
  · exact (hsections.attached s hs d hd).mono hleading.suffix

end Attached

/-- The text of a condition that an assignment of a description counts under is read as the same
condition if and only if it does not negate an operation; otherwise its `not` is read as one of the
operation's first operand. A written condition negates none, so the only texts that are read as
another condition are those of the branches of an `else`. -/
theorem statements?_text_condition {file : Path} {source : String} {out : List Statement}
    (hout : statements? file source = .ok out) {s : Statement} (hs : s ∈ out) {d : Condition}
    (hd : d ∈ s.conditions) (hplain : ∀ q, .quoted q ∈ d.tokens → isPlain q.toList = true)
    (other : Path) :
    (∃ place, statements? other (guardedBy d.text) =
      .ok [.assignment "" "X" "1" [d.asRead] place]) ∧
      ((∃ place, statements? other (guardedBy d.text) = .ok [.assignment "" "X" "1" [d] place]) ↔
        d.negatesOperation = false) := by
  suffices hread : ∃ place, statements? other (guardedBy d.text) =
      .ok [.assignment "" "X" "1" [d.asRead] place] by
    obtain ⟨place, hplace⟩ := hread
    refine ⟨⟨place, hplace⟩, ?_⟩
    rw [← Condition.asRead_eq_self_iff]
    constructor
    · rintro ⟨place', hplace'⟩
      rw [hplace] at hplace'
      simp only [Except.ok.injEq, List.cons.injEq, Statement.assignment.injEq] at hplace'
      exact hplace'.1.2.2.2.1.1
    · intro hself
      rw [hself] at hplace
      exact ⟨place, hplace⟩
  obtain ⟨ts, hts, hread⟩ := bind_eq_ok_iff.1 hout
  obtain ⟨p, hp, hok⟩ := bind_eq_ok_iff.1 hread
  cases hok
  obtain ⟨m, hlexed⟩ := tokensFrom_iff_lexed.1 ⟨ts, hts, rfl⟩
  obtain ⟨c, us, rest, hsuffix, hc, hdc⟩ :=
    (readProgram_eq_ok_iff.1 hp).attached s hs d hd
  have htokens : ∀ t ∈ c.tokens, t ∈ ts.map Placed.token := by
    obtain ⟨before, rfl⟩ := hsuffix
    obtain ⟨vs, rfl, hvs⟩ := hc.written
    intro t ht
    rw [← hvs] at ht
    rw [List.map_append, List.map_append, List.mem_append, List.mem_append]
    exact .inr (.inl ht)
  have hprintable : ∀ t ∈ d.tokens, t.Printable := by
    intro t ht
    have hcases : t = .notOp ∨ t ∈ c.tokens := by
      rcases hdc with rfl | rfl
      · exact .inr ht
      · exact List.mem_cons.1 ht
    cases t with
    | word name => exact hlexed.isWord (htokens _ (hcases.resolve_left (by simp)))
    | quoted q => exact hplain q ht
    | _ => trivial
  rcases hdc with rfl | rfl
  · rw [Condition.asRead_eq_self_iff.2 hc.within.negatesOperation]
    exact statements?_guardedBy other hc.within rfl hprintable
  · exact statements?_guardedBy other hc.within.negateFirst (Condition.tokens_negateFirst c)
      hprintable

/-- A conditional with a comparison, which its `else` negates. -/
def negatedBranch : String :=
  "if (A == B) \x7b X = \"1\" \x7d else \x7b X = \"2\" \x7d\n"

theorem negatedBranch_text_condition :
    ∃ out s, statements? ⟨"app"⟩ negatedBranch = .ok out ∧ s ∈ out ∧
      ∃ d ∈ s.conditions,
        d = .not (.compare .equal (.literal (.reference "A")) (.literal (.reference "B"))) ∧
        (∃ place, statements? ⟨"app"⟩ (guardedBy d.text) = .ok [.assignment "" "X" "1"
          [.compare .equal (.not (.literal (.reference "A"))) (.literal (.reference "B"))] place]) ∧
        ¬ ∃ place, statements? ⟨"app"⟩ (guardedBy d.text) =
          .ok [.assignment "" "X" "1" [d] place] := by
  have hconditions : (statements? ⟨"app"⟩ negatedBranch >>= fun out =>
      .ok (out.map Statement.conditions)) = .ok
        [[.compare .equal (.literal (.reference "A")) (.literal (.reference "B"))],
          [.not (.compare .equal (.literal (.reference "A")) (.literal (.reference "B")))]] := by
    cbv
  obtain ⟨out, hout, hok⟩ := bind_eq_ok_iff.1 hconditions
  obtain ⟨first, _, rfl, -, hmore⟩ := List.map_eq_cons_iff.1 (Except.ok.inj hok)
  obtain ⟨s, _, rfl, hs, -⟩ := List.map_eq_cons_iff.1 hmore
  have hd : _ ∈ s.conditions := hs ▸ List.mem_singleton_self _
  have hread := statements?_text_condition hout (by simp) hd (by simp [Condition.tokens]) ⟨"app"⟩
  exact ⟨_, s, hout, by simp, _, hd, rfl, hread.1, fun h => absurd (hread.2.1 h) (by decide)⟩

end IncrementalBuild.Settings
