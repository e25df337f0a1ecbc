import IncrementalBuild.Settings.Program.Reader
import IncrementalBuild.Proofs.Settings.Grammar.Condition

/-!
The grammar of programs. The reader of programs accepts exactly the lists of tokens that spell a
program, and finds that program; its statements are the markers and assignments of the tokens, in
their order.
-/

namespace IncrementalBuild.Settings

mutual

/-- Assignments and conditionals are written at the front of some tokens, and the others are behind
them. Every value has its references closed. -/
inductive Block.Spelled : Block → List Placed → List Placed → Prop where
  | done (rest : List Placed) : Block.Spelled .done rest rest
  | assign {a : Assignment} {block : Block} {value : Placed} {ts rest : List Placed}
      (place : Place) :
      value.token = .value a.value ∨ value.token = .quoted a.value →
      isUnterminated a.value = false → Block.Spelled block ts rest →
      Block.Spelled (.assign a block)
        (⟨.word a.key, a.place⟩ :: ⟨.assign, place⟩ :: value :: ts) rest
  | choose {c : Condition} {body block : Block} {otherwise : Otherwise} {ts us rest : List Placed}
      (place : Place) :
      ChoiceSpelled c body otherwise ts us → Block.Spelled block us rest →
      Block.Spelled (.choose c body otherwise block) (⟨.ifWord, place⟩ :: ts) rest

/-- The same for a conditional, from behind its `if`. -/
inductive ChoiceSpelled : Condition → Block → Otherwise → List Placed → List Placed → Prop where
  | mk {c : Condition} {body : Block} {otherwise : Otherwise} {ts us vs rest : List Placed}
      (opening closing openBrace closeBrace : Place) :
      c.Spelled .chain ts (⟨.closeParen, closing⟩ :: ⟨.openBrace, openBrace⟩ :: us) →
      Block.Spelled body us (⟨.closeBrace, closeBrace⟩ :: vs) →
      Otherwise.Spelled otherwise vs rest →
      ChoiceSpelled c body otherwise (⟨.openParen, opening⟩ :: ts) rest

/-- The same for what follows the first branch of a conditional. -/
inductive Otherwise.Spelled : Otherwise → List Placed → List Placed → Prop where
  | nothing (rest : List Placed) : Otherwise.Spelled .nothing rest rest
  | block {body : Block} {ts rest : List Placed} (place openBrace closeBrace : Place) :
      Block.Spelled body ts (⟨.closeBrace, closeBrace⟩ :: rest) →
      Otherwise.Spelled (.block body)
        (⟨.elseWord, place⟩ :: ⟨.openBrace, openBrace⟩ :: ts) rest
  | choose {c : Condition} {body : Block} {otherwise : Otherwise} {ts rest : List Placed}
      (place ifPlace : Place) :
      ChoiceSpelled c body otherwise ts rest →
      Otherwise.Spelled (.choose c body otherwise)
        (⟨.elseWord, place⟩ :: ⟨.ifWord, ifPlace⟩ :: ts) rest

end

/-- Sections are written by all of some tokens. -/
inductive SectionsSpelled : List Section → List Placed → Prop where
  | nil : SectionsSpelled [] []
  | cons {s : Section} {sections : List Section} {ts us : List Placed} :
      s.body.Spelled ts us → SectionsSpelled sections us →
      SectionsSpelled (s :: sections) (⟨.group s.name, s.place⟩ :: ts)

/-- A program is written by a list of tokens. -/
def Program.Spelled (p : Program) (ts : List Placed) : Prop :=
  ∃ us, p.leading.Spelled ts us ∧ SectionsSpelled p.sections us

section Reader

variable {finish : Place} {ts rest : List Placed}

theorem yields_readValue_iff {s : String} :
    Yields (readValue finish ts) s rest ↔ ∃ place value, ts = ⟨.assign, place⟩ :: value :: rest ∧
      (value.token = .value s ∨ value.token = .quoted s) ∧ isUnterminated s = false := by
  rw [readValue, yields_bind_iff]
  constructor
  · rintro ⟨_, us, hus, hassign, h⟩
    obtain ⟨place, rfl⟩ := yields_expectToken_iff.1 ⟨hus, hassign⟩
    cases us with
    | nil =>
      obtain ⟨_, _, _, htake, -⟩ := yields_bind_iff.1 h
      cases htake
    | cons value us =>
      obtain ⟨_, _, _, htake, h⟩ := yields_bind_iff.1 h
      cases htake
      dsimp only at h
      refine ⟨place, value, ?_⟩
      split at h
      next s' htoken =>
        split at h
        · exact absurd h not_yields_error
        next hterminated =>
          obtain ⟨rfl, rfl⟩ := yields_ok_iff.1 h
          exact ⟨rfl, .inl htoken, by simpa using hterminated⟩
      next s' htoken =>
        split at h
        · exact absurd h not_yields_error
        next hterminated =>
          obtain ⟨rfl, rfl⟩ := yields_ok_iff.1 h
          exact ⟨rfl, .inr htoken, by simpa using hterminated⟩
      · exact absurd h not_yields_error
  · rintro ⟨place, value, rfl, htoken, hterminated⟩
    obtain ⟨hus, hassign⟩ := yields_expectToken finish .assign place (value :: rest)
    refine ⟨(), value :: rest, hus, hassign, yields_bind_iff.2 ⟨value, rest, by simp, rfl, ?_⟩⟩
    dsimp only
    rcases htoken with htoken | htoken <;> rw [htoken] <;> dsimp only <;>
      rw [if_neg (by simp [hterminated])] <;> exact yields_ok_iff.2 ⟨rfl, rfl⟩

theorem yields_readHead_iff {c : Condition} :
    Yields (readHead finish ts) c rest ↔ ∃ opening closing openBrace us,
      ts = ⟨.openParen, opening⟩ :: us ∧
        c.Spelled .chain us (⟨.closeParen, closing⟩ :: ⟨.openBrace, openBrace⟩ :: rest) := by
  rw [readHead, yields_bind_iff]
  constructor
  · rintro ⟨_, us, hus, hopen, h⟩
    obtain ⟨opening, rfl⟩ := yields_expectToken_iff.1 ⟨hus, hopen⟩
    obtain ⟨c', vs, hvs, hc, h⟩ := yields_bind_iff.1 h
    obtain ⟨_, ws, hws, hclose, h⟩ := yields_bind_iff.1 h
    obtain ⟨closing, rfl⟩ := yields_expectToken_iff.1 ⟨hws, hclose⟩
    obtain ⟨_, xs, hxs, hbrace, h⟩ := yields_bind_iff.1 h
    obtain ⟨openBrace, rfl⟩ := yields_expectToken_iff.1 ⟨hxs, hbrace⟩
    obtain ⟨rfl, rfl⟩ := yields_ok_iff.1 h
    exact ⟨opening, closing, openBrace, us, rfl, (spelled_of_readCondition ⟨hvs, hc⟩).1⟩
  · rintro ⟨opening, closing, openBrace, us, rfl, hspelled⟩
    have hcondition : Yields (readCondition finish us) c _ :=
      yields_readCondition_iff_spelled.2 ⟨hspelled, rfl, rfl⟩
    obtain ⟨hus, hopen⟩ := yields_expectToken finish .openParen opening us
    obtain ⟨hvs, hc⟩ := hcondition
    obtain ⟨hws, hclose⟩ :=
      yields_expectToken finish .closeParen closing (⟨.openBrace, openBrace⟩ :: rest)
    obtain ⟨hxs, hbrace⟩ := yields_expectToken finish .openBrace openBrace rest
    refine ⟨(), us, hus, hopen, yields_bind_iff.2 ⟨c, _, hvs, hc, ?_⟩⟩
    refine yields_bind_iff.2 ⟨(), _, hws, hclose, yields_bind_iff.2 ⟨(), rest, hxs, hbrace, ?_⟩⟩
    exact yields_ok_iff.2 ⟨rfl, rfl⟩

theorem yields_readBlockEnd_iff :
    Yields (readBlockEnd finish ts) () rest ↔ ∃ place, ts = ⟨.closeBrace, place⟩ :: rest := by
  unfold readBlockEnd
  split
  · exact iff_of_false not_yields_error (by simp)
  next place us => simp [yields_ok_iff]
  · exact iff_of_false not_yields_error (by simp)
  next hbrace _ =>
    refine iff_of_false not_yields_error ?_
    rintro ⟨place, heq⟩
    cases heq
    exact hbrace _ rfl

/-- The tokens start with none of these. -/
def Avoids (bad : Token → Prop) (ts : List Placed) : Prop :=
  ∀ t ∈ ts.head?, ¬ bad t.token

/-- A token that starts an assignment or a conditional. -/
def Begins (t : Token) : Prop :=
  t = .ifWord ∨ ∃ key, t = .word key

theorem yields_readBlock_iff {b : Block} :
    Yields (readBlock finish ts) b rest ↔
      (∃ key place value us vs block, ts = ⟨.word key, place⟩ :: us ∧
        Yields (readValue finish us) value vs ∧ Yields (readBlock finish vs) block rest ∧
        b = .assign ⟨key, place, value⟩ block) ∨
      (∃ place us vs c body otherwise block, ts = ⟨.ifWord, place⟩ :: us ∧
        Yields (readChoice finish us) (c, body, otherwise) vs ∧
        Yields (readBlock finish vs) block rest ∧ b = .choose c body otherwise block) ∨
      (Avoids Begins ts ∧ b = .done ∧ ts = rest) := by
  rw [readBlock.eq_def]
  split
  next key place us =>
    simp only [yields_bind_iff, yields_ok_iff, List.cons.injEq, Placed.mk.injEq, Token.word.injEq,
      reduceCtorEq, false_and, exists_false, false_or]
    constructor
    · rintro ⟨value, vs, hvs, hvalue, block, ws, hws, hblock, rfl, rfl⟩
      exact .inl ⟨key, place, value, us, vs, block, ⟨⟨rfl, rfl⟩, rfl⟩, ⟨hvs, hvalue⟩,
        ⟨hws, hblock⟩, rfl⟩
    · rintro (⟨_, _, value, _, vs, block, ⟨⟨rfl, rfl⟩, rfl⟩, ⟨hvs, hvalue⟩, ⟨hws, hblock⟩, rfl⟩ |
        ⟨havoids, -⟩)
      · exact ⟨value, vs, hvs, hvalue, block, rest, hws, hblock, rfl, rfl⟩
      · exact absurd (.inr ⟨key, rfl⟩) (havoids _ rfl)
  next place us =>
    simp only [yields_bind_iff, yields_ok_iff, List.cons.injEq, Placed.mk.injEq,
      reduceCtorEq, false_and, exists_false, false_or, true_and]
    constructor
    · rintro ⟨⟨c, body, otherwise⟩, vs, hvs, hchoice, block, ws, hws, hblock, rfl, rfl⟩
      exact .inl ⟨place, us, vs, c, body, otherwise, block, ⟨rfl, rfl⟩, ⟨hvs, hchoice⟩,
        ⟨hws, hblock⟩, rfl⟩
    · rintro (⟨_, _, vs, c, body, otherwise, block, ⟨rfl, rfl⟩, ⟨hvs, hchoice⟩, ⟨hws, hblock⟩,
        rfl⟩ |
        ⟨havoids, -⟩)
      · exact ⟨(c, body, otherwise), vs, hvs, hchoice, block, rest, hws, hblock, rfl, rfl⟩
      · exact absurd (.inl rfl) (havoids _ rfl)
  next hword hif =>
    rw [yields_ok_iff]
    constructor
    · rintro ⟨rfl, rfl⟩
      refine .inr (.inr ⟨?_, rfl, rfl⟩)
      rintro ⟨token, place⟩ ht (rfl | ⟨key, rfl⟩)
      · obtain ⟨us, rfl⟩ := List.head?_eq_some_iff.1 ht
        exact hif place us rfl
      · obtain ⟨us, rfl⟩ := List.head?_eq_some_iff.1 ht
        exact hword key place us rfl
    · rintro (⟨key, place, value, us, vs, block, rfl, -⟩ |
        ⟨place, us, vs, c, body, otherwise, block, rfl, -⟩ |
        ⟨-, rfl, rfl⟩)
      · exact absurd rfl (hword key place us)
      · exact absurd rfl (hif place us)
      · exact ⟨rfl, rfl⟩

theorem yields_readChoice_iff {c : Condition} {body : Block} {otherwise : Otherwise} :
    Yields (readChoice finish ts) (c, body, otherwise) rest ↔
      ∃ us vs ws, Yields (readHead finish ts) c us ∧ Yields (readBlock finish us) body vs ∧
        Yields (readBlockEnd finish vs) () ws ∧
          Yields (readOtherwise finish ws) otherwise rest := by
  rw [readChoice, yields_bind_iff]
  constructor
  · rintro ⟨c', us, hus, hhead, h⟩
    obtain ⟨body', vs, hvs, hbody, h⟩ := yields_bind_iff.1 h
    obtain ⟨_, ws, hws, hend, h⟩ := yields_bind_iff.1 h
    obtain ⟨otherwise', xs, hxs, hotherwise, h⟩ := yields_bind_iff.1 h
    obtain ⟨heq, rfl⟩ := yields_ok_iff.1 h
    cases heq
    exact ⟨us, vs, ws, ⟨hus, hhead⟩, ⟨hvs, hbody⟩, ⟨hws, hend⟩, hxs, hotherwise⟩
  · rintro ⟨us, vs, ws, ⟨hus, hhead⟩, ⟨hvs, hbody⟩, ⟨hws, hend⟩, hxs, hotherwise⟩
    refine ⟨c, us, hus, hhead, yields_bind_iff.2 ⟨body, vs, hvs, hbody, ?_⟩⟩
    refine yields_bind_iff.2 ⟨(), ws, hws, hend, ?_⟩
    refine yields_bind_iff.2 ⟨otherwise, rest, hxs, hotherwise, ?_⟩
    exact yields_ok_iff.2 ⟨rfl, rfl⟩

theorem yields_readOtherwise_iff {otherwise : Otherwise} :
    Yields (readOtherwise finish ts) otherwise rest ↔
      (∃ place ifPlace us c body more, ts = ⟨.elseWord, place⟩ :: ⟨.ifWord, ifPlace⟩ :: us ∧
        Yields (readChoice finish us) (c, body, more) rest ∧ otherwise = .choose c body more) ∨
      (∃ place openBrace us vs body, ts = ⟨.elseWord, place⟩ :: ⟨.openBrace, openBrace⟩ :: us ∧
        Yields (readBlock finish us) body vs ∧ Yields (readBlockEnd finish vs) () rest ∧
        otherwise = .block body) ∨
      (Avoids (· = .elseWord) ts ∧ otherwise = .nothing ∧ ts = rest) := by
  rw [readOtherwise.eq_def]
  split
  next place ifPlace us =>
    simp only [yields_bind_iff, yields_ok_iff, List.cons.injEq, Placed.mk.injEq,
      reduceCtorEq, false_and, and_false, exists_false, false_or, true_and]
    constructor
    · rintro ⟨⟨c, body, more⟩, vs, hvs, hchoice, rfl, rfl⟩
      exact .inl ⟨place, ifPlace, us, c, body, more, ⟨rfl, rfl, rfl⟩, ⟨hvs, hchoice⟩, rfl⟩
    · rintro (⟨_, _, _, c, body, more, ⟨rfl, rfl, rfl⟩, ⟨hvs, hchoice⟩, rfl⟩ | ⟨havoids, -⟩)
      · exact ⟨(c, body, more), rest, hvs, hchoice, rfl, rfl⟩
      · exact absurd rfl (havoids _ rfl)
  next place us hif =>
    simp only [yields_bind_iff, yields_ok_iff]
    constructor
    · rintro ⟨_, vs, hvs, hopen, body, ws, hws, hbody, _, xs, hxs, hend, rfl, rfl⟩
      obtain ⟨openBrace, rfl⟩ := yields_expectToken_iff.1 ⟨hvs, hopen⟩
      exact .inr (.inl ⟨place, openBrace, vs, ws, body, rfl, ⟨hws, hbody⟩, ⟨hxs, hend⟩, rfl⟩)
    · rintro (⟨_, _, _, _, _, _, heq, -⟩ |
        ⟨_, openBrace, vs, ws, body, heq, ⟨hws, hbody⟩, ⟨hxs, hend⟩, rfl⟩ |
        ⟨havoids, -⟩)
      · cases heq
        exact absurd rfl (hif _ _)
      · cases heq
        obtain ⟨hvs, hopen⟩ := yields_expectToken finish .openBrace openBrace vs
        exact ⟨(), vs, hvs, hopen, body, ws, hws, hbody, (), rest, hxs, hend, rfl, rfl⟩
      · exact absurd rfl (havoids _ rfl)
  next helse hif =>
    rw [yields_ok_iff]
    constructor
    · rintro ⟨rfl, rfl⟩
      refine .inr (.inr ⟨?_, rfl, rfl⟩)
      rintro ⟨token, place⟩ ht rfl
      obtain ⟨us, rfl⟩ := List.head?_eq_some_iff.1 ht
      exact hif place us rfl
    · rintro (⟨place, ifPlace, us, c, body, more, rfl, -⟩ |
        ⟨place, openBrace, us, vs, body, rfl, -⟩ | ⟨-, rfl, rfl⟩)
      · exact absurd rfl (helse place ifPlace us)
      · exact absurd rfl (hif place _)
      · exact ⟨rfl, rfl⟩

mutual

theorem spelled_of_readBlock {ts rest : List Placed} {b : Block}
    (h : Yields (readBlock finish ts) b rest) : b.Spelled ts rest ∧ Avoids Begins rest := by
  rcases yields_readBlock_iff.1 h with
    ⟨key, place, value, us, vs, block, hts, hvalue, hblock, rfl⟩ |
    ⟨place, us, vs, c, body, otherwise, block, hts, hchoice, hblock, rfl⟩ | ⟨havoids, rfl, hts⟩
  · have hlt : vs.length < ts.length := by
      have hvs : vs.length < us.length := hvalue.1
      simp only [hts, List.length_cons]
      omega
    obtain ⟨hspelled, havoids⟩ := spelled_of_readBlock hblock
    obtain ⟨assignPlace, token, rfl, htoken, hterminated⟩ := yields_readValue_iff.1 hvalue
    subst hts
    exact ⟨.assign (a := ⟨key, place, value⟩) assignPlace htoken hterminated hspelled, havoids⟩
  · have hus : us.length < ts.length := by simp [hts]
    have hlt : vs.length < ts.length := by
      have hvs : vs.length < us.length := hchoice.1
      omega
    have hspelled := spelled_of_readChoice hchoice
    obtain ⟨hmore, havoids⟩ := spelled_of_readBlock hblock
    subst hts
    exact ⟨.choose place hspelled hmore, havoids⟩
  · subst hts
    exact ⟨.done ts, havoids⟩
termination_by (ts.length, 2)

theorem spelled_of_readChoice {ts rest : List Placed} {c : Condition} {body : Block}
    {otherwise : Otherwise} (h : Yields (readChoice finish ts) (c, body, otherwise) rest) :
    ChoiceSpelled c body otherwise ts rest := by
  obtain ⟨us, vs, ws, hhead, hbody, hend, hotherwise⟩ := yields_readChoice_iff.1 h
  have hlt : us.length < ts.length := hhead.1
  have hle : vs.length ≤ us.length := hbody.1
  have hlt' : ws.length < vs.length := hend.1
  have hspelled := (spelled_of_readBlock hbody).1
  have hmore := spelled_of_readOtherwise hotherwise
  obtain ⟨opening, closing, openBrace, xs, rfl, hc⟩ := yields_readHead_iff.1 hhead
  obtain ⟨closeBrace, rfl⟩ := yields_readBlockEnd_iff.1 hend
  exact .mk opening closing openBrace closeBrace hc hspelled hmore
termination_by (ts.length, 1)

theorem spelled_of_readOtherwise {ts rest : List Placed} {otherwise : Otherwise}
    (h : Yields (readOtherwise finish ts) otherwise rest) : otherwise.Spelled ts rest := by
  rcases yields_readOtherwise_iff.1 h with
    ⟨place, ifPlace, us, c, body, more, hts, hchoice, rfl⟩ |
    ⟨place, openBrace, us, vs, body, hts, hbody, hend, rfl⟩ | ⟨-, rfl, rfl⟩
  · have hlt : us.length < ts.length := by grind
    have hspelled := spelled_of_readChoice hchoice
    subst hts
    exact .choose place ifPlace hspelled
  · have hlt : us.length < ts.length := by grind
    have hspelled := (spelled_of_readBlock hbody).1
    obtain ⟨closeBrace, rfl⟩ := yields_readBlockEnd_iff.1 hend
    subst hts
    exact .block place openBrace closeBrace hspelled
  · exact .nothing ts
termination_by (ts.length, 1)

end

theorem Block.Spelled.avoids_else {b : Block} (h : b.Spelled ts rest)
    (hrest : Avoids (· = .elseWord) rest) : Avoids (· = .elseWord) ts := by
  cases h with
  | done => exact hrest
  | assign place htoken hterminated hblock =>
    intro t ht
    cases ht
    simp
  | choose place hchoice hblock =>
    intro t ht
    cases ht
    simp

end Reader

/-- Behind a block that is complete, neither an assignment, a conditional nor an `else` stands. -/
def Closed (rest : List Placed) : Prop :=
  Avoids Begins rest ∧ Avoids (· = .elseWord) rest

theorem closed_cons {t : Placed} {rest : List Placed} (hbegins : ¬ Begins t.token)
    (helse : t.token ≠ .elseWord) : Closed (t :: rest) := by
  constructor
  · rintro u hu
    cases hu
    exact hbegins
  · rintro u hu
    cases hu
    exact helse

theorem closed_nil : Closed [] :=
  ⟨by simp [Avoids], by simp [Avoids]⟩

theorem closed_closeBrace (place : Place) (rest : List Placed) :
    Closed (⟨.closeBrace, place⟩ :: rest) :=
  closed_cons (by simp [Begins]) (by simp)

mutual

theorem Block.Spelled.yields (finish : Place) {b : Block} {ts rest : List Placed} :
    b.Spelled ts rest → Closed rest → Yields (readBlock finish ts) b rest
  | .done _, hclosed => yields_readBlock_iff.2 (.inr (.inr ⟨hclosed.1, rfl, rfl⟩))
  | .assign place htoken hterminated hblock, hclosed =>
    yields_readBlock_iff.2 (.inl ⟨_, _, _, _, _, _, rfl,
      yields_readValue_iff.2 ⟨place, _, rfl, htoken, hterminated⟩,
      hblock.yields finish hclosed, rfl⟩)
  | .choose place hchoice hblock, hclosed =>
    yields_readBlock_iff.2 (.inr (.inl ⟨place, _, _, _, _, _, _, rfl,
      hchoice.yields finish (hblock.avoids_else hclosed.2), hblock.yields finish hclosed, rfl⟩))

theorem ChoiceSpelled.yields (finish : Place) {c : Condition} {body : Block}
    {otherwise : Otherwise} {ts rest : List Placed} :
    ChoiceSpelled c body otherwise ts rest → Avoids (· = .elseWord) rest →
      Yields (readChoice finish ts) (c, body, otherwise) rest
  | .mk opening closing openBrace closeBrace hc hbody hotherwise, hrest =>
    yields_readChoice_iff.2 ⟨_, _, _,
      yields_readHead_iff.2 ⟨opening, closing, openBrace, _, rfl, hc⟩,
      hbody.yields finish (closed_closeBrace _ _),
      yields_readBlockEnd_iff.2 ⟨closeBrace, rfl⟩, hotherwise.yields finish hrest⟩

theorem Otherwise.Spelled.yields (finish : Place) {otherwise : Otherwise}
    {ts rest : List Placed} :
    otherwise.Spelled ts rest → Avoids (· = .elseWord) rest →
      Yields (readOtherwise finish ts) otherwise rest
  | .nothing _, hrest => yields_readOtherwise_iff.2 (.inr (.inr ⟨hrest, rfl, rfl⟩))
  | .block place openBrace closeBrace hbody, _ =>
    yields_readOtherwise_iff.2 (.inr (.inl ⟨place, openBrace, _, _, _, rfl,
      hbody.yields finish (closed_closeBrace _ _),
      yields_readBlockEnd_iff.2 ⟨closeBrace, rfl⟩, rfl⟩))
  | .choose place ifPlace hchoice, hrest =>
    yields_readOtherwise_iff.2
      (.inl ⟨place, ifPlace, _, _, _, _, rfl, hchoice.yields finish hrest, rfl⟩)

end

theorem SectionsSpelled.closed {sections : List Section} {ts : List Placed}
    (h : SectionsSpelled sections ts) : Closed ts := by
  cases h with
  | nil => exact closed_nil
  | cons => exact closed_cons (by simp [Begins]) (by simp)

theorem readSections_eq_ok_iff {finish : Place} {ts : List Placed} {sections : List Section} :
    readSections finish ts = .ok sections ↔ SectionsSpelled sections ts := by
  constructor
  · intro h
    fun_induction readSections finish ts generalizing sections with
    | case1 =>
      cases h
      exact .nil
    | case2 name place rest ih =>
      obtain ⟨⟨body, us, hus⟩, hbody, h⟩ := bind_eq_ok_iff.1 h
      obtain ⟨more, hmore, h⟩ := bind_eq_ok_iff.1 h
      cases h
      exact .cons (s := ⟨name, place, body⟩) (spelled_of_readBlock ⟨hus, hbody⟩).1 (ih _ hmore)
    | case3 t us hgroup => cases h
  · intro h
    induction h with
    | nil => rw [readSections]
    | cons hbody hsections ih =>
      obtain ⟨hus, hblock⟩ := hbody.yields finish hsections.closed
      rw [readSections]
      exact bind_eq_ok_iff.2 ⟨_, hblock, bind_eq_ok_iff.2 ⟨_, ih, rfl⟩⟩

/-- The reader of programs finds the program that a list of tokens spells, and nothing else. -/
theorem readProgram_eq_ok_iff {file : Path} {ts : List Placed} {p : Program} :
    readProgram file ts = .ok p ↔ p.Spelled ts := by
  constructor
  · intro h
    obtain ⟨⟨leading, us, hus⟩, hleading, h⟩ := bind_eq_ok_iff.1 h
    obtain ⟨sections, hsections, h⟩ := bind_eq_ok_iff.1 h
    cases h
    exact ⟨us, (spelled_of_readBlock ⟨hus, hleading⟩).1, readSections_eq_ok_iff.1 hsections⟩
  · rintro ⟨us, hleading, hsections⟩
    obtain ⟨hus, hblock⟩ := hleading.yields (endPlace file ts) hsections.closed
    exact bind_eq_ok_iff.2 ⟨_, hblock, bind_eq_ok_iff.2
      ⟨_, readSections_eq_ok_iff.2 hsections, rfl⟩⟩

end IncrementalBuild.Settings
