import IncrementalBuild.Settings.Condition.Reader
import IncrementalBuild.Proofs.Except

/-!
The grammar of conditions, and that the reader of conditions accepts what it describes and nothing
else. A phrase of the grammar is a condition together with the tokens it is written by and those
behind it.
-/

namespace IncrementalBuild.Settings

/-- The three tiers of conditions, the tightest first. -/
inductive Tier where
  | unary
  | comparison
  | chain

/-- A condition of a tier is written at the front of some tokens, and the others are behind it. -/
inductive Condition.Spelled : Tier → Condition → List Placed → List Placed → Prop where
  | word (name : String) (place : Place) (rest : List Placed) :
      Spelled .unary (.literal (.reference name)) (⟨.word name, place⟩ :: rest) rest
  | quoted {s : String} (place : Place) (rest : List Placed) :
      isUnterminated s = false →
      Spelled .unary (.literal (.quoted s)) (⟨.quoted s, place⟩ :: rest) rest
  | not {c : Condition} {ts rest : List Placed} (place : Place) :
      Spelled .unary c ts rest → Spelled .unary (.not c) (⟨.notOp, place⟩ :: ts) rest
  | paren {c : Condition} {ts rest : List Placed} (opening closing : Place) :
      Spelled .chain c ts (⟨.closeParen, closing⟩ :: rest) →
      Spelled .unary (.paren c) (⟨.openParen, opening⟩ :: ts) rest
  | ofUnary {c : Condition} {ts rest : List Placed} :
      Spelled .unary c ts rest → Spelled .comparison c ts rest
  | compare {op : Comparison} {l r : Condition} {ts us rest : List Placed} (place : Place) :
      Spelled .unary l ts (⟨.comparison op, place⟩ :: us) → Spelled .unary r us rest →
      Spelled .comparison (.compare op l r) ts rest
  | ofComparison {c : Condition} {ts rest : List Placed} :
      Spelled .comparison c ts rest → Spelled .chain c ts rest
  | and {l r : Condition} {ts us rest : List Placed} (place : Place) :
      Spelled .chain l ts (⟨.andOp, place⟩ :: us) → Spelled .comparison r us rest →
      Spelled .chain (.and l r) ts rest
  | or {l r : Condition} {ts us rest : List Placed} (place : Place) :
      Spelled .chain l ts (⟨.orOp, place⟩ :: us) → Spelled .comparison r us rest →
      Spelled .chain (.or l r) ts rest

/-- A reader succeeds with a value, and leaves these tokens. -/
def Yields {α : Type} {P : List Placed → Prop}
    (r : Except Error (α × { rest : List Placed // P rest })) (a : α) (rest : List Placed) : Prop :=
  ∃ h : P rest, r = .ok (a, ⟨rest, h⟩)

section Yields

variable {α β : Type} {P Q : List Placed → Prop} {a : α} {rest : List Placed}

theorem yields_ok_iff {b : α} {x : { rest : List Placed // P rest }} :
    Yields (.ok (b, x)) a rest ↔ b = a ∧ x.1 = rest := by
  constructor
  · rintro ⟨h, heq⟩
    cases heq
    exact ⟨rfl, rfl⟩
  · rintro ⟨rfl, rfl⟩
    exact ⟨x.2, rfl⟩

theorem not_yields_error {e : Error} :
    ¬ Yields (.error e : Except Error (α × { rest : List Placed // P rest })) a rest := by
  rintro ⟨h, heq⟩
  cases heq

theorem yields_bind_iff {r : Except Error (α × { rest : List Placed // P rest })}
    {f : α × { rest : List Placed // P rest } → Except Error (β × { rest : List Placed // Q rest })}
    {b : β} :
    Yields (r >>= f) b rest ↔
      ∃ a us, ∃ h : P us, r = .ok (a, ⟨us, h⟩) ∧ Yields (f (a, ⟨us, h⟩)) b rest := by
  constructor
  · rintro ⟨h, heq⟩
    obtain ⟨⟨a, us, hus⟩, hr, hf⟩ := bind_eq_ok_iff.1 heq
    exact ⟨a, us, hus, hr, h, hf⟩
  · rintro ⟨a, us, hus, hr, h, hf⟩
    exact ⟨h, bind_eq_ok_iff.2 ⟨_, hr, hf⟩⟩

end Yields

section Reader

variable {finish : Place} {ts rest : List Placed}

theorem yields_expectToken_iff {expected : Token} :
    Yields (expectToken finish expected ts) () rest ↔
      ∃ place, ts = ⟨expected, place⟩ :: rest := by
  cases ts with
  | nil =>
    refine iff_of_false not_yields_error ?_
    simp
  | cons t ts =>
    obtain ⟨token, place⟩ := t
    unfold expectToken takeToken
    rw [yields_bind_iff]
    constructor
    · rintro ⟨a, us, h, heq, hyields⟩
      cases heq
      dsimp only at hyields
      split at hyields
      next htoken =>
        obtain ⟨-, rfl⟩ := yields_ok_iff.1 hyields
        exact ⟨place, by rw [← htoken]⟩
      · exact absurd hyields not_yields_error
    · rintro ⟨place', heq⟩
      cases heq
      refine ⟨_, _, by simp, rfl, ?_⟩
      dsimp only
      rw [if_pos rfl]
      exact yields_ok_iff.2 ⟨rfl, rfl⟩

theorem yields_expectToken (finish : Place) (expected : Token) (place : Place)
    (rest : List Placed) :
    Yields (expectToken finish expected (⟨expected, place⟩ :: rest)) () rest :=
  yields_expectToken_iff.2 ⟨place, rfl⟩

theorem yields_readCondition_iff {c : Condition} :
    Yields (readCondition finish ts) c rest ↔
      ∃ first us, Yields (readComparison finish ts) first us ∧
        Yields (readConnectives finish first us) c rest := by
  rw [readCondition, yields_bind_iff]
  constructor
  · rintro ⟨first, us, hus, hfirst, hrest⟩
    obtain ⟨c', vs, hvs, hc, hok⟩ := yields_bind_iff.1 hrest
    obtain ⟨rfl, rfl⟩ := yields_ok_iff.1 hok
    exact ⟨first, us, ⟨hus, hfirst⟩, hvs, hc⟩
  · rintro ⟨first, us, ⟨hus, hfirst⟩, hvs, hc⟩
    exact ⟨first, us, hus, hfirst, yields_bind_iff.2 ⟨c, rest, hvs, hc, yields_ok_iff.2 ⟨rfl, rfl⟩⟩⟩

theorem connectiveAt?_eq_some_iff {join : Condition → Condition → Condition} :
    connectiveAt? ts = some (join, rest) ↔ ∃ place,
      ts = ⟨.andOp, place⟩ :: rest ∧ join = .and ∨ ts = ⟨.orOp, place⟩ :: rest ∧ join = .or := by
  unfold connectiveAt?
  split
  next place us => simp [eq_comm, and_comm]
  next place us => simp [eq_comm, and_comm]
  next hand hor =>
    simp only [reduceCtorEq, false_iff, not_exists]
    rintro place (⟨rfl, -⟩ | ⟨rfl, -⟩)
    · exact hand place rest rfl
    · exact hor place rest rfl

theorem yields_readConnectives_iff {left c : Condition} :
    Yields (readConnectives finish left ts) c rest ↔
      (connectiveAt? ts = none ∧ left = c ∧ ts = rest) ∨
        ∃ join us right vs, connectiveAt? ts = some (join, us) ∧
          Yields (readComparison finish us) right vs ∧
          Yields (readConnectives finish (join left right) vs) c rest := by
  rw [readConnectives]
  split
  next hnone => simp [hnone, yields_ok_iff]
  next join us hsome =>
    simp only [hsome, reduceCtorEq, false_and, false_or, Option.some.injEq, Prod.mk.injEq]
    rw [yields_bind_iff]
    constructor
    · rintro ⟨right, vs, hvs, hright, hrest⟩
      obtain ⟨c', ws, hws, hc, hok⟩ := yields_bind_iff.1 hrest
      obtain ⟨rfl, rfl⟩ := yields_ok_iff.1 hok
      exact ⟨join, us, right, vs, ⟨rfl, rfl⟩, ⟨hvs, hright⟩, hws, hc⟩
    · rintro ⟨_, _, right, vs, ⟨rfl, rfl⟩, ⟨hvs, hright⟩, hws, hc⟩
      exact ⟨right, vs, hvs, hright,
        yields_bind_iff.2 ⟨c, rest, hws, hc, yields_ok_iff.2 ⟨rfl, rfl⟩⟩⟩

theorem comparisonAt?_eq_some_iff {op : Comparison} :
    comparisonAt? ts = some (op, rest) ↔ ∃ place, ts = ⟨.comparison op, place⟩ :: rest := by
  unfold comparisonAt?
  split
  next op' place us => simp
  next hnot =>
    simp only [reduceCtorEq, false_iff, not_exists]
    rintro place rfl
    exact hnot op place rest rfl

theorem yields_readComparison_iff {c : Condition} :
    Yields (readComparison finish ts) c rest ↔
      comparisonAt? rest = none ∧
        (Yields (readUnary finish ts) c rest ∨
          ∃ op left right us vs, Yields (readUnary finish ts) left us ∧
            comparisonAt? us = some (op, vs) ∧ Yields (readUnary finish vs) right rest ∧
            c = .compare op left right) := by
  rw [readComparison, yields_bind_iff]
  constructor
  · rintro ⟨left, us, hus, hleft, hrest⟩
    dsimp only at hrest
    split at hrest
    next hnone =>
      obtain ⟨rfl, rfl⟩ := yields_ok_iff.1 hrest
      exact ⟨hnone, .inl ⟨hus, hleft⟩⟩
    next op vs hsome =>
      obtain ⟨right, ws, hws, hright, hok⟩ := yields_bind_iff.1 hrest
      split at hok
      · exact absurd hok not_yields_error
      next hnot =>
        obtain ⟨rfl, rfl⟩ := yields_ok_iff.1 hok
        refine ⟨?_, .inr ⟨op, left, right, us, vs, ⟨hus, hleft⟩, hsome, ⟨hws, hright⟩, rfl⟩⟩
        unfold comparisonAt?
        split
        next op' place xs heq => exact absurd heq (hnot op' place xs)
        next => rfl
  · rintro ⟨hnone, ⟨hus, hleft⟩ |
      ⟨op, left, right, us, vs, ⟨hus, hleft⟩, hsome, ⟨hws, hright⟩, rfl⟩⟩
    · refine ⟨c, rest, hus, hleft, ?_⟩
      dsimp only
      split
      next => exact yields_ok_iff.2 ⟨rfl, rfl⟩
      next op vs hsome =>
        rw [hnone] at hsome
        cases hsome
    · refine ⟨left, us, hus, hleft, ?_⟩
      dsimp only
      split
      next hnone' =>
        rw [hsome] at hnone'
        cases hnone'
      next op' vs' hsome' =>
        rw [hsome] at hsome'
        cases hsome'
        refine yields_bind_iff.2 ⟨right, rest, hws, hright, ?_⟩
        dsimp only
        split
        next => simp [comparisonAt?] at hnone
        next => exact yields_ok_iff.2 ⟨rfl, rfl⟩

theorem yields_readUnary_iff {c : Condition} :
    Yields (readUnary finish ts) c rest ↔
      (∃ name place, ts = ⟨.word name, place⟩ :: rest ∧ c = .literal (.reference name)) ∨
      (∃ s place, ts = ⟨.quoted s, place⟩ :: rest ∧ isUnterminated s = false ∧
        c = .literal (.quoted s)) ∨
      (∃ place us c', ts = ⟨.notOp, place⟩ :: us ∧ Yields (readUnary finish us) c' rest ∧
        c = .not c') ∨
      ∃ place closing us c', ts = ⟨.openParen, place⟩ :: us ∧
        Yields (readCondition finish us) c' (⟨.closeParen, closing⟩ :: rest) ∧ c = .paren c' := by
  rw [readUnary.eq_def]
  split
  next => exact iff_of_false not_yields_error (by simp)
  next place us =>
    simp only [yields_bind_iff, yields_ok_iff, List.cons.injEq, Placed.mk.injEq, reduceCtorEq,
      false_and, exists_false, false_or, or_false, true_and]
    constructor
    · rintro ⟨c', vs, hvs, hc, rfl, rfl⟩
      exact ⟨place, us, c', ⟨rfl, rfl⟩, ⟨hvs, hc⟩, rfl⟩
    · rintro ⟨_, _, c', ⟨rfl, rfl⟩, ⟨hvs, hc⟩, rfl⟩
      exact ⟨c', rest, hvs, hc, rfl, rfl⟩
  next place us =>
    simp only [yields_bind_iff, yields_ok_iff, List.cons.injEq, Placed.mk.injEq, reduceCtorEq,
      false_and, exists_false, false_or, true_and]
    constructor
    · rintro ⟨c', vs, hvs, hc, _, ws, hws, hclose, rfl, rfl⟩
      obtain ⟨closing, rfl⟩ := yields_expectToken_iff.1 ⟨hws, hclose⟩
      exact ⟨place, closing, us, c', ⟨rfl, rfl⟩, ⟨hvs, hc⟩, rfl⟩
    · rintro ⟨_, closing, _, c', ⟨rfl, rfl⟩, ⟨hvs, hc⟩, rfl⟩
      obtain ⟨hws, hclose⟩ := yields_expectToken finish .closeParen closing rest
      exact ⟨c', _, hvs, hc, (), rest, hws, hclose, rfl, rfl⟩
  next name place us =>
    simp only [yields_ok_iff, List.cons.injEq, Placed.mk.injEq, Token.word.injEq, reduceCtorEq,
      false_and, exists_false, or_false]
    constructor
    · rintro ⟨rfl, rfl⟩
      exact ⟨name, place, ⟨⟨rfl, rfl⟩, rfl⟩, rfl⟩
    · rintro ⟨_, _, ⟨⟨rfl, rfl⟩, rfl⟩, rfl⟩
      exact ⟨rfl, rfl⟩
  next s place us =>
    simp only [List.cons.injEq, Placed.mk.injEq, Token.quoted.injEq, reduceCtorEq,
      false_and, exists_false, or_false, false_or]
    constructor
    · intro h
      split at h
      · exact absurd h not_yields_error
      next hterminated =>
        obtain ⟨rfl, rfl⟩ := yields_ok_iff.1 h
        exact ⟨s, place, ⟨⟨rfl, rfl⟩, rfl⟩, by simpa using hterminated, rfl⟩
    · rintro ⟨_, _, ⟨⟨rfl, rfl⟩, rfl⟩, hterminated, rfl⟩
      rw [if_neg (by simp [hterminated])]
      exact yields_ok_iff.2 ⟨rfl, rfl⟩
  next t us hnot hparen hword hquoted =>
    refine iff_of_false not_yields_error ?_
    rintro (⟨name, place, heq, -⟩ | ⟨s, place, heq, -⟩ | ⟨place, us, c', heq, -⟩ |
      ⟨place, closing, us, c', heq, -⟩)
    · cases heq
      exact hword _ _ rfl
    · cases heq
      exact hquoted _ _ rfl
    · cases heq
      exact hnot _ rfl
    · cases heq
      exact hparen _ rfl

/-- Behind a condition, no operator stands that would go on with it. -/
def Ends (rest : List Placed) : Prop :=
  comparisonAt? rest = none ∧ connectiveAt? rest = none

mutual

theorem spelled_of_readCondition {ts rest : List Placed} {c : Condition}
    (h : Yields (readCondition finish ts) c rest) :
    Condition.Spelled .chain c ts rest ∧ Ends rest := by
  obtain ⟨first, us, hfirst, hrest⟩ := yields_readCondition_iff.1 h
  obtain ⟨hspelled, hend⟩ := spelled_of_readComparison hfirst
  obtain ⟨hlt, -⟩ := hfirst
  exact spelled_of_readConnectives (.ofComparison hspelled) hend hrest
termination_by (ts.length, 4)

/-- What is read of a chain behind `left` goes on with it. -/
theorem spelled_of_readConnectives {start ts rest : List Placed} {left c : Condition}
    (hleft : Condition.Spelled .chain left start ts) (hend : comparisonAt? ts = none)
    (h : Yields (readConnectives finish left ts) c rest) :
    Condition.Spelled .chain c start rest ∧ Ends rest := by
  rcases yields_readConnectives_iff.1 h with
    ⟨hnone, rfl, rfl⟩ | ⟨join, us, right, vs, hsome, hright, hrest⟩
  · exact ⟨hleft, hend, hnone⟩
  · have hlt := length_of_connectiveAt? hsome
    obtain ⟨hspelled, hend'⟩ := spelled_of_readComparison hright
    obtain ⟨hlt', -⟩ := hright
    obtain ⟨place, ⟨rfl, rfl⟩ | ⟨rfl, rfl⟩⟩ := connectiveAt?_eq_some_iff.1 hsome
    · exact spelled_of_readConnectives (.and place hleft hspelled) hend' hrest
    · exact spelled_of_readConnectives (.or place hleft hspelled) hend' hrest
termination_by (ts.length, 3)

theorem spelled_of_readComparison {ts rest : List Placed} {c : Condition}
    (h : Yields (readComparison finish ts) c rest) :
    Condition.Spelled .comparison c ts rest ∧ comparisonAt? rest = none := by
  obtain ⟨hend, hunary | ⟨op, left, right, us, vs, hleft, hsome, hright, rfl⟩⟩ :=
    yields_readComparison_iff.1 h
  · exact ⟨.ofUnary (spelled_of_readUnary hunary), hend⟩
  · have hlt := length_of_comparisonAt? hsome
    have hlt' : us.length < ts.length := hleft.1
    have hl := spelled_of_readUnary hleft
    have hr := spelled_of_readUnary hright
    obtain ⟨place, rfl⟩ := comparisonAt?_eq_some_iff.1 hsome
    exact ⟨.compare place hl hr, hend⟩
termination_by (ts.length, 2)

theorem spelled_of_readUnary {ts rest : List Placed} {c : Condition}
    (h : Yields (readUnary finish ts) c rest) : Condition.Spelled .unary c ts rest := by
  rcases yields_readUnary_iff.1 h with ⟨name, place, rfl, rfl⟩ | ⟨s, place, rfl, hs, rfl⟩ |
    ⟨place, us, c', rfl, hc, rfl⟩ | ⟨place, closing, us, c', rfl, hc, rfl⟩
  · exact .word name place rest
  · exact .quoted place rest hs
  · exact .not place (spelled_of_readUnary hc)
  · exact .paren place closing (spelled_of_readCondition hc).1
termination_by (ts.length, 1)

end

end Reader

/-- What a phrase of each tier has the readers do: the rest of a chain is read with what stands
before it. -/
def Condition.Read (finish : Place) :
    Tier → Condition → List Placed → List Placed → Prop
  | .unary, c, ts, rest => Yields (readUnary finish ts) c rest
  | .comparison, c, ts, rest =>
    comparisonAt? rest = none → Yields (readComparison finish ts) c rest
  | .chain, c, ts, rest => comparisonAt? rest = none → ∀ c' rest',
    Yields (readConnectives finish c rest) c' rest' → Yields (readCondition finish ts) c' rest'

theorem Condition.Spelled.read {tier : Tier} {c : Condition} {ts rest : List Placed}
    (h : c.Spelled tier ts rest) (finish : Place) : c.Read finish tier ts rest := by
  induction h with
  | word name place rest => exact yields_readUnary_iff.2 (.inl ⟨name, place, rfl, rfl⟩)
  | quoted place rest hs =>
    exact yields_readUnary_iff.2 (.inr (.inl ⟨_, place, rfl, hs, rfl⟩))
  | not place _ ih =>
    exact yields_readUnary_iff.2 (.inr (.inr (.inl ⟨place, _, _, rfl, ih, rfl⟩)))
  | @paren c ts rest opening closing _ ih =>
    have hconnectives : Yields (readConnectives finish c (⟨.closeParen, closing⟩ :: rest)) c
        (⟨.closeParen, closing⟩ :: rest) := yields_readConnectives_iff.2 (.inl ⟨rfl, rfl, rfl⟩)
    have hcondition := ih rfl c _ hconnectives
    exact yields_readUnary_iff.2
      (.inr (.inr (.inr ⟨opening, closing, ts, c, rfl, hcondition, rfl⟩)))
  | ofUnary _ ih => exact fun hend => yields_readComparison_iff.2 ⟨hend, .inl ih⟩
  | compare place _ _ ihl ihr =>
    exact fun hend => yields_readComparison_iff.2
      ⟨hend, .inr ⟨_, _, _, _, _, ihl, rfl, ihr, rfl⟩⟩
  | ofComparison _ ih =>
    exact fun hend c' rest' hrest => yields_readCondition_iff.2 ⟨_, _, ih hend, hrest⟩
  | and place _ _ ihl ihr =>
    -- The chain before the operator is read first, and goes on with what comes behind.
    intro hend c' rest' hrest
    exact ihl rfl c' rest' (yields_readConnectives_iff.2 (.inr ⟨_, _, _, _, rfl, ihr hend, hrest⟩))
  | or place _ _ ihl ihr =>
    intro hend c' rest' hrest
    exact ihl rfl c' rest' (yields_readConnectives_iff.2 (.inr ⟨_, _, _, _, rfl, ihr hend, hrest⟩))

/-- The reader of conditions finds what the grammar describes, up to where no operator goes on. -/
theorem yields_readCondition_iff_spelled {finish : Place} {c : Condition} {ts rest : List Placed} :
    Yields (readCondition finish ts) c rest ↔ c.Spelled .chain ts rest ∧ Ends rest := by
  constructor
  · exact spelled_of_readCondition
  · rintro ⟨hspelled, hend, hconnective⟩
    exact hspelled.read finish hend c rest
      (yields_readConnectives_iff.2 (.inl ⟨hconnective, rfl, rfl⟩))

end IncrementalBuild.Settings
