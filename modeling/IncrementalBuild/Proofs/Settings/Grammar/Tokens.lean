import IncrementalBuild.Proofs.Settings.Grammar.Condition

/-!
The grammar of conditions as one of trees: which conditions stand on which tier, and the tokens a
condition is written with. The reader of conditions takes exactly the tokens of a condition of the
grammar, and these tell what condition it is.
-/

namespace IncrementalBuild.Settings

/-- The tokens a condition is written with. -/
def Condition.tokens : Condition → List Token
  | .literal (.reference name) => [.word name]
  | .literal (.quoted s) => [.quoted s]
  | .not c => .notOp :: c.tokens
  | .and l r => l.tokens ++ .andOp :: r.tokens
  | .or l r => l.tokens ++ .orOp :: r.tokens
  | .compare op l r => l.tokens ++ .comparison op :: r.tokens
  | .paren c => .openParen :: (c.tokens ++ [.closeParen])

/-- The conditions of each tier. A chain is joined on its left, a comparison has unaries on both of
its sides, and what binds looser than a unary stands in parentheses below one. -/
inductive Condition.Within : Tier → Condition → Prop where
  | reference (name : String) : Within .unary (.literal (.reference name))
  | quoted {s : String} : isUnterminated s = false → Within .unary (.literal (.quoted s))
  | not {c : Condition} : Within .unary c → Within .unary (.not c)
  | paren {c : Condition} : Within .chain c → Within .unary (.paren c)
  | ofUnary {c : Condition} : Within .unary c → Within .comparison c
  | compare (op : Comparison) {l r : Condition} :
      Within .unary l → Within .unary r → Within .comparison (.compare op l r)
  | ofComparison {c : Condition} : Within .comparison c → Within .chain c
  | and {l r : Condition} : Within .chain l → Within .comparison r → Within .chain (.and l r)
  | or {l r : Condition} : Within .chain l → Within .comparison r → Within .chain (.or l r)

/-- The tokens of a condition stand at the front of `ts`, wherever in the text each was found, and
`rest` is behind them. -/
def Condition.Written (c : Condition) (ts rest : List Placed) : Prop :=
  ∃ us, ts = us ++ rest ∧ us.map Placed.token = c.tokens

namespace Condition

variable {tier : Tier} {c l r : Condition} {ts us rest : List Placed}

/-- Two conditions with one token between them are written one after the other. -/
theorem exists_written_of_append {t : Token} {d : Condition}
    (htokens : d.tokens = l.tokens ++ t :: r.tokens) (h : d.Written ts rest) :
    ∃ place us, l.Written ts (⟨t, place⟩ :: us) ∧ r.Written us rest := by
  obtain ⟨vs, rfl, hvs⟩ := h
  rw [htokens] at hvs
  obtain ⟨before, after, rfl, hbefore, hafter⟩ := List.map_eq_append_iff.1 hvs
  obtain ⟨⟨token, place⟩, behind, rfl, rfl, hbehind⟩ := List.map_eq_cons_iff.1 hafter
  exact ⟨place, behind ++ rest, ⟨before, by simp, hbefore⟩, behind, rfl, hbehind⟩

theorem written_of_append {t : Token} {place : Place} {d : Condition}
    (htokens : d.tokens = l.tokens ++ t :: r.tokens) (hl : l.Written ts (⟨t, place⟩ :: us))
    (hr : r.Written us rest) : d.Written ts rest := by
  obtain ⟨before, rfl, hbefore⟩ := hl
  obtain ⟨behind, rfl, hbehind⟩ := hr
  exact ⟨before ++ ⟨t, place⟩ :: behind, by simp, by simp [hbefore, hbehind, htokens]⟩

theorem Spelled.within (h : c.Spelled tier ts rest) : c.Within tier := by
  induction h with
  | word name => exact .reference name
  | quoted _ _ hs => exact .quoted hs
  | not _ _ ih => exact .not ih
  | paren _ _ _ ih => exact .paren ih
  | ofUnary _ ih => exact .ofUnary ih
  | compare _ _ _ ihl ihr => exact .compare _ ihl ihr
  | ofComparison _ ih => exact .ofComparison ih
  | and _ _ _ ihl ihr => exact .and ihl ihr
  | or _ _ _ ihl ihr => exact .or ihl ihr

theorem Spelled.written (h : c.Spelled tier ts rest) : c.Written ts rest := by
  induction h with
  | word name place rest => exact ⟨[⟨.word name, place⟩], rfl, rfl⟩
  | @quoted s place rest => exact ⟨[⟨.quoted s, place⟩], rfl, rfl⟩
  | not place _ ih =>
    obtain ⟨us, rfl, hus⟩ := ih
    exact ⟨⟨.notOp, place⟩ :: us, rfl, by simp [tokens, hus]⟩
  | paren opening closing _ ih =>
    obtain ⟨us, rfl, hus⟩ := ih
    exact ⟨⟨.openParen, opening⟩ :: (us ++ [⟨.closeParen, closing⟩]), by simp,
      by simp [tokens, hus]⟩
  | ofUnary _ ih => exact ih
  | compare _ _ _ ihl ihr => exact written_of_append rfl ihl ihr
  | ofComparison _ ih => exact ih
  | and _ _ _ ihl ihr => exact written_of_append rfl ihl ihr
  | or _ _ _ ihl ihr => exact written_of_append rfl ihl ihr

theorem Within.spelled (h : c.Within tier) (hc : c.Written ts rest) : c.Spelled tier ts rest := by
  induction h generalizing ts rest with
  | reference name =>
    obtain ⟨us, rfl, hus⟩ := hc
    obtain ⟨⟨token, place⟩, _, rfl, rfl, hnil⟩ := List.map_eq_cons_iff.1 hus
    obtain rfl := List.map_eq_nil_iff.1 hnil
    exact .word name place rest
  | quoted hs =>
    obtain ⟨us, rfl, hus⟩ := hc
    obtain ⟨⟨token, place⟩, _, rfl, rfl, hnil⟩ := List.map_eq_cons_iff.1 hus
    obtain rfl := List.map_eq_nil_iff.1 hnil
    exact .quoted place rest hs
  | not _ ih =>
    obtain ⟨us, rfl, hus⟩ := hc
    obtain ⟨⟨token, place⟩, vs, rfl, rfl, hvs⟩ := List.map_eq_cons_iff.1 hus
    exact .not place (ih ⟨vs, rfl, hvs⟩)
  | paren _ ih =>
    obtain ⟨us, rfl, hus⟩ := hc
    obtain ⟨⟨token, opening⟩, vs, rfl, rfl, hvs⟩ := List.map_eq_cons_iff.1 hus
    obtain ⟨inner, last, rfl, hinner, hlast⟩ := List.map_eq_append_iff.1 hvs
    obtain ⟨⟨token, closing⟩, _, rfl, rfl, hnil⟩ := List.map_eq_cons_iff.1 hlast
    obtain rfl := List.map_eq_nil_iff.1 hnil
    exact .paren opening closing (ih ⟨inner, by simp, hinner⟩)
  | ofUnary _ ih => exact .ofUnary (ih hc)
  | compare op _ _ ihl ihr =>
    obtain ⟨place, us, hl, hr⟩ := exists_written_of_append rfl hc
    exact .compare place (ihl hl) (ihr hr)
  | ofComparison _ ih => exact .ofComparison (ih hc)
  | and _ _ ihl ihr =>
    obtain ⟨place, us, hl, hr⟩ := exists_written_of_append rfl hc
    exact .and place (ihl hl) (ihr hr)
  | or _ _ ihl ihr =>
    obtain ⟨place, us, hl, hr⟩ := exists_written_of_append rfl hc
    exact .or place (ihl hl) (ihr hr)

/-- The phrases of the grammar are the conditions of a tier with their tokens. -/
theorem spelled_iff : c.Spelled tier ts rest ↔ c.Within tier ∧ c.Written ts rest := by
  constructor
  · exact fun h => ⟨h.within, h.written⟩
  · rintro ⟨hwithin, hwritten⟩
    exact hwithin.spelled hwritten

end Condition

theorem ends_iff {rest : List Placed} :
    Ends rest ↔ ∀ t ∈ rest.head?,
      t.token ≠ .andOp ∧ t.token ≠ .orOp ∧ ∀ op, t.token ≠ .comparison op := by
  cases rest with
  | nil => simp [Ends, comparisonAt?, connectiveAt?]
  | cons t ts =>
    obtain ⟨token, place⟩ := t
    cases token <;> simp [Ends, comparisonAt?, connectiveAt?]

/-- The reader of conditions accepts exactly its grammar: it yields a condition and leaves `rest`
if and only if the condition is one of the grammar, its tokens are what stands before `rest`, and
no operator stands behind them that would go on with it. -/
theorem readCondition_iff_tokens (finish : Place) (c : Condition) (ts rest : List Placed) :
    (∃ h, readCondition finish ts = .ok (c, ⟨rest, h⟩)) ↔
      c.Within .chain ∧ (∃ us, ts = us ++ rest ∧ us.map Placed.token = c.tokens) ∧
        ∀ t ∈ rest.head?, t.token ≠ .andOp ∧ t.token ≠ .orOp ∧ ∀ op, t.token ≠ .comparison op := by
  change Yields (readCondition finish ts) c rest ↔ c.Within .chain ∧ c.Written ts rest ∧ _
  rw [yields_readCondition_iff_spelled, Condition.spelled_iff, ends_iff, and_assoc]

end IncrementalBuild.Settings
