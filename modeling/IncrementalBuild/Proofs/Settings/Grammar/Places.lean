import IncrementalBuild.Proofs.Settings.Grammar.Offsets
import IncrementalBuild.Proofs.Settings.Grammar.Program
import Mathlib

/-!
Where the tokens of a description file and the errors of reading it are found. The readers of
conditions and programs go forward through their tokens, and what they refuse is one of these, or
the end; so every error has the place of an offset of the text.
-/

namespace IncrementalBuild.Settings

/-- Where in a file an error was found. -/
def Error.place? : Error → Option Place
  | .unexpectedCharacter place _ | .unterminatedString place | .unterminatedGroup place
  | .unexpectedToken place _ | .unexpectedEnd place | .nestedGroup place
  | .chainedComparison place | .unterminatedReference place _ => some place
  | .unreadable .. | .unterminatedSetting .. => none

/-- An error that was found in a file is shown with its place. -/
theorem Error.place_prefix_message {e : Error} {place : Place} (h : e.place? = some place) :
    place.text.toList ++ [':', ' '] <+: e.message.toList := by
  unfold message
  cases e <;> cases h <;> simp

/-- A reader goes forward through some tokens: what it leaves was behind what it took, and an error
is at one of them, or where they are said to end. -/
def Forward {α : Type} {P : List Placed → Prop} (finish : Place) (ts : List Placed)
    (r : Except Error (α × { rest : List Placed // P rest })) : Prop :=
  (∀ a rest, r = .ok (a, rest) → rest.1 <:+ ts) ∧
    ∀ e, r = .error e → ∃ place, e.place? = some place ∧
      (place = finish ∨ place ∈ ts.map Placed.place)

section Forward

variable {α β : Type} {P Q : List Placed → Prop} {finish : Place} {ts us : List Placed}

theorem Forward.mono {r : Except Error (α × { rest : List Placed // P rest })}
    (h : Forward finish us r) (hsuffix : us <:+ ts) : Forward finish ts r := by
  refine ⟨fun a rest hr => (h.1 a rest hr).trans hsuffix, fun e hr => ?_⟩
  obtain ⟨place, hplace, hat⟩ := h.2 e hr
  exact ⟨place, hplace, hat.imp_right fun hmem => (hsuffix.map Placed.place).subset hmem⟩

theorem Forward.bind {r : Except Error (α × { rest : List Placed // P rest })}
    {f : α × { rest : List Placed // P rest } → Except Error (β × { rest : List Placed // Q rest })}
    (h : Forward finish ts r) (hf : ∀ a rest, Forward finish rest.1 (f (a, rest))) :
    Forward finish ts (r >>= f) := by
  cases r with
  | error e =>
    constructor
    · rintro a rest ⟨⟩
    · rintro _ ⟨⟩
      exact h.2 e rfl
  | ok x => exact (hf x.1 x.2).mono (h.1 x.1 x.2 rfl)

theorem forward_ok {a : α} {rest : { rest : List Placed // P rest }} (h : rest.1 <:+ ts) :
    Forward finish ts (.ok (a, rest)) := by
  constructor
  · rintro b more ⟨⟩
    exact h
  · rintro e ⟨⟩

theorem forward_error {e : Error} {place : Place} (hplace : e.place? = some place)
    (hat : place = finish ∨ place ∈ ts.map Placed.place) :
    Forward finish ts (.error e : Except Error (α × { rest : List Placed // P rest })) := by
  constructor
  · rintro b more ⟨⟩
  · rintro _ ⟨⟩
    exact ⟨place, hplace, hat⟩

theorem forward_takeToken (finish : Place) (ts : List Placed) :
    Forward finish ts (takeToken finish ts) := by
  cases ts with
  | nil => exact forward_error rfl (.inl rfl)
  | cons t ts => exact forward_ok (List.suffix_cons t ts)

theorem forward_expectToken (finish : Place) (expected : Token) (ts : List Placed) :
    Forward finish ts (expectToken finish expected ts) := by
  cases ts with
  | nil => exact forward_error (e := .unexpectedEnd finish) rfl (.inl rfl)
  | cons t ts =>
    simp only [expectToken, takeToken, bind, Except.bind]
    split
    · exact forward_ok (List.suffix_cons t ts)
    · exact forward_error rfl (.inr (by simp))

mutual

theorem forward_readCondition (finish : Place) (ts : List Placed) :
    Forward finish ts (readCondition finish ts) := by
  rw [readCondition]
  refine (forward_readComparison finish ts).bind fun first rest => ?_
  have hrest := rest.2
  refine (forward_readConnectives finish first rest.1).bind fun c rest₁ => ?_
  exact forward_ok (List.suffix_refl _)
termination_by (ts.length, 4)

theorem forward_readConnectives (finish : Place) (left : Condition) (ts : List Placed) :
    Forward finish ts (readConnectives finish left ts) := by
  rw [readConnectives]
  split
  next => exact forward_ok (List.suffix_refl ts)
  next join us hsome =>
    have hus := length_of_connectiveAt? hsome
    have hsuffix : us <:+ ts := by
      obtain ⟨place, ⟨rfl, -⟩ | ⟨rfl, -⟩⟩ := connectiveAt?_eq_some_iff.1 hsome <;>
        exact List.suffix_cons _ _
    refine Forward.mono ?_ hsuffix
    refine (forward_readComparison finish us).bind fun right rest => ?_
    have hrest := rest.2
    refine (forward_readConnectives finish (join left right) rest.1).bind fun c rest₁ => ?_
    exact forward_ok (List.suffix_refl _)
termination_by (ts.length, 3)

theorem forward_readComparison (finish : Place) (ts : List Placed) :
    Forward finish ts (readComparison finish ts) := by
  rw [readComparison]
  refine (forward_readUnary finish ts).bind fun left rest => ?_
  have hrest := rest.2
  dsimp only
  split
  next => exact forward_ok (List.suffix_refl _)
  next op us hsome =>
    have hus := length_of_comparisonAt? hsome
    have hsuffix : us <:+ rest.1 := by
      obtain ⟨place, heq⟩ := comparisonAt?_eq_some_iff.1 hsome
      exact heq ▸ List.suffix_cons _ us
    refine Forward.mono ?_ hsuffix
    refine (forward_readUnary finish us).bind fun right rest₁ => ?_
    dsimp only
    split
    next op' place vs heq => exact forward_error rfl (.inr (by simp [heq]))
    next => exact forward_ok (List.suffix_refl _)
termination_by (ts.length, 2)

theorem forward_readUnary (finish : Place) (ts : List Placed) :
    Forward finish ts (readUnary finish ts) := by
  rw [readUnary.eq_def]
  split
  next => exact forward_error rfl (.inl rfl)
  next place us =>
    refine Forward.mono ?_ (List.suffix_cons _ us)
    refine (forward_readUnary finish us).bind fun c rest => ?_
    exact forward_ok (List.suffix_refl _)
  next place us =>
    refine Forward.mono ?_ (List.suffix_cons _ us)
    refine (forward_readCondition finish us).bind fun c rest => ?_
    refine (forward_expectToken finish .closeParen rest.1).bind fun _ rest₁ => ?_
    exact forward_ok (List.suffix_refl _)
  next name place us => exact forward_ok (List.suffix_cons _ us)
  next s place us =>
    split
    · exact forward_error rfl (.inr (by simp))
    · exact forward_ok (List.suffix_cons _ us)
  next t us _ _ _ _ => exact forward_error rfl (.inr (by simp))
termination_by (ts.length, 1)

end

theorem forward_readValue (finish : Place) (ts : List Placed) :
    Forward finish ts (readValue finish ts) := by
  refine (forward_expectToken finish .assign ts).bind fun _ rest => ?_
  obtain ⟨ts, hts⟩ := rest
  cases ts with
  | nil => exact forward_error (e := .unexpectedEnd finish) rfl (.inl rfl)
  | cons t us =>
    have hat : t.place = finish ∨ t.place ∈ (t :: us).map Placed.place := .inr (by simp)
    simp only [takeToken, bind, Except.bind]
    split
    · split
      · exact forward_error rfl hat
      · exact forward_ok (List.suffix_cons t us)
    · split
      · exact forward_error rfl hat
      · exact forward_ok (List.suffix_cons t us)
    · exact forward_error rfl hat

theorem forward_readHead (finish : Place) (ts : List Placed) :
    Forward finish ts (readHead finish ts) := by
  refine (forward_expectToken finish .openParen ts).bind fun _ rest => ?_
  refine (forward_readCondition finish rest.1).bind fun c rest₁ => ?_
  refine (forward_expectToken finish .closeParen rest₁.1).bind fun _ rest₂ => ?_
  refine (forward_expectToken finish .openBrace rest₂.1).bind fun _ rest₃ => ?_
  exact forward_ok (List.suffix_refl _)

theorem forward_readBlockEnd (finish : Place) (ts : List Placed) :
    Forward finish ts (readBlockEnd finish ts) := by
  unfold readBlockEnd
  split
  · exact forward_error rfl (.inl rfl)
  · exact forward_ok (List.suffix_cons _ _)
  · exact forward_error rfl (.inr (by simp))
  · exact forward_error rfl (.inr (by simp))

mutual

theorem forward_readBlock (finish : Place) (ts : List Placed) :
    Forward finish ts (readBlock finish ts) := by
  rw [readBlock.eq_def]
  split
  next key place us =>
    refine Forward.mono ?_ (List.suffix_cons _ us)
    refine (forward_readValue finish us).bind fun value rest => ?_
    have hrest := rest.2
    refine (forward_readBlock finish rest.1).bind fun block rest₁ => ?_
    exact forward_ok (List.suffix_refl _)
  next place us =>
    refine Forward.mono ?_ (List.suffix_cons _ us)
    refine (forward_readChoice finish us).bind fun branches rest => ?_
    have hrest := rest.2
    refine (forward_readBlock finish rest.1).bind fun block rest₁ => ?_
    exact forward_ok (List.suffix_refl _)
  next => exact forward_ok (List.suffix_refl _)
termination_by (ts.length, 2)
decreasing_by all_goals grind

theorem forward_readChoice (finish : Place) (ts : List Placed) :
    Forward finish ts (readChoice finish ts) := by
  rw [readChoice]
  refine (forward_readHead finish ts).bind fun c rest => ?_
  have hrest := rest.2
  refine (forward_readBlock finish rest.1).bind fun body rest₁ => ?_
  have hrest₁ := rest₁.2
  refine (forward_readBlockEnd finish rest₁.1).bind fun _ rest₂ => ?_
  have hrest₂ := rest₂.2
  refine (forward_readOtherwise finish rest₂.1).bind fun otherwise rest₃ => ?_
  exact forward_ok (List.suffix_refl _)
termination_by (ts.length, 1)

theorem forward_readOtherwise (finish : Place) (ts : List Placed) :
    Forward finish ts (readOtherwise finish ts) := by
  rw [readOtherwise.eq_def]
  split
  next place ifPlace us =>
    refine Forward.mono ?_ ((List.suffix_cons _ us).trans (List.suffix_cons _ _))
    refine (forward_readChoice finish us).bind fun branches rest => ?_
    exact forward_ok (List.suffix_refl _)
  next place us _ =>
    refine Forward.mono ?_ (List.suffix_cons _ us)
    refine (forward_expectToken finish .openBrace us).bind fun _ rest => ?_
    have hrest := rest.2
    refine (forward_readBlock finish rest.1).bind fun body rest₁ => ?_
    refine (forward_readBlockEnd finish rest₁.1).bind fun _ rest₂ => ?_
    exact forward_ok (List.suffix_refl _)
  next => exact forward_ok (List.suffix_refl _)
termination_by (ts.length, 1)
decreasing_by all_goals grind

end

theorem exists_place_of_readSections {e : Error} (h : readSections finish ts = .error e) :
    ∃ place, e.place? = some place ∧ (place = finish ∨ place ∈ ts.map Placed.place) := by
  fun_induction readSections finish ts with
  | case1 => cases h
  | case2 name place rest ih =>
    rcases bind_eq_error_iff.1 h with hbody | ⟨⟨body, rest₁⟩, hbody, h⟩
    · exact ((forward_readBlock finish rest).mono (List.suffix_cons _ rest)).2 e hbody
    rcases bind_eq_error_iff.1 h with hmore | ⟨sections, -, h⟩
    · obtain ⟨place', hplace, hat⟩ := ih _ hmore
      have hsuffix : rest₁.1 <:+ ⟨.group name, place⟩ :: rest :=
        ((forward_readBlock finish rest).1 body rest₁ hbody).trans (List.suffix_cons _ rest)
      exact ⟨place', hplace, hat.imp_right fun hmem => (hsuffix.map Placed.place).subset hmem⟩
    · cases h
  | case3 t us =>
    cases h
    exact ⟨t.place, rfl, .inr (by simp)⟩

end Forward

/-- Where tokens spell no program, the error is at one of them, or at the start of the file if there
are none. -/
theorem exists_place_of_readProgram {file : Path} {ts : List Placed} {e : Error}
    (h : readProgram file ts = .error e) : ∃ place, e.place? = some place ∧
      (place ∈ ts.map Placed.place ∨ place = ⟨file, .start⟩) := by
  have hend : endPlace file ts ∈ ts.map Placed.place ∨ endPlace file ts = ⟨file, .start⟩ := by
    cases hlast : ts.getLast? with
    | none => exact .inr (by simp [endPlace, hlast])
    | some t =>
      refine .inl (List.mem_map.2 ⟨t, List.mem_of_getLast? hlast, ?_⟩)
      simp [endPlace, hlast]
  have hfound : ∃ place, e.place? = some place ∧
      (place = endPlace file ts ∨ place ∈ ts.map Placed.place) := by
    rcases bind_eq_error_iff.1 h with hleading | ⟨⟨leading, rest⟩, hleading, h⟩
    · exact (forward_readBlock _ ts).2 e hleading
    rcases bind_eq_error_iff.1 h with hsections | ⟨sections, -, h⟩
    · obtain ⟨place, hplace, hat⟩ := exists_place_of_readSections hsections
      have hsuffix := (forward_readBlock _ ts).1 leading rest hleading
      exact ⟨place, hplace, hat.imp_right fun hmem => (hsuffix.map Placed.place).subset hmem⟩
    · cases h
  obtain ⟨place, hplace, rfl | hmem⟩ := hfound
  · exact ⟨_, hplace, hend⟩
  · exact ⟨place, hplace, .inl hmem⟩

/-- The tokens of a text have the places of the offsets their own texts begin at, in their order;
only an empty value shares its offset with the token behind it. An unquoted value begins behind the
blanks at the front of its own text, so its place is that of its first character where there are
none. Every error of reading a text, or a program from its tokens, has the place of an offset. -/
theorem place_eq_ofOffset (file : Path) (source : String) :
    (∀ ts, tokens? file source = .ok ts →
      ∃ found : List Found, found.map Found.placed = ts ∧
        (∀ f ∈ found, f.In file source.toList ∧ ∀ v, f.placed.token = .value v →
          ∃ blanks, (∀ c ∈ blanks, Text.isBlank c = true) ∧
            (∀ c ∈ blanks.head?, c ≠ ' ' ∧ c ≠ '\t') ∧
            blanks ++ v.toList <+: source.toList.drop f.offset ∧
            (v ≠ "" → (v.toList <+: source.toList.drop f.offset ↔ blanks = []))) ∧
        found.Pairwise fun f g =>
          f.offset ≤ g.offset ∧ (f.offset = g.offset → f.placed.token = .value "")) ∧
      ∀ e, (tokens? file source = .error e ∨
          ∃ ts, tokens? file source = .ok ts ∧ readProgram file ts = .error e) →
        ∃ i ≤ source.toList.length, ∃ place : Place, place = ⟨file, .ofOffset source.toList i⟩ ∧
          e.place? = some place ∧ place.text.toList ++ [':', ' '] <+: e.message.toList := by
  have hfound {ts : List Placed} (h : tokens? file source = .ok ts) :=
    @exists_found_of_tokensFrom file .start [] source.toList ts h
  have hplaced {e : Error} {i : Nat} (hi : i ≤ source.toList.length)
      (he : e.place? = some ⟨file, .ofOffset source.toList i⟩) :
      ∃ i ≤ source.toList.length, ∃ place : Place, place = ⟨file, .ofOffset source.toList i⟩ ∧
        e.place? = some place ∧ place.text.toList ++ [':', ' '] <+: e.message.toList :=
    ⟨i, hi, _, rfl, he, e.place_prefix_message he⟩
  constructor
  · intro ts hts
    obtain ⟨found, rfl, hin, hpairwise⟩ := hfound hts
    refine ⟨found, rfl, fun f hf => ⟨(hin f hf).1, fun v => (hin f hf).1.exists_blanks⟩, ?_⟩
    refine hpairwise.imp_of_mem fun {f g} hf hg hseparate => ⟨by omega, fun heq => ?_⟩
    have hown : f.own.length = 0 := by omega
    exact (hin f hf).1.value_of_own (List.length_eq_zero_iff.1 hown)
  · rintro e (hlexical | ⟨ts, hts, hread⟩)
    · obtain ⟨fault, i, rfl, hi⟩ := @exists_fault_of_tokensFrom file .start [] source.toList e hlexical
      exact hplaced (Nat.le_of_lt hi) (by cases fault <;> rfl)
    · obtain ⟨place, hplace, hmem | rfl⟩ := exists_place_of_readProgram hread
      · obtain ⟨found, rfl, hin, -⟩ := hfound hts
        obtain ⟨t, ht, rfl⟩ := List.mem_map.1 hmem
        obtain ⟨f, hf, rfl⟩ := List.mem_map.1 ht
        have hf := (hin f hf).1
        exact hplaced (Nat.le_of_lt hf.offset_lt) (by rw [hplace, hf.place_eq]; rfl)
      · exact hplaced (Nat.zero_le _) hplace

/-- A value with a blank before it that is neither a space nor a tab. -/
def blankValue : String :=
  "X = \u00a0abc\n"

/-- A condition that is not closed. -/
def openCondition : String :=
  "if (A\n"

def openConditionTokens : List Placed :=
  [⟨.ifWord, ⟨⟨"app"⟩, ⟨1, 1⟩⟩⟩, ⟨.openParen, ⟨⟨"app"⟩, ⟨1, 4⟩⟩⟩, ⟨.word "A", ⟨⟨"app"⟩, ⟨1, 5⟩⟩⟩]

theorem blankValue_place :
    (∃ f : Found, f.placed = ⟨.value "abc", ⟨⟨"app"⟩, ⟨1, 5⟩⟩⟩ ∧
      f.In ⟨"app"⟩ blankValue.toList ∧ ¬ "abc".toList <+: blankValue.toList.drop f.offset) ∧
    ∃ i ≤ openCondition.toList.length, .ofOffset openCondition.toList i = (⟨1, 5⟩ : Position) := by
  have htokens : tokens? ⟨"app"⟩ blankValue = .ok [⟨.word "X", ⟨⟨"app"⟩, ⟨1, 1⟩⟩⟩,
      ⟨.assign, ⟨⟨"app"⟩, ⟨1, 3⟩⟩⟩, ⟨.value "abc", ⟨⟨"app"⟩, ⟨1, 5⟩⟩⟩] := by
    cbv
  have hopen : tokens? ⟨"app"⟩ openCondition = .ok openConditionTokens := by cbv
  have hread : readProgram ⟨"app"⟩ openConditionTokens =
      .error (.unexpectedEnd ⟨⟨"app"⟩, ⟨1, 5⟩⟩) := by
    cbv
  obtain ⟨found, hmap, hin, -⟩ := (place_eq_ofOffset ⟨"app"⟩ blankValue).1 _ htokens
  obtain ⟨i, hi, _, rfl, hplace, -⟩ :=
    (place_eq_ofOffset ⟨"app"⟩ openCondition).2 _ (.inr ⟨_, hopen, hread⟩)
  refine ⟨?_, i, hi, ?_⟩
  · obtain ⟨f, hf, hplaced⟩ : ∃ f ∈ found, f.placed = ⟨.value "abc", ⟨⟨"app"⟩, ⟨1, 5⟩⟩⟩ := by
      rw [← List.mem_map, hmap]
      simp
    have hposition : ∀ i < blankValue.toList.length,
        Position.ofOffset blankValue.toList i = ⟨1, 5⟩ → i = 4 := by
      decide
    refine ⟨f, hplaced, (hin f hf).1, ?_⟩
    have hplace := (hin f hf).1.place_eq
    rw [hplaced] at hplace
    have hoffset := hposition f.offset (hin f hf).1.offset_lt (Place.mk.inj hplace).2.symm
    rw [hoffset]
    decide
  · exact (Place.mk.inj (Option.some.inj hplace)).2.symm

end IncrementalBuild.Settings
