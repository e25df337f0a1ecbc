import IncrementalBuild.Proofs.Settings.Grammar.Spelling
import IncrementalBuild.Proofs.Text.Blank
import Mathlib.Tactic.Common

/-!
Tokens rendered as a text, with a space between them. A list of tokens that a description file can
hold is read back from its rendering: every value stands behind an equals sign, and what is written
without quotes holds nothing that would end it.
-/

namespace IncrementalBuild.Settings

/-- The mode after some tokens. -/
def Mode.afterTokens (m : Mode) (ts : List Token) : Mode :=
  ts.foldl (fun m t => m.after (some t)) m

namespace Mode

variable {m : Mode} {t : Token} {ts us : List Token}

@[simp] theorem afterTokens_nil : m.afterTokens [] = m := rfl

@[simp] theorem afterTokens_cons :
    m.afterTokens (t :: ts) = (m.after (some t)).afterTokens ts := rfl

@[simp] theorem afterTokens_append : m.afterTokens (ts ++ us) = (m.afterTokens ts).afterTokens us :=
  List.foldl_append

/-- A value is expected behind an equals sign, and nowhere else. -/
theorem expectsValue_after_iff : (m.after (some t)).expectsValue = true ↔ t = .assign := by
  cases t <;> simp [after]

end Mode

/-- How a character is written between quotes. -/
def escape : Char → List Char
  | '\\' => ['\\', '\\']
  | '"' => ['\\', '"']
  | '\n' => ['\\', 'n']
  | '\t' => ['\\', 't']
  | c => [c]

/-- A token as it is written in a text of tokens: a string with its escapes, and a value with the
end of its line. -/
def Token.written : Token → String
  | .quoted s => "\"" ++ String.ofList (s.toList.flatMap escape) ++ "\""
  | .value s => s ++ "\n"
  | t => t.text

/-- Tokens as a text, separated by spaces. -/
def render (ts : List Token) : String :=
  " ".intercalate (ts.map Token.written)

theorem quotes_escape (s : List Char) : Quotes s (s.flatMap escape) := by
  induction s with
  | nil => exact .nil
  | cons c s ih =>
    rw [List.flatMap_cons, escape.eq_def]
    split
    next => exact .escape '\\' ih
    next => exact .escape '"' ih
    next => exact .escape 'n' ih
    next => exact .escape 't' ih
    next hbackslash hquote hline _ => exact .plain hquote hbackslash hline ih

/-- Some brace that was opened among these tokens has not been closed. -/
def LeavesOpen (ts : List Token) : Prop :=
  ∃ outer inner, ts = outer ++ .openBrace :: inner ∧
    ∀ part, part <+: inner → part.count .closeBrace ≤ part.count .openBrace

/-- Tokens that a description file can hold. -/
structure Readable (ts : List Token) : Prop where
  /-- A value follows every equals sign, quoted or not. -/
  value_of_assign : ∀ before behind, ts = before ++ .assign :: behind →
    ∃ s, behind.head? = some (.quoted s) ∨ behind.head? = some (.value s)
  /-- Unquoted values stand nowhere else. -/
  assign_of_value : ∀ before behind s, ts = before ++ .value s :: behind →
    before.getLast? = some .assign
  word : ∀ s, .word s ∈ ts → IsWord s.toList ∧ s ∉ ["if", "else", "and", "or", "not"]
  group : ∀ name, .group name ∈ ts →
    Text.trimmed name = name ∧ ']' ∉ name.toList ∧ '\n' ∉ name.toList
  value : ∀ s, .value s ∈ ts →
    Text.trimmed s = s ∧ s.toList.head? ≠ some '"' ∧ '\n' ∉ s.toList
  /-- In a block, a closing brace would end a value. -/
  value_of_open : ∀ before behind s, ts = before ++ .value s :: behind → LeavesOpen before →
    '}' ∉ s.toList

/-- A token that can be read in a mode, and is read from its own text. -/
def Token.FitsIn (m : Mode) : Token → Prop
  | .word s => m.expectsValue = false ∧ IsWord s.toList ∧ s ∉ ["if", "else", "and", "or", "not"]
  | .group name =>
    m.expectsValue = false ∧ Text.trimmed name = name ∧ ']' ∉ name.toList ∧ '\n' ∉ name.toList
  | .quoted _ => True
  | .value s => m.expectsValue = true ∧
    (Text.trimmed s = s ∧ s.toList.head? ≠ some '"' ∧ '\n' ∉ s.toList) ∧
      (0 < m.depth → '}' ∉ s.toList)
  | _ => m.expectsValue = false

/-- Every one of some tokens fits in the mode that the ones before it lead to. -/
def Fitting : Mode → List Token → Prop
  | _, [] => True
  | m, t :: ts => t.FitsIn m ∧ Fitting (m.after (some t)) ts

instance (m : Mode) : (t : Token) → Decidable (t.FitsIn m)
  | .word _ | .group _ | .value _ => inferInstanceAs (Decidable (_ ∧ _))
  | .quoted _ => inferInstanceAs (Decidable True)
  | .ifWord | .elseWord | .andOp | .orOp | .notOp | .assign | .comparison _ | .openParen
  | .closeParen | .openBrace | .closeBrace => inferInstanceAs (Decidable (_ = false))

instance : (m : Mode) → (ts : List Token) → Decidable (Fitting m ts)
  | _, [] => inferInstanceAs (Decidable True)
  | m, t :: ts =>
    have := instDecidableFitting (m.after (some t)) ts
    inferInstanceAs (Decidable (_ ∧ _))

section Fitting

variable {m : Mode} {t : Token} {ts us before behind : List Token} {s : String}

theorem leavesOpen_cons_iff : LeavesOpen (t :: ts) ↔ LeavesOpen ts ∨
    t = .openBrace ∧ ∀ part, part <+: ts → part.count .closeBrace ≤ part.count .openBrace := by
  constructor
  · rintro ⟨outer, inner, heq, hinner⟩
    rcases List.cons_eq_append_iff.1 heq with ⟨rfl, hinnerEq⟩ | ⟨outer, rfl, rfl⟩
    · cases hinnerEq
      exact .inr ⟨rfl, hinner⟩
    · exact .inl ⟨outer, inner, rfl, hinner⟩
  · rintro (⟨outer, inner, rfl, hinner⟩ | ⟨rfl, hinner⟩)
    · exact ⟨t :: outer, inner, rfl, hinner⟩
    · exact ⟨[], ts, rfl, hinner⟩

/-- Blocks are open behind some tokens if one of them was left open, or one of the blocks before
them was not closed. -/
theorem depth_afterTokens_pos_iff : 0 < (m.afterTokens ts).depth ↔ LeavesOpen ts ∨
    ∀ part, part <+: ts → part.count .closeBrace < m.depth + part.count .openBrace := by
  induction ts generalizing m with
  | nil => simp [LeavesOpen]
  | cons t ts ih =>
    rw [Mode.afterTokens_cons, ih, leavesOpen_cons_iff]
    have hparts (P : List Token → Prop) :
        (∀ part, part <+: t :: ts → P part) ↔ P [] ∧ ∀ part, part <+: ts → P (t :: part) := by
      constructor
      · exact fun h => ⟨h [] List.nil_prefix, fun part hpart => h _ (by simpa using hpart)⟩
      · rintro ⟨hnil, hcons⟩ part hpart
        rcases List.prefix_cons_iff.1 hpart with rfl | ⟨inner, rfl, hinner⟩
        · exact hnil
        · exact hcons inner hinner
    rw [hparts]
    cases t with
    | openBrace =>
      simp only [Mode.after, List.count_cons_of_ne, List.count_cons_self, List.count_nil, ne_eq,
        reduceCtorEq, not_false_eq_true, true_and, Nat.add_zero]
      constructor
      · rintro (hopen | hmore)
        · exact .inl (.inl hopen)
        · rcases Nat.eq_zero_or_pos m.depth with hzero | hpos
          · exact .inl (.inr fun part hpart => by have := hmore part hpart; omega)
          · exact .inr ⟨hpos, fun part hpart => by have := hmore part hpart; omega⟩
      · rintro ((hopen | hinner) | ⟨-, hmore⟩)
        · exact .inl hopen
        · exact .inr fun part hpart => by have := hinner part hpart; omega
        · exact .inr fun part hpart => by have := hmore part hpart; omega
    | closeBrace =>
      simp only [Mode.after, List.count_cons_of_ne, List.count_cons_self, List.count_nil, ne_eq,
        reduceCtorEq, not_false_eq_true, false_and, or_false, Nat.add_zero]
      refine or_congr_right ?_
      constructor
      · intro hmore
        have hpos : 0 < m.depth - 1 := by simpa using hmore [] List.nil_prefix
        exact ⟨by omega, fun part hpart => by have := hmore part hpart; omega⟩
      · rintro ⟨-, hmore⟩ part hpart
        have := hmore part hpart
        omega
    | _ =>
      simp only [Mode.after, List.count_cons_of_ne, List.count_nil, ne_eq, reduceCtorEq,
        not_false_eq_true, false_and, or_false, Nat.add_zero]
      exact or_congr_right
        ⟨fun hmore => ⟨by simpa using hmore [] List.nil_prefix, hmore⟩, And.right⟩

/-- Counting braces finds out whether a block is open. -/
theorem depth_afterTokens_start_pos_iff :
    0 < (Mode.start.afterTokens ts).depth ↔ LeavesOpen ts := by
  rw [depth_afterTokens_pos_iff, or_iff_left]
  intro hmore
  simpa [Mode.start] using hmore [] List.nil_prefix

theorem expectsValue_afterTokens_iff :
    (m.afterTokens ts).expectsValue = true ↔
      ts.getLast? = some .assign ∨ ts = [] ∧ m.expectsValue = true := by
  rcases List.eq_nil_or_concat ts with rfl | ⟨us, t, rfl⟩
  · simp
  · simp [Mode.expectsValue_after_iff]

theorem fitting_append_iff :
    Fitting m (ts ++ us) ↔ Fitting m ts ∧ Fitting (m.afterTokens ts) us := by
  induction ts generalizing m with
  | nil => simp [Fitting]
  | cons t ts ih => simp [Fitting, ih, and_assoc]

theorem Readable.fitting (h : Readable (before ++ behind)) :
    Fitting (Mode.start.afterTokens before) behind := by
  induction behind generalizing before with
  | nil => trivial
  | cons t behind ih =>
    have hmode (hquoted : ∀ s, t ≠ .quoted s) (hvalue : ∀ s, t ≠ .value s) :
        (Mode.start.afterTokens before).expectsValue = false := by
      rw [Bool.eq_false_iff, ne_eq, expectsValue_afterTokens_iff]
      rintro (hlast | ⟨-, hstart⟩)
      · obtain ⟨init, rfl⟩ := List.getLast?_eq_some_iff.1 hlast
        obtain ⟨s, hs⟩ := h.value_of_assign init (t :: behind) (by simp)
        simp [hquoted, hvalue] at hs
      · cases hstart
    refine ⟨?_, ?_⟩
    · cases t with
      | word s => exact ⟨hmode (by simp) (by simp), h.word s (by simp)⟩
      | group name => exact ⟨hmode (by simp) (by simp), h.group name (by simp)⟩
      | quoted s => trivial
      | value s =>
        exact ⟨expectsValue_afterTokens_iff.2 (.inl (h.assign_of_value before behind s rfl)),
          h.value s (by simp), fun hdepth =>
            h.value_of_open before behind s rfl (depth_afterTokens_start_pos_iff.1 hdepth)⟩
      | _ => exact hmode (by simp) (by simp)
    · have hnext := @ih (before ++ [t]) (by simpa using h)
      simpa using hnext

/-- A list of tokens can be held by a description file if every token fits in the mode that the ones
before it lead to, and a value follows the last equals sign. -/
theorem readable_iff_fitting :
    Readable ts ↔ Fitting .start ts ∧ ts.getLast? ≠ some .assign := by
  constructor
  · intro h
    refine ⟨@Readable.fitting [] ts h, fun hlast => ?_⟩
    obtain ⟨init, rfl⟩ := List.getLast?_eq_some_iff.1 hlast
    obtain ⟨s, hs⟩ := h.value_of_assign init [] rfl
    simp at hs
  · rintro ⟨hfitting, hlast⟩
    have hat : ∀ {before behind t}, ts = before ++ t :: behind →
        t.FitsIn (Mode.start.afterTokens before) ∧
          Fitting ((Mode.start.afterTokens before).after (some t)) behind := by
      rintro before behind t rfl
      exact (fitting_append_iff.1 hfitting).2
    refine ⟨?_, ?_, ?_, ?_, ?_, ?_⟩
    · intro before behind hts
      cases behind with
      | nil => exact absurd (by simp [hts]) hlast
      | cons t behind =>
        obtain ⟨hfits, -⟩ := (hat hts).2
        cases t with
        | quoted s | value s => exact ⟨s, by simp⟩
        | _ => simp [Token.FitsIn, Mode.after] at hfits
    · intro before behind s hts
      rcases expectsValue_afterTokens_iff.1 (hat hts).1.1 with hassign | ⟨-, hstart⟩
      · exact hassign
      · cases hstart
    · intro s hs
      obtain ⟨before, behind, hts⟩ := List.append_of_mem hs
      exact (hat hts).1.2
    · intro name hname
      obtain ⟨before, behind, hts⟩ := List.append_of_mem hname
      exact (hat hts).1.2
    · intro s hs
      obtain ⟨before, behind, hts⟩ := List.append_of_mem hs
      exact (hat hts).1.2.1
    · intro before behind s hts hopen
      exact (hat hts).1.2.2 (depth_afterTokens_start_pos_iff.2 hopen)

end Fitting

section Lexed

variable {m : Mode} {rest : List Char} {t : Token} {ts : List Token}

theorem ofWord_eq_word {s : String} (h : s ∉ ["if", "else", "and", "or", "not"]) :
    Token.ofWord s = .word s := by
  simp only [List.mem_cons, List.not_mem_nil, or_false, not_or] at h
  simp [Token.ofWord, h]

/-- A token is read from what it is written as, up to a space or the end. -/
theorem Token.FitsIn.lexed (h : t.FitsIn m) (rest : List Char)
    (hrest : ∀ c ∈ rest.head?, c = ' ') :
    Lexed m (t.written.toList ++ rest) [t] (m.after (some t)) rest := by
  have hdetached : Detached rest := by
    cases rest with
    | nil => simp [Detached, Stops]
    | cons c rest =>
      obtain rfl := hrest c rfl
      exact ⟨by simp; decide, by simp⟩
  have hword {s : String} (hs : IsWord s.toList) (hm : m.expectsValue = false) :
      Lexed m (s.toList ++ rest) [.ofWord s] (m.after (some (.ofWord s))) rest :=
    lexed_word hm hs hdetached.1
  cases t with
  | word s =>
    obtain ⟨hm, hs, hkeyword⟩ := h
    have hlexed := hword hs hm
    rwa [ofWord_eq_word hkeyword] at hlexed
  | group name =>
    obtain ⟨hm, htrimmed, hclose, hline⟩ := h
    have hspelled := Token.SpelledBy.group hclose hline
    rw [show String.ofList (Text.trim name.toList) = name from htrimmed] at hspelled
    simpa [Token.written, Token.text] using hspelled.lexed hm (by simp) hdetached
  | quoted s =>
    simpa [Token.written] using lexed_quotes (quotes_escape s.toList) m rest
  | value s =>
    obtain ⟨hm, ⟨htrimmed, hquote, hline⟩, hbrace⟩ := h
    have htrim : Text.trim s.toList = s.toList := by
      simpa [Text.trimmed] using congrArg String.toList htrimmed
    obtain ⟨c, cs, hsplit⟩ : ∃ c cs, c :: cs = s.toList ++ '\n' :: rest := by
      cases s.toList <;> simp
    have hc : c ≠ ' ' ∧ c ≠ '\t' ∧ c ≠ '"' := by
      rcases List.cons_eq_append_iff.1 hsplit with ⟨-, hnext⟩ | ⟨cs, hs, -⟩
      · cases hnext
        decide
      · have hblank : Text.isBlank c = false := by
          apply Text.isBlank_of_head?_trim s.toList
          rw [htrim, hs]
          rfl
        refine ⟨?_, ?_, fun heq => hquote (by rw [hs, heq]; rfl)⟩
        all_goals
          rintro rfl
          cases hblank
    have hown : ∀ d ∈ s.toList, m.inValue d = true := by
      intro d hd
      have hfeed : d ≠ '\n' := fun heq => hline (heq ▸ hd)
      have hclose : m.depth = 0 ∨ d ≠ '}' :=
        (Nat.eq_zero_or_pos m.depth).imp_right fun hdepth heq => hbrace hdepth (heq ▸ hd)
      simpa [Mode.inValue, hfeed] using hclose
    have hvalue := lexed_value hm hsplit hown (by simp [Mode.inValue]) hc
    have hfeed : Lexed (m.after (some (.value s))) ('\n' :: rest) [] _ rest := .gap rfl
    rw [htrim, String.ofList_toList, hsplit] at hvalue
    simpa [Token.written] using hvalue.trans hfeed
  | ifWord => exact hword (s := "if") (by decide) h
  | elseWord => exact hword (s := "else") (by decide) h
  | andOp => exact hword (s := "and") (by decide) h
  | orOp => exact hword (s := "or") (by decide) h
  | notOp => exact hword (s := "not") (by decide) h
  | assign => exact Token.SpelledBy.assign.lexed h (by simp) hdetached
  | comparison op => exact (Token.SpelledBy.comparison op).lexed h (by simp) hdetached
  | openParen => exact Token.SpelledBy.openParen.lexed h (by simp) hdetached
  | closeParen => exact Token.SpelledBy.closeParen.lexed h (by simp) hdetached
  | openBrace => exact Token.SpelledBy.openBrace.lexed h (by simp) hdetached
  | closeBrace => exact Token.SpelledBy.closeBrace.lexed h (by simp) hdetached

theorem lexed_render (h : Fitting m ts) :
    Lexed m (render ts).toList ts (m.afterTokens ts) [] := by
  induction ts generalizing m with
  | nil => exact .done m []
  | cons t ts ih =>
    obtain ⟨hfits, hmore⟩ := h
    cases ts with
    | nil =>
      have hlast := hfits.lexed [] (by simp)
      simpa [render] using hlast
    | cons u us =>
      have hfirst := hfits.lexed (' ' :: (render (u :: us)).toList) (by simp)
      have hlexed := hfirst.trans ((lexed_space _ _).trans (ih hmore))
      have htext : (render (t :: u :: us)).toList =
          t.written.toList ++ ' ' :: (render (u :: us)).toList := by
        simp [render, String.intercalate_cons_cons]
      rw [htext]
      exact hlexed

end Lexed

/-- Tokens that a description file can hold are read back from their rendering. -/
theorem tokens?_render {ts : List Token} (h : Readable ts) (file : Path) :
    (tokens? file (render ts)).map (·.map Placed.token) = .ok ts := by
  obtain ⟨placed, hplaced, hmap⟩ :=
    tokensFrom_iff_lexed.2 ⟨_, lexed_render (readable_iff_fitting.1 h).1⟩
  rw [tokens?, hplaced, ← hmap]
  rfl

/-- Tokens of every kind: a value with braces outside all blocks, one with comment marks and an
empty one inside, strings with escapes, and operators that are the start of others. -/
def assortedTokens : List Token :=
  [.closeBrace, .group "a // b", .word "Out", .assign, .value "$(X)\x7d \x7b # no comment",
    .ifWord, .openParen, .notOp, .quoted "say \"\\\"\n\t", .comparison .less, .word "if.x",
    .andOp, .word "B", .comparison .greaterEqual, .comparison .equal, .orOp, .closeParen,
    .openBrace, .word "Y", .assign, .value "", .word "Z", .assign, .value "// = \"v\" [",
    .closeBrace, .elseWord, .openBrace, .word "W", .assign, .quoted "", .closeBrace,
    .word "V", .assign, .value "\x7d"]

theorem assortedTokens_readable : Readable assortedTokens :=
  readable_iff_fitting.2 (by decide +kernel)

theorem assortedTokens_read_back :
    Readable assortedTokens ∧
      (tokens? ⟨"app"⟩ (render assortedTokens)).map (·.map Placed.token) = .ok assortedTokens :=
  ⟨assortedTokens_readable, tokens?_render assortedTokens_readable ⟨"app"⟩⟩

end IncrementalBuild.Settings
