import IncrementalBuild.Proofs.Text.Encoding
import IncrementalBuild.Workspace.Pattern

/-!
Which names a part of a pattern describes. A word is described by items of which one may take any
segment of it and every other one takes a letter, and a matcher that backtracks finds just these
words. Names are words of bytes, so a `?` stands for one byte. Read as characters, wildcards that
stand together take characters of as many bytes as there are `?`, or more if a `*` is among them.
-/

namespace IncrementalBuild.Workspace

open Text

/-- The words that can be cut into segments, one for each item in turn: `any` takes any segment, and
every other item takes one letter, which fits it. -/
inductive Cut {β α : Type} (any : β) (fits : β → α → Prop) :
    (items : List β) → (word : List α) → Prop where
  | nil : Cut any fits [] []
  | any {items : List β} {word : List α} (segment : List α) (h : Cut any fits items word) :
      Cut any fits (any :: items) (segment ++ word)
  | one {items : List β} {word : List α} {item : β} {a : α} (hne : item ≠ any)
      (hfits : fits item a) (h : Cut any fits items word) :
      Cut any fits (item :: items) (a :: word)

/-- The words that a pattern describes: `run` stands for any word, `one` for any letter, and every
other letter for itself. -/
def Fills {α : Type} (run one : α) : (pattern word : List α) → Prop :=
  Cut run fun p a => p = one ∨ p = a

/-- So many letters can stand for some wildcards: one for each `one`, and more if there is a `run`.
-/
def Room {α : Type} [DecidableEq α] (run one : α) (wildcards : List α) (letters : Nat) : Prop :=
  wildcards.count one ≤ letters ∧ (run ∉ wildcards → letters = wildcards.count one)

instance {α : Type} [DecidableEq α] (run one : α) (wildcards : List α) (letters : Nat) :
    Decidable (Room run one wildcards letters) :=
  inferInstanceAs (Decidable (_ ∧ _))

section Items

variable {β α : Type} {any item : β} {fits : β → α → Prop} {items : List β} {a : α} {word : List α}

@[simp] theorem cut_nil_iff : Cut any fits [] word ↔ word = [] := by
  refine ⟨fun h => ?_, ?_⟩
  · cases h
    rfl
  · rintro rfl
    exact .nil

theorem cut_any_iff : Cut any fits (any :: items) word ↔
    ∃ segment rest, word = segment ++ rest ∧ Cut any fits items rest := by
  refine ⟨fun h => ?_, ?_⟩
  · cases h with
    | any segment h => exact ⟨segment, _, rfl, h⟩
    | one hne => exact absurd rfl hne
  · rintro ⟨segment, rest, rfl, h⟩
    exact .any segment h

theorem cut_one_iff (hne : item ≠ any) : Cut any fits (item :: items) word ↔
    ∃ a rest, word = a :: rest ∧ fits item a ∧ Cut any fits items rest := by
  refine ⟨fun h => ?_, ?_⟩
  · cases h with
    | any => exact absurd rfl hne
    | one _ hfits h => exact ⟨_, _, rfl, hfits, h⟩
  · rintro ⟨a, rest, rfl, hfits, h⟩
    exact .one hne hfits h

theorem cut_any_nil_iff : Cut any fits (any :: items) [] ↔ Cut any fits items [] := by
  rw [cut_any_iff]
  constructor
  · rintro ⟨segment, rest, hnil, h⟩
    obtain ⟨-, rfl⟩ := List.append_eq_nil_iff.1 hnil.symm
    exact h
  · exact fun h => ⟨[], [], rfl, h⟩

/-- An `any` takes nothing, or the first letter and then more of the rest. -/
theorem cut_any_cons_iff : Cut any fits (any :: items) (a :: word) ↔
    Cut any fits items (a :: word) ∨ Cut any fits (any :: items) word := by
  rw [cut_any_iff, cut_any_iff]
  constructor
  · rintro ⟨segment, rest, heq, h⟩
    cases segment with
    | nil => exact .inl (heq ▸ h)
    | cons b segment =>
      obtain ⟨rfl, rfl⟩ := List.cons.inj heq
      exact .inr ⟨segment, rest, rfl, h⟩
  · rintro (h | ⟨segment, rest, rfl, h⟩)
    · exact ⟨[], _, rfl, h⟩
    · exact ⟨a :: segment, rest, rfl, h⟩

/-- A matcher that tries both what an `any` can do with the next letter finds the words that can be
cut. -/
theorem iff_cut_of_steps (Matches : List β → List α → Prop)
    (hnil : ∀ word, Matches [] word ↔ word = [])
    (hend : ∀ item items, Matches (item :: items) [] ↔ item = any ∧ Matches items [])
    (hany : ∀ items a word, Matches (any :: items) (a :: word) ↔
      Matches items (a :: word) ∨ Matches (any :: items) word)
    (hone : ∀ item items a word, item ≠ any →
      (Matches (item :: items) (a :: word) ↔ fits item a ∧ Matches items word)) :
    Matches items word ↔ Cut any fits items word := by
  induction items generalizing word with
  | nil => rw [hnil, cut_nil_iff]
  | cons item items ih =>
    by_cases hitem : item = any
    · rw [hitem]
      induction word with
      | nil => rw [hend, ih, cut_any_nil_iff, and_iff_right rfl]
      | cons a word ihword => rw [hany, ih, ihword, cut_any_cons_iff]
    · rw [cut_one_iff hitem]
      cases word with
      | nil => simp [hend, hitem]
      | cons a word =>
        rw [hone _ _ _ _ hitem, ih]
        constructor
        · exact fun ⟨hfits, h⟩ => ⟨a, word, rfl, hfits, h⟩
        · rintro ⟨_, _, heq, hfits, h⟩
          obtain ⟨rfl, rfl⟩ := List.cons.inj heq
          exact ⟨hfits, h⟩

end Items

section Alphabet

variable {α : Type} {run one a : α} {pattern word letters wildcards : List α}

@[simp] theorem fills_nil_iff : Fills run one [] word ↔ word = [] :=
  cut_nil_iff

theorem fills_run_iff : Fills run one (run :: pattern) word ↔
    ∃ more rest, word = more ++ rest ∧ Fills run one pattern rest :=
  cut_any_iff

theorem fills_one_iff (hne : run ≠ one) : Fills run one (one :: pattern) word ↔
    ∃ a rest, word = a :: rest ∧ Fills run one pattern rest := by
  simp [Fills, cut_one_iff hne.symm]

theorem fills_letter_iff (hrun : a ≠ run) (hone : a ≠ one) :
    Fills run one (a :: pattern) word ↔ ∃ rest, word = a :: rest ∧ Fills run one pattern rest := by
  rw [Fills, cut_one_iff hrun]
  constructor
  · rintro ⟨b, rest, rfl, hfits, h⟩
    obtain rfl := hfits.resolve_left hone
    exact ⟨rest, rfl, h⟩
  · rintro ⟨rest, rfl, h⟩
    exact ⟨a, rest, rfl, .inr rfl, h⟩

theorem fills_letters_iff (h : ∀ a ∈ letters, a ≠ run ∧ a ≠ one) :
    Fills run one (letters ++ pattern) word ↔
      ∃ rest, word = letters ++ rest ∧ Fills run one pattern rest := by
  induction letters generalizing word with
  | nil => simp
  | cons a letters ih =>
    obtain ⟨hrun, hone⟩ := h a List.mem_cons_self
    rw [List.cons_append, fills_letter_iff hrun hone]
    constructor
    · rintro ⟨rest, rfl, hrest⟩
      obtain ⟨rest, rfl, hfills⟩ := (ih fun b hb => h b (List.mem_cons_of_mem _ hb)).1 hrest
      exact ⟨rest, rfl, hfills⟩
    · rintro ⟨rest, rfl, hfills⟩
      exact ⟨_, rfl, (ih fun b hb => h b (List.mem_cons_of_mem _ hb)).2 ⟨rest, rfl, hfills⟩⟩

section Room

variable [DecidableEq α] {n : Nat}

theorem room_nil_iff : Room run one [] n ↔ n = 0 := by
  simp [Room]

theorem room_run_iff (hne : run ≠ one) :
    Room run one (run :: wildcards) n ↔ wildcards.count one ≤ n := by
  simp [Room, List.count_cons_of_ne hne]

theorem room_one_iff (hne : run ≠ one) :
    Room run one (one :: wildcards) (n + 1) ↔ Room run one wildcards n := by
  simp [Room, hne]

theorem not_room_one : ¬ Room run one (one :: wildcards) 0 := by
  simp [Room]

theorem room_count : Room run one wildcards (wildcards.count one) :=
  ⟨Nat.le_refl _, fun _ => rfl⟩

/-- Wildcards that stand together take letters for which there is room. -/
theorem fills_wildcards_iff (hne : run ≠ one) (h : ∀ a ∈ wildcards, a = run ∨ a = one) :
    Fills run one (wildcards ++ pattern) word ↔
      ∃ more rest, word = more ++ rest ∧ Room run one wildcards more.length ∧
        Fills run one pattern rest := by
  induction wildcards generalizing word with
  | nil =>
    simp only [List.nil_append, room_nil_iff, List.length_eq_zero_iff]
    constructor
    · exact fun hfills => ⟨[], word, rfl, rfl, hfills⟩
    · rintro ⟨_, rest, rfl, rfl, hfills⟩
      exact hfills
  | cons a wildcards ih =>
    have hrest (word : List α) := @ih word fun b hb => h b (List.mem_cons_of_mem _ hb)
    rw [List.cons_append]
    rcases h a List.mem_cons_self with rfl | rfl
    · rw [fills_run_iff]
      constructor
      · rintro ⟨more, _, rfl, hfills⟩
        obtain ⟨taken, rest, rfl, ⟨hroom, -⟩, hfills⟩ := (hrest _).1 hfills
        refine ⟨more ++ taken, rest, by simp, (room_run_iff hne).2 ?_, hfills⟩
        rw [List.length_append]
        omega
      · rintro ⟨more, rest, rfl, hroom, hfills⟩
        rw [room_run_iff hne] at hroom
        -- The run takes what the other wildcards need not take.
        have hlength : (more.drop (more.length - wildcards.count one)).length =
            wildcards.count one := by
          rw [List.length_drop]
          omega
        refine ⟨more.take (more.length - wildcards.count one), _, ?_,
          (hrest _).2 ⟨_, rest, rfl, hlength ▸ room_count, hfills⟩⟩
        rw [← List.append_assoc, List.take_append_drop]
    · rw [fills_one_iff hne]
      constructor
      · rintro ⟨b, _, rfl, hfills⟩
        obtain ⟨taken, rest, rfl, hroom, hfills⟩ := (hrest _).1 hfills
        exact ⟨b :: taken, rest, rfl, (room_one_iff hne).2 hroom, hfills⟩
      · rintro ⟨more, rest, rfl, hroom, hfills⟩
        cases more with
        | nil => exact absurd hroom not_room_one
        | cons b more =>
          exact ⟨b, _, rfl, (hrest _).2 ⟨more, rest, rfl, (room_one_iff hne).1 hroom, hfills⟩⟩

end Room

end Alphabet

theorem anyRun_ne_anyOne : anyRun ≠ anyOne := by
  decide

/-- A name is matched as a word of bytes. -/
theorem nameMatches_iff_fills (part name : List UInt8) :
    nameMatches part name = true ↔ Fills anyRun anyOne part name := by
  refine iff_cut_of_steps (fun part name => nameMatches part name = true) (fun name => ?_)
    (fun p ps => ?_) (fun ps b bs => ?_) fun p ps b bs hrun => ?_
  · cases name <;> simp [nameMatches]
  · by_cases hrun : p = anyRun <;> simp [nameMatches, hrun]
  · rw [nameMatches, if_pos rfl, Bool.or_eq_true]
  · rw [nameMatches, if_neg hrun]
    by_cases hone : p = anyOne <;> simp [hone]

/-- The names that a part of a pattern describes where wildcards stand for bytes: those that stand
together take characters of as many bytes as they have room for, and every other character stands
for itself. -/
inductive Covers : (part name : List Char) → Prop where
  | nil : Covers [] []
  | wildcards {part name : List Char} (wildcards taken : List Char)
      (hall : ∀ c ∈ wildcards, c = '*' ∨ c = '?')
      (hroom : Room '*' '?' wildcards (encode taken).length) (h : Covers part name) :
      Covers (wildcards ++ part) (taken ++ name)
  | letter {part name : List Char} {c : Char} (hrun : c ≠ '*') (hone : c ≠ '?')
      (h : Covers part name) : Covers (c :: part) (c :: name)

variable {c : Char} {part name wildcards : List Char} {back : List UInt8}

theorem encode_star (cs : List Char) : encode ('*' :: cs) = anyRun :: encode cs := rfl

theorem encode_question (cs : List Char) : encode ('?' :: cs) = anyOne :: encode cs := rfl

theorem encode_wildcards (hall : ∀ c ∈ wildcards, c = '*' ∨ c = '?') :
    (∀ b ∈ encode wildcards, b = anyRun ∨ b = anyOne) ∧
      (encode wildcards).count anyOne = wildcards.count '?' ∧
      (anyRun ∈ encode wildcards ↔ '*' ∈ wildcards) := by
  induction wildcards with
  | nil => simp
  | cons c cs ih =>
    obtain ⟨hbytes, hcount, hmem⟩ := ih fun d hd => hall d (List.mem_cons_of_mem _ hd)
    rcases hall c List.mem_cons_self with rfl | rfl
    · rw [encode_star]
      exact ⟨List.forall_mem_cons.2 ⟨.inl rfl, hbytes⟩,
        by rw [List.count_cons_of_ne anyRun_ne_anyOne, List.count_cons_of_ne (by decide), hcount],
        by simp⟩
    · rw [encode_question]
      exact ⟨List.forall_mem_cons.2 ⟨.inr rfl, hbytes⟩,
        by rw [List.count_cons_self, List.count_cons_self, hcount],
        by simp [anyRun_ne_anyOne, hmem]⟩

/-- Wildcards are bytes of their own, with the same room. -/
theorem fills_encode_wildcards_iff (hall : ∀ c ∈ wildcards, c = '*' ∨ c = '?') :
    Fills anyRun anyOne (encode (wildcards ++ part)) back ↔
      ∃ more rest, back = more ++ rest ∧ Room '*' '?' wildcards more.length ∧
        Fills anyRun anyOne (encode part) rest := by
  obtain ⟨hbytes, hcount, hmem⟩ := encode_wildcards hall
  rw [encode_append, fills_wildcards_iff anyRun_ne_anyOne hbytes]
  simp only [Room, hcount, hmem]

/-- A character that is no wildcard stands for its bytes. -/
theorem fills_encode_letter_iff (hrun : c ≠ '*') (hone : c ≠ '?') :
    Fills anyRun anyOne (encode (c :: part)) back ↔
      ∃ rest, back = String.utf8EncodeChar c ++ rest ∧ Fills anyRun anyOne (encode part) rest := by
  refine fills_letters_iff fun b hb => ⟨?_, ?_⟩
  · rintro rfl
    exact hrun (Char.toNat_inj.1 (toNat_eq_of_mem_utf8EncodeChar hb (by decide)))
  · rintro rfl
    exact hone (Char.toNat_inj.1 (toNat_eq_of_mem_utf8EncodeChar hb (by decide)))

theorem Covers.fills (h : Covers part name) :
    Fills anyRun anyOne (encode part) (encode name) := by
  induction h with
  | nil => exact .nil
  | wildcards _ _ hall hroom h ih =>
    exact (fills_encode_wildcards_iff hall).2 ⟨_, _, encode_append, hroom, ih⟩
  | letter hrun hone h ih => exact (fills_encode_letter_iff hrun hone).2 ⟨_, rfl, ih⟩

/-- The bytes that wildcards take end where a character ends, because the one that follows them in
the part stands for itself. -/
theorem covers_of_fills (wildcards : List Char) (hall : ∀ c ∈ wildcards, c = '*' ∨ c = '?')
    (h : Fills anyRun anyOne (encode (wildcards ++ part)) (encode name)) :
    Covers (wildcards ++ part) name := by
  induction part generalizing wildcards name with
  | nil =>
    obtain ⟨more, rest, hname, hroom, hrest⟩ := (fills_encode_wildcards_iff hall).1 h
    obtain rfl : rest = [] := fills_nil_iff.1 hrest
    rw [List.append_nil] at hname
    rw [← List.append_nil name]
    exact .wildcards wildcards name hall (hname ▸ hroom) .nil
  | cons c part ih =>
    by_cases hwildcard : c = '*' ∨ c = '?'
    · rw [List.append_cons] at h ⊢
      refine ih _ (fun d hd => ?_) h
      rcases List.mem_append.1 hd with hd | hd
      · exact hall d hd
      · exact List.mem_singleton.1 hd ▸ hwildcard
    · obtain ⟨hrun, hone⟩ := not_or.1 hwildcard
      obtain ⟨more, rest, hname, hroom, hrest⟩ := (fills_encode_wildcards_iff hall).1 h
      obtain ⟨back, rfl, hback⟩ := (fills_encode_letter_iff hrun hone).1 hrest
      obtain ⟨l, r, rfl, rfl, rfl⟩ := exists_of_encode_eq hname
      exact .wildcards wildcards l hall hroom (.letter hrun hone (ih [] (by simp) hback))

theorem nameMatches_iff_covers (part name : String) :
    nameMatches (utf8 part) (utf8 name) = true ↔ Covers part.toList name.toList := by
  rw [nameMatches_iff_fills]
  exact ⟨covers_of_fills [] (by simp), Covers.fills⟩

theorem room_encode_iff {taken : List Char}
    (h : '?' ∉ wildcards ∨ ∀ c ∈ taken, c.toNat < 128) :
    Room '*' '?' wildcards (encode taken).length ↔ Room '*' '?' wildcards taken.length := by
  rcases h with hnot | hall
  · have hnil : (encode taken).length = 0 ↔ taken.length = 0 := by
      cases taken with
      | nil => simp
      | cons c taken =>
        obtain ⟨b, bs, hc, -⟩ := exists_utf8EncodeChar c
        simp [hc]
    simp only [Room, List.count_eq_zero_of_not_mem hnot, Nat.zero_le, true_and, hnil]
  · rw [length_encode_of_lt hall]

/-- The bytes of a name are as good as its characters where each character is one byte, and where no
wildcard counts them. -/
theorem covers_iff_fills (h : '?' ∉ part ∨ ∀ c ∈ name, c.toNat < 128) :
    Covers part name ↔ Fills '*' '?' part name := by
  constructor
  · intro hcovers
    induction hcovers with
    | nil => exact .nil
    | wildcards _ _ hall hroom hcovers ih =>
      simp only [List.mem_append, not_or, or_imp, forall_and] at h
      exact (fills_wildcards_iff (by decide) hall).2
        ⟨_, _, rfl, (room_encode_iff (h.imp And.left And.left)).1 hroom,
          ih (h.imp And.right And.right)⟩
    | letter hrun hone hcovers ih =>
      simp only [List.mem_cons, not_or, or_imp, forall_and] at h
      exact .one hrun (.inr rfl) (ih (h.imp And.right And.right))
  · intro hfills
    induction hfills with
    | nil => exact .nil
    | any segment hfills ih =>
      simp only [List.mem_cons, List.mem_append, not_or, or_imp, forall_and] at h
      exact .wildcards ['*'] segment (by simp) ((room_run_iff (by decide)).2 (Nat.zero_le _))
        (ih (h.imp And.right And.right))
    | @one part name c a hrun hfits hfills ih =>
      simp only [List.mem_cons, not_or, or_imp, forall_and, forall_eq] at h
      have hrest := ih (h.imp And.right And.right)
      by_cases hone : c = '?'
      · subst hone
        have ha : a.toNat < 128 := (h.resolve_left fun hnot => hnot.1 rfl).1
        exact .wildcards ['?'] [a] (by simp)
          ((room_encode_iff (.inr (by simpa using ha))).2 room_count) hrest
      · obtain rfl := hfits.resolve_left hone
        exact .letter hrun hone hrest

/-- What a part of a pattern describes, read as characters: wildcards that stand together take
characters of as many bytes as there are `?`, and of any more if there is a `*`. So each `?` stands
for one character where all characters of the name are single bytes, and a part without `?`
describes what it says in any case. -/
theorem nameMatches_characters (part name : String) :
    (nameMatches (utf8 part) (utf8 name) = true ↔ Covers part.toList name.toList) ∧
    ('?' ∉ part.toList ∨ (∀ c ∈ name.toList, c.toNat < 128) →
      (nameMatches (utf8 part) (utf8 name) = true ↔ Fills '*' '?' part.toList name.toList)) :=
  ⟨nameMatches_iff_covers part name,
    fun h => (nameMatches_iff_covers part name).trans (covers_iff_fills h)⟩

/-- A character of two bytes is taken by two `?` and not by one. -/
theorem accented_name_counted :
    (Fills '*' '?' "?.c".toList "é.c".toList ∧ nameMatches (utf8 "?.c") (utf8 "é.c") = false) ∧
    (¬ Fills '*' '?' "??.c".toList "é.c".toList ∧
      nameMatches (utf8 "??.c") (utf8 "é.c") = true) ∧
    nameMatches (utf8 "*.c") (utf8 "é.c") = true := by
  have hsuffix : Fills '*' '?' ['.', 'c'] ['.', 'c'] :=
    .one (by decide) (.inr rfl) (.one (by decide) (.inr rfl) .nil)
  have hcovers : Covers ['?', '?', '.', 'c'] ['é', '.', 'c'] :=
    .wildcards ['?', '?'] ['é'] (by simp) (by decide)
      ((covers_iff_fills (.inl (by simp))).2 hsuffix)
  refine ⟨⟨.one (by decide) (.inl rfl) hsuffix, ?_⟩, ⟨fun h => ?_, ?_⟩, ?_⟩
  · decide +kernel
  · change Fills '*' '?' ['?', '?', '.', 'c'] ['é', '.', 'c'] at h
    obtain ⟨_, _, hname, h⟩ := (fills_one_iff (by decide)).1 h
    obtain ⟨-, rfl⟩ := List.cons.inj hname
    simp [fills_one_iff, fills_letter_iff] at h
  · exact (nameMatches_characters "??.c" "é.c").1.2 hcovers
  · have hnone : '?' ∉ "*.c".toList := by decide +kernel
    exact ((nameMatches_characters "*.c" "é.c").2 (.inl hnone)).2 (.any ['é'] hsuffix)

end IncrementalBuild.Workspace
