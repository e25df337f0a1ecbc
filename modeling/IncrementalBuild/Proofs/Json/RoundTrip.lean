import IncrementalBuild.Proofs.Json.Scalar

/-!
Values are read back from their indented texts, as long as they are made of strings, natural
numbers, lists and objects.
-/

namespace IncrementalBuild.Json

namespace Value

/-- Made of strings and natural numbers. -/
inductive Plain : Value → Prop where
  | natural (n : Nat) : Plain (.natural n)
  | string (s : String) : Plain (.string s)
  | array {items : List Value} : (∀ item ∈ items, Plain item) → Plain (.array items)
  | object {fields : List (String × Value)} : (∀ f ∈ fields, Plain f.2) → Plain (.object fields)

attribute [local simp] print

theorem print_natural (n depth : Nat) : (natural n).print depth = Nat.toDigits 10 n := by
  simp

theorem print_array_cons (item : Value) (items : List Value) (depth : Nat) :
    (array (item :: items)).print depth = '[' :: (newLine (depth + 1) ++
      (item.print (depth + 1) ++ (printItems (depth + 1) items ++ (newLine depth ++ [']'])))) := by
  simp

theorem print_object_cons (key : String) (value : Value) (fields : List (String × Value))
    (depth : Nat) : (object ((key, value) :: fields)).print depth =
      '\x7b' :: (newLine (depth + 1) ++ (quote key ++ (':' :: ' ' :: (value.print (depth + 1) ++
        (printFields (depth + 1) fields ++ (newLine depth ++ ['\x7d'])))))) := by
  simp

/-- A plain text starts with a character that is no blank and closes no list. -/
theorem Plain.print_eq_cons {v : Value} (hv : v.Plain) (depth : Nat) :
    ∃ c cs, v.print depth = c :: cs ∧ isGap c = false ∧ c ≠ ']' := by
  cases hv with
  | natural n =>
    rw [print_natural]
    cases hd : Nat.toDigits 10 n with
    | nil => exact absurd hd Nat.toDigits_ne_nil
    | cons c cs =>
      have hdigit : c.isDigit = true :=
        Nat.isDigit_of_mem_toDigits (n := n) (b := 10) (by decide) (by decide) (by simp [hd])
      refine ⟨c, cs, rfl, ?_, ?_⟩
      · unfold isGap
        simp only [Bool.or_eq_false_iff, decide_eq_false_iff_not]
        refine ⟨⟨⟨?_, ?_⟩, ?_⟩, ?_⟩ <;> rintro rfl <;> simp at hdigit
      · rintro rfl
        cases hdigit
  | string s => exact ⟨'"', _, by rw [print, quote, List.cons_append], by decide, by decide⟩
  | @array items hitems =>
    cases items with
    | nil => exact ⟨'[', [']'], by rw [print], by decide, by decide⟩
    | cons item items => exact ⟨'[', _, print_array_cons item items depth, by decide, by decide⟩
  | @object fields hfields =>
    cases fields with
    | nil => exact ⟨'\x7b', ['\x7d'], by rw [print], by decide, by decide⟩
    | cons f fields =>
      exact ⟨'\x7b', _, print_object_cons f.1 f.2 fields depth, by decide, by decide⟩

end Value

theorem skipGap_append {gap : List Char} (hgap : ∀ c ∈ gap, isGap c = true) (cs : List Char) :
    skipGap (gap ++ cs) = skipGap cs :=
  List.dropWhile_append_of_pos hgap

theorem skipGap_newLine (depth : Nat) (cs : List Char) :
    skipGap (newLine depth ++ cs) = skipGap cs := by
  refine skipGap_append ?_ cs
  intro c hc
  rcases List.mem_cons.1 hc with rfl | hc
  · decide
  · rw [List.eq_of_mem_replicate hc]
    decide

theorem skipGap_cons {c : Char} (hc : isGap c = false) (cs : List Char) :
    skipGap (c :: cs) = c :: cs := by
  simp [skipGap, hc]

theorem skipGap_print {v : Value} (hv : v.Plain) (depth : Nat) (cs : List Char) :
    skipGap (v.print depth ++ cs) = v.print depth ++ cs := by
  obtain ⟨c, rest, hprint, hc, -⟩ := hv.print_eq_cons depth
  rw [hprint, List.cons_append, skipGap_cons hc]

/-- Blanks before a value are passed over. -/
theorem readValue_congr {cs cs' : List Char} (h : skipGap cs = skipGap cs') (room : Nat) :
    readValue room cs = readValue room cs' := by
  cases room with
  | zero => rw [readValue, readValue]
  | succ room => rw [readValue, readValue, h]

theorem readItems_congr {cs cs' : List Char} (h : skipGap cs = skipGap cs') (room : Nat) :
    readItems room cs = readItems room cs' := by
  cases room with
  | zero => rw [readItems, readItems]
  | succ room => rw [readItems, readItems, readValue_congr h]

theorem readFields_congr {cs cs' : List Char} (h : skipGap cs = skipGap cs') (room : Nat) :
    readFields room cs = readFields room cs' := by
  cases room with
  | zero => rw [readFields, readFields]
  | succ room => rw [readFields, readFields, h]

/-- A value is read back, given room for its text. -/
def ReadsBack (v : Value) : Prop :=
  ∀ depth room rest, EndsNumber rest → 2 * (v.print depth).length ≤ room →
    readValue room (v.print depth ++ rest) = some (v, rest)

theorem endsNumber_cons {c : Char} (hc : c.isDigit = false ∧ c ≠ '.' ∧ c ≠ 'e' ∧ c ≠ 'E')
    (cs : List Char) : EndsNumber (c :: cs) := by
  rintro _ ⟨⟩
  exact hc

theorem endsNumber_newLine (depth : Nat) (cs : List Char) : EndsNumber (newLine depth ++ cs) :=
  endsNumber_cons (by decide) _

theorem endsNumber_printItems (depth outer : Nat) (items : List Value) (cs : List Char) :
    EndsNumber (Value.printItems depth items ++ (newLine outer ++ cs)) := by
  cases items with
  | nil => exact endsNumber_newLine outer cs
  | cons item items =>
    rw [Value.printItems]
    exact endsNumber_cons (by decide) _

theorem endsNumber_printFields (depth outer : Nat) (fields : List (String × Value))
    (cs : List Char) : EndsNumber (Value.printFields depth fields ++ (newLine outer ++ cs)) := by
  cases fields with
  | nil => exact endsNumber_newLine outer cs
  | cons f fields =>
    obtain ⟨key, value⟩ := f
    rw [Value.printFields]
    exact endsNumber_cons (by decide) _

theorem readItems_print (depth outer : Nat) {item : Value} {items : List Value}
    (hplain : ∀ v ∈ item :: items, v.Plain) (hback : ∀ v ∈ item :: items, ReadsBack v)
    (room : Nat) (rest : List Char)
    (hroom : 2 * (item.print depth ++ Value.printItems depth items).length < room) :
    readItems room (item.print depth ++ (Value.printItems depth items ++
      (newLine outer ++ ']' :: rest))) = some (item :: items, rest) := by
  induction items generalizing item room with
  | nil =>
    cases room with
    | zero => omega
    | succ room =>
      have hitem := hback item List.mem_cons_self depth room (newLine outer ++ ']' :: rest)
        (endsNumber_newLine _ _) (by simp [Value.printItems] at hroom; omega)
      rw [readItems, Value.printItems, List.nil_append, hitem]
      simp only [skipGap_newLine]
      rw [skipGap_cons (by decide)]
      rfl
  | cons next items ih =>
    cases room with
    | zero => omega
    | succ room =>
      have hplainRest : ∀ v ∈ next :: items, v.Plain :=
        fun v hv => hplain v (List.mem_cons_of_mem _ hv)
      have hbackRest : ∀ v ∈ next :: items, ReadsBack v :=
        fun v hv => hback v (List.mem_cons_of_mem _ hv)
      have hnext := ih hplainRest hbackRest room
        (by simp [Value.printItems] at hroom ⊢; omega)
      have hitem := hback item List.mem_cons_self depth room
        (Value.printItems depth (next :: items) ++ (newLine outer ++ ']' :: rest))
        (endsNumber_printItems _ _ _ _) (by simp at hroom; omega)
      rw [readItems, hitem, Value.printItems]
      simp only [List.cons_append, List.append_assoc]
      rw [skipGap_cons (by decide)]
      have hgap := readItems_congr (skipGap_newLine depth (next.print depth ++
        (Value.printItems depth items ++ (newLine outer ++ ']' :: rest)))) room
      simp only [hgap, hnext, Option.map_some]

theorem readString_quote (key : String) (rest : List Char) :
    ∃ cs, quote key ++ rest = '"' :: cs ∧ readString cs = some (some key, rest) := by
  refine ⟨key.toList.flatMap escape ++ '"' :: rest, ?_, readString_quoted key rest⟩
  simp [quote]

theorem ReadsBack.after_space {v : Value} (h : ReadsBack v) (depth room : Nat) {rest : List Char}
    (hrest : EndsNumber rest) (hroom : 2 * (v.print depth).length ≤ room) :
    readValue room (' ' :: (v.print depth ++ rest)) = some (v, rest) := by
  have hgap : skipGap (' ' :: (v.print depth ++ rest)) = skipGap (v.print depth ++ rest) := rfl
  rw [readValue_congr hgap]
  exact h depth room rest hrest hroom

theorem readFields_print (depth outer : Nat) {key : String} {value : Value}
    {fields : List (String × Value)} (hplain : ∀ f ∈ (key, value) :: fields, f.2.Plain)
    (hback : ∀ f ∈ (key, value) :: fields, ReadsBack f.2) (room : Nat) (rest : List Char)
    (hroom : 2 * (quote key ++ (':' :: ' ' :: (value.print depth ++
      Value.printFields depth fields))).length < room) :
    readFields room (quote key ++ (':' :: ' ' :: (value.print depth ++
      (Value.printFields depth fields ++ (newLine outer ++ '\x7d' :: rest))))) =
      some (((key, value) :: fields).map fun f => (some f.1, f.2), rest) := by
  induction fields generalizing key value room with
  | nil =>
    cases room with
    | zero => omega
    | succ room =>
      obtain ⟨cs, hquote, hkey⟩ := readString_quote key (':' :: ' ' :: (value.print depth ++
        (Value.printFields depth [] ++ (newLine outer ++ '\x7d' :: rest))))
      have hread := (hback (key, value) List.mem_cons_self).after_space depth room
        (endsNumber_printFields depth outer [] ('\x7d' :: rest)) (by simp at hroom ⊢; omega)
      rw [readFields, hquote, skipGap_cons (by decide)]
      simp only [hkey]
      rw [skipGap_cons (by decide)]
      simp only [hread]
      rw [Value.printFields, List.nil_append, skipGap_newLine, skipGap_cons (by decide)]
      rfl
  | cons next fields ih =>
    obtain ⟨nextKey, nextValue⟩ := next
    cases room with
    | zero => omega
    | succ room =>
      have hplainRest : ∀ f ∈ (nextKey, nextValue) :: fields, f.2.Plain :=
        fun f hf => hplain f (List.mem_cons_of_mem _ hf)
      have hbackRest : ∀ f ∈ (nextKey, nextValue) :: fields, ReadsBack f.2 :=
        fun f hf => hback f (List.mem_cons_of_mem _ hf)
      have hnext := ih hplainRest hbackRest room
        (by simp [Value.printFields] at hroom ⊢; omega)
      obtain ⟨cs, hquote, hkey⟩ := readString_quote key (':' :: ' ' :: (value.print depth ++
        (Value.printFields depth ((nextKey, nextValue) :: fields) ++
          (newLine outer ++ '\x7d' :: rest))))
      have hread := (hback (key, value) List.mem_cons_self).after_space depth room
        (endsNumber_printFields depth outer ((nextKey, nextValue) :: fields) ('\x7d' :: rest))
        (by simp at hroom ⊢; omega)
      rw [readFields, hquote, skipGap_cons (by decide)]
      simp only [hkey]
      rw [skipGap_cons (by decide)]
      simp only [hread]
      rw [Value.printFields]
      simp only [List.cons_append, List.append_assoc, List.nil_append]
      rw [skipGap_cons (by decide)]
      have hgap := readFields_congr (skipGap_newLine depth (quote nextKey ++ (':' :: ' ' ::
        (nextValue.print depth ++ (Value.printFields depth fields ++
          (newLine outer ++ '\x7d' :: rest)))))) room
      simp only [hgap, hnext, Option.map_some]
      rfl

theorem mapM_named (fields : List (String × Value)) :
    (fields.map fun f => (some f.1, f.2)).mapM
      (fun (key, value) => key.map fun k => (k, value)) = some fields := by
  induction fields with
  | nil => rfl
  | cons f fields ih =>
    rw [List.map_cons, List.mapM_cons, ih]
    rfl

theorem objectOf_named (fields : List (String × Value)) :
    objectOf (fields.map fun f => (some f.1, f.2)) = .object fields := by
  rw [objectOf, mapM_named]

theorem readWord_of_head {c : Char} (hc : c ≠ 'n' ∧ c ≠ 't' ∧ c ≠ 'f') (cs : List Char) :
    readWord (c :: cs) = none := by
  simp [readWord, words, Ne.symm hc.1, Ne.symm hc.2.1, Ne.symm hc.2.2]

/-- A text that starts with a digit is read as a number. -/
theorem readScalar_toDigits (n : Nat) {rest : List Char} (hrest : EndsNumber rest) :
    readScalar (Nat.toDigits 10 n ++ rest) = some (.natural n, rest) := by
  have hread := readNumber_toDigits n hrest
  cases hd : Nat.toDigits 10 n with
  | nil => exact absurd hd Nat.toDigits_ne_nil
  | cons c cs =>
    have hdigit : c.isDigit = true :=
      Nat.isDigit_of_mem_toDigits (n := n) (b := 10) (by decide) (by decide) (by simp [hd])
    have hword : c ≠ 'n' ∧ c ≠ 't' ∧ c ≠ 'f' := by
      refine ⟨?_, ?_, ?_⟩ <;> rintro rfl <;> simp at hdigit
    rw [hd] at hread
    rw [List.cons_append] at hread ⊢
    unfold readScalar
    split
    next r heq =>
      cases heq
      simp at hdigit
    next =>
      rw [readWord_of_head hword, hread]
      rfl

theorem readValue_scalar {cs : List Char} (hgap : skipGap cs = cs)
    (hopen : ∀ c, cs.head? = some c → c ≠ '[' ∧ c ≠ '\x7b') {room : Nat} (hroom : 0 < room) :
    readValue room cs = readScalar cs := by
  cases room with
  | zero => omega
  | succ room =>
    rw [readValue, hgap]
    split
    · exact absurd rfl (hopen _ rfl).1
    · exact absurd rfl (hopen _ rfl).2
    · rfl

theorem readsBack_natural (n : Nat) : ReadsBack (.natural n) := by
  intro depth room rest hrest hroom
  have hgap := skipGap_print (.natural n) depth rest
  rw [Value.print_natural] at hroom hgap ⊢
  have hpos : 0 < (Nat.toDigits 10 n).length := Nat.length_toDigits_pos
  rw [readValue_scalar hgap ?_ (by omega), readScalar_toDigits n hrest]
  intro c hc
  have hdigit : c.isDigit = true := by
    apply Nat.isDigit_of_mem_toDigits (n := n) (b := 10) (by decide) (by decide)
    cases hd : Nat.toDigits 10 n with
    | nil => exact absurd hd Nat.toDigits_ne_nil
    | cons c' cs =>
      rw [hd] at hc
      cases hc
      exact List.mem_cons_self
  refine ⟨?_, ?_⟩ <;> rintro rfl <;> simp at hdigit

theorem readsBack_string (s : String) : ReadsBack (.string s) := by
  intro depth room rest hrest hroom
  have hgap := skipGap_print (.string s) depth rest
  have hprint : (Value.string s).print depth ++ rest =
      '"' :: (s.toList.flatMap escape ++ '"' :: rest) := by
    rw [Value.print, quote]
    simp
  have hpos : 0 < ((Value.string s).print depth).length := by
    rw [Value.print, quote]
    simp
  rw [hprint] at hgap ⊢
  rw [readValue_scalar hgap ?_ (by omega), readScalar]
  · rw [readString_quoted]
    rfl
  · rintro c ⟨⟩
    decide

theorem readsBack_array {items : List Value} (hplain : ∀ v ∈ items, v.Plain)
    (hback : ∀ v ∈ items, ReadsBack v) : ReadsBack (.array items) := by
  intro depth room rest hrest hroom
  have hgap := skipGap_print (.array hplain) depth rest
  cases room with
  | zero =>
    obtain ⟨c, cs, hprint, -⟩ := (Value.Plain.array hplain).print_eq_cons depth
    simp [hprint] at hroom
  | succ room =>
    cases items with
    | nil =>
      rw [Value.print] at hgap ⊢
      rw [readValue, hgap]
      rfl
    | cons item items =>
      rw [Value.print_array_cons] at hroom hgap ⊢
      have hitems := readItems_print (depth + 1) depth hplain hback room rest
        (by simp at hroom ⊢; omega)
      obtain ⟨c, cs, hprint, -, hclose⟩ :=
        (hplain item List.mem_cons_self).print_eq_cons (depth + 1)
      rw [readValue, hgap]
      simp only [List.cons_append, List.append_assoc, List.nil_append] at hitems ⊢
      rw [skipGap_newLine, skipGap_print (hplain item List.mem_cons_self)]
      split
      next r hr =>
        rw [hprint, List.cons_append] at hr
        cases hr
        exact absurd rfl hclose
      next =>
        rw [hitems]
        rfl

theorem readsBack_object {fields : List (String × Value)} (hplain : ∀ f ∈ fields, f.2.Plain)
    (hback : ∀ f ∈ fields, ReadsBack f.2) : ReadsBack (.object fields) := by
  intro depth room rest hrest hroom
  have hgap := skipGap_print (.object hplain) depth rest
  cases room with
  | zero =>
    obtain ⟨c, cs, hprint, -⟩ := (Value.Plain.object hplain).print_eq_cons depth
    simp [hprint] at hroom
  | succ room =>
    cases fields with
    | nil =>
      rw [Value.print] at hgap ⊢
      rw [readValue, hgap]
      rfl
    | cons f fields =>
      obtain ⟨key, value⟩ := f
      rw [Value.print_object_cons] at hroom hgap ⊢
      have hfields := readFields_print (depth + 1) depth hplain hback room rest
        (by simp at hroom ⊢; omega)
      obtain ⟨cs, hquote, -⟩ := readString_quote key (':' :: ' ' :: (value.print (depth + 1) ++
        (Value.printFields (depth + 1) fields ++ (newLine depth ++ '\x7d' :: rest))))
      rw [readValue, hgap]
      simp only [List.cons_append, List.append_assoc, List.nil_append]
      rw [skipGap_newLine, hquote, skipGap_cons (by decide), ← hquote]
      split
      next r hr =>
        rw [hquote] at hr
        cases hr
      next =>
        rw [hfields, Option.map_some, objectOf_named]

/-- A plain value is read back from its text, whatever follows it that is no part of a number. -/
theorem Value.Plain.readsBack {v : Value} (hv : v.Plain) : ReadsBack v := by
  induction hv with
  | natural n => exact readsBack_natural n
  | string s => exact readsBack_string s
  | array hplain ih => exact readsBack_array hplain ih
  | object hplain ih => exact readsBack_object hplain ih

/-- The whole text of a plain value stands for that value. -/
theorem Value.Plain.ofText?_text {v : Value} (hv : v.Plain) : Value.ofText? v.text = some v := by
  have hread := hv.readsBack 0 (2 * (v.print 0).length + 2) [] (by simp [EndsNumber]) (by omega)
  rw [List.append_nil] at hread
  simp [Value.ofText?, Value.text, hread, skipGap]

end IncrementalBuild.Json
