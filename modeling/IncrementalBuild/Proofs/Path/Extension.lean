import IncrementalBuild.Proofs.Path.Components

/-!
Another extension for a file. Only the file name changes, to its stem and the new extension; the
stem is what stands before the last dot. The one name that is no longer a name afterwards is that
with the stem `.`, of which `..` is left.
-/

namespace IncrementalBuild.Path

open Component

variable {p q : Path} {n front : List Char}

theorem cutExtension_append {stem extension : List Char} (hstem : stem ≠ [])
    (hextension : '.' ∉ extension) :
    cutExtension (stem ++ '.' :: extension) = (stem, some extension) := by
  rw [cutExtension, Text.splitLast_append_cons stem hextension]
  simp [hstem]

theorem cutExtension_cases (n : List Char) : cutExtension n = (n, none) ∨
    ∃ stem extension, stem ≠ [] ∧ '.' ∉ extension ∧ n = stem ++ '.' :: extension ∧
      cutExtension n = (stem, some extension) := by
  by_cases hdot : '.' ∈ n
  · obtain ⟨after, before, hreverse, hafter⟩ :=
      List.eq_append_cons_of_mem (List.mem_reverse.2 hdot)
    obtain rfl : n = before.reverse ++ '.' :: after.reverse := by
      simpa using congrArg List.reverse hreverse
    have hextension : '.' ∉ after.reverse := by simpa using hafter
    by_cases hstem : before.reverse = []
    · rw [hstem, cutExtension, Text.splitLast_append_cons [] hextension]
      exact .inl rfl
    · exact .inr ⟨_, _, hstem, hextension, rfl, cutExtension_append hstem hextension⟩
  · rw [cutExtension, Text.splitLast_of_not_mem hdot]
    exact .inl rfl

theorem isAbsolute_eq_false_of_not_mem (h : '/' ∉ n) : isAbsolute ⟨String.ofList n⟩ = false := by
  cases n with
  | nil => rfl
  | cons c cs => simpa [isAbsolute] using Ne.symm (List.ne_of_not_mem_cons h)

theorem join_ofList (p : Path) (h : '/' ∉ n) :
    p.join ⟨String.ofList n⟩ = ⟨String.ofList (p.leading ++ n)⟩ := by
  rw [← mk_toList (p.join ⟨String.ofList n⟩), toList_text_join p (isAbsolute_eq_false_of_not_mem h),
    String.toList_ofList]

theorem leading_cases (p : Path) : p.leading = [] ∨ p.leading.getLast? = some '/' := by
  unfold leading
  split
  next h => simpa using h
  next => exact .inr (by simp)

/-- The last piece of a path is the text behind its last separator, and another text can be written
there. -/
theorem exists_init (hfront : front = [] ∨ front.getLast? = some '/') : ∃ absolute init,
    ∀ m : List Char, '/' ∉ m → isAbsolute ⟨String.ofList (front ++ m)⟩ = absolute ∧
      piecesReversed ⟨String.ofList (front ++ m)⟩ = m :: init ∧
      ofReversed absolute (m :: init) = ⟨String.ofList (front ++ m)⟩ := by
  have hwhole (f : List Char) {m : List Char} (hm : '/' ∉ m) :
      Text.splitOn '/' (f ++ '/' :: m) = Text.splitOn '/' f ++ [m] ∧
        ['/'].intercalate (Text.splitOn '/' f ++ [m]) = f ++ '/' :: m := by
    have hsplit : Text.splitOn '/' (f ++ '/' :: m) = Text.splitOn '/' f ++ [m] := by
      rw [Text.splitOn_append_cons, Text.splitOn_of_not_mem hm]
    exact ⟨hsplit, by rw [← hsplit, Text.intercalate_splitOn]⟩
  have hrelative {cs : List Char} (hcs : isAbsolute ⟨String.ofList cs⟩ = false) :
      piecesReversed ⟨String.ofList cs⟩ = (Text.splitOn '/' cs).reverse := by
    unfold piecesReversed
    split
    next body hbody =>
      rw [isAbsolute, hbody] at hcs
      cases hcs
    next => rw [String.toList_ofList]
  rcases hfront with rfl | hlast
  · refine ⟨false, [], fun m hm => ?_⟩
    have habsolute := isAbsolute_eq_false_of_not_mem hm
    refine ⟨habsolute, ?_, by simp [ofReversed]⟩
    rw [List.nil_append, hrelative habsolute, Text.splitOn_of_not_mem hm]
    rfl
  obtain ⟨f, rfl⟩ := List.getLast?_eq_some_iff.1 hlast
  simp only [List.append_assoc, List.singleton_append]
  cases f with
  | nil =>
    refine ⟨true, [], fun m hm => ⟨by simp [isAbsolute], ?_, by simp [ofReversed]⟩⟩
    simp [piecesReversed, Text.splitOn_of_not_mem hm]
  | cons c f =>
    by_cases hc : c = '/'
    · subst hc
      refine ⟨true, (Text.splitOn '/' f).reverse, fun m hm => ⟨by simp [isAbsolute], ?_, ?_⟩⟩
      · simp [piecesReversed, (hwhole f hm).1]
      · simp [ofReversed, (hwhole f hm).2]
    · refine ⟨false, (Text.splitOn '/' (c :: f)).reverse, fun m hm => ?_⟩
      have habsolute : isAbsolute ⟨String.ofList (c :: f ++ '/' :: m)⟩ = false := by
        simp [isAbsolute, hc]
      refine ⟨habsolute, ?_, ?_⟩
      · rw [hrelative habsolute, (hwhole _ hm).1, List.reverse_append]
        rfl
      · rw [ofReversed, List.reverse_cons, List.reverse_reverse, (hwhole _ hm).2]
        rfl

theorem fileName?_of_components {cs : List Component} {name : String}
    (h : p.components = cs ++ [.name name]) : p.fileName? = some name := by
  unfold fileName?
  rw [h, List.getLast?_concat]

theorem components_join_ofList (p : Path) (hn : Ordinary n) :
    (p.join ⟨String.ofList n⟩).components = p.components ++ [.name (String.ofList n)] := by
  have hname : (name (String.ofList n)).IsInner := by simpa [IsInner] using hn
  exact components_join p (components_text hname.isInitial) hname

theorem fileName?_join (p : Path) (hn : Ordinary n) :
    (p.join ⟨String.ofList n⟩).fileName? = some (String.ofList n) :=
  fileName?_of_components (components_join_ofList p hn)

theorem components_join_parent (p : Path) :
    (p.join ⟨String.ofList ['.', '.']⟩).components = p.components ++ [.parent] :=
  components_join p (components_text (c := .parent) trivial) trivial

variable {extension : String}

theorem fileName?_join_parent (p : Path) :
    (p.join ⟨String.ofList ['.', '.']⟩).fileName? = none := by
  unfold fileName?
  rw [components_join_parent, List.getLast?_concat]

/-- A path that ends in `..` has no file name to change. -/
theorem setExtension_parent (p : Path) (extension : String) :
    (p.join ⟨String.ofList ['.', '.']⟩).setExtension extension =
      p.join ⟨String.ofList ['.', '.']⟩ := by
  rw [setExtension, fileName?_join_parent]

theorem setExtension_join (p : Path) (hn : Ordinary n) (hne : extension ≠ "")
    (hslash : '/' ∉ extension.toList) :
    (p.join ⟨String.ofList n⟩).setExtension extension =
      p.join ⟨String.ofList ((cutExtension n).1 ++ '.' :: extension.toList)⟩ := by
  have hfile : '/' ∉ (cutExtension n).1 ++ '.' :: extension.toList := by
    rcases cutExtension_cases n with hcut | ⟨stem, old, -, -, rfl, hcut⟩
    · simpa [hcut, hslash] using hn.2.2.2
    · have := hn.2.2.2
      simp_all
  obtain ⟨absolute, init, hinit⟩ := exists_init p.leading_cases
  obtain ⟨habsolute, hpieces, -⟩ := hinit n hn.2.2.2
  have hkept : dropIdle absolute (n :: init) = n :: init := by
    cases init <;> simp [dropIdle, hn.1, hn.2.1]
  unfold setExtension
  rw [fileName?_join p hn]
  simp only [String.toList_ofList, String.isEmpty_iff, hne, if_false]
  rw [join_ofList p hn.2.2.2, habsolute, hpieces, hkept, join_ofList p hfile]
  exact (hinit _ hfile).2.2

/-- The last piece of a path that ends in the name `n`, with another extension. -/
def retitled (extension n : List Char) : List Char :=
  if (cutExtension n).1 = ['.'] then ['.', '.'] else (cutExtension n).1 ++ '.' :: extension

theorem withExtension_join_of_ordinary (p : Path) (hn : Ordinary n) (hne : extension ≠ "")
    (hslash : '/' ∉ extension.toList) : (p.join ⟨String.ofList n⟩).withExtension extension =
      p.join ⟨String.ofList (retitled extension.toList n)⟩ := by
  unfold withExtension extension? retitled
  rw [fileName?_join p hn]
  rcases cutExtension_cases n with hcut | ⟨stem, old, hstem, hold, rfl, hcut⟩
  · simp only [Option.bind_some, String.toList_ofList, hcut, Option.map_none, if_neg hn.2.1]
    rw [setExtension_join p hn hne hslash, hcut]
  · have hslashes : '/' ∉ stem ∧ '/' ∉ old := by
      have := hn.2.2.2
      simp_all
    have hshort : '/' ∉ stem ++ ['.'] := by simpa using hslashes.1
    simp only [Option.bind_some, String.toList_ofList, hcut, Option.map_some]
    have hcutText : (⟨String.ofList ((p.join ⟨String.ofList (stem ++ '.' :: old)⟩).text.toList.take
        ((p.join ⟨String.ofList (stem ++ '.' :: old)⟩).text.length -
          (String.ofList old).length))⟩ : Path) = p.join ⟨String.ofList (stem ++ ['.'])⟩ := by
      have hwhole : p.leading ++ (stem ++ '.' :: old) = (p.leading ++ (stem ++ ['.'])) ++ old := by
        simp
      rw [join_ofList p hn.2.2.2, join_ofList p hshort, hwhole]
      generalize p.leading ++ (stem ++ ['.']) = cut
      simp
    rw [hcutText]
    split
    next hdot =>
      subst hdot
      exact setExtension_parent p extension
    next hdot =>
      have hordinary : Ordinary (stem ++ ['.']) :=
        ⟨by simp, by simpa using hstem, fun hup => hdot (List.append_cancel_right hup), hshort⟩
      rw [setExtension_join p hordinary hne hslash, cutExtension_append hstem List.not_mem_nil]

/-- A piece that stands for a component past the start of a path. -/
def IsStep (piece : List Char) : Prop :=
  piece = ['.', '.'] ∨ Ordinary piece

theorem IsStep.not_mem (h : IsStep n) : '/' ∉ n := by
  rcases h with rfl | h
  · decide
  · exact h.2.2.2

theorem IsStep.exists_component? (h : IsStep n) : ∃ c, component? n = some c := by
  rcases h with rfl | h
  · exact ⟨.parent, rfl⟩
  · exact ⟨_, component?_of_ordinary h⟩

theorem withExtension_join (p : Path) (hn : IsStep n) (hne : extension ≠ "")
    (hslash : '/' ∉ extension.toList) : (p.join ⟨String.ofList n⟩).withExtension extension =
      p.join ⟨String.ofList (retitled extension.toList n)⟩ := by
  rcases hn with rfl | hn
  · have hnone : (p.join ⟨String.ofList ['.', '.']⟩).extension? = none := by
      rw [extension?, fileName?_join_parent]
      rfl
    rw [withExtension, hnone]
    exact setExtension_parent p extension
  · exact withExtension_join_of_ordinary p hn hne hslash

theorem text_of_component? {c : Component} (h : component? n = some c) :
    c.text = String.ofList n := by
  unfold component? at h
  split at h
  · cases h
  · split at h
    next hup =>
      cases h
      rw [hup]
      rfl
    next =>
      cases h
      rfl

/-- Paths that end in pieces agree if what stands before these agrees, and the pieces do. -/
theorem components_join_inj {m : List Char} (hn : IsStep n) (hm : IsStep m) :
    (p.join ⟨String.ofList n⟩).components = (q.join ⟨String.ofList m⟩).components ↔
      p.components = q.components ∧ n = m := by
  have hjoin {r : Path} {piece : List Char} {c : Component} (hpiece : component? piece = some c)
      (hslash : '/' ∉ piece) :
      (r.join ⟨String.ofList piece⟩).components = r.components ++ [c] := by
    have hinner := isInner_of_component? hslash hpiece
    rw [← text_of_component? hpiece]
    exact components_join r (components_text hinner.isInitial) hinner
  obtain ⟨c, hc⟩ := hn.exists_component?
  obtain ⟨e, he⟩ := hm.exists_component?
  rw [hjoin hc hn.not_mem, hjoin he hm.not_mem, List.append_singleton_inj]
  refine and_congr_right fun _ => ⟨fun heq => ?_, fun heq => ?_⟩
  · subst heq
    exact String.ofList_injective ((text_of_component? hc).symm.trans (text_of_component? he))
  · subst heq
    exact Option.some.inj (hc.symm.trans he)

section Retitled

variable {m extension : List Char}

theorem stem_ne_nil (hn : IsStep n) : (cutExtension n).1 ≠ [] := by
  rcases cutExtension_cases n with hcut | ⟨stem, old, hstem, -, -, hcut⟩
  · rw [hcut]
    rcases hn with rfl | hn
    · simp
    · exact hn.1
  · rw [hcut]
    exact hstem

theorem not_mem_stem (hn : IsStep n) : '/' ∉ (cutExtension n).1 := by
  have hslash := hn.not_mem
  rcases cutExtension_cases n with hcut | ⟨stem, old, -, -, rfl, hcut⟩
  · rwa [hcut]
  · rw [hcut]
    exact fun hmem => hslash (List.mem_append_left _ hmem)

/-- A name with another extension is a name, unless its stem is a dot. -/
theorem ordinary_append_extension {stem : List Char} (hstem : stem ≠ []) (hne : extension ≠ [])
    (hslash : '/' ∉ stem) (hextension : '/' ∉ extension) :
    Ordinary (stem ++ '.' :: extension) := by
  have hlength : 3 ≤ (stem ++ '.' :: extension).length := by
    have := List.length_pos_iff.2 hstem
    have := List.length_pos_iff.2 hne
    simp only [List.length_append, List.length_cons]
    omega
  refine ⟨?_, ?_, ?_, by simp [hslash, hextension]⟩ <;> rintro heq <;> simp [heq] at hlength

theorem retitled_cases (hn : IsStep n) (hne : extension ≠ []) (hslash : '/' ∉ extension) :
    ((cutExtension n).1 = ['.'] ∧ retitled extension n = ['.', '.']) ∨
      ((cutExtension n).1 ≠ ['.'] ∧
        retitled extension n = (cutExtension n).1 ++ '.' :: extension ∧
        Ordinary (retitled extension n)) := by
  unfold retitled
  split
  next hdot => exact .inl ⟨hdot, rfl⟩
  next hdot =>
    exact .inr ⟨hdot, rfl,
      ordinary_append_extension (stem_ne_nil hn) hne (not_mem_stem hn) hslash⟩

theorem isStep_retitled (hn : IsStep n) (hne : extension ≠ []) (hslash : '/' ∉ extension) :
    IsStep (retitled extension n) := by
  rcases retitled_cases hn hne hslash with ⟨-, hup⟩ | ⟨-, -, hordinary⟩
  · exact .inl hup
  · exact .inr hordinary

/-- Another extension keeps the stem and nothing else of a name. -/
theorem retitled_inj (hn : IsStep n) (hm : IsStep m) (hne : extension ≠ [])
    (hslash : '/' ∉ extension) :
    retitled extension n = retitled extension m ↔ (cutExtension n).1 = (cutExtension m).1 := by
  refine ⟨fun heq => ?_, fun heq => by rw [retitled, retitled, heq]⟩
  rcases retitled_cases hn hne hslash with ⟨hn', hnup⟩ | ⟨hn', hntext, hnordinary⟩ <;>
    rcases retitled_cases hm hne hslash with ⟨hm', hmup⟩ | ⟨hm', hmtext, hmordinary⟩
  · rw [hn', hm']
  · exact absurd (heq.symm.trans hnup) hmordinary.2.2.1
  · exact absurd (heq.trans hmup) hnordinary.2.2.1
  · rw [hntext, hmtext] at heq
    exact List.append_cancel_right heq

/-- What an extension adds to the stem when it is itself cut at its last dot. -/
theorem exists_stem_append (extension : List Char) : ∃ kept, ∀ stem : List Char, stem ≠ [] →
    (cutExtension (stem ++ '.' :: extension)).1 = stem ++ kept := by
  by_cases hdot : '.' ∈ extension
  · obtain ⟨after, before, hreverse, hafter⟩ :=
      List.eq_append_cons_of_mem (List.mem_reverse.2 hdot)
    obtain rfl : extension = before.reverse ++ '.' :: after.reverse := by
      simpa using congrArg List.reverse hreverse
    refine ⟨'.' :: before.reverse, fun stem hstem => ?_⟩
    have hcut : cutExtension ((stem ++ '.' :: before.reverse) ++ '.' :: after.reverse) =
        (stem ++ '.' :: before.reverse, some after.reverse) :=
      cutExtension_append (by simp) (by simpa using hafter)
    simpa using congrArg Prod.fst hcut
  · exact ⟨[], fun stem hstem => by rw [cutExtension_append hstem hdot, List.append_nil]⟩

/-- Names that are given one extension have different stems then if they had before. -/
theorem stem_retitled_inj (hn : IsStep n) (hm : IsStep m) (hne : extension ≠ [])
    (hslash : '/' ∉ extension) : (cutExtension (retitled extension n)).1 =
      (cutExtension (retitled extension m)).1 ↔ (cutExtension n).1 = (cutExtension m).1 := by
  obtain ⟨kept, hkept⟩ := exists_stem_append extension
  have hdots : (cutExtension ['.', '.']).1 = ['.'] := rfl
  -- A stem that is longer than a dot does not become one.
  have hlonger {stem : List Char} (hstem : stem ≠ []) (hdot : stem ≠ ['.']) :
      stem ++ kept ≠ ['.'] := by
    rintro heq
    rcases List.append_eq_singleton_iff.1 heq with ⟨rfl, -⟩ | ⟨rfl, -⟩
    · exact hstem rfl
    · exact hdot rfl
  rcases retitled_cases hn hne hslash with ⟨hn', hnup⟩ | ⟨hn', hntext, -⟩ <;>
    rcases retitled_cases hm hne hslash with ⟨hm', hmup⟩ | ⟨hm', hmtext, -⟩
  · simp [hnup, hmup, hn', hm']
  · rw [hnup, hmtext, hdots, hkept _ (stem_ne_nil hm), hn']
    exact iff_of_false (hlonger (stem_ne_nil hm) hm').symm (Ne.symm hm')
  · rw [hntext, hmup, hdots, hkept _ (stem_ne_nil hn), hm']
    exact iff_of_false (hlonger (stem_ne_nil hn) hn') hn'
  · rw [hntext, hmtext, hkept _ (stem_ne_nil hn), hkept _ (stem_ne_nil hm)]
    exact List.append_left_inj kept

variable {e f : String}

/-- Two files in two directories that are given an extension are the same afterwards if the
directories are and the stems are, and giving both another extension again does not change that. -/
theorem withExtension_join_inj (hn : IsStep n) (hm : IsStep m) (he : e ≠ "")
    (heslash : '/' ∉ e.toList) (hf : f ≠ "") (hfslash : '/' ∉ f.toList) :
    let a := (p.join ⟨String.ofList n⟩).withExtension e
    let b := (q.join ⟨String.ofList m⟩).withExtension e
    (a.components = b.components ↔
      p.components = q.components ∧ (cutExtension n).1 = (cutExtension m).1) ∧
    ((a.withExtension f).components = (b.withExtension f).components ↔
      p.components = q.components ∧ (cutExtension n).1 = (cutExtension m).1) := by
  have he' : e.toList ≠ [] := by simpa using he
  have hf' : f.toList ≠ [] := by simpa using hf
  have hne := isStep_retitled hn he' heslash
  have hme := isStep_retitled hm he' heslash
  dsimp only
  rw [withExtension_join p hn he heslash, withExtension_join q hm he heslash]
  refine ⟨?_, ?_⟩
  · rw [components_join_inj hne hme, retitled_inj hn hm he' heslash]
  · rw [withExtension_join p hne hf hfslash, withExtension_join q hme hf hfslash,
      components_join_inj (isStep_retitled hne hf' hfslash) (isStep_retitled hme hf' hfslash),
      retitled_inj hne hme hf' hfslash, stem_retitled_inj hn hm he' heslash]

end Retitled

end IncrementalBuild.Path
