import IncrementalBuild.Proofs.Text.Split
import IncrementalBuild.Path
import Mathlib.Data.List.Induction

/-!
Components of paths that are put together and taken apart: a joined path has the components of both
parts, components spell a path that has them, and the directory of a file has all but the last.
-/

namespace IncrementalBuild

namespace Component

/-- A piece of a path that is written as an ordinary name. -/
def Ordinary (piece : List Char) : Prop :=
  piece ≠ [] ∧ piece ≠ ['.'] ∧ piece ≠ ['.', '.'] ∧ '/' ∉ piece

instance (piece : List Char) : Decidable (Ordinary piece) :=
  inferInstanceAs (Decidable (_ ∧ _ ∧ _ ∧ _))

/-- Components that stand past the start of a path. -/
def IsInner : Component → Prop
  | root | current => False
  | parent => True
  | name s => Ordinary s.toList

/-- Components that a path can start with. -/
def IsInitial : Component → Prop
  | name s => Ordinary s.toList
  | _ => True

theorem IsInner.isInitial {c : Component} (h : c.IsInner) : c.IsInitial := by
  cases c with
  | name s => exact h
  | _ => trivial

/-- The component is an ordinary name. -/
def isName : Component → Bool
  | name _ => true
  | _ => false

end Component

namespace Path

open Component

variable {p q : Path} {cs : List Component} {piece : List Char}

theorem mk_toList (p : Path) : (⟨String.ofList p.text.toList⟩ : Path) = p := by
  simp

theorem component?_of_ordinary (h : Ordinary piece) :
    component? piece = some (.name (String.ofList piece)) := by
  obtain ⟨hne, hdot, hup, -⟩ := h
  simp [component?, hne, hdot, hup]

theorem component?_eq_none_iff : component? piece = none ↔ piece = [] ∨ piece = ['.'] := by
  unfold component?
  split
  next hidle => simpa using hidle
  next hidle =>
    refine iff_of_false ?_ (by simpa using hidle)
    split <;> simp

theorem isInner_of_component? {c : Component} (hpiece : '/' ∉ piece)
    (h : component? piece = some c) : c.IsInner := by
  unfold component? at h
  split at h
  · cases h
  next hidle =>
    simp only [Bool.or_eq_true, decide_eq_true_eq, not_or] at hidle
    split at h
    · cases h
      trivial
    next hup =>
      cases h
      simpa [IsInner, Ordinary] using ⟨hidle.1, hidle.2, hup, hpiece⟩

theorem components_of_root (body : List Char) (h : p.text.toList = '/' :: body) :
    p.components = .root :: (Text.splitOn '/' body).filterMap component? := by
  simp only [components, h]

/-- The dot a relative path starts with. -/
def dot (pieces : List (List Char)) : List Component :=
  if pieces.head? = some ['.'] then [.current] else []

theorem components_of_relative (h : p.isAbsolute = false) :
    p.components = dot (Text.splitOn '/' p.text.toList) ++
      (Text.splitOn '/' p.text.toList).filterMap component? := by
  have hroot (body : List Char) : p.text.toList ≠ '/' :: body := by
    rintro heq
    simp [isAbsolute, heq] at h
  unfold components
  split
  next body hbody => exact absurd hbody (hroot body)
  next =>
    dsimp only [dot]
    split <;> simp

theorem dot_append {pieces : List (List Char)} (h : pieces ≠ []) (more : List (List Char)) :
    dot (pieces ++ more) = dot pieces := by
  cases pieces with
  | nil => exact absurd rfl h
  | cons piece pieces => rfl

/-- What a path that starts a longer one contributes to it. -/
theorem components_append_cons {front : List Char} (hfront : front ≠ []) (back : List Char) :
    components ⟨String.ofList (front ++ '/' :: back)⟩ =
      components ⟨String.ofList front⟩ ++ (Text.splitOn '/' back).filterMap component? := by
  cases front with
  | nil => exact absurd rfl hfront
  | cons c front =>
    by_cases hc : c = '/'
    · subst hc
      rw [components_of_root (front ++ '/' :: back) (by simp),
        components_of_root front (by simp), Text.splitOn_append_cons, List.filterMap_append]
      rfl
    · rw [components_of_relative (by simp [isAbsolute, hc]),
        components_of_relative (by simp [isAbsolute, hc])]
      simp only [String.toList_ofList, Text.splitOn_append_cons,
        dot_append (Text.splitOn_ne_nil '/' (c :: front)), List.filterMap_append, List.append_assoc]

/-- The text that a path puts before what is joined to it. -/
def leading (p : Path) : List Char :=
  if p.text.toList.isEmpty || p.text.toList.getLast? = some '/' then p.text.toList
  else p.text.toList ++ ['/']

theorem toList_text_join (p : Path) (h : q.isAbsolute = false) :
    (p.join q).text.toList = p.leading ++ q.text.toList := by
  unfold join leading
  rw [if_neg (by simp [h])]
  split
  · simp
  · simp

theorem components_leading (hp : p.text ≠ "") (back : List Char) :
    components ⟨String.ofList (p.leading ++ back)⟩ =
      p.components ++ (Text.splitOn '/' back).filterMap component? := by
  have hne : p.text.toList ≠ [] := by simpa using hp
  unfold leading
  split
  next hends =>
    have hlast : p.text.toList.getLast? = some '/' := by simpa [hne] using hends
    obtain ⟨front, hfront⟩ := List.getLast?_eq_some_iff.1 hlast
    rw [hfront, List.append_assoc, List.singleton_append]
    by_cases hempty : front = []
    · subst hempty
      rw [components_of_root back (by simp), components_of_root [] hfront]
      simp [Text.splitOn, component?]
    · have hclosed : components ⟨String.ofList (front ++ '/' :: [])⟩ = p.components := by
        rw [← hfront, mk_toList]
      rw [components_append_cons hempty] at hclosed ⊢
      rw [← hclosed]
      simp [Text.splitOn, component?]
  next =>
    rw [List.append_assoc, List.singleton_append, components_append_cons hne]
    simp

/-- Lists of components that paths have. -/
def IsSpelled (cs : List Component) : Prop :=
  (∀ c ∈ cs.head?, c.IsInitial) ∧ ∀ c ∈ cs.tail, c.IsInner

theorem isInner_of_mem_filterMap {pieces : List (List Char)} (h : ∀ piece ∈ pieces, '/' ∉ piece)
    {c : Component} (hc : c ∈ pieces.filterMap component?) : c.IsInner := by
  obtain ⟨piece, hpiece, hc⟩ := List.mem_filterMap.1 hc
  exact isInner_of_component? (h piece hpiece) hc

theorem isSpelled_of_forall_isInner (h : ∀ c ∈ cs, c.IsInner) : IsSpelled cs :=
  ⟨fun c hc => (h c (List.mem_of_mem_head? hc)).isInitial,
    fun c hc => h c (List.mem_of_mem_tail hc)⟩

theorem isSpelled_components (p : Path) : IsSpelled p.components := by
  have hinner (cs : List Char) : ∀ c ∈ (Text.splitOn '/' cs).filterMap component?, c.IsInner :=
    fun c hc => isInner_of_mem_filterMap (fun _ => Text.not_mem_of_mem_splitOn) hc
  cases habsolute : p.isAbsolute with
  | true =>
    obtain ⟨body, hbody⟩ : ∃ body, p.text.toList = '/' :: body := by
      simpa [isAbsolute, List.head?_eq_some_iff] using habsolute
    rw [components_of_root body hbody]
    exact ⟨by simp [IsInitial], by simpa using hinner body⟩
  | false =>
    rw [components_of_relative habsolute, dot]
    split
    · exact ⟨by simp [IsInitial], by simpa using hinner p.text.toList⟩
    · exact isSpelled_of_forall_isInner (hinner p.text.toList)

theorem IsSpelled.of_append {more : List Component} (h : IsSpelled (cs ++ more)) :
    IsSpelled cs ∧ IsSpelled more := by
  cases cs with
  | nil => exact ⟨⟨by simp, by simp⟩, h⟩
  | cons c cs =>
    obtain ⟨hhead, htail⟩ := h
    exact ⟨⟨hhead, fun d hd => htail d (List.mem_append_left more hd)⟩,
      isSpelled_of_forall_isInner fun d hd => htail d (List.mem_append_right cs hd)⟩

theorem components_text {c : Component} (h : c.IsInitial) : components ⟨c.text⟩ = [c] := by
  cases c with
  | name s =>
    have hs : Ordinary s.toList := h
    have hsplit := Text.splitOn_of_not_mem hs.2.2.2
    have habsolute : isAbsolute ⟨s⟩ = false := by
      obtain ⟨-, -, -, hslash⟩ := hs
      cases htext : s.toList with
      | nil => simp [isAbsolute, htext]
      | cons c cs =>
        rw [htext] at hslash
        simpa [isAbsolute, htext] using Ne.symm (List.ne_of_not_mem_cons hslash)
    rw [Component.text, components_of_relative habsolute]
    simp [hsplit, dot, hs.2.1, component?_of_ordinary hs]
  | _ => decide +kernel

theorem head?_components_of_isAbsolute (h : p.isAbsolute = true) :
    p.components.head? = some .root := by
  obtain ⟨body, hbody⟩ : ∃ body, p.text.toList = '/' :: body := by
    simpa [isAbsolute, List.head?_eq_some_iff] using h
  rw [components_of_root body hbody]
  rfl

theorem components_empty : components ⟨""⟩ = [] := rfl

/-- A component joined to a path stands behind its components. -/
theorem components_join (p : Path) {c : Component} (hq : q.components = [c]) (hc : c.IsInner) :
    (p.join q).components = p.components ++ [c] := by
  have habsolute : q.isAbsolute = false := by
    rw [← Bool.not_eq_true]
    intro habsolute
    have hhead := head?_components_of_isAbsolute habsolute
    rw [hq] at hhead
    cases hhead
    exact hc
  have hsingle : (Text.splitOn '/' q.text.toList).filterMap component? = [c] := by
    have hq' := hq
    rw [components_of_relative habsolute, dot] at hq'
    split at hq'
    · obtain rfl : .current = c := by simpa using congrArg List.head? hq'
      exact hc.elim
    · exact hq'
  have htext : p.join q = ⟨String.ofList (p.leading ++ q.text.toList)⟩ := by
    rw [← toList_text_join p habsolute, mk_toList]
  rw [htext]
  by_cases hp : p.text = ""
  · obtain ⟨text⟩ := p
    obtain rfl : text = "" := hp
    simpa [leading, components_empty] using hq
  · rw [components_leading hp, hsingle]

theorem ofComponents_append_singleton (cs : List Component) (c : Component) :
    ofComponents (cs ++ [c]) = (ofComponents cs).join ⟨c.text⟩ := by
  simp [ofComponents]

/-- Components spell a path that has them. -/
theorem components_ofComponents (h : IsSpelled cs) : (ofComponents cs).components = cs := by
  induction cs using List.reverseRecOn with
  | nil => rfl
  | append_singleton cs c ih =>
    rw [ofComponents_append_singleton]
    cases cs with
    | nil =>
      have hempty : (ofComponents []).join ⟨c.text⟩ = ⟨c.text⟩ := by
        simp [ofComponents, join]
      rw [hempty]
      exact components_text (h.1 c rfl)
    | cons d cs =>
      have hc := h.2 c (by simp)
      rw [components_join _ (components_text hc.isInitial) hc, ih h.of_append.1]

/-- The component that is not written in a path but by how it starts. -/
def start (absolute : Bool) (pieces : List (List Char)) : List Component :=
  if absolute then [.root] else dot pieces

theorem start_append (absolute : Bool) {pieces : List (List Char)} (h : pieces ≠ [])
    (more : List (List Char)) : start absolute (pieces ++ more) = start absolute pieces := by
  simp only [start, dot_append h]

theorem start_cons (absolute : Bool) {c : Component} (h : component? piece = some c)
    (pieces : List (List Char)) : start absolute (piece :: pieces) = start absolute [] := by
  have hdot : piece ≠ ['.'] := by
    rintro rfl
    cases h
  simp [start, dot, hdot]

theorem isName_ne_of_mem_start {absolute : Bool} {pieces : List (List Char)} {n : String} :
    .name n ∉ start absolute pieces := by
  unfold start dot
  split
  · simp
  · split <;> simp

/-- Pieces of a path between its separators, the first of which is not empty unless it is the only
one or the path is absolute. -/
def Pieces (absolute : Bool) (pieces : List (List Char)) : Prop :=
  (∀ piece ∈ pieces, '/' ∉ piece) ∧ (absolute = false → pieces.head? = some [] → pieces.length = 1)

theorem Pieces.of_append {absolute : Bool} {pieces more : List (List Char)}
    (h : Pieces absolute (pieces ++ more)) : Pieces absolute pieces := by
  refine ⟨fun piece hpiece => h.1 piece (List.mem_append_left more hpiece),
    fun hrelative hhead => ?_⟩
  cases pieces with
  | nil => cases hhead
  | cons piece pieces =>
    have hlength := h.2 hrelative hhead
    simp only [List.cons_append, List.length_cons, List.length_append] at hlength ⊢
    omega

/-- The pieces of a path, and its components by them. -/
theorem exists_pieces (p : Path) : ∃ pieces, p.piecesReversed = pieces.reverse ∧
    Pieces p.isAbsolute pieces ∧
    p.components = start p.isAbsolute pieces ++ pieces.filterMap component? := by
  cases habsolute : p.isAbsolute with
  | true =>
    obtain ⟨body, hbody⟩ : ∃ body, p.text.toList = '/' :: body := by
      simpa [isAbsolute, List.head?_eq_some_iff] using habsolute
    refine ⟨Text.splitOn '/' body, by simp only [piecesReversed, hbody], ?_,
      components_of_root body hbody⟩
    exact ⟨fun _ => Text.not_mem_of_mem_splitOn, by simp⟩
  | false =>
    refine ⟨Text.splitOn '/' p.text.toList, ?_, ⟨fun _ => Text.not_mem_of_mem_splitOn, ?_⟩,
      components_of_relative habsolute⟩
    · unfold piecesReversed
      split
      next body hbody => simp [isAbsolute, hbody] at habsolute
      next => rfl
    · rintro - hhead
      have hwhole := Text.intercalate_splitOn '/' p.text.toList
      cases hsplit : Text.splitOn '/' p.text.toList with
      | nil => simp [hsplit] at hhead
      | cons piece pieces =>
        cases pieces with
        | nil => rfl
        | cons next pieces =>
          obtain rfl : piece = [] := by simpa [hsplit] using hhead
          rw [hsplit, List.intercalate_cons_cons] at hwhole
          simp [isAbsolute, ← hwhole] at habsolute

/-- A path that is written by pieces has them as its pieces; one that is written by none has an empty
piece. -/
theorem pieces_ofReversed {absolute : Bool} {pieces : List (List Char)}
    (h : Pieces absolute pieces) : (ofReversed absolute pieces.reverse).isAbsolute = absolute ∧
      (ofReversed absolute pieces.reverse).piecesReversed.reverse =
        if pieces = [] then [[]] else pieces := by
  have hsplit : Text.splitOn '/' (['/'].intercalate pieces) =
      if pieces = [] then [[]] else pieces := by
    split
    next hnil => simp [hnil, Text.splitOn]
    next hne => exact Text.splitOn_intercalate hne h.1
  cases absolute with
  | true => simp [isAbsolute, piecesReversed, ofReversed, hsplit]
  | false =>
    have htext : (ofReversed false pieces.reverse).text.toList = ['/'].intercalate pieces := by
      simp [ofReversed]
    have hrelative : (ofReversed false pieces.reverse).isAbsolute = false := by
      rw [isAbsolute, htext, decide_eq_false_iff_not]
      obtain ⟨hslash, hhead⟩ := h
      rcases pieces with _ | ⟨piece, _ | ⟨next, more⟩⟩
      · simp
      · intro hpiece
        exact hslash piece List.mem_cons_self (List.mem_of_mem_head? (by simpa using hpiece))
      · cases piece with
        | nil => simp at hhead
        | cons c cs =>
          intro hpiece
          obtain rfl : c = '/' := by simpa [List.intercalate_cons_cons] using hpiece
          exact hslash _ List.mem_cons_self List.mem_cons_self
    refine ⟨hrelative, ?_⟩
    unfold piecesReversed
    split
    next body hbody => simp [isAbsolute, hbody] at hrelative
    next => rw [List.reverse_reverse, htext, hsplit]

/-- A path that is written by pieces has their components. -/
theorem components_ofReversed {absolute : Bool} {pieces : List (List Char)}
    (h : Pieces absolute pieces) : (ofReversed absolute pieces.reverse).components =
      start absolute pieces ++ pieces.filterMap component? := by
  obtain ⟨habsolute, hreversed⟩ := pieces_ofReversed h
  obtain ⟨pieces', hpieces', -, hcomponents⟩ := (ofReversed absolute pieces.reverse).exists_pieces
  rw [hpieces', List.reverse_reverse] at hreversed
  rw [hcomponents, habsolute, hreversed]
  split
  next hnil => cases absolute <;> simp [hnil, start, dot, component?]
  next => rfl

/-- Pieces without the idle ones at their end mean the same. -/
theorem exists_dropIdle (absolute : Bool) (pieces : List (List Char)) : ∃ kept idle,
    pieces = kept ++ idle ∧ dropIdle absolute pieces.reverse = kept.reverse ∧
    start absolute kept = start absolute pieces ∧ idle.filterMap component? = [] ∧
    (∀ piece, kept.getLast? = some piece → component? piece = none → kept = [piece]) := by
  induction pieces using List.reverseRecOn with
  | nil => exact ⟨[], [], rfl, rfl, rfl, rfl, by simp⟩
  | append_singleton pieces piece ih =>
    by_cases hidle : piece = [] ∨ piece = ['.']
    · have hnone := component?_eq_none_iff.2 hidle
      cases hpieces : pieces with
      | nil =>
        by_cases hdrop : piece = [] ∨ absolute = true ∧ piece = ['.']
        · have hnil : dropIdle absolute [piece] = [] := by
            rw [dropIdle, if_pos (by simpa using hdrop)]
          refine ⟨[], [piece], rfl, hnil, ?_, by simp [hnone], by simp⟩
          unfold start dot
          rcases hdrop with rfl | ⟨rfl, -⟩ <;> simp
        · have hkept : dropIdle absolute [piece] = [piece] := by
            rw [dropIdle, if_neg (by simpa using hdrop)]
          exact ⟨[piece], [], rfl, hkept, rfl, rfl, by simp⟩
      | cons first more =>
        subst hpieces
        obtain ⟨kept, idle, heq, hdrop, hstart, hrest, hlast⟩ := ih
        refine ⟨kept, idle ++ [piece], by simp [heq], ?_, ?_, by simp [hrest, hnone], hlast⟩
        · rw [← hdrop]
          obtain ⟨last, init, hreverse⟩ := List.exists_cons_of_ne_nil
            (List.reverse_ne_nil_iff.2 (List.cons_ne_nil first more))
          rw [List.reverse_append, List.reverse_singleton, List.singleton_append, hreverse]
          simp [dropIdle, hidle]
        · rw [hstart, start_append absolute (List.cons_ne_nil first more)]
    · refine ⟨pieces ++ [piece], [], by simp, ?_, rfl, rfl, ?_⟩
      · rw [List.reverse_append, List.reverse_singleton, List.singleton_append]
        obtain ⟨hempty, hdot⟩ := not_or.1 hidle
        cases pieces.reverse <;> simp [dropIdle, hempty, hdot]
      · intro piece' hlast hnone
        obtain rfl : piece = piece' := by simpa using hlast
        exact absurd (component?_eq_none_iff.1 hnone) hidle

/-- The directory a path lies in is written by the first of its pieces. -/
theorem exists_of_parent? (h : p.parent? = some q) : ∃ above rest, rest ≠ [] ∧
    p.piecesReversed.reverse = above ++ rest ∧ Pieces p.isAbsolute above ∧
      q = ofReversed p.isAbsolute above.reverse := by
  obtain ⟨pieces, hreversed, hpieces, -⟩ := p.exists_pieces
  obtain ⟨kept, idle, rfl, hdrop, -⟩ := exists_dropIdle p.isAbsolute pieces
  unfold parent? at h
  rw [hreversed, hdrop] at h
  rcases List.eq_nil_or_concat kept with rfl | ⟨init, last, rfl⟩
  · cases h
  rw [List.concat_eq_append] at h hreversed hpieces
  obtain ⟨above, skipped, rfl, habove, -⟩ := exists_dropIdle p.isAbsolute init
  simp only [List.reverse_append, List.reverse_singleton, List.singleton_append] at h
  rw [← List.reverse_append, habove, Option.some.injEq] at h
  refine ⟨above, skipped ++ [last] ++ idle, by simp, ?_, ?_, h.symm⟩
  · simp [hreversed]
  · exact hpieces.of_append.of_append.of_append

/-- The directory of a file has all components of the file but its name. -/
theorem exists_parent? {n : String} (h : p.fileName? = some n) :
    ∃ q, p.parent? = some q ∧ p.components = q.components ++ [.name n] := by
  obtain ⟨pieces, hreversed, hpieces, hcomponents⟩ := p.exists_pieces
  obtain ⟨kept, idle, rfl, hdrop, hstart, hidle, hlast⟩ := exists_dropIdle p.isAbsolute pieces
  rw [List.filterMap_append, hidle, List.append_nil, ← hstart] at hcomponents
  have hname : p.components.getLast? = some (.name n) := by
    unfold fileName? at h
    split at h
    next s hs => rw [hs, Option.some.inj h]
    · cases h
  rcases List.eq_nil_or_concat kept with rfl | ⟨rest, piece, rfl⟩
  · rw [hcomponents, List.filterMap_nil, List.append_nil] at hname
    exact absurd (List.mem_of_getLast? hname) isName_ne_of_mem_start
  rw [List.concat_eq_append] at hcomponents hdrop hlast hpieces hstart hreversed
  obtain ⟨c, hc⟩ : ∃ c, component? piece = some c := by
    refine Option.ne_none_iff_exists'.1 fun hnone => ?_
    obtain rfl : rest = [] := by simpa using hlast piece (by simp) hnone
    rw [hcomponents] at hname
    simp only [List.nil_append, List.filterMap_cons, hnone, List.filterMap_nil,
      List.append_nil] at hname
    exact absurd (List.mem_of_getLast? hname) isName_ne_of_mem_start
  obtain ⟨above, skipped, rfl, habove, hstart', hskipped, -⟩ := exists_dropIdle p.isAbsolute rest
  have hwritten : Pieces p.isAbsolute above :=
    hpieces.of_append.of_append.of_append
  have hsame : start p.isAbsolute above = start p.isAbsolute ((above ++ skipped) ++ [piece]) := by
    rw [hstart']
    by_cases hne : above ++ skipped = []
    · rw [hne, List.nil_append, start_cons _ hc]
    · rw [start_append _ hne]
  refine ⟨ofReversed p.isAbsolute above.reverse, ?_, ?_⟩
  · unfold parent?
    rw [hreversed, hdrop, List.reverse_append, List.reverse_singleton, List.singleton_append]
    simp only [habove]
  · have hlastName : c = .name n := by
      rw [hcomponents, List.filterMap_append, List.filterMap_cons, hc] at hname
      simpa using hname
    rw [components_ofReversed hwritten, hcomponents, hsame, List.filterMap_append,
      List.filterMap_append, hskipped, List.filterMap_cons, hc, hlastName]
    simp

end Path

end IncrementalBuild
