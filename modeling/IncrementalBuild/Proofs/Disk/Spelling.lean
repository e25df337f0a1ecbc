import IncrementalBuild.Proofs.Disk.Walk

/-!
Two spellings of a path. Pieces that name no component matter only at the end of a path, where they
ask for a directory: two spellings that lead to files lead to the same file, on every disk.
-/

namespace IncrementalBuild

namespace Path

/-- A piece that names a component. -/
def Names (piece : List Char) : Prop :=
  piece ≠ [] ∧ piece ≠ ['.']

instance (piece : List Char) : Decidable (Names piece) :=
  inferInstanceAs (Decidable (_ ∧ _))

theorem idle_eq_true_iff {piece : List Char} :
    (decide (piece = []) || decide (piece = ['.'])) = true ↔ ¬ Names piece := by
  simp only [Names, Bool.or_eq_true, decide_eq_true_eq, ne_eq, not_and_or, not_not]

theorem component?_ne_current (piece : List Char) : component? piece ≠ some .current := by
  unfold component?
  split
  · simp
  · split <;> simp

theorem component?_ne_root (piece : List Char) : component? piece ≠ some .root := by
  unfold component?
  split
  · simp
  · split <;> simp

/-- The piece a component past the start of a path was read from. -/
def pieceOf : Component → List Char
  | .name s => s.toList
  | .parent => ['.', '.']
  | .root | .current => []

theorem map_pieceOf_component? (piece : List Char) :
    (component? piece).map pieceOf = if Names piece then some piece else none := by
  unfold component?
  split
  next hidle => rw [if_neg (idle_eq_true_iff.1 hidle), Option.map_none]
  next hidle =>
    have hnames : Names piece := not_not.1 fun hnot => hidle (idle_eq_true_iff.2 hnot)
    rw [if_pos hnames]
    split
    next hup => simp [pieceOf, hup]
    next => simp [pieceOf]

theorem map_pieceOf_filterMap (pieces : List (List Char)) :
    (pieces.filterMap component?).map pieceOf = pieces.filter fun piece => Names piece := by
  induction pieces with
  | nil => rfl
  | cons piece pieces ih =>
    have hpiece := map_pieceOf_component? piece
    rw [List.filterMap_cons, List.filter_cons]
    cases hcomponent : component? piece with
    | none =>
      rw [hcomponent] at hpiece
      split at hpiece
      · cases hpiece
      next hnot => simpa [hnot] using ih
    | some c =>
      rw [hcomponent] at hpiece
      split at hpiece
      next hnames =>
        obtain rfl : pieceOf c = piece := by simpa using hpiece
        simp [hnames, ih]
      · cases hpiece

theorem filter_names_congr {pieces pieces' : List (List Char)}
    (h : pieces.filterMap component? = pieces'.filterMap component?) :
    (pieces.filter fun piece => Names piece) = pieces'.filter fun piece => Names piece := by
  rw [← map_pieceOf_filterMap, h, map_pieceOf_filterMap]

/-- The components of a path are those of its pieces, behind the root or the dot it starts with. -/
theorem components_eq_of_parts (p : Path) (l : Location) :
    p.components = .root :: (p.parts l).2.filterMap component? ∧ (p.parts l).1 = [] ∨
      p.components = .current :: (p.parts l).2.filterMap component? ∧ (p.parts l).1 = l ∨
        p.components = (p.parts l).2.filterMap component? ∧ (p.parts l).1 = l := by
  unfold components
  split
  next body hbody =>
    have hparts : p.parts l = ([], Text.splitOn '/' body) := by simp only [parts, hbody]
    rw [hparts]
    exact .inl ⟨rfl, rfl⟩
  next hrelative =>
    have hparts : p.parts l = (l, Text.splitOn '/' p.text.toList) := by
      unfold parts
      split
      next body hbody => exact absurd hbody (hrelative body)
      next => rfl
    rw [hparts]
    dsimp only
    split
    · exact .inr (.inl ⟨rfl, rfl⟩)
    · exact .inr (.inr ⟨rfl, rfl⟩)

/-- The location after one more component. -/
def step (l : Location) : Component → Location
  | .root => []
  | .current => l
  | .parent => l.dropLast
  | .name n => l ++ [n]

theorem follow_eq_foldl (l : Location) (pieces : List (List Char)) :
    follow l pieces = (pieces.filterMap component?).foldl step l := by
  induction pieces generalizing l with
  | nil => rfl
  | cons piece pieces ih =>
    have hrest : follow l (piece :: pieces) = follow (next l piece) pieces := rfl
    rw [hrest, ih, List.filterMap_cons]
    unfold next component?
    split
    · rfl
    · split <;> rfl

/-- The place of a path is read off its components. -/
theorem location_eq_foldl (p : Path) (l : Location) : p.location l = p.components.foldl step l := by
  rw [location, follow_eq_foldl]
  rcases components_eq_of_parts p l with ⟨hp, hstart⟩ | ⟨hp, hstart⟩ | ⟨hp, hstart⟩ <;>
    rw [hp, hstart] <;> rfl

/-- Two spellings of a path lead to the same place. -/
theorem location_eq_of_beq {p q : Path} (h : (p == q) = true) (l : Location) :
    p.location l = q.location l := by
  have hcomponents : p.components = q.components := of_decide_eq_true h
  rw [location_eq_foldl, location_eq_foldl, hcomponents]

theorem ne_cons_filterMap {c : Component} (hc : ∀ piece, component? piece ≠ some c)
    (cs : List Component) (pieces : List (List Char)) :
    c :: cs ≠ pieces.filterMap component? := by
  intro heq
  have hmem : c ∈ pieces.filterMap component? := heq ▸ List.mem_cons_self
  obtain ⟨piece, -, hpiece⟩ := List.mem_filterMap.1 hmem
  exact hc piece hpiece

/-- Two spellings of a path start at the same place, and the same pieces of theirs name
components. -/
theorem parts_congr {p q : Path} (h : (p == q) = true) (l : Location) :
    (p.parts l).1 = (q.parts l).1 ∧
      ((p.parts l).2.filter fun piece => Names piece) =
        (q.parts l).2.filter fun piece => Names piece := by
  have hcomponents : p.components = q.components := of_decide_eq_true h
  have hroot := ne_cons_filterMap component?_ne_root
  have hcurrent := ne_cons_filterMap component?_ne_current
  rcases components_eq_of_parts p l with ⟨hp, hp'⟩ | ⟨hp, hp'⟩ | ⟨hp, hp'⟩ <;>
    rcases components_eq_of_parts q l with ⟨hq, hq'⟩ | ⟨hq, hq'⟩ | ⟨hq, hq'⟩ <;>
    rw [hp, hq] at hcomponents
  · exact ⟨hp'.trans hq'.symm, filter_names_congr (List.cons.inj hcomponents).2⟩
  · cases (List.cons.inj hcomponents).1
  · exact absurd hcomponents (hroot _ _)
  · cases (List.cons.inj hcomponents).1
  · exact ⟨hp'.trans hq'.symm, filter_names_congr (List.cons.inj hcomponents).2⟩
  · exact absurd hcomponents (hcurrent _ _)
  · exact absurd hcomponents.symm (hroot _ _)
  · exact absurd hcomponents.symm (hcurrent _ _)
  · exact ⟨hp'.trans hq'.symm, filter_names_congr hcomponents⟩

end Path

namespace Disk

variable {d e : Disk} {p q : Path}

theorem walk_cons_congr {pieces pieces' : List (List Char)}
    (h : ∀ k, d.walk k pieces = d.walk k pieces') (l : Location) (piece : List Char) :
    d.walk l (piece :: pieces) = d.walk l (piece :: pieces') := by
  rw [walk, walk]
  simp only [h]

/-- Pieces that name no component can be left out of a walk, unless it ends with one. -/
theorem walk_filter_names {l : Location} {pieces : List (List Char)}
    (hlast : ∀ piece, pieces.getLast? = some piece → Path.Names piece) :
    d.walk l pieces = d.walk l (pieces.filter fun piece => Path.Names piece) := by
  induction pieces generalizing l with
  | nil => rfl
  | cons piece pieces ih =>
    rw [List.filter_cons]
    rcases pieces with _ | ⟨next, pieces⟩
    · have hnames : Path.Names piece := hlast piece rfl
      simp [hnames]
    · have hrest (k : Location) := ih (l := k) fun x hx => hlast x (by simpa using hx)
      by_cases hnames : Path.Names piece
      · simp only [hnames, decide_true, if_true]
        exact walk_cons_congr hrest l piece
      · -- The walk stays where it is, and the next step is taken from a directory, too.
        obtain ⟨last, hlastPiece⟩ : ∃ last, (next :: pieces).getLast? = some last :=
          ⟨_, List.getLast?_cons⟩
        have hmem : last ∈ (next :: pieces).filter fun piece => Path.Names piece := by
          refine List.mem_filter.2 ⟨List.mem_of_getLast? hlastPiece, decide_eq_true ?_⟩
          exact hlast last (by simpa using hlastPiece)
        obtain ⟨first, more, hcons⟩ := List.exists_cons_of_ne_nil (List.ne_nil_of_mem hmem)
        simp only [hnames, decide_false, Bool.false_eq_true, if_false]
        rw [walk, if_pos (Path.idle_eq_true_iff.2 hnames), hrest, hcons, walk]
        split <;> rfl

theorem snd_parts_eq (p : Path) (k l : Location) : (p.parts k).2 = (p.parts l).2 := by
  unfold Path.parts
  split <;> rfl

/-- A path that leads to a file ends with the file's name. -/
theorem names_of_lookup {f : FileNode} (h : d.lookup p = .ok (.file f)) {piece : List Char}
    (hlast : (p.parts d.workingDirectory).2.getLast? = some piece) : Path.Names piece := by
  by_contra hnot
  obtain ⟨l, hlocate, hnode⟩ := lookup_eq_ok_iff.1 h
  obtain ⟨⟨start, pieces⟩, hpieces, hwalk⟩ := bind_eq_ok_iff.1 hlocate
  rw [pieces_eq_ok hpieces] at hlast
  obtain ⟨before, rfl⟩ := List.getLast?_eq_some_iff.1 hlast
  dsimp only at hwalk
  rw [walk_append] at hwalk
  obtain ⟨k, -, hstep⟩ := bind_eq_ok_iff.1 hwalk
  rw [walk] at hstep
  split at hstep
  · cases hstep
  · cases hstep
  next hdirectory =>
    rw [if_pos (Path.idle_eq_true_iff.2 hnot), walk] at hstep
    cases hstep
    rw [hdirectory] at hnode
    cases hnode

/-- Whether a path can be walked at all is not up to the disk. -/
theorem pieces_eq_parts {f : FileNode} (h : d.lookup p = .ok (.file f)) (e : Disk) :
    e.pieces p = .ok (p.parts e.workingDirectory) := by
  obtain ⟨l, hlocate, -⟩ := lookup_eq_ok_iff.1 h
  obtain ⟨⟨start, pieces⟩, hpieces, -⟩ := bind_eq_ok_iff.1 hlocate
  have hsame : ∃ x, e.pieces p = .ok x := by
    unfold Disk.pieces at hpieces ⊢
    dsimp only at hpieces ⊢
    split at hpieces
    · cases hpieces
    next hnul =>
      split at hpieces
      · cases hpieces
      next hshort =>
        rw [if_neg hnul, if_neg hshort]
        split at hpieces
        · cases hpieces
        · exact ⟨_, rfl⟩
        · exact ⟨_, rfl⟩
  obtain ⟨⟨start', pieces'⟩, hpieces'⟩ := hsame
  rw [hpieces', pieces_eq_ok hpieces']

theorem locate_eq_walk {f : FileNode} (h : d.lookup p = .ok (.file f)) (e : Disk) :
    e.locate p = e.walk (p.parts e.workingDirectory).1
      ((p.parts e.workingDirectory).2.filter fun piece => Path.Names piece) := by
  have hlast (piece : List Char)
      (hpiece : (p.parts e.workingDirectory).2.getLast? = some piece) : Path.Names piece := by
    rw [snd_parts_eq p _ d.workingDirectory] at hpiece
    exact names_of_lookup h hpiece
  rw [← walk_filter_names hlast, locate, pieces_eq_parts h]
  rfl

/-- Two spellings of a path that lead to files lead to the same place, on every disk. -/
theorem lookup_eq_of_beq {f g : FileNode} (h : (p == q) = true) (hp : d.lookup p = .ok (.file f))
    (hq : d.lookup q = .ok (.file g)) (e : Disk) : e.lookup p = e.lookup q := by
  obtain ⟨hstart, hpieces⟩ := Path.parts_congr h e.workingDirectory
  rw [lookup, lookup, locate_eq_walk hp, locate_eq_walk hq, hstart, hpieces]

end Disk

end IncrementalBuild
