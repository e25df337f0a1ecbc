import IncrementalBuild.Proofs.Path.Components
import IncrementalBuild.State.Layout

/-!
The directory that some files share. Walking the list cuts down what was shared so far, and what is
left at the end is the longest start of all the directories, in whatever order they came.
-/

namespace IncrementalBuild.Path

variable {ps qs : List Path} {p q directory : Path} {cs as bs : List Component}

/-- What starts both of two lists starts the part that they share. -/
theorem prefix_sharedInitial_iff : cs <+: sharedInitial as bs ↔ cs <+: as ∧ cs <+: bs := by
  induction as generalizing bs cs with
  | nil => simp +contextual [sharedInitial]
  | cons a as ih =>
    cases bs with
    | nil => simp +contextual [sharedInitial]
    | cons b bs =>
      rw [sharedInitial]
      cases cs with
      | nil => simp
      | cons c cs =>
        split
        next hab =>
          subst hab
          rw [List.cons_prefix_cons, List.cons_prefix_cons, List.cons_prefix_cons, ih]
          exact and_and_left
        next hab =>
          rw [List.cons_prefix_cons, List.cons_prefix_cons]
          refine iff_of_false (by simp) ?_
          rintro ⟨⟨rfl, -⟩, rfl, -⟩
          exact hab rfl

theorem prefix_foldl_sharedInitial_iff {css : List (List Component)} {first : List Component} :
    cs <+: css.foldl sharedInitial first ↔ ∀ ds ∈ first :: css, cs <+: ds := by
  induction css generalizing first with
  | nil => simp
  | cons ds css ih =>
    rw [List.foldl_cons, ih, List.forall_mem_cons, prefix_sharedInitial_iff, List.forall_mem_cons,
      List.forall_mem_cons, and_assoc]

/-- The directory of a path starts with the components of the path. -/
theorem components_prefix_of_parent? (h : p.parent? = some q) : q.components <+: p.components := by
  obtain ⟨above, rest, -, hpieces, habove, rfl⟩ := exists_of_parent? h
  obtain ⟨pieces, hreversed, -, hcomponents⟩ := p.exists_pieces
  rw [hreversed, List.reverse_reverse] at hpieces
  rw [components_ofReversed habove, hcomponents, hpieces, List.filterMap_append]
  by_cases hne : above = []
  · subst hne
    cases p.isAbsolute <;> simp [start, dot]
  · rw [start_append _ hne, ← List.append_assoc]
    exact List.prefix_append _ _

/-- The common root has the components that all directories start with. -/
theorem components_commonRoot {first : List Component} {rest : List (List Component)}
    (h : (ps.filterMap parent?).map components = first :: rest) :
    (commonRoot ps).components = rest.foldl sharedInitial first := by
  have hspelled : IsSpelled first := by
    have hmem : first ∈ (ps.filterMap parent?).map components := h ▸ List.mem_cons_self
    obtain ⟨q, -, rfl⟩ := List.mem_map.1 hmem
    exact isSpelled_components q
  obtain ⟨more, hmore⟩ : rest.foldl sharedInitial first <+: first :=
    prefix_foldl_sharedInitial_iff.1 List.prefix_rfl first List.mem_cons_self
  rw [commonRoot, h]
  exact components_ofComponents (hmore ▸ hspelled : IsSpelled _).of_append.1

/-- The common root is spelled by its components and nothing else. -/
theorem commonRoot_eq_ofComponents (ps : List Path) :
    commonRoot ps = ofComponents (commonRoot ps).components := by
  cases h : (ps.filterMap parent?).map components with
  | nil =>
    rw [commonRoot, h]
    rfl
  | cons first rest => rw [components_commonRoot h, commonRoot, h]

/-- The common root starts with what all directories start with. -/
theorem prefix_commonRoot_iff (h : ps.filterMap parent? ≠ []) :
    cs <+: (commonRoot ps).components ↔
      ∀ directory ∈ ps.filterMap parent?, cs <+: directory.components := by
  obtain ⟨first, rest, hall⟩ :=
    List.exists_cons_of_ne_nil fun hnil => h (List.map_eq_nil_iff (f := components).1 hnil)
  rw [components_commonRoot hall, prefix_foldl_sharedInitial_iff, ← hall, List.forall_mem_map]

/-- The common root of some paths holds the directory of each of them. -/
theorem commonRoot_isPrefix (hp : p ∈ ps) (hdirectory : p.parent? = some directory) :
    (commonRoot ps).components <+: directory.components := by
  have hmem : directory ∈ ps.filterMap parent? := List.mem_filterMap.2 ⟨p, hp, hdirectory⟩
  exact (prefix_commonRoot_iff (List.ne_nil_of_mem hmem)).1 List.prefix_rfl directory hmem

/-- Where a file lies below the common root of some paths it is among. -/
theorem exists_below {n : String} (hp : p ∈ ps) (hn : p.fileName? = some n) : ∃ below,
    p.components = (commonRoot ps).components ++ (below ++ [.name n]) := by
  obtain ⟨directory, hdirectory, hcomponents⟩ := exists_parent? hn
  obtain ⟨below, hbelow⟩ := commonRoot_isPrefix hp hdirectory
  exact ⟨below, by rw [hcomponents, ← hbelow, List.append_assoc]⟩

theorem dropInitial?_append (as bs : List Component) : dropInitial? as (as ++ bs) = some bs := by
  induction as with
  | nil => rfl
  | cons a as ih => simp [dropInitial?, ih]

/-- What a path has behind the components of another is its part below the other. -/
theorem relativeTo?_of_components (h : p.components = q.components ++ bs) :
    p.relativeTo? q = some (ofComponents bs) ∧ (ofComponents bs).components = bs := by
  refine ⟨?_, components_ofComponents (h ▸ p.isSpelled_components : IsSpelled _).of_append.2⟩
  rw [relativeTo?, h, dropInitial?_append]
  rfl

/-- The order of the paths makes no difference to their common root. -/
theorem commonRoot_perm (h : qs.Perm ps) : commonRoot qs = commonRoot ps := by
  have hdirectories : (qs.filterMap parent?).Perm (ps.filterMap parent?) := h.filterMap _
  by_cases hnil : ps.filterMap parent? = []
  · have hnil' : qs.filterMap parent? = [] := (hnil ▸ hdirectories).eq_nil
    rw [commonRoot, commonRoot, hnil, hnil']
  · have hnil' : qs.filterMap parent? ≠ [] := fun heq => hnil (heq ▸ hdirectories).symm.eq_nil
    have hsame (cs : List Component) :
        cs <+: (commonRoot qs).components ↔ cs <+: (commonRoot ps).components := by
      rw [prefix_commonRoot_iff hnil, prefix_commonRoot_iff hnil']
      exact forall_congr' fun directory => imp_congr_left hdirectories.mem_iff
    have hlonger := (hsame _).1 List.prefix_rfl
    have hshorter := (hsame _).2 List.prefix_rfl
    rw [commonRoot_eq_ofComponents qs, commonRoot_eq_ofComponents ps,
      hlonger.eq_of_length (Nat.le_antisymm hlonger.length_le hshorter.length_le)]

/-- The common root of some paths is the deepest directory that holds all of them: it starts each of
their directories, and whatever starts each of these starts it. It is the same in whatever order the
paths come, and each path has a part below it. Paths that lie in no directory do not count. -/
theorem commonRoot_deepest (h : ∃ p ∈ ps, p.parent?.isSome = true) :
    (∀ directory ∈ ps.filterMap parent?,
      (commonRoot ps).components <+: directory.components) ∧
    (∀ q : Path, (∀ directory ∈ ps.filterMap parent?, q.components <+: directory.components) →
      q.components <+: (commonRoot ps).components) ∧
    (∀ qs : List Path, qs.Perm ps → commonRoot qs = commonRoot ps) ∧
    ∀ p ∈ ps, p.parent?.isSome = true → ∃ below : Path,
      p.relativeTo? (commonRoot ps) = some below ∧
      p.components = (commonRoot ps).components ++ below.components := by
  have hne : ps.filterMap parent? ≠ [] := by
    obtain ⟨p, hp, hsome⟩ := h
    obtain ⟨directory, hdirectory⟩ := Option.isSome_iff_exists.1 hsome
    exact List.ne_nil_of_mem (List.mem_filterMap.2 ⟨p, hp, hdirectory⟩)
  refine ⟨(prefix_commonRoot_iff hne).1 List.prefix_rfl, fun q => (prefix_commonRoot_iff hne).2,
    fun qs => commonRoot_perm, fun p hp hsome => ?_⟩
  obtain ⟨directory, hdirectory⟩ := Option.isSome_iff_exists.1 hsome
  obtain ⟨below, hbelow⟩ :=
    (commonRoot_isPrefix hp hdirectory).trans (components_prefix_of_parent? hdirectory)
  obtain ⟨hrelative, hcomponents⟩ := relativeTo?_of_components hbelow.symm
  exact ⟨_, hrelative, by rw [hcomponents, hbelow]⟩

/-- Files in nested directories, with steps up, and a path that lies in no directory. -/
def scatteredPaths : List Path :=
  [⟨"/w/app/src/main.c"⟩, ⟨"/"⟩, ⟨"/w/app/gen/../b.c"⟩, ⟨"/w/app/./src//util/a.c"⟩]

theorem scatteredPaths_below :
    (∃ p ∈ scatteredPaths, p.parent?.isSome = true) ∧
    (commonRoot scatteredPaths).text = "/w/app" ∧
    commonRoot scatteredPaths.reverse = commonRoot scatteredPaths ∧
    ∃ below : Path, (⟨"/w/app/gen/../b.c"⟩ : Path).relativeTo? (commonRoot scatteredPaths) =
      some below := by
  have hsome : ∃ p ∈ scatteredPaths, p.parent?.isSome = true :=
    ⟨_, List.mem_cons_self, by decide +kernel⟩
  obtain ⟨-, -, hperm, hbelow⟩ := commonRoot_deepest hsome
  obtain ⟨below, hrelative, -⟩ :=
    hbelow ⟨"/w/app/gen/../b.c"⟩ (by simp [scatteredPaths]) (by decide +kernel)
  exact ⟨hsome, by decide +kernel, hperm _ (List.reverse_perm _), below, hrelative⟩

end IncrementalBuild.Path
