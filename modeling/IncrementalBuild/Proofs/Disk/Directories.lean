import IncrementalBuild.Proofs.Disk.Grounded

/-!
Making directories. A directory that was made is there, and asking for one that is there changes
nothing.
-/

namespace IncrementalBuild

theorem Path.ancestors_cases (p : Path) :
    p.ancestors = [] ∨ ∃ holders, p.ancestors = p :: holders := by
  unfold ancestors
  cases p.piecesReversed.length with
  | zero => exact .inl rfl
  | succ limit =>
    rw [ancestorsWithin]
    split
    · exact .inl rfl
    · exact .inr ⟨_, rfl⟩

namespace Disk

variable {d e : Disk} {p : Path}

theorem isDirectory_iff : d.isDirectory p = true ↔ d.lookup p = .ok .directory := by
  unfold isDirectory
  split
  next h => simp [h]
  next h => simpa using h

/-- A directory that is made is there. -/
theorem isDirectory_of_makeDirectory (h : d.makeDirectory p = .ok e) : e.isDirectory p = true := by
  have hfurnished := furnished_of_makeDirectory h
  obtain ⟨entry, hentry, h⟩ := bind_eq_ok_iff.1 h
  split at h
  · cases h
  next name hname =>
  obtain ⟨l, hl, h⟩ := bind_eq_ok_iff.1 h
  obtain ⟨-, rfl⟩ := Entry.locate_eq_ok_iff.1 hl
  split at h
  · cases h
  cases h
  have hnode := node?_put_self (d := d) (l := entry.directory ++ [name]) (by simp) .directory
  refine isDirectory_iff.2 (lookup_eq_ok_iff.2 ⟨_, ?_, hnode⟩)
  refine locate_of_entry (entry_congr hentry hname rfl ?_) hname hl fun _ => hnode
  intro k _ hk
  rcases hfurnished.node_eq k with heq | ⟨-, hdirectory⟩
  · rw [heq, hk]
  · exact hdirectory

/-- The directory that holds what a path leads to is there. -/
theorem exists_entry_of_isDirectory (h : d.isDirectory p = true) :
    ∃ entry, d.entry p = .ok entry := by
  obtain ⟨l, hlocate, hl⟩ := lookup_eq_ok_iff.1 (isDirectory_iff.1 h)
  obtain ⟨⟨start, pieces⟩, hpieces, hwalk⟩ := bind_eq_ok_iff.1 hlocate
  dsimp only at hwalk
  obtain ⟨hend, hpassed⟩ := walk_eq_ok hwalk
  obtain ⟨directory, hholds, hnode⟩ : ∃ directory,
      d.walk start (pieces.reverse.dropWhile List.isEmpty).tail.reverse = .ok directory ∧
        d.node? directory = some .directory := by
    cases hreversed : pieces.reverse.dropWhile List.isEmpty with
    | nil =>
      refine ⟨start, rfl, ?_⟩
      cases pieces with
      | nil => rwa [hend] at hl
      | cons piece pieces => exact hpassed start List.mem_cons_self
    | cons last init =>
      obtain ⟨idle, rfl⟩ := eq_append_of_dropWhile hreversed
      rw [walk_append] at hwalk
      obtain ⟨directory, hholds, -⟩ := bind_eq_ok_iff.1 hwalk
      refine ⟨directory, hholds, hpassed _ ?_⟩
      rw [Path.passed_append, ← (walk_eq_ok hholds).1]
      exact List.mem_append_right _ List.mem_cons_self
  simp only [entry, hpieces, hholds, hnode, bind, Except.bind]
  exact ⟨_, rfl⟩

theorem makeDirectory_of_isDirectory (h : d.isDirectory p = true) :
    ∃ fault, d.makeDirectory p = .error fault ∧ fault ≠ .notFound := by
  obtain ⟨entry, hentry⟩ := exists_entry_of_isDirectory h
  unfold makeDirectory
  rw [hentry]
  cases hname : entry.name? with
  | none => exact ⟨.alreadyExists, by simp [bind, Except.bind, hname, throw, throwThe,
      MonadExceptOf.throw], by decide⟩
  | some name =>
    have hnode := (lookup_eq_ok (isDirectory_iff.1 h)).1
    rw [standing, (entry_eq_ok hentry hname).1] at hnode
    cases hl : entry.locate name with
    | error fault =>
      refine ⟨fault, by simp [bind, Except.bind, hname, hl], ?_⟩
      unfold Entry.locate at hl
      split at hl <;> cases hl
      decide
    | ok l =>
      obtain ⟨-, rfl⟩ := Entry.locate_eq_ok_iff.1 hl
      exact ⟨.alreadyExists, by simp [bind, Except.bind, hname, hl, hnode, throw, throwThe,
        MonadExceptOf.throw], by decide⟩

theorem createDirectories_of_isDirectory (h : d.isDirectory p = true) :
    d.createDirectories p = (.ok (), d) := by
  unfold createDirectories
  rcases p.ancestors_cases with hnil | ⟨holders, hcons⟩
  · rw [hnil, makeFrom]
  · obtain ⟨fault, hfault, hne⟩ := makeDirectory_of_isDirectory h
    rw [hcons, makeFrom, hfault]
    split
    next hok => cases hok
    next heq => cases heq; exact absurd rfl hne
    next heq => cases heq; simp [h]

theorem isDirectory_of_createDirectories (h : d.createDirectories p = (.ok (), e)) :
    p.ancestors = [] ∨ e.isDirectory p = true := by
  unfold createDirectories at h
  rcases p.ancestors_cases with hnil | ⟨holders, hcons⟩
  · exact .inl hnil
  right
  rw [hcons, makeFrom] at h
  split at h
  next hmade =>
    cases h
    exact isDirectory_of_makeDirectory hmade
  · split at h
    · cases h
    · split at h
      next hmade =>
        cases h
        exact isDirectory_of_makeDirectory hmade
      · grind
  · grind

end Disk

end IncrementalBuild
