import IncrementalBuild.Proofs.Disk.Walk

/-!
What operations on a disk leave alone. A file is found again by a path as long as the directories on
the way and the file itself are there; writing a file or a directory only changes what stands at
its own place.
-/

namespace IncrementalBuild.Disk

variable {d e : Disk}

theorem node?_put_self {l : Location} (hl : l ≠ []) (n : Node) : (d.put l n).node? l = some n := by
  have hne : l.isEmpty = false := by simpa using hl
  simp only [node?, hne, put, Bool.false_eq_true, if_false]
  exact SortedMap.get?_insert_self n (Location.order_eq_iff.2 rfl)

theorem node?_put_ne {k l : Location} (hne : k ≠ l) (n : Node) :
    (d.put l n).node? k = d.node? k := by
  unfold node? put
  split
  · rfl
  · refine SortedMap.get?_insert_of_ne n ?_ ?_
    · rwa [ne_eq, Location.order_eq_iff]
    · intro j hj
      rw [Location.order_eq_iff] at hj
      rw [ne_eq, Location.order_eq_iff, ← hj]
      exact hne

theorem node?_erase {k l : Location} (hnot : ¬ l <+: k) : (d.erase l).node? k = d.node? k := by
  unfold node? erase
  split
  · rfl
  · refine SortedMap.get?_keep ?_
    intro j hj
    rw [Location.order_eq_iff] at hj
    subst hj
    rwa [Bool.not_eq_true', ← Bool.not_eq_true, List.isPrefixOf_iff_prefix]

theorem node?_erase_below {k l : Location} (hl : l ≠ []) (hbelow : l <+: k) :
    (d.erase l).node? k = none := by
  have hne : k.isEmpty = false := by
    rw [List.isEmpty_eq_false_iff]
    rintro rfl
    exact hl (List.prefix_nil.1 hbelow)
  simp only [node?, hne, erase, Bool.false_eq_true, if_false]
  refine SortedMap.get?_keep_eq_none fun j hj => ?_
  rw [Location.order_eq_iff] at hj
  subst hj
  rwa [Bool.not_eq_false', List.isPrefixOf_iff_prefix]

/-- The files that the path leads to on `d` are there on `e`. -/
def KeepsFile (d e : Disk) (p : Path) : Prop :=
  ∀ f, d.lookup p = .ok (.file f) → e.lookup p = .ok (.file f)

theorem KeepsFile.trans {d₁ d₂ d₃ : Disk} {p : Path} (h₁ : d₁.KeepsFile d₂ p)
    (h₂ : d₂.KeepsFile d₃ p) : d₁.KeepsFile d₃ p :=
  fun f h => h₂ f (h₁ f h)

theorem KeepsFile.contents? {p : Path} (h : d.KeepsFile e p) {bytes : ByteArray}
    (hd : d.contents? p = some bytes) : e.contents? p = some bytes := by
  obtain ⟨f, hf, hbytes⟩ := contents?_eq_some_iff.1 hd
  exact contents?_eq_some_iff.2 ⟨f, h f hf, hbytes⟩

/-- A file that stands at the place of the path afterwards stood there before. -/
def Inherits (d e : Disk) (p : Path) : Prop :=
  ∀ f, e.standing p = some (.file f) → d.standing p = some (.file f)

theorem Inherits.refl (d : Disk) (p : Path) : d.Inherits d p :=
  fun _ h => h

theorem Inherits.trans {d₁ d₂ d₃ : Disk} {p : Path} (h₁ : d₁.Inherits d₂ p)
    (h₂ : d₂.Inherits d₃ p) : d₁.Inherits d₃ p :=
  fun f h => h₁ f (h₂ f h)

/-- `e` has a file at `l`, and nothing else has changed. -/
structure Placed (d e : Disk) (l : Location) (bytes : ByteArray) : Prop where
  working_eq : e.workingDirectory = d.workingDirectory
  not_directory : d.node? l ≠ some .directory
  node_self : ∃ f, e.node? l = some (.file f) ∧ f.bytes = bytes
  node_ne : ∀ k, k ≠ l → e.node? k = d.node? k

theorem Placed.keepsFile {l : Location} {bytes : ByteArray} (h : d.Placed e l bytes) {p : Path}
    (hp : p.location d.workingDirectory ≠ l) : d.KeepsFile e p := by
  intro f hf
  refine lookup_congr hf h.working_eq ?_ (h.node_ne _ hp)
  intro k _ hk
  rw [h.node_ne k]
  · exact hk
  · rintro rfl
    exact h.not_directory hk

/-- No file appears at other places, either. -/
theorem Placed.keepsFile_symm {l : Location} {bytes : ByteArray} (h : d.Placed e l bytes) {p : Path}
    (hp : p.location d.workingDirectory ≠ l) : e.KeepsFile d p := by
  intro f hf
  refine lookup_congr hf h.working_eq.symm ?_ ?_
  · intro k _ hk
    rw [← h.node_ne k]
    · exact hk
    · rintro rfl
      obtain ⟨g, hg, -⟩ := h.node_self
      rw [hg] at hk
      cases hk
  · rw [h.working_eq]
    exact (h.node_ne _ hp).symm

theorem Placed.contents?_eq {l : Location} {bytes : ByteArray} (h : d.Placed e l bytes) {p : Path}
    (hp : p.location d.workingDirectory ≠ l) : e.contents? p = d.contents? p :=
  Option.ext fun _ => ⟨(h.keepsFile_symm hp).contents?, (h.keepsFile hp).contents?⟩

theorem Placed.inherits {l : Location} {bytes : ByteArray} (h : d.Placed e l bytes) {p : Path}
    (hp : p.location d.workingDirectory ≠ l) : d.Inherits e p := by
  intro f hf
  rwa [standing, h.working_eq, h.node_ne _ hp] at hf

theorem Placed.stored?_eq {l : Location} {bytes : ByteArray} (h : d.Placed e l bytes) {p : Path}
    (hp : p.location d.workingDirectory ≠ l) : e.stored? p = d.stored? p := by
  simp only [stored?, standing, h.working_eq, h.node_ne _ hp]

/-- Idle pieces at the end of a path lead nowhere else. -/
theorem follow_append_idle {start : Location} (pieces : List (List Char)) {idle : List (List Char)}
    (hidle : ∀ piece ∈ idle, piece = []) :
    Path.follow start (pieces ++ idle) = Path.follow start pieces := by
  unfold Path.follow
  rw [List.foldl_append]
  induction idle with
  | nil => rfl
  | cons piece idle ih =>
    have hpiece := hidle piece List.mem_cons_self
    subst hpiece
    exact ih fun piece hmem => hidle piece (List.mem_cons_of_mem _ hmem)

/-- A name that an entry has is the last piece of its path but for idle ones, and the pieces before
it lead to the directory that holds the entry. -/
theorem pieces_of_entry {p : Path} {entry : Entry} {name : String} (h : d.entry p = .ok entry)
    (hname : entry.name? = some name) :
    ∃ start init last idle, d.pieces p = .ok (start, init ++ last :: idle) ∧
      (∀ piece ∈ idle, piece = []) ∧ (entry.slashed = false → idle = []) ∧
      (last ≠ [] ∧ last ≠ ['.'] ∧ last ≠ ['.', '.']) ∧ name = String.ofList last ∧
      d.walk start init = .ok entry.directory ∧ d.node? entry.directory = some .directory := by
  obtain ⟨⟨start, pieces⟩, hpieces, h⟩ := bind_eq_ok_iff.1 h
  have hsplit := List.takeWhile_append_dropWhile (p := List.isEmpty) (l := pieces.reverse)
  have hidle : ∀ piece ∈ pieces.reverse.takeWhile List.isEmpty, piece = [] := by
    intro piece hpiece
    have hall := List.all_takeWhile (p := List.isEmpty) (l := pieces.reverse)
    simpa using List.all_eq_true.1 hall piece hpiece
  dsimp only at h
  generalize pieces.reverse.dropWhile List.isEmpty = reversed at h hsplit
  generalize pieces.reverse.takeWhile List.isEmpty = trailing at hsplit hidle
  obtain ⟨directory, hwalk, h⟩ := bind_eq_ok_iff.1 h
  split at h
  · cases h
  · cases h
  next hnode =>
  cases h
  dsimp only at hname ⊢
  split at hname
  · cases hname
  next hnamed =>
  cases hname
  cases reversed with
  | nil => simp at hnamed
  | cons last init =>
    have heq : pieces = init.reverse ++ last :: trailing.reverse := by
      rw [← List.reverse_reverse pieces, ← hsplit]
      simp
    refine ⟨start, init.reverse, last, trailing.reverse, ?_, ?_, ?_, ?_, rfl, hwalk, hnode⟩
    · rw [hpieces, heq]
    · exact fun piece hpiece => hidle piece (List.mem_reverse.1 hpiece)
    · intro hslashed
      cases trailing with
      | nil => rfl
      | cons piece rest =>
        have hlast : pieces.getLast? = some [] := by
          rw [heq, hidle piece List.mem_cons_self, List.reverse_cons, ← List.cons_append,
            ← List.append_assoc, List.getLast?_concat]
        simp [hlast] at hslashed
    · refine ⟨?_, ?_, ?_⟩ <;> rintro rfl <;> simp at hnamed

/-- A name that an entry has is the end of its path. -/
theorem entry_eq_ok {p : Path} {entry : Entry} {name : String} (h : d.entry p = .ok entry)
    (hname : entry.name? = some name) :
    p.location d.workingDirectory = entry.directory ++ [name] ∧
      d.node? entry.directory = some .directory := by
  obtain ⟨start, init, last, idle, hpieces, hidle, -, hlast, rfl, hwalk, hnode⟩ :=
    pieces_of_entry h hname
  refine ⟨?_, hnode⟩
  have hfollow : Path.follow start (init ++ [last] ++ idle) = Path.follow start (init ++ [last]) :=
    follow_append_idle (init ++ [last]) hidle
  rw [List.append_assoc, List.singleton_append] at hfollow
  rw [Path.location, pieces_eq_ok hpieces, hfollow, Path.follow_append_singleton,
    ← (walk_eq_ok hwalk).1]
  simp [Path.next, hlast]

theorem placed_put {l : Location} {f : FileNode} (hl : l ≠ [])
    (hnode : d.node? l ≠ some .directory) (hworking : e.workingDirectory = d.workingDirectory)
    (hnodes : e.nodes = d.nodes) : d.Placed (e.put l (.file f)) l f.bytes where
  working_eq := hworking
  not_directory := hnode
  node_self := ⟨f, node?_put_self hl _, rfl⟩
  node_ne k hk := by
    rw [node?_put_ne hk, node?, node?, hnodes]

theorem Entry.locate_eq_ok_iff {entry : Entry} {name : String} {l : Location} :
    entry.locate name = .ok l ↔
      name.utf8ByteSize ≤ longestName ∧ l = entry.directory ++ [name] := by
  unfold Entry.locate
  split
  next hlong => simp [Nat.not_le.2 hlong]
  next hshort => simp [Nat.not_lt.1 hshort, eq_comm]

/-- A file can be written where an entry has a name, if that is not too long, and no directory has
it. -/
theorem entry_of_writable {p : Path} {l : Location} (h : d.writable p = .ok l) :
    ∃ entry name, d.entry p = .ok entry ∧ entry.name? = some name ∧ entry.slashed = false ∧
      name.utf8ByteSize ≤ longestName ∧ l = entry.directory ++ [name] ∧
      d.node? l ≠ some .directory := by
  obtain ⟨entry, hentry, h⟩ := bind_eq_ok_iff.1 h
  split at h
  · cases h
  next name hname =>
  split at h
  · cases h
  next hslashed =>
  obtain ⟨l', hlocate, h⟩ := bind_eq_ok_iff.1 h
  obtain ⟨hshort, rfl⟩ := Entry.locate_eq_ok_iff.1 hlocate
  split at h
  · cases h
  next hnode =>
    cases h
    exact ⟨entry, name, hentry, hname, Bool.eq_false_iff.2 hslashed, hshort, rfl, hnode⟩

theorem writable_eq_ok {p : Path} {l : Location} (h : d.writable p = .ok l) :
    l = p.location d.workingDirectory ∧ l ≠ [] ∧ d.node? l ≠ some .directory := by
  obtain ⟨entry, name, hentry, hname, -, -, rfl, hnode⟩ := entry_of_writable h
  exact ⟨(entry_eq_ok hentry hname).1.symm, by simp, hnode⟩

theorem walk_idle {l : Location} {idle : List (List Char)} (hidle : ∀ piece ∈ idle, piece = [])
    (hnode : idle ≠ [] → d.node? l = some .directory) : d.walk l idle = .ok l := by
  induction idle with
  | nil => rfl
  | cons piece idle ih =>
    rw [walk, hnode (by simp), hidle piece List.mem_cons_self]
    exact ih (fun piece hmem => hidle piece (List.mem_cons_of_mem _ hmem)) fun _ => hnode (by simp)

/-- The place of an entry is where its path leads, if that is a directory or nothing asks for
one. -/
theorem locate_of_entry {p : Path} {entry : Entry} {name : String} {l : Location}
    (h : d.entry p = .ok entry) (hname : entry.name? = some name) (hl : entry.locate name = .ok l)
    (hend : entry.slashed = true → d.node? l = some .directory) : d.locate p = .ok l := by
  obtain ⟨hshort, rfl⟩ := Entry.locate_eq_ok_iff.1 hl
  obtain ⟨start, init, last, idle, hpieces, hidle, hunslashed, hlast, rfl, hwalk, hnode⟩ :=
    pieces_of_entry h hname
  refine bind_eq_ok_iff.2 ⟨_, hpieces, ?_⟩
  dsimp only
  rw [walk_append]
  refine bind_eq_ok_iff.2 ⟨_, hwalk, ?_⟩
  have hrest : d.walk (entry.directory ++ [String.ofList last]) idle =
      .ok (entry.directory ++ [String.ofList last]) := by
    refine walk_idle hidle fun hne => hend ?_
    by_contra hslashed
    exact hne (hunslashed (Bool.eq_false_iff.2 hslashed))
  simpa [walk, hnode, hlast, tooLong, Nat.not_lt.2 hshort] using hrest

/-- The place where a file can be written is where its path leads. -/
theorem locate_of_writable {p : Path} {l : Location} (h : d.writable p = .ok l) :
    d.locate p = .ok l := by
  obtain ⟨entry, name, hentry, hname, hslashed, hshort, hl, -⟩ := entry_of_writable h
  refine locate_of_entry hentry hname (Entry.locate_eq_ok_iff.2 ⟨hshort, hl⟩) fun h => ?_
  rw [hslashed] at h
  cases h

/-- A write that succeeds changes the file at its place. -/
theorem placed_of_write {p : Path} {bytes : ByteArray} (h : d.write p bytes = .ok e) :
    d.Placed e (p.location d.workingDirectory) bytes := by
  obtain ⟨l, hwritable, h⟩ := bind_eq_ok_iff.1 h
  cases h
  obtain ⟨rfl, hl, hnode⟩ := writable_eq_ok hwritable
  exact placed_put hl hnode rfl rfl

/-- What is written is read back. -/
theorem contents?_of_write {p : Path} {bytes : ByteArray} (h : d.write p bytes = .ok e) :
    e.contents? p = some bytes := by
  have hplaced := placed_of_write h
  have hlocate : d.locate p = .ok (p.location d.workingDirectory) := by
    obtain ⟨l, hwritable, -⟩ := bind_eq_ok_iff.1 h
    rw [← (writable_eq_ok hwritable).1]
    exact locate_of_writable hwritable
  obtain ⟨f, hf, hbytes⟩ := hplaced.node_self
  obtain ⟨-, hway⟩ := locate_eq_ok hlocate
  have hnow : e.locate p = .ok (p.location d.workingDirectory) := by
    apply locate_congr hlocate hplaced.working_eq
    intro k hk
    rw [hplaced.node_ne k]
    · exact hway k hk
    · rintro rfl
      exact hplaced.not_directory (hway _ hk)
  exact contents?_eq_some_iff.2 ⟨f, lookup_eq_ok_iff.2 ⟨_, hnow, hf⟩, hbytes⟩

/-- A move that succeeds leaves alone all that is not at or below the place it starts from or at the
place it leads to, and leaves nothing where it starts from. -/
structure Moved (d e : Disk) (origin destination : Location) : Prop where
  working_eq : e.workingDirectory = d.workingDirectory
  not_directory : d.node? destination ≠ some .directory
  node_self : ∃ f, d.node? origin = some (.file f) ∧ e.node? destination = some (.file f)
  node_ne : ∀ k, ¬ origin <+: k → k ≠ destination → e.node? k = d.node? k
  node_below : ∀ k, origin <+: k → k ≠ destination → e.node? k = none

theorem moved_of_rename {p q : Path} (h : d.rename p q = .ok e) :
    d.Moved e (p.location d.workingDirectory) (q.location d.workingDirectory) := by
  obtain ⟨origin, hlocate, h⟩ := bind_eq_ok_iff.1 h
  obtain ⟨rfl, -⟩ := locate_eq_ok hlocate
  obtain ⟨entry, hentry, h⟩ := bind_eq_ok_iff.1 h
  split at h
  · cases h
  next name hname =>
  obtain ⟨hlocation, -⟩ := entry_eq_ok hentry hname
  split at h
  · cases h
  · cases h
  next f horigin =>
  obtain ⟨destination, hdestination, h⟩ := bind_eq_ok_iff.1 h
  obtain ⟨-, rfl⟩ := Entry.locate_eq_ok_iff.1 hdestination
  by_cases hslashed : entry.slashed = true
  · rw [if_pos hslashed] at h
    cases h
  rw [if_neg hslashed] at h
  split at h
  · cases h
  next hnode =>
  cases h
  rw [hlocation]
  have hroot : p.location d.workingDirectory ≠ [] := by
    intro hnil
    rw [hnil] at horigin
    cases horigin
  refine ⟨rfl, hnode, ⟨f, horigin, node?_put_self (by simp) _⟩, ?_, ?_⟩
  · intro k hk hne
    rw [node?_put_ne hne, node?_erase hk]
  · intro k hk hne
    rw [node?_put_ne hne, node?_erase_below hroot hk]

theorem Moved.keepsFile {origin destination : Location} (h : d.Moved e origin destination)
    {p : Path} (horigin : ∀ l ∈ p.location d.workingDirectory :: p.way d.workingDirectory,
      ¬ origin <+: l) (hdestination : p.location d.workingDirectory ≠ destination) :
    d.KeepsFile e p := by
  intro f hf
  refine lookup_congr hf h.working_eq ?_ ?_
  · intro k hk hdirectory
    rw [h.node_ne k (horigin k (List.mem_cons_of_mem _ hk))]
    · exact hdirectory
    · rintro rfl
      exact h.not_directory hdirectory
  · exact h.node_ne _ (horigin _ List.mem_cons_self) hdestination

/-- Only directories have been added, where there was nothing. -/
structure Furnished (d e : Disk) : Prop where
  working_eq : e.workingDirectory = d.workingDirectory
  node_eq : ∀ l, e.node? l = d.node? l ∨ d.node? l = none ∧ e.node? l = some .directory

namespace Furnished

theorem refl (d : Disk) : d.Furnished d :=
  ⟨rfl, fun _ => .inl rfl⟩

theorem trans {d₁ d₂ d₃ : Disk} (h₁ : d₁.Furnished d₂) (h₂ : d₂.Furnished d₃) :
    d₁.Furnished d₃ := by
  refine ⟨h₂.working_eq.trans h₁.working_eq, fun l => ?_⟩
  rcases h₂.node_eq l with h | ⟨hnone, hdirectory⟩
  · rw [h]
    exact h₁.node_eq l
  · rcases h₁.node_eq l with h | ⟨-, hsome⟩
    · exact .inr ⟨h ▸ hnone, hdirectory⟩
    · rw [hsome] at hnone
      cases hnone

theorem keepsFile (h : d.Furnished e) (p : Path) : d.KeepsFile e p := by
  intro f hf
  have hstanding := (lookup_eq_ok hf).1
  refine lookup_congr hf h.working_eq ?_ ?_
  · intro k _ hk
    rcases h.node_eq k with heq | ⟨hnone, -⟩
    · rw [heq, hk]
    · rw [hk] at hnone
      cases hnone
  · rcases h.node_eq (p.location d.workingDirectory) with heq | ⟨hnone, -⟩
    · exact heq
    · rw [standing, hnone] at hstanding
      cases hstanding

theorem inherits (h : d.Furnished e) (p : Path) : d.Inherits e p := by
  intro f hf
  rw [standing, h.working_eq] at hf
  rcases h.node_eq (p.location d.workingDirectory) with heq | ⟨-, hdirectory⟩
  · rwa [heq] at hf
  · rw [hdirectory] at hf
    cases hf

theorem stored?_eq (h : d.Furnished e) (p : Path) : e.stored? p = d.stored? p := by
  simp only [stored?, standing, h.working_eq]
  rcases h.node_eq (p.location d.workingDirectory) with heq | ⟨hnone, hdirectory⟩
  · rw [heq]
  · rw [hnone, hdirectory]

end Furnished

theorem furnished_of_makeDirectory {p : Path} (h : d.makeDirectory p = .ok e) : d.Furnished e := by
  obtain ⟨entry, hentry, h⟩ := bind_eq_ok_iff.1 h
  split at h
  · cases h
  next name hname =>
  obtain ⟨place, hplace, h⟩ := bind_eq_ok_iff.1 h
  obtain ⟨-, rfl⟩ := Entry.locate_eq_ok_iff.1 hplace
  split at h
  · cases h
  next hsome =>
  cases h
  have hnode : d.node? (entry.directory ++ [name]) = none := by simpa using hsome
  refine ⟨rfl, fun l => ?_⟩
  by_cases hl : l = entry.directory ++ [name]
  · subst hl
    exact .inr ⟨hnode, node?_put_self (by simp) _⟩
  · exact .inl (node?_put_ne hl _)

theorem furnished_makeFrom (d : Disk) (ps : List Path) : d.Furnished (d.makeFrom ps).2 := by
  induction ps generalizing d with
  | nil => exact .refl d
  | cons p holders ih =>
    rw [makeFrom]
    split
    next e hmade => exact furnished_of_makeDirectory hmade
    next =>
      split
      next fault e hholders =>
        have h := ih d
        rwa [hholders] at h
      next e hholders =>
        have h := ih d
        rw [hholders] at h
        split
        next e' hmade => exact h.trans (furnished_of_makeDirectory hmade)
        next => exact h
    next => exact .refl d

theorem furnished_createDirectories (d : Disk) (p : Path) :
    d.Furnished (d.createDirectories p).2 :=
  furnished_makeFrom d p.ancestors

end IncrementalBuild.Disk
