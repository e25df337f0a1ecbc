import IncrementalBuild.Proofs.Disk.Frame

/-!
Disks whose working directory is there. On such a disk the directories on a way lie in directories,
so no way goes through a file, and a path leads on to what it led to unless the file at its own end
was written or moved.
-/

namespace IncrementalBuild

namespace Path

theorem passed_append (l : Location) (pieces more : List (List Char)) :
    passed l (pieces ++ more) = passed l pieces ++ passed (follow l pieces) more := by
  induction pieces generalizing l with
  | nil => rfl
  | cons piece pieces ih =>
    rw [List.cons_append, passed, passed, ih, List.cons_append]
    rfl

/-- What lies on the way to the place after one more piece lies on the way to the place before. -/
theorem isPrefix_of_next {j l : Location} {piece : List Char} (h : j <+: next l piece)
    (hne : j ≠ next l piece) : j <+: l := by
  unfold next at h hne
  split at h
  · exact h
  · split at h
    · exact h.trans (List.dropLast_prefix l)
    next hidle hup =>
      rw [if_neg hidle, if_neg hup] at hne
      exact (List.prefix_concat_iff.1 h).resolve_left hne

end Path

namespace Disk

variable {d e : Disk}

/-- The working directory is there, with those it lies in. -/
def Grounded (d : Disk) : Prop :=
  ∀ l, l <+: d.workingDirectory → d.node? l = some .directory

theorem directory_above {start : Location} {pieces : List (List Char)}
    (hstart : ∀ j, j <+: start → j ≠ start → d.node? j = some .directory)
    (hpassed : ∀ k ∈ Path.passed start pieces, d.node? k = some .directory) {j k : Location}
    (hk : k ∈ Path.follow start pieces :: Path.passed start pieces) (hj : j <+: k) (hne : j ≠ k) :
    d.node? j = some .directory := by
  induction pieces generalizing start with
  | nil =>
    obtain rfl : k = start := by simpa [Path.follow, Path.passed] using hk
    exact hstart j hj hne
  | cons piece pieces ih =>
    have hdirectory (i : Location) (hi : i <+: start) : d.node? i = some .directory := by
      by_cases heq : i = start
      · exact heq ▸ hpassed start List.mem_cons_self
      · exact hstart i hi heq
    have hnext (i : Location) (hi : i <+: Path.next start piece)
        (hine : i ≠ Path.next start piece) : d.node? i = some .directory :=
      hdirectory i (Path.isPrefix_of_next hi hine)
    have hrest (i : Location) (hi : i ∈ Path.passed (Path.next start piece) pieces) :
        d.node? i = some .directory := hpassed i (List.mem_cons_of_mem _ hi)
    rcases List.mem_cons.1 hk with hend | hk
    · exact ih hnext hrest (List.mem_cons.2 (.inl hend))
    · rcases List.mem_cons.1 hk with rfl | hk
      · exact hdirectory j hj
      · exact ih hnext hrest (List.mem_cons_of_mem _ hk)

namespace Grounded

/-- No way goes below a place without a directory. -/
theorem eq_of_not_directory (hd : d.Grounded) {p : Path}
    (hway : ∀ k ∈ p.way d.workingDirectory, d.node? k = some .directory) {j k : Location}
    (hk : k ∈ p.location d.workingDirectory :: p.way d.workingDirectory) (hj : j <+: k)
    (hnode : d.node? j ≠ some .directory) : j = k := by
  have hstart (i : Location) (hi : i <+: (p.parts d.workingDirectory).1)
      (_ : i ≠ (p.parts d.workingDirectory).1) : d.node? i = some .directory := by
    unfold Path.parts at hi
    split at hi
    · rw [List.prefix_nil.1 hi]
      rfl
    · exact hd i hi
  by_contra hne
  exact hnode (directory_above hstart hway hk hj hne)

theorem of_placed (hd : d.Grounded) {l : Location} {bytes : ByteArray}
    (h : d.Placed e l bytes) : e.Grounded := by
  intro k hk
  rw [h.working_eq] at hk
  rw [h.node_ne k]
  · exact hd k hk
  · rintro rfl
    exact h.not_directory (hd k hk)

theorem of_moved (hd : d.Grounded) {origin destination : Location}
    (h : d.Moved e origin destination) : e.Grounded := by
  intro k hk
  rw [h.working_eq] at hk
  obtain ⟨f, hf, -⟩ := h.node_self
  rw [h.node_ne k]
  · exact hd k hk
  · intro horigin
    rw [hd origin (horigin.trans hk)] at hf
    cases hf
  · rintro rfl
    exact h.not_directory (hd k hk)

theorem of_furnished (hd : d.Grounded) (h : d.Furnished e) : e.Grounded := by
  intro k hk
  rw [h.working_eq] at hk
  rcases h.node_eq k with heq | ⟨hnone, -⟩
  · rw [heq, hd k hk]
  · rw [hd k hk] at hnone
    cases hnone

end Grounded

/-- What the path leads to on `d` is what it leads to on `e`. -/
def KeepsNode (d e : Disk) (p : Path) : Prop :=
  ∀ n, d.lookup p = .ok n → e.lookup p = .ok n

namespace KeepsNode

variable {p : Path}

theorem refl (d : Disk) (p : Path) : d.KeepsNode d p :=
  fun _ h => h

theorem trans {d₁ d₂ d₃ : Disk} (h₁ : d₁.KeepsNode d₂ p) (h₂ : d₂.KeepsNode d₃ p) :
    d₁.KeepsNode d₃ p :=
  fun n h => h₂ n (h₁ n h)

theorem isDirectory (h : d.KeepsNode e p) (hd : d.isDirectory p = true) :
    e.isDirectory p = true := by
  unfold Disk.isDirectory at hd ⊢
  split at hd
  next hlookup => rw [h _ hlookup]
  · cases hd

end KeepsNode

theorem Furnished.keepsNode (h : d.Furnished e) (p : Path) : d.KeepsNode e p := by
  intro n hn
  have hkeeps {k : Location} {m : Node} (hk : d.node? k = some m) : e.node? k = d.node? k := by
    rcases h.node_eq k with heq | ⟨hnone, -⟩
    · exact heq
    · rw [hk] at hnone
      cases hnone
  exact lookup_congr hn h.working_eq (fun k _ hk => (hkeeps hk).trans hk)
    (hkeeps (lookup_eq_ok hn).1)

theorem Placed.keepsNode {l : Location} {bytes : ByteArray} (h : d.Placed e l bytes) {p : Path}
    (hp : p.location d.workingDirectory ≠ l) : d.KeepsNode e p := by
  intro n hn
  refine lookup_congr hn h.working_eq ?_ (h.node_ne _ hp)
  intro k _ hk
  rw [h.node_ne k, hk]
  rintro rfl
  exact h.not_directory hk

namespace Moved

variable {origin destination : Location} {p : Path}

/-- A way that is there stays where a file is moved. -/
theorem directory (h : d.Moved e origin destination) (hd : d.Grounded)
    (hway : ∀ k ∈ p.way d.workingDirectory, d.node? k = some .directory) :
    ∀ k ∈ p.way d.workingDirectory, e.node? k = some .directory := by
  intro k hk
  obtain ⟨f, hf, -⟩ := h.node_self
  have horigin : d.node? origin ≠ some .directory := by simp [hf]
  rw [h.node_ne k, hway k hk]
  · intro hbelow
    rw [hd.eq_of_not_directory hway (List.mem_cons_of_mem _ hk) hbelow horigin] at horigin
    exact horigin (hway k hk)
  · rintro rfl
    exact h.not_directory (hway k hk)

theorem keepsNode (h : d.Moved e origin destination) (hd : d.Grounded)
    (horigin : p.location d.workingDirectory ≠ origin)
    (hdestination : p.location d.workingDirectory ≠ destination) : d.KeepsNode e p := by
  intro n hn
  obtain ⟨f, hf, -⟩ := h.node_self
  have hway := (lookup_eq_ok hn).2
  refine lookup_congr hn h.working_eq (fun k hk _ => h.directory hd hway k hk) ?_
  refine h.node_ne _ ?_ hdestination
  intro hbelow
  exact horigin (hd.eq_of_not_directory hway List.mem_cons_self hbelow (by simp [hf])).symm

end Moved

theorem eq_append_of_dropWhile {pieces : List (List Char)} {last : List Char}
    {init : List (List Char)} (h : pieces.reverse.dropWhile List.isEmpty = last :: init) :
    ∃ idle, pieces = init.reverse ++ last :: idle := by
  have hsplit := List.takeWhile_append_dropWhile (p := List.isEmpty) (l := pieces.reverse)
  rw [h] at hsplit
  generalize pieces.reverse.takeWhile List.isEmpty = trailing at hsplit
  refine ⟨trailing.reverse, ?_⟩
  rw [← List.reverse_reverse pieces, ← hsplit]
  simp

/-- An entry that has a name is there on a disk that has the directories on its way. -/
theorem entry_congr {p : Path} {entry : Entry} {name : String} (h : d.entry p = .ok entry)
    (hname : entry.name? = some name) (hworking : e.workingDirectory = d.workingDirectory)
    (hway : ∀ k ∈ p.way d.workingDirectory, d.node? k = some .directory →
      e.node? k = some .directory) : e.entry p = .ok entry := by
  have heq : e.pieces p = d.pieces p := by
    simp only [Disk.pieces, hworking]
  obtain ⟨⟨start, pieces⟩, hpieces, h⟩ := bind_eq_ok_iff.1 h
  obtain ⟨directory, hwalk, h⟩ := bind_eq_ok_iff.1 h
  split at h
  · cases h
  · cases h
  next hnode =>
  cases h
  rw [Path.way, pieces_eq_ok hpieces] at hway
  cases hreversed : pieces.reverse.dropWhile List.isEmpty with
  | nil => simp [hreversed] at hname
  | cons last init =>
    obtain ⟨idle, hsplit⟩ := eq_append_of_dropWhile hreversed
    rw [hreversed, List.tail_cons] at hwalk
    obtain ⟨hdirectory, hpassed⟩ := walk_eq_ok hwalk
    rw [hsplit, Path.passed_append, ← hdirectory] at hway
    have hwalk' : e.walk start init.reverse = .ok directory :=
      walk_congr hwalk fun k hk => hway k (List.mem_append_left _ hk) (hpassed k hk)
    have hnode' : e.node? directory = some .directory :=
      hway _ (List.mem_append_right _ List.mem_cons_self) hnode
    refine bind_eq_ok_iff.2 ⟨_, heq.trans hpieces, bind_eq_ok_iff.2 ⟨directory, ?_, ?_⟩⟩
    · rw [hreversed]
      exact hwalk'
    · simp only [hnode', hreversed]
      rfl

/-- A place where a file can be written stays one while the directories on its way stay, and no
directory comes to stand there. -/
theorem writable_congr {p : Path} {l : Location} (h : d.writable p = .ok l)
    (hworking : e.workingDirectory = d.workingDirectory)
    (hway : ∀ k ∈ p.way d.workingDirectory, d.node? k = some .directory →
      e.node? k = some .directory) (hnode : e.node? l ≠ some .directory) :
    e.writable p = .ok l := by
  obtain ⟨entry, name, hentry, hname, hslashed, hshort, rfl, -⟩ := entry_of_writable h
  refine bind_eq_ok_iff.2 ⟨entry, entry_congr hentry hname hworking hway, ?_⟩
  simp only [hname, hslashed, Bool.false_eq_true, if_false]
  refine bind_eq_ok_iff.2 ⟨_, Entry.locate_eq_ok_iff.2 ⟨hshort, rfl⟩, ?_⟩
  split
  next hdirectory => exact absurd hdirectory hnode
  next => rfl

/-- A file can be moved to where one can be written. -/
theorem exists_rename {p q : Path} {f : FileNode} {l : Location}
    (hf : d.lookup p = .ok (.file f)) (h : d.writable q = .ok l) :
    ∃ moved, d.rename p q = .ok moved := by
  obtain ⟨origin, hlocate, horigin⟩ := lookup_eq_ok_iff.1 hf
  obtain ⟨entry, name, hentry, hname, hslashed, hshort, rfl, hnode⟩ := entry_of_writable h
  have hl : entry.locate name = .ok (entry.directory ++ [name]) :=
    Entry.locate_eq_ok_iff.2 ⟨hshort, rfl⟩
  refine ⟨(d.erase origin).put (entry.directory ++ [name]) (.file f), ?_⟩
  refine bind_eq_ok_iff.2 ⟨origin, hlocate, bind_eq_ok_iff.2 ⟨entry, hentry, ?_⟩⟩
  simp only [hname, horigin]
  refine bind_eq_ok_iff.2 ⟨_, hl, ?_⟩
  simp only [hslashed, Bool.false_eq_true, if_false]
  rfl

/-- A file that is moved is found at the path it was moved to. -/
theorem lookup_of_rename (hd : d.Grounded) {p q : Path} (h : d.rename p q = .ok e) {f : FileNode}
    (hf : d.lookup p = .ok (.file f)) : e.lookup q = .ok (.file f) := by
  have hmoved := moved_of_rename h
  obtain ⟨g, hg, hnow⟩ := hmoved.node_self
  obtain ⟨origin, -, h⟩ := bind_eq_ok_iff.1 h
  obtain ⟨entry, hentry, h⟩ := bind_eq_ok_iff.1 h
  split at h
  · cases h
  next name hname =>
  split at h
  · cases h
  · cases h
  obtain ⟨destination, hdestination, h⟩ := bind_eq_ok_iff.1 h
  by_cases hslashed : entry.slashed = true
  · rw [if_pos hslashed] at h
    cases h
  have hlocate : d.locate q = .ok destination :=
    locate_of_entry hentry hname hdestination fun hslashed' => absurd hslashed' hslashed
  obtain ⟨rfl, hway⟩ := locate_eq_ok hlocate
  obtain rfl : g = f := by simpa [standing, hg] using (lookup_eq_ok hf).1
  have hthere : e.locate q = .ok (q.location d.workingDirectory) :=
    locate_congr hlocate hmoved.working_eq (hmoved.directory hd hway)
  exact lookup_eq_ok_iff.2 ⟨_, hthere, hnow⟩

end Disk

end IncrementalBuild
