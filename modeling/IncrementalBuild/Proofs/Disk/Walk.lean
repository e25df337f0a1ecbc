import IncrementalBuild.Disk.Basic
import IncrementalBuild.Proofs.Except
import IncrementalBuild.Proofs.SortedMap
import IncrementalBuild.Proofs.Text.Encoding

/-!
Where paths lead. The location of a path is read off its text, and the disk only decides whether
there is a way to it: every step on it has to be taken from a directory.
-/

namespace IncrementalBuild

theorem Location.order_eq_iff {k l : Location} : Location.order k l = .eq ↔ k = l := by
  induction k generalizing l with
  | nil => cases l <;> simp [Location.order]
  | cons a k ih => cases l <;> simp [Location.order, Ordering.then_eq_eq, ih]

/-- Locations are in a linear order, in which the first names that differ decide. -/
theorem Location.order_linear : SortedMap.Linear Location.order :=
  SortedMap.linear_compare.lists (fun _ _ => Std.LawfulEqCmp.eq_of_compare) rfl (fun _ _ => rfl)
    (fun _ _ => rfl) fun _ _ _ _ => rfl

namespace Path

/-- The location after one more piece of a path. -/
def next (l : Location) (piece : List Char) : Location :=
  if piece = [] || piece = ['.'] then l
  else if piece = ['.', '.'] then l.dropLast
  else l ++ [String.ofList piece]

/-- The location that pieces lead to from `l`. -/
def follow (l : Location) (pieces : List (List Char)) : Location :=
  pieces.foldl next l

theorem follow_append_singleton (l : Location) (pieces : List (List Char)) (piece : List Char) :
    follow l (pieces ++ [piece]) = next (follow l pieces) piece := by
  rw [follow, List.foldl_append]
  rfl

/-- The locations from which the steps of the pieces are taken. -/
def passed (l : Location) : List (List Char) → List Location
  | [] => []
  | piece :: pieces => l :: passed (next l piece) pieces

/-- Where a path starts, and its pieces. -/
def parts (p : Path) (workingDirectory : Location) : Location × List (List Char) :=
  match p.text.toList with
  | '/' :: body => ([], Text.splitOn '/' body)
  | cs => (workingDirectory, Text.splitOn '/' cs)

/-- The location a path names, whether or not there is a way to it. -/
def location (p : Path) (workingDirectory : Location) : Location :=
  follow (p.parts workingDirectory).1 (p.parts workingDirectory).2

/-- The locations on the way along a path. -/
def way (p : Path) (workingDirectory : Location) : List Location :=
  passed (p.parts workingDirectory).1 (p.parts workingDirectory).2

/-- The places along a path, from where it starts to where it leads. -/
def trail (p : Path) (workingDirectory : Location) : List Location :=
  p.way workingDirectory ++ [p.location workingDirectory]

theorem parts_eq_of_isAbsolute {p : Path} (h : p.isAbsolute = true) (l : Location) :
    p.parts l = p.parts [] := by
  unfold parts
  split
  next => rfl
  next hroot =>
    simp only [isAbsolute, decide_eq_true_eq, List.head?_eq_some_iff] at h
    obtain ⟨body, hbody⟩ := h
    exact absurd hbody (hroot body)

/-- Absolute paths that lead to different places. -/
def Apart (p q : Path) : Prop :=
  p.isAbsolute = true ∧ q.isAbsolute = true ∧ p.location [] ≠ q.location []

instance (p q : Path) : Decidable (p.Apart q) :=
  inferInstanceAs (Decidable (_ ∧ _ ∧ _))

theorem Apart.location_ne {p q : Path} (h : p.Apart q) (l : Location) :
    p.location l ≠ q.location l := by
  obtain ⟨hp, hq, hne⟩ := h
  rwa [location, location, parts_eq_of_isAbsolute hp, parts_eq_of_isAbsolute hq]

/-- The way along `q` meets neither the place of `p` nor anything below it. -/
def Avoids (q p : Path) : Prop :=
  ∀ workingDirectory, ∀ l ∈ q.location workingDirectory :: q.way workingDirectory,
    ¬ p.location workingDirectory <+: l

theorem avoids_of_isAbsolute {q p : Path} (hq : q.isAbsolute = true) (hp : p.isAbsolute = true)
    (h : ∀ l ∈ q.location [] :: q.way [], ¬ p.location [] <+: l) : q.Avoids p := by
  intro workingDirectory
  rwa [location, location, way, parts_eq_of_isAbsolute hq, parts_eq_of_isAbsolute hp]

end Path

namespace Disk

variable {d : Disk}

/-- What stands at the place of a path, whether or not there is a way to it. -/
def standing (d : Disk) (p : Path) : Option Node :=
  d.node? (p.location d.workingDirectory)

/-- The contents of the file that stands at the place of a path. -/
def stored? (d : Disk) (p : Path) : Option ByteArray :=
  match d.standing p with
  | some (.file f) => some f.bytes
  | _ => none

theorem walk_eq_ok {start l : Location} {pieces : List (List Char)}
    (h : d.walk start pieces = .ok l) :
    l = Path.follow start pieces ∧
      ∀ k ∈ Path.passed start pieces, d.node? k = some .directory := by
  induction pieces generalizing start with
  | nil =>
    rw [walk] at h
    cases h
    simp [Path.follow, Path.passed]
  | cons piece pieces ih =>
    rw [walk] at h
    split at h
    · cases h
    · cases h
    next hnode =>
      have hrest : d.walk (Path.next start piece) pieces = .ok l := by
        unfold Path.next
        split
        next hidle => rwa [if_pos hidle] at h
        next hidle =>
          rw [if_neg hidle] at h
          split
          next hup => rwa [if_pos hup] at h
          next hup =>
            rw [if_neg hup] at h
            split at h
            · cases h
            · exact h
      obtain ⟨hl, hpassed⟩ := ih hrest
      refine ⟨by simpa [Path.follow] using hl, ?_⟩
      intro k hk
      rcases List.mem_cons.1 hk with rfl | hk
      · exact hnode
      · exact hpassed k hk

theorem walk_append (start : Location) (pieces more : List (List Char)) :
    d.walk start (pieces ++ more) = (d.walk start pieces).bind fun l => d.walk l more := by
  induction pieces generalizing start with
  | nil => rfl
  | cons piece pieces ih =>
    rw [List.cons_append, walk, walk]
    split
    · rfl
    · rfl
    · split
      · exact ih _
      · split
        · exact ih _
        · split
          · rfl
          · exact ih _

/-- A way that is there in one disk is there in another with the same directories on it. -/
theorem walk_congr {e : Disk} {start l : Location} {pieces : List (List Char)}
    (h : d.walk start pieces = .ok l)
    (hpassed : ∀ k ∈ Path.passed start pieces, e.node? k = some .directory) :
    e.walk start pieces = .ok l := by
  induction pieces generalizing start with
  | nil => simpa [walk] using h
  | cons piece pieces ih =>
    have hstart : e.node? start = some .directory := hpassed start List.mem_cons_self
    have hrest (k : Location) (hk : k ∈ Path.passed (Path.next start piece) pieces) :
        e.node? k = some .directory := hpassed k (List.mem_cons_of_mem _ hk)
    rw [walk] at h ⊢
    split at h
    · cases h
    · cases h
    simp only [hstart]
    unfold Path.next at hrest
    split at h
    next hidle =>
      rw [if_pos hidle] at hrest ⊢
      exact ih h hrest
    next hidle =>
      rw [if_neg hidle] at hrest ⊢
      split at h
      next hup =>
        rw [if_pos hup] at hrest ⊢
        exact ih h hrest
      next hup =>
        rw [if_neg hup] at hrest ⊢
        split at h
        · cases h
        next hshort =>
          rw [if_neg hshort]
          exact ih h hrest

theorem pieces_eq_ok {p : Path} {start : Location} {pieces : List (List Char)}
    (h : d.pieces p = .ok (start, pieces)) : p.parts d.workingDirectory = (start, pieces) := by
  unfold Disk.pieces at h
  dsimp only at h
  split at h
  · cases h
  split at h
  · cases h
  unfold Path.parts
  split at h
  · cases h
  next body hbody =>
    cases h
    simp only [hbody]
  next cs hnil hroot =>
    cases h
    split
    next body hbody => exact absurd hbody (hroot body)
    next => rfl

theorem locate_eq_ok {p : Path} {l : Location} (h : d.locate p = .ok l) :
    l = p.location d.workingDirectory ∧
      ∀ k ∈ p.way d.workingDirectory, d.node? k = some .directory := by
  obtain ⟨⟨start, pieces⟩, hpieces, hwalk⟩ := bind_eq_ok_iff.1 h
  rw [Path.location, Path.way, pieces_eq_ok hpieces]
  exact walk_eq_ok hwalk

theorem locate_congr {e : Disk} {p : Path} {l : Location} (h : d.locate p = .ok l)
    (hworking : e.workingDirectory = d.workingDirectory)
    (hway : ∀ k ∈ p.way d.workingDirectory, e.node? k = some .directory) :
    e.locate p = .ok l := by
  have heq : e.pieces p = d.pieces p := by
    simp only [Disk.pieces, hworking]
  obtain ⟨⟨start, pieces⟩, hpieces, hwalk⟩ := bind_eq_ok_iff.1 h
  rw [Path.way, pieces_eq_ok hpieces] at hway
  exact bind_eq_ok_iff.2 ⟨(start, pieces), heq.trans hpieces, walk_congr hwalk hway⟩

theorem lookup_eq_ok_iff {p : Path} {n : Node} :
    d.lookup p = .ok n ↔ ∃ l, d.locate p = .ok l ∧ d.node? l = some n := by
  rw [lookup, bind_eq_ok_iff]
  refine exists_congr fun l => and_congr_right fun _ => ?_
  split
  next n' hnode => simp [hnode, pure, Except.pure]
  next hnode => simp [hnode, throw, throwThe, MonadExceptOf.throw]

theorem lookup_eq_ok {p : Path} {n : Node} (h : d.lookup p = .ok n) :
    d.standing p = some n ∧ ∀ k ∈ p.way d.workingDirectory, d.node? k = some .directory := by
  obtain ⟨l, hlocate, hnode⟩ := lookup_eq_ok_iff.1 h
  obtain ⟨rfl, hway⟩ := locate_eq_ok hlocate
  exact ⟨hnode, hway⟩

/-- What a path leads to stays where the directories on the way and the node at its end stay. -/
theorem lookup_congr {e : Disk} {p : Path} {n : Node} (h : d.lookup p = .ok n)
    (hworking : e.workingDirectory = d.workingDirectory)
    (hway : ∀ k ∈ p.way d.workingDirectory, d.node? k = some .directory →
      e.node? k = some .directory)
    (hend : e.node? (p.location d.workingDirectory) = d.node? (p.location d.workingDirectory)) :
    e.lookup p = .ok n := by
  obtain ⟨l, hlocate, hnode⟩ := lookup_eq_ok_iff.1 h
  obtain ⟨rfl, hdirectories⟩ := locate_eq_ok hlocate
  have hnow : e.locate p = .ok (p.location d.workingDirectory) :=
    locate_congr hlocate hworking fun k hk => hway k hk (hdirectories k hk)
  exact lookup_eq_ok_iff.2 ⟨_, hnow, hend.trans hnode⟩

theorem read_eq_ok_iff {p : Path} {bytes : ByteArray} :
    d.read p = .ok bytes ↔ ∃ f, d.lookup p = .ok (.file f) ∧ f.bytes = bytes := by
  rw [read, bind_eq_ok_iff]
  constructor
  · rintro ⟨n, hlookup, hbytes⟩
    cases n with
    | directory => cases hbytes
    | file f => exact ⟨f, hlookup, Except.ok.inj hbytes⟩
  · rintro ⟨f, hlookup, rfl⟩
    exact ⟨.file f, hlookup, rfl⟩

/-- The contents of the file that a path leads to. -/
def contents? (d : Disk) (p : Path) : Option ByteArray :=
  (d.read p).toOption

theorem contents?_eq_some_iff {bytes : ByteArray} :
    d.contents? p = some bytes ↔ ∃ f, d.lookup p = .ok (.file f) ∧ f.bytes = bytes := by
  rw [← read_eq_ok_iff, contents?]
  cases d.read p <;> simp [Except.toOption]

/-- A file that holds the bytes of a text is read as that text. -/
theorem readText_of_contents? {p : Path} {text : String} (h : d.contents? p = some text.toUTF8) :
    d.readText p = .ok text := by
  refine bind_eq_ok_iff.2 ⟨_, read_eq_ok_iff.2 (contents?_eq_some_iff.1 h), ?_⟩
  rw [Text.fromUTF8?_toUTF8]
  rfl

theorem readText_eq_ok {p : Path} {text : String} (h : d.readText p = .ok text) :
    ∃ f, d.lookup p = .ok (.file f) ∧ String.fromUTF8? f.bytes = some text := by
  obtain ⟨bytes, hread, htext⟩ := bind_eq_ok_iff.1 h
  obtain ⟨f, hf, rfl⟩ := read_eq_ok_iff.1 hread
  split at htext
  next s hsome =>
    cases htext
    exact ⟨f, hf, hsome⟩
  next => cases htext

end Disk

end IncrementalBuild
