import IncrementalBuild.Proofs.Disk.Directories
import IncrementalBuild.Proofs.Disk.Spelling

/-!
What steps leave alone that write at some paths. All that is watched and lies apart from these paths
is as it was, nothing appears where nothing was, and directories stay wherever they are.
-/

namespace IncrementalBuild

namespace Path

/-- The path leads to none of the places of others. -/
def ApartFrom (p : Path) (others : List Path) (l : Location) : Prop :=
  ∀ o ∈ others, p.location l ≠ o.location l

instance (p : Path) (others : List Path) (l : Location) : Decidable (p.ApartFrom others l) :=
  inferInstanceAs (Decidable (∀ o ∈ others, p.location l ≠ o.location l))

variable {p q : Path} {os others : List Path} {l : Location}

theorem ApartFrom.mono (h : p.ApartFrom others l) (hsub : os ⊆ others) : p.ApartFrom os l :=
  fun o ho => h o (hsub ho)

theorem apartFrom_pair {o o' : Path} :
    p.ApartFrom [o, o'] l ↔ p.location l ≠ o.location l ∧ p.location l ≠ o'.location l := by
  simp [ApartFrom]

theorem beq_eq_false_of_location_ne (h : p.location l ≠ q.location l) : (p == q) = false :=
  Bool.eq_false_iff.2 fun heq => h (location_eq_of_beq heq l)

theorem ApartFrom.of_beq (h : p.ApartFrom others l) (heq : (q == p) = true) :
    q.ApartFrom others l := fun o ho => by
  rw [location_eq_of_beq heq]
  exact h o ho

end Path

namespace Disk

variable {d e : Disk} {p q : Path}

namespace KeepsNode

theorem lookup_eq (h : d.KeepsNode e p) (hd : d.present p = true) : e.lookup p = d.lookup p := by
  unfold present at hd
  split at hd
  next n hn => rw [hn, h n hn]
  · cases hd

theorem present (h : d.KeepsNode e p) (hd : d.present p = true) : e.present p = true := by
  rw [Disk.present, h.lookup_eq hd]
  exact hd

theorem readText (h : d.KeepsNode e p) {text : String} (hd : d.readText p = .ok text) :
    e.readText p = .ok text := by
  obtain ⟨f, hf, -⟩ := readText_eq_ok hd
  rw [← hd, Disk.readText, Disk.readText, Disk.read, Disk.read, hf, h _ hf]

end KeepsNode

theorem present_of_contents? {bytes : ByteArray} (h : d.contents? p = some bytes) :
    d.present p = true := by
  obtain ⟨f, hf, -⟩ := contents?_eq_some_iff.1 h
  rw [present, hf]

theorem present_of_write {bytes : ByteArray} (h : d.write p bytes = .ok e) :
    e.present p = true :=
  present_of_contents? (contents?_of_write h)

/-- What is left of the watched paths where some paths are written. -/
structure Leaves (Watched : Path → Prop) (written : List Path) (d e : Disk) : Prop where
  working_eq : e.workingDirectory = d.workingDirectory
  grounded : e.Grounded
  isDirectory : ∀ q, Watched q → d.isDirectory q = true → e.isDirectory q = true
  keepsNode : ∀ q, Watched q → q.ApartFrom written d.workingDirectory → d.KeepsNode e q
  inherits : ∀ q, Watched q → q.ApartFrom written d.workingDirectory → d.Inherits e q

namespace Leaves

variable {Watched : Path → Prop} {written more : List Path}

theorem refl (hd : d.Grounded) : d.Leaves Watched written d :=
  ⟨rfl, hd, fun _ _ h => h, fun _ _ _ => .refl d _, fun _ _ _ => .refl d _⟩

theorem trans {d₁ d₂ d₃ : Disk} (h₁ : d₁.Leaves Watched written d₂)
    (h₂ : d₂.Leaves Watched written d₃) : d₁.Leaves Watched written d₃ where
  working_eq := h₂.working_eq.trans h₁.working_eq
  grounded := h₂.grounded
  isDirectory q hq hd := h₂.isDirectory q hq (h₁.isDirectory q hq hd)
  keepsNode q hq hapart :=
    (h₁.keepsNode q hq hapart).trans (h₂.keepsNode q hq (h₁.working_eq ▸ hapart))
  inherits q hq hapart :=
    (h₁.inherits q hq hapart).trans (h₂.inherits q hq (h₁.working_eq ▸ hapart))

theorem mono (h : d.Leaves Watched written e) (hsub : written ⊆ more) :
    d.Leaves Watched more e where
  working_eq := h.working_eq
  grounded := h.grounded
  isDirectory := h.isDirectory
  keepsNode q hq hapart := h.keepsNode q hq (hapart.mono hsub)
  inherits q hq hapart := h.inherits q hq (hapart.mono hsub)

theorem narrow {Fewer : Path → Prop} (h : d.Leaves Watched written e)
    (hsub : ∀ q, Fewer q → Watched q) : d.Leaves Fewer written e where
  working_eq := h.working_eq
  grounded := h.grounded
  isDirectory q hq := h.isDirectory q (hsub q hq)
  keepsNode q hq := h.keepsNode q (hsub q hq)
  inherits q hq := h.inherits q (hsub q hq)

end Leaves

/-- Making directories writes nothing. -/
theorem Furnished.leaves (h : d.Furnished e) (hd : d.Grounded) (Watched : Path → Prop)
    (written : List Path) : d.Leaves Watched written e where
  working_eq := h.working_eq
  grounded := hd.of_furnished h
  isDirectory _ _ := (h.keepsNode _).isDirectory
  keepsNode _ _ _ := h.keepsNode _
  inherits _ _ _ := h.inherits _

theorem location_ne_of_isDirectory {l : Location} (h : d.isDirectory q = true)
    (hl : d.node? l ≠ some .directory) : q.location d.workingDirectory ≠ l := by
  rintro rfl
  exact hl (lookup_eq_ok (isDirectory_iff.1 h)).1

theorem Placed.leaves {bytes : ByteArray} (h : d.Placed e (p.location d.workingDirectory) bytes)
    (hd : d.Grounded) (Watched : Path → Prop) : d.Leaves Watched [p] e where
  working_eq := h.working_eq
  grounded := hd.of_placed h
  isDirectory _ _ hq :=
    (h.keepsNode (location_ne_of_isDirectory hq h.not_directory)).isDirectory hq
  keepsNode _ _ hapart := h.keepsNode (hapart p List.mem_cons_self)
  inherits _ _ hapart := h.inherits (hapart p List.mem_cons_self)

theorem Moved.inherits {origin destination : Location} (h : d.Moved e origin destination)
    (hp : p.location d.workingDirectory ≠ destination) : d.Inherits e p := by
  intro f hf
  rw [standing, h.working_eq] at hf
  by_cases hbelow : origin <+: p.location d.workingDirectory
  · rw [h.node_below _ hbelow hp] at hf
    cases hf
  · rwa [h.node_ne _ hbelow hp] at hf

theorem Moved.leaves (h : d.Moved e (p.location d.workingDirectory)
    (q.location d.workingDirectory)) (hd : d.Grounded) (Watched : Path → Prop) :
    d.Leaves Watched [p, q] e where
  working_eq := h.working_eq
  grounded := hd.of_moved h
  isDirectory _ _ hr := by
    obtain ⟨f, hf, -⟩ := h.node_self
    have hfile : d.node? (p.location d.workingDirectory) ≠ some .directory := by simp [hf]
    have horigin := location_ne_of_isDirectory hr hfile
    exact (h.keepsNode hd horigin (location_ne_of_isDirectory hr h.not_directory)).isDirectory hr
  keepsNode _ _ hapart :=
    h.keepsNode hd (hapart p List.mem_cons_self) (hapart q (by simp))
  inherits _ _ hapart := h.inherits (hapart q (by simp))

end Disk

end IncrementalBuild
