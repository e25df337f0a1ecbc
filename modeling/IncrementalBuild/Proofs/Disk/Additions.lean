import IncrementalBuild.Proofs.Disk.Grounded
import IncrementalBuild.Proofs.Path.Components

/-!
What steps add to a disk. Making directories, writing files and moving them puts something only at
the paths that are named, and on the way to them.
-/

namespace IncrementalBuild

namespace Path

open Component

variable {p q : Path} {l : Location}

theorem parts_eq (p : Path) (l : Location) :
    p.parts l = (if p.isAbsolute then [] else l, p.piecesReversed.reverse) := by
  unfold parts piecesReversed
  split
  next body hbody => simp [isAbsolute, hbody]
  next hrelative =>
    have hnot : p.isAbsolute = false := by
      rw [isAbsolute, decide_eq_false_iff_not, List.head?_eq_some_iff]
      rintro ⟨body, hbody⟩
      exact hrelative body hbody
    simp [hnot]

/-- All places along the path of a directory lie on the way to what it holds. -/
theorem trail_subset_of_parent? (h : p.parent? = some q) (l : Location) :
    q.trail l ⊆ p.way l := by
  obtain ⟨above, rest, hrest, hpieces, habove, rfl⟩ := exists_of_parent? h
  obtain ⟨habsolute, hreversed⟩ := pieces_ofReversed habove
  obtain ⟨piece, rest, rfl⟩ := List.exists_cons_of_ne_nil hrest
  unfold trail way location
  rw [parts_eq p, parts_eq (ofReversed _ _), hpieces, habsolute, hreversed, passed_append]
  dsimp only
  generalize (if p.isAbsolute then [] else l) = first
  split
  next hnil =>
    subst hnil
    simp [passed, follow, next]
  next =>
    refine List.append_subset.2 ⟨List.subset_append_left _ _, ?_⟩
    exact List.cons_subset.2 ⟨by simp [passed], List.nil_subset _⟩

theorem trail_subset_of_mem_ancestors (h : q ∈ p.ancestors) (l : Location) :
    q.trail l ⊆ p.trail l := by
  have hwithin (limit : Nat) (p : Path) (h : q ∈ p.ancestorsWithin limit) :
      q.trail l ⊆ p.trail l := by
    induction limit generalizing p with
    | zero => cases h
    | succ limit ih =>
      rw [ancestorsWithin] at h
      split at h
      · cases h
      next holder hparent =>
        rcases List.mem_cons.1 h with rfl | h
        · exact List.Subset.refl _
        · exact List.Subset.trans (ih holder h) (List.Subset.trans
            (trail_subset_of_parent? hparent l) (List.subset_append_left _ _))
  exact hwithin _ p h

end Path

namespace Disk

variable {d e : Disk} {p q : Path} {added more : List Path}

/-- Something has come only to places along the paths. -/
structure Adds (added : List Path) (d e : Disk) : Prop where
  working_eq : e.workingDirectory = d.workingDirectory
  bare : ∀ k, d.node? k = none → (∀ o ∈ added, k ∉ o.trail d.workingDirectory) → e.node? k = none

namespace Adds

theorem refl (added : List Path) (d : Disk) : d.Adds added d :=
  ⟨rfl, fun _ h _ => h⟩

theorem trans {d₁ d₂ d₃ : Disk} (h₁ : d₁.Adds added d₂) (h₂ : d₂.Adds added d₃) :
    d₁.Adds added d₃ where
  working_eq := h₂.working_eq.trans h₁.working_eq
  bare k hk hapart := h₂.bare k (h₁.bare k hk hapart) (h₁.working_eq.symm ▸ hapart)

theorem mono (h : d.Adds added e)
    (hsub : ∀ o ∈ added, ∃ o' ∈ more, ∀ l, o.trail l ⊆ o'.trail l) : d.Adds more e where
  working_eq := h.working_eq
  bare k hk hapart := by
    refine h.bare k hk fun o ho hmem => ?_
    obtain ⟨o', ho', hsub⟩ := hsub o ho
    exact hapart o' ho' (hsub _ hmem)

theorem of_subset (h : d.Adds added e) (hsub : added ⊆ more) : d.Adds more e :=
  h.mono fun o ho => ⟨o, hsub ho, fun _ => List.Subset.refl _⟩

end Adds

theorem Placed.adds {bytes : ByteArray} (h : d.Placed e (p.location d.workingDirectory) bytes) :
    d.Adds [p] e where
  working_eq := h.working_eq
  bare k hk hapart := by
    rw [h.node_ne k, hk]
    rintro rfl
    exact hapart p List.mem_cons_self (List.mem_append_right _ List.mem_cons_self)

theorem Moved.adds (h : d.Moved e (p.location d.workingDirectory) (q.location d.workingDirectory)) :
    d.Adds [q] e where
  working_eq := h.working_eq
  bare k hk hapart := by
    have hne : k ≠ q.location d.workingDirectory := by
      rintro rfl
      exact hapart q List.mem_cons_self (List.mem_append_right _ List.mem_cons_self)
    by_cases hbelow : p.location d.workingDirectory <+: k
    · exact h.node_below k hbelow hne
    · rw [h.node_ne k hbelow hne, hk]

theorem adds_of_makeDirectory (h : d.makeDirectory p = .ok e) : d.Adds [p] e := by
  obtain ⟨entry, hentry, h⟩ := bind_eq_ok_iff.1 h
  split at h
  · cases h
  next name hname =>
  obtain ⟨place, hplace, h⟩ := bind_eq_ok_iff.1 h
  obtain ⟨-, rfl⟩ := Entry.locate_eq_ok_iff.1 hplace
  split at h
  · cases h
  cases h
  refine ⟨rfl, fun k hk hapart => ?_⟩
  rw [node?_put_ne, hk]
  rintro rfl
  rw [← (entry_eq_ok hentry hname).1] at hapart
  exact hapart p List.mem_cons_self (List.mem_append_right _ List.mem_cons_self)

theorem adds_makeFrom (d : Disk) (ps : List Path) : d.Adds ps (d.makeFrom ps).2 := by
  induction ps generalizing d with
  | nil => exact .refl [] d
  | cons p holders ih =>
    have hone {d e : Disk} (h : d.makeDirectory p = .ok e) : d.Adds (p :: holders) e :=
      (adds_of_makeDirectory h).of_subset (by simp)
    have hholders : d.Adds (p :: holders) (d.makeFrom holders).2 :=
      (ih d).of_subset (List.subset_cons_self _ _)
    rw [makeFrom]
    split
    next e hmade => exact hone hmade
    next =>
      split
      next fault e hfailed => rwa [hfailed] at hholders
      next e hheld =>
        rw [hheld] at hholders
        split
        next e' hmade => exact hholders.trans (hone hmade)
        next => exact hholders
    next => exact .refl _ d

/-- Making a directory, and those it lies in, adds only to the places along its path. -/
theorem adds_createDirectories (d : Disk) (p : Path) : d.Adds [p] (d.createDirectories p).2 :=
  (adds_makeFrom d p.ancestors).mono fun _ ho =>
    ⟨p, List.mem_cons_self, Path.trail_subset_of_mem_ancestors ho⟩

end Disk

end IncrementalBuild
