import IncrementalBuild.Proofs.Disk.Additions
import IncrementalBuild.Proofs.State.Manifest

/-!
Keeping a manifest in a file. The temporary file lies at another place than the manifest, so the
file that stands at the place of the manifest changes only when it is replaced as a whole.
-/

namespace IncrementalBuild

namespace Path

/-- A piece of more than two characters is a name. -/
theorem next_of_length {l : Location} {piece : List Char} (h : 2 < piece.length) :
    next l piece = l ++ [String.ofList piece] := by
  unfold next
  rw [if_neg, if_neg]
  · rintro rfl
    simp at h
  · intro hidle
    rcases Bool.or_eq_true_iff.1 hidle with heq | heq <;> rw [decide_eq_true_eq] at heq <;>
      subst heq <;> simp at h

theorem next_ne_append {l : Location} {piece suffix : List Char} (h : suffix ≠ []) :
    next l piece ≠ l ++ [String.ofList (piece ++ suffix)] := by
  unfold next
  split
  · simp
  · split
    · intro heq
      have hlength := congrArg List.length heq
      simp only [List.length_dropLast, List.length_append, List.length_singleton] at hlength
      omega
    · intro heq
      have hpiece := String.ofList_injective (List.singleton_inj.1 (List.append_cancel_left heq))
      exact h (by simpa using hpiece)

theorem parts_of_root {p : Path} {body : List Char} (h : p.text.toList = '/' :: body)
    (l : Location) : p.parts l = ([], Text.splitOn '/' body) := by
  unfold parts
  simp only [h]

theorem parts_of_relative {p : Path} (h : ∀ body, p.text.toList ≠ '/' :: body) (l : Location) :
    p.parts l = (l, Text.splitOn '/' p.text.toList) := by
  unfold parts
  split
  next body hbody => exact absurd hbody (h body)
  next => rfl

/-- A path whose last piece is made longer leads to another place. -/
theorem location_append_ne (p : Path) {suffix : String} (hsuffix : '/' ∉ suffix.toList)
    (hlength : 2 < suffix.toList.length) (l : Location) :
    p.location l ≠ (⟨p.text ++ suffix⟩ : Path).location l := by
  have hne : suffix.toList ≠ [] := by
    intro hnil
    simp [hnil] at hlength
  have hfollow (start : Location) (cs : List Char) :
      follow start (Text.splitOn '/' cs) ≠
        follow start (Text.splitOn '/' (cs ++ suffix.toList)) := by
    obtain ⟨init, last, hold, hnew⟩ := Text.splitOn_append hsuffix cs
    have hlong : 2 < (last ++ suffix.toList).length := by
      rw [List.length_append]
      omega
    rw [hold, hnew, follow_append_singleton, follow_append_singleton, next_of_length hlong]
    exact next_ne_append hne
  have htext : (⟨p.text ++ suffix⟩ : Path).text.toList = p.text.toList ++ suffix.toList := by
    simp
  unfold location
  by_cases hroot : ∃ body, p.text.toList = '/' :: body
  · obtain ⟨body, hbody⟩ := hroot
    have hbody' : (⟨p.text ++ suffix⟩ : Path).text.toList = '/' :: (body ++ suffix.toList) := by
      rw [htext, hbody, List.cons_append]
    rw [parts_of_root hbody, parts_of_root hbody']
    exact hfollow [] body
  · have hrelative : ∀ body, p.text.toList ≠ '/' :: body := not_exists.1 hroot
    have hrelative' : ∀ body, (⟨p.text ++ suffix⟩ : Path).text.toList ≠ '/' :: body := by
      intro body heq
      rw [htext] at heq
      cases hcs : p.text.toList with
      | nil =>
        rw [hcs, List.nil_append] at heq
        exact hsuffix (heq ▸ List.mem_cons_self)
      | cons c cs =>
        rw [hcs, List.cons_append] at heq
        exact hrelative cs (by rw [hcs, (List.cons.inj heq).1])
    rw [parts_of_relative hrelative, parts_of_relative hrelative', htext]
    exact hfollow l p.text.toList

end Path

namespace State.Manifest

variable {m : Manifest} {p : Path} {d e : Disk}

theorem location_temporary_ne (p : Path) (l : Location) :
    p.location l ≠ (temporary p).location l :=
  p.location_append_ne (by decide) (by decide) l

theorem cases_of_replace {made : Disk} {result : Except Failure Unit}
    (h : (match made.write (temporary p) m.toText.toUTF8 with
      | .error fault => (.error (.temporaryManifest fault), made)
      | .ok written =>
        match written.rename (temporary p) p with
        | .error fault => (.error (.replaceManifest fault), written)
        | .ok moved => (.ok (), moved)) = (result, e)) :
    result ≠ .ok () ∧ e = made ∨
      ∃ written, made.write (temporary p) m.toText.toUTF8 = .ok written ∧
        (result ≠ .ok () ∧ e = written ∨
          result = .ok () ∧ written.rename (temporary p) p = .ok e) := by
  split at h
  · cases h
    exact .inl ⟨by simp, rfl⟩
  next written hwrite =>
    refine .inr ⟨written, hwrite, ?_⟩
    split at h
    · cases h
      exact .inl ⟨by simp, rfl⟩
    next moved hrename =>
      cases h
      exact .inr ⟨rfl, hrename⟩

/-- How a manifest comes to be kept: directories are made, the temporary file is written, and then
it is moved. -/
theorem write_cases {result : Except Failure Unit} (h : m.write p d = (result, e)) :
    ∃ made, d.Furnished made ∧ d.Adds [p] made ∧
      (result ≠ .ok () ∧ e = made ∨
        ∃ written, made.write (temporary p) m.toText.toUTF8 = .ok written ∧
          (result ≠ .ok () ∧ e = written ∨
            result = .ok () ∧ written.rename (temporary p) p = .ok e)) := by
  unfold write at h
  cases hparent : p.parent? with
  | none =>
    simp only [hparent] at h
    exact ⟨d, .refl d, .refl _ d, cases_of_replace h⟩
  | some directory =>
    simp only [hparent] at h
    have hadds : d.Adds [p] (d.createDirectories directory).2 :=
      (Disk.adds_createDirectories d directory).mono fun o ho => by
        obtain rfl := List.mem_singleton.1 ho
        exact ⟨p, List.mem_cons_self, fun l => List.Subset.trans
          (Path.trail_subset_of_parent? hparent l) (List.subset_append_left _ _)⟩
    refine ⟨_, Disk.furnished_createDirectories d directory, hadds, ?_⟩
    cases hmade : (d.createDirectories directory).1 with
    | error fault =>
      simp only [hmade, Except.mapError] at h
      cases h
      exact .inl ⟨by simp, rfl⟩
    | ok _ =>
      simp only [hmade, Except.mapError] at h
      exact cases_of_replace h

/-- Keeping a manifest adds nothing but the manifest and the temporary file. -/
theorem adds_of_write {result : Except Failure Unit} (h : m.write p d = (result, e)) :
    d.Adds [temporary p, p] e := by
  obtain ⟨made, -, hmade, hend⟩ := write_cases h
  have hmade : d.Adds [temporary p, p] made := hmade.of_subset (by simp)
  obtain ⟨-, rfl⟩ | ⟨written, hwrite, hend⟩ := hend
  · exact hmade
  have hwritten : made.Adds [temporary p, p] written :=
    (Disk.placed_of_write hwrite).adds.of_subset (by simp)
  obtain ⟨-, rfl⟩ | ⟨-, hrename⟩ := hend
  · exact hmade.trans hwritten
  · exact (hmade.trans hwritten).trans ((Disk.moved_of_rename hrename).adds.of_subset (by simp))

/-- Where keeping a manifest fails, directories have been made, and the temporary file at most. -/
theorem placed_of_write {f : Failure} (h : m.write p d = (.error f, e)) :
    ∃ made, d.Furnished made ∧ (e = made ∨
      made.Placed e ((temporary p).location made.workingDirectory) m.toText.toUTF8) := by
  obtain ⟨made, hmade, -, ⟨-, rfl⟩ | ⟨written, hwrite, ⟨-, rfl⟩ | ⟨hnot, -⟩⟩⟩ :=
    write_cases h
  · exact ⟨_, hmade, .inl rfl⟩
  · exact ⟨made, hmade, .inr (Disk.placed_of_write hwrite)⟩
  · cases hnot

/-- Where keeping a manifest fails, a manifest that is there is the old one. -/
theorem inherits_of_write {f : Failure} (h : m.write p d = (.error f, e)) : d.Inherits e p := by
  obtain ⟨made, hmade, rfl | hplaced⟩ := placed_of_write h
  · exact hmade.inherits p
  · exact (hmade.inherits p).trans (hplaced.inherits (location_temporary_ne p _))

/-- Where keeping a manifest fails, what was kept before is there as it was. -/
theorem stored?_of_write {f : Failure} (h : m.write p d = (.error f, e)) :
    e.stored? p = d.stored? p := by
  obtain ⟨made, hmade, rfl | hplaced⟩ := placed_of_write h
  · exact hmade.stored?_eq p
  · rw [hplaced.stored?_eq (location_temporary_ne p _), hmade.stored?_eq p]

/-- A manifest that is kept was written to the temporary file and moved from there. -/
theorem write_eq_ok (h : m.write p d = (.ok (), e)) :
    ∃ made written, d.Furnished made ∧ made.write (temporary p) m.toText.toUTF8 = .ok written ∧
      written.rename (temporary p) p = .ok e := by
  obtain ⟨made, hmade, -, ⟨hnot, -⟩ | ⟨written, hwrite, ⟨hnot, -⟩ | ⟨-, hrename⟩⟩⟩ :=
    write_cases h
  · exact absurd rfl hnot
  · exact absurd rfl hnot
  · exact ⟨made, written, hmade, hwrite, hrename⟩

/-- Where it succeeds, the manifest stands in its file. -/
theorem standing_of_write (h : m.write p d = (.ok (), e)) {f : FileNode}
    (hf : e.standing p = some (.file f)) : f.bytes = m.toText.toUTF8 := by
  obtain ⟨made, written, -, hwrite, hrename⟩ := write_eq_ok h
  have hwritten := Disk.placed_of_write hwrite
  have hmoved := Disk.moved_of_rename hrename
  obtain ⟨g, hg, hbytes⟩ := hwritten.node_self
  obtain ⟨g', hg', hnow⟩ := hmoved.node_self
  rw [hwritten.working_eq, hg] at hg'
  cases hg'
  rw [Disk.standing, hmoved.working_eq, hnow] at hf
  cases hf
  exact hbytes

/-- Files that are neither the manifest nor the temporary file, nor below them, are kept. -/
theorem keepsFile_of_write {result : Except Failure Unit} (h : m.write p d = (result, e))
    {q : Path} (htemporary : q.Avoids (temporary p)) (hq : q.Avoids p) : d.KeepsFile e q := by
  have hne {l : Location} {o : Path} (ho : q.Avoids o) : q.location l ≠ o.location l := by
    intro heq
    exact ho l _ List.mem_cons_self (heq ▸ List.prefix_refl _)
  obtain ⟨made, hmade, -, ⟨-, rfl⟩ | ⟨written, hwrite, hend⟩⟩ := write_cases h
  · exact hmade.keepsFile q
  have hwritten := Disk.placed_of_write hwrite
  have hkeeps := (hmade.keepsFile q).trans (hwritten.keepsFile (hne htemporary))
  rcases hend with ⟨-, rfl⟩ | ⟨-, hrename⟩
  · exact hkeeps
  · exact hkeeps.trans ((Disk.moved_of_rename hrename).keepsFile (htemporary _) (hne hq))

end State.Manifest

end IncrementalBuild
