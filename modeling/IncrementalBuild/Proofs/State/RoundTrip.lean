import IncrementalBuild.Proofs.Disk.Directories
import IncrementalBuild.Proofs.State.Store

/-!
What is kept is read back. A valid manifest that was kept at a path is the manifest that is read
there, and the text in the file depends on nothing but the manifest.
-/

namespace IncrementalBuild.State.Manifest

variable {m : Manifest} {p : Path} {d e : Disk}

/-- A manifest can be kept at the path: the directory that holds it is there, and the manifest and
the temporary file can be written. -/
structure Room (d : Disk) (p : Path) : Prop where
  directory : ∀ directory, p.parent? = some directory →
    directory.ancestors = [] ∨ d.isDirectory directory = true
  manifest : ∃ l, d.writable p = .ok l
  temporary : ∃ l, d.writable (temporary p) = .ok l

/-- Where there is room for a manifest, every manifest is kept. -/
theorem Room.exists_write (h : Room d p) (m : Manifest) : ∃ e, m.write p d = (.ok (), e) := by
  obtain ⟨l, hl⟩ := h.manifest
  obtain ⟨k, hk⟩ := h.temporary
  obtain ⟨written, hwrite⟩ : ∃ written, d.write (Manifest.temporary p) m.toText.toUTF8 =
      .ok written := ⟨_, bind_eq_ok_iff.2 ⟨k, hk, rfl⟩⟩
  have hplaced := Disk.placed_of_write hwrite
  obtain ⟨rfl, -, hnode⟩ := Disk.writable_eq_ok hl
  have hwritable : written.writable p = .ok (p.location d.workingDirectory) := by
    refine Disk.writable_congr hl hplaced.working_eq ?_ ?_
    · intro j _ hj
      rw [hplaced.node_ne j, hj]
      rintro rfl
      exact hplaced.not_directory hj
    · rwa [hplaced.node_ne _ (location_temporary_ne p _)]
  obtain ⟨f, hf, -⟩ := Disk.contents?_eq_some_iff.1 (Disk.contents?_of_write hwrite)
  obtain ⟨moved, hrename⟩ := Disk.exists_rename hf hwritable
  refine ⟨moved, ?_⟩
  unfold write
  cases hparent : p.parent? with
  | none => simp only [hwrite, hrename]
  | some directory =>
    have hmade : d.createDirectories directory = (.ok (), d) := by
      rcases h.directory directory hparent with hnil | hdirectory
      · rw [Disk.createDirectories, hnil, Disk.makeFrom]
      · exact Disk.createDirectories_of_isDirectory hdirectory
    simp only [hmade, Except.mapError, hwrite, hrename]

/-- The text of a manifest that is kept is found in its file. -/
theorem readText_of_write (hd : d.Grounded) (h : m.write p d = (.ok (), e)) :
    e.readText p = .ok m.toText := by
  obtain ⟨made, written, hmade, hwrite, hrename⟩ := write_eq_ok h
  obtain ⟨f, hf, hbytes⟩ := Disk.contents?_eq_some_iff.1 (Disk.contents?_of_write hwrite)
  have hgrounded : written.Grounded :=
    (hd.of_furnished hmade).of_placed (Disk.placed_of_write hwrite)
  exact Disk.readText_of_contents? <|
    Disk.contents?_eq_some_iff.2 ⟨f, Disk.lookup_of_rename hgrounded hrename hf, hbytes⟩

/-- A valid manifest is read from every file that holds its text. -/
theorem Valid.read_of_readText (h : m.Valid) (hread : d.readText p = .ok m.toText) :
    read d p = .ok m := by
  simp only [read, hread, h.ofText?_toText, h.version_eq, if_true]

/-- A valid manifest is kept wherever there is room for it. Then it is read back as it is, and
what is read back is kept as the same text again, wherever that is. -/
theorem Valid.read_write (h : m.Valid) (hd : d.Grounded) (p : Path) :
    (Room d p → ∃ e, m.write p d = (.ok (), e)) ∧
      ∀ e, m.write p d = (.ok (), e) →
        e.readText p = .ok m.toText ∧ read e p = .ok m ∧
          ∀ n, read e p = .ok n → ∀ q d' e', d'.Grounded → n.write q d' = (.ok (), e') →
            e'.readText q = .ok m.toText := by
  refine ⟨fun hroom => hroom.exists_write m, fun e he => ?_⟩
  have htext := readText_of_write hd he
  have hread := h.read_of_readText htext
  refine ⟨htext, hread, fun n hn q d' e' hd' he' => ?_⟩
  obtain rfl : m = n := Except.ok.inj (hread.symm.trans hn)
  exact readText_of_write hd' he'

/-- Records under paths that have to be quoted, with the largest numbers there are. -/
def quotedManifest : Manifest where
  version := currentVersion
  records := ⟨[(⟨"out/\"a\"\\.o"⟩, ⟨18446744073709551615, 0, ⟨18446744073709551615, "é\n"⟩,
      [⟨⟨"a b.h"⟩, ⟨1, ""⟩⟩, ⟨⟨"\x01"⟩, ⟨0, "\""⟩⟩]⟩), (⟨"out/b.o"⟩, ⟨1, 2, ⟨3, "0"⟩, []⟩)]⟩

/-- A directory for manifests. -/
def keptDisk : Disk where
  nodes := ⟨[(["w"], .directory), (["w", "kept"], .directory)]⟩
  workingDirectory := ["w"]
  clock := 5

theorem quotedManifest_read_write : quotedManifest.Valid ∧ keptDisk.Grounded ∧
    ∃ e, quotedManifest.write ⟨"kept/App.manifest"⟩ keptDisk = (.ok (), e) ∧
      read e ⟨"kept/App.manifest"⟩ = .ok quotedManifest := by
  have hvalid : quotedManifest.Valid := ⟨rfl, by unfold SortedMap.Sorted; decide +kernel⟩
  have hgrounded : keptDisk.Grounded := by
    intro l hl
    rcases List.prefix_concat_iff.1 (show l <+: [] ++ ["w"] from hl) with rfl | hnil
    · rfl
    · rw [List.prefix_nil.1 hnil]
      rfl
  have hroom : Room keptDisk ⟨"kept/App.manifest"⟩ := by
    have hparent : (⟨"kept/App.manifest"⟩ : Path).parent? = some ⟨"kept"⟩ := by rfl
    refine ⟨fun directory h => .inr ?_, ⟨["w", "kept", "App.manifest"], by rfl⟩,
      ⟨["w", "kept", "App.manifest.tmp"], by rfl⟩⟩
    obtain rfl : ⟨"kept"⟩ = directory := Option.some.inj (hparent.symm.trans h)
    rfl
  obtain ⟨hwrite, hread⟩ := hvalid.read_write hgrounded ⟨"kept/App.manifest"⟩
  obtain ⟨e, he⟩ := hwrite hroom
  exact ⟨hvalid, hgrounded, e, he, (hread e he).2.1⟩

end IncrementalBuild.State.Manifest
