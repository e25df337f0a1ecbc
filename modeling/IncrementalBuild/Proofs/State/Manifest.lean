import IncrementalBuild.Proofs.Disk.Frame
import IncrementalBuild.Proofs.Json.RoundTrip
import IncrementalBuild.Proofs.Path
import IncrementalBuild.State.Manifest.Store

/-!
A manifest is read back from its text, and so from the file it was written to.
-/

namespace IncrementalBuild.State

open Json (Value)

theorem word?_wordValue (w : UInt64) : word? (wordValue w) = some w := by
  have hlt : w.toNat < UInt64.size := w.toNat_lt_size
  simp [word?, wordValue, below?, hlt]

theorem Stamp.ofValue?_toValue (s : Stamp) : Stamp.ofValue? s.toValue = some s := by
  simp [Stamp.ofValue?, Stamp.toValue, fields?, word?_wordValue, string?]

theorem DependencyRecord.ofValue?_toValue (r : DependencyRecord) :
    DependencyRecord.ofValue? r.toValue = some r := by
  simp [DependencyRecord.ofValue?, DependencyRecord.toValue, fields?, Stamp.ofValue?_toValue,
    string?]

theorem Record.ofValue?_toValue (r : Record) : Record.ofValue? r.toValue = some r := by
  have hdependencies : (r.dependencies.map DependencyRecord.toValue).mapM
      DependencyRecord.ofValue? = some r.dependencies := by
    induction r.dependencies with
    | nil => rfl
    | cons d ds ih =>
      rw [List.map_cons, List.mapM_cons, DependencyRecord.ofValue?_toValue, ih]
      rfl
  simp [Record.ofValue?, Record.toValue, fields?, word?_wordValue, Stamp.ofValue?_toValue, items?,
    hdependencies]

/-- Records are read back in the order they are kept in. -/
theorem records?_toValue {known more : List (Path × Record)}
    (hsorted : SortedMap.Sorted Path.order (⟨known ++ more⟩ : SortedMap Path Record)) :
    records? (more.map fun (p, r) => (p.text, r.toValue)) ⟨known⟩ = some ⟨known ++ more⟩ := by
  induction more generalizing known with
  | nil => simp [records?]
  | cons e more ih =>
    obtain ⟨p, r⟩ := e
    have hgt : ∀ e ∈ known, Path.order p e.1 = .gt := by
      intro e he
      have hlt := (List.pairwise_append.1 hsorted).2.2 e he (p, r) List.mem_cons_self
      rw [Path.order_linear.eq_swap, hlt, Ordering.swap_lt]
    have hinsert : SortedMap.insert Path.order (⟨known⟩ : SortedMap Path Record) p r =
        ⟨known ++ [(p, r)]⟩ := by
      rw [SortedMap.insert, SortedMap.alter, SortedMap.alterIn_of_gt hgt]
    rw [List.map_cons, records?]
    simp only [Record.ofValue?_toValue, Option.bind_eq_bind, Option.bind_some]
    rw [hinsert, ih (by simpa using hsorted)]
    simp

theorem plain_wordValue (w : UInt64) : (wordValue w).Plain :=
  .natural _

theorem Stamp.plain_toValue (s : Stamp) : s.toValue.Plain := by
  refine .object ?_
  simp [plain_wordValue, Value.Plain.string]

theorem DependencyRecord.plain_toValue (r : DependencyRecord) : r.toValue.Plain := by
  refine .object ?_
  simp [Stamp.plain_toValue, Value.Plain.string]

theorem Record.plain_toValue (r : Record) : r.toValue.Plain := by
  refine .object ?_
  have hdependencies : (Value.array (r.dependencies.map DependencyRecord.toValue)).Plain := by
    refine .array ?_
    intro v hv
    obtain ⟨d, -, rfl⟩ := List.mem_map.1 hv
    exact d.plain_toValue
  simp [plain_wordValue, Stamp.plain_toValue, hdependencies]

namespace Manifest

theorem plain_toValue (m : Manifest) : m.toValue.Plain := by
  refine .object ?_
  have hrecords :
      (Value.object (m.records.entries.map fun (p, r) => (p.text, r.toValue))).Plain := by
    refine .object ?_
    intro f hf
    obtain ⟨⟨p, r⟩, -, rfl⟩ := List.mem_map.1 hf
    exact r.plain_toValue
  simp [Value.Plain.natural, hrecords]

/-- A manifest of the form that is kept: the current version, with sorted records. -/
structure Valid (m : Manifest) : Prop where
  version_eq : m.version = currentVersion
  sorted : m.records.Sorted Path.order

theorem valid_empty : empty.Valid :=
  ⟨rfl, SortedMap.sorted_empty⟩

/-- A valid manifest is read back from its text. -/
theorem Valid.ofText?_toText {m : Manifest} (h : m.Valid) : ofText? m.toText = some m := by
  have hrecords := @records?_toValue [] m.records.entries h.sorted
  have hversion : m.version < UInt32.size := by
    rw [h.version_eq]
    decide
  rw [ofText?, toText, (plain_toValue m).ofText?_text]
  simp only [List.nil_append] at hrecords
  simp [ofValue?, toValue, fields?, below?, hversion, SortedMap.empty, hrecords]

theorem sorted_of_records? {fields : List (String × Value)} {known records : SortedMap Path Record}
    (h : records? fields known = some records) (hknown : known.Sorted Path.order) :
    records.Sorted Path.order := by
  induction fields generalizing known with
  | nil =>
    cases h
    exact hknown
  | cons f fields ih =>
    obtain ⟨output, v⟩ := f
    rw [records?] at h
    cases hr : Record.ofValue? v with
    | none => simp [hr] at h
    | some r =>
      simp only [hr, Option.bind_eq_bind, Option.bind_some] at h
      exact ih h (hknown.alter Path.order_linear _ _)

theorem sorted_of_ofText? {s : String} {m : Manifest} (h : ofText? s = some m) :
    m.records.Sorted Path.order := by
  obtain ⟨v, -, h⟩ := Option.bind_eq_some_iff.1 h
  unfold ofValue? at h
  obtain ⟨parts, -, h⟩ := Option.bind_eq_some_iff.1 h
  split at h
  next version fields =>
    obtain ⟨n, -, h⟩ := Option.bind_eq_some_iff.1 h
    obtain ⟨records, hrecords, h⟩ := Option.bind_eq_some_iff.1 h
    cases h
    exact sorted_of_records? hrecords SortedMap.sorted_empty
  · cases h

theorem Valid.record {m n : Manifest} (h : m.Valid) {d : Disk} {source output : Path}
    {fingerprint : UInt64} {dependencies : List Path}
    (hn : m.record d source output fingerprint dependencies = .ok n) : n.Valid := by
  obtain ⟨stamp, -, hn⟩ := bind_eq_ok_iff.1 hn
  obtain ⟨recorded, -, hn⟩ := bind_eq_ok_iff.1 hn
  cases hn
  exact ⟨h.version_eq, h.sorted.alter Path.order_linear _ _⟩

theorem Valid.retain {m : Manifest} (h : m.Valid) (outputs : List Path) :
    (m.retain outputs).Valid :=
  ⟨h.version_eq, h.sorted.keep _⟩

/-- The manifest that the contents of a file stand for. -/
def ofBytes? (bytes : ByteArray) : Option Manifest :=
  (String.fromUTF8? bytes).bind ofText?

theorem Valid.ofBytes?_toText {m : Manifest} (h : m.Valid) :
    ofBytes? m.toText.toUTF8 = some m := by
  rw [ofBytes?, Text.fromUTF8?_toUTF8, Option.bind_some, h.ofText?_toText]

theorem valid_of_read {d : Disk} {p : Path} {m : Manifest} (h : read d p = .ok m) : m.Valid := by
  unfold read at h
  split at h
  · cases h
    exact valid_empty
  · cases h
  split at h
  · cases h
  next htext =>
  split at h
  next hversion =>
    cases h
    exact ⟨hversion, sorted_of_ofText? htext⟩
  · cases h

/-- A manifest that was read, or is empty because none could be, is valid. -/
theorem valid_of_empty_or_read {d : Disk} {p : Path} {m : Manifest}
    (h : m = .empty ∨ read d p = .ok m) : m.Valid := by
  obtain rfl | hread := h
  · exact valid_empty
  · exact valid_of_read hread

/-- A manifest that is read is without records, or it is the one that stands in the file. -/
theorem standing_of_read {d : Disk} {p : Path} {m : Manifest} (h : read d p = .ok m) :
    m = empty ∨ ∃ f, d.standing p = some (.file f) ∧ ofBytes? f.bytes = some m := by
  unfold read at h
  split at h
  · cases h
    exact .inl rfl
  · cases h
  next text hread =>
  right
  split at h
  · cases h
  next m' htext =>
  split at h
  · cases h
    obtain ⟨f, hf, hutf8⟩ := Disk.readText_eq_ok hread
    refine ⟨f, (Disk.lookup_eq_ok hf).1, ?_⟩
    rw [ofBytes?, hutf8, Option.bind_some, htext]
  · cases h

end Manifest

end IncrementalBuild.State
