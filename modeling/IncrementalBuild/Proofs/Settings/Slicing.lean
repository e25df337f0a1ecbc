import IncrementalBuild.Proofs.Settings.Template
import IncrementalBuild.Proofs.Text.Encoding

/-!
Cutting a text at its references by byte offsets. The bytes are searched for the marks, and slices
are taken at what is found; every such slice falls between characters, and what the offsets cut is
what is cut by characters.
-/

namespace IncrementalBuild.Settings

/-- The bytes of the mark that opens a reference. -/
def openMark : List UInt8 :=
  [0x24, 0x28]

/-- The byte that closes a reference. -/
def closeMark : List UInt8 :=
  [0x29]

/-- Cuts bytes that start `offset` bytes into the whole at the references in them, or finds the
offset of the first mark that nothing closes. There is no result if a slice is not one of whole
characters. -/
def scanFrom (offset : Nat) (bs : List UInt8) : Option (Except Nat (List (Segment UInt8))) :=
  match Text.indexOfPiece? openMark bs with
  | none => some (.ok (Segment.ofText bs))
  | some start =>
    match Text.slice? bs (start + 2) bs.length with
    | none => none
    | some opened =>
      match Text.indexOfPiece? closeMark opened with
      | none => some (.error (offset + start))
      | some len =>
        let consumed := start + 2 + len + 1
        match Text.slice? bs 0 start, Text.slice? bs (start + 2) (start + 2 + len),
            _hrest : Text.slice? bs consumed bs.length with
        | some before, some inner, some rest =>
          (scanFrom (offset + consumed) rest).map
            (·.map (Segment.ofText before ++ .reference inner :: ·))
        | _, _, _ => none
termination_by bs.length
decreasing_by
  have hlength := Text.length_of_slice? (by assumption)
  omega

/-- Cuts the bytes of a text at the references in it. -/
def scan (s : String) : Option (Except Nat (List (Segment UInt8))) :=
  scanFrom 0 s.toUTF8.data.toList

/-- A segment in bytes. -/
def Segment.encode : Segment Char → Segment UInt8
  | text cs => .text (Text.encode cs)
  | reference inner => .reference (Text.encode inner)

variable {cs before inner opened rest l r : List Char} {segs : List (Segment Char)}
  {unclosed : Option (List Char)} {offset : Nat}

theorem length_encode (cs : List Char) : (Text.encode cs).length = byteLength cs := by
  induction cs with
  | nil => rfl
  | cons c cs ih => simp [byteLength, ih]

theorem encode_referenceMark : Text.encode referenceMark = openMark := rfl

theorem ofText_encode (cs : List Char) :
    Segment.ofText (Text.encode cs) = (Segment.ofText cs).map Segment.encode := by
  cases cs with
  | nil => rfl
  | cons c cs =>
    obtain ⟨b, bs, hc, -⟩ := Text.exists_utf8EncodeChar c
    simp [Segment.ofText, Segment.encode, hc]

/-- The first mark is found at the offset of its first byte. -/
theorem indexOf_openMark (h : ¬ referenceMark <:+: before) (r : List Char) :
    Text.indexOfPiece? openMark (Text.encode (before ++ (referenceMark ++ r))) =
      some (Text.encode before).length := by
  rw [← encode_referenceMark, Text.indexOfPiece?_encode (by decide) (by simp [referenceMark]),
    splitAtMark_append h]
  rfl

theorem indexOf_openMark_of_unmarked (h : ¬ referenceMark <:+: cs) :
    Text.indexOfPiece? openMark (Text.encode cs) = none := by
  rw [← encode_referenceMark, Text.indexOfPiece?_encode (by decide) (by simp [referenceMark]),
    Text.splitAtPiece_eq_none_iff.2 h]
  rfl

theorem indexOf_closeMark (cs : List Char) : Text.indexOfPiece? closeMark (Text.encode cs) =
    (Text.splitOnce ')' cs).map fun cut => (Text.encode cut.1).length := by
  rw [show closeMark = Text.encode [')'] from rfl,
    Text.indexOfPiece?_encode (by decide) (by simp), Text.splitAtPiece_singleton]

/-- What is behind a mark is a slice of whole characters. -/
theorem slice?_opened (before opened : List Char) :
    Text.slice? (Text.encode (before ++ (referenceMark ++ opened)))
      ((Text.encode before).length + 2)
      (Text.encode (before ++ (referenceMark ++ opened))).length = some (Text.encode opened) := by
  refine Text.slice?_encode (l := before ++ referenceMark) (r := []) (by simp) ?_ ?_
  · simp [encode_referenceMark, openMark]
  · simp [encode_referenceMark, openMark]
    omega

theorem scanFrom_of_unmarked (h : ¬ referenceMark <:+: cs) :
    scanFrom offset (Text.encode cs) = some (.ok ((Segment.ofText cs).map Segment.encode)) := by
  rw [scanFrom, indexOf_openMark_of_unmarked h]
  simp only [ofText_encode]

theorem scanFrom_unclosed (hbefore : ¬ referenceMark <:+: before) (hopened : ')' ∉ opened) :
    scanFrom offset (Text.encode (before ++ (referenceMark ++ opened))) =
      some (.error (offset + byteLength before)) := by
  rw [scanFrom, indexOf_openMark hbefore]
  dsimp only
  rw [slice?_opened]
  dsimp only
  rw [indexOf_closeMark, Text.splitOnce_of_not_mem hopened, length_encode]
  rfl

theorem scanFrom_reference (hbefore : ¬ referenceMark <:+: before) (hinner : ')' ∉ inner) :
    scanFrom offset (Text.encode (before ++ (referenceMark ++ (inner ++ ')' :: rest)))) =
      (scanFrom (offset + (byteLength (before ++ referenceMark ++ inner) + 1))
        (Text.encode rest)).map
          (·.map ((Segment.ofText before).map Segment.encode ++
            .reference (Text.encode inner) :: ·)) := by
  have hlength : byteLength (before ++ referenceMark ++ inner) + 1 =
      (Text.encode before).length + 2 + (Text.encode inner).length + 1 := by
    simp only [← length_encode, Text.encode_append, List.length_append]
    rfl
  rw [scanFrom, indexOf_openMark hbefore]
  dsimp only
  rw [slice?_opened]
  dsimp only
  rw [indexOf_closeMark, Text.splitOnce_append_cons hinner, hlength]
  dsimp only [Option.map_some]
  generalize hcs : before ++ (referenceMark ++ (inner ++ ')' :: rest)) = cs
  have hbeforeSlice : Text.slice? (Text.encode cs) 0 (Text.encode before).length =
      some (Text.encode before) :=
    Text.slice?_encode (l := []) (by rw [← hcs]; rfl) rfl (Nat.zero_add _).symm
  have hinnerSlice : Text.slice? (Text.encode cs) ((Text.encode before).length + 2)
      ((Text.encode before).length + 2 + (Text.encode inner).length) =
        some (Text.encode inner) :=
    Text.slice?_encode (l := before ++ referenceMark) (r := ')' :: rest) (by simp [← hcs])
      (by simp [encode_referenceMark, openMark]) rfl
  have hconsumed : (Text.encode before).length + 2 + (Text.encode inner).length + 1 =
      (Text.encode (before ++ referenceMark ++ inner ++ [')'])).length := by
    rw [Text.encode_append (r := [')']), List.length_append, ← hlength, length_encode]
    rfl
  have hrestSlice : Text.slice? (Text.encode cs)
      ((Text.encode before).length + 2 + (Text.encode inner).length + 1) (Text.encode cs).length =
        some (Text.encode rest) :=
    Text.slice?_encode (l := before ++ referenceMark ++ inner ++ [')']) (r := [])
      (by simp [← hcs]) hconsumed
      (by rw [hconsumed, ← List.length_append, ← Text.encode_append, ← hcs]; simp)
  split
  next h₁ h₂ h₃ =>
    cases hbeforeSlice.symm.trans h₁
    cases hinnerSlice.symm.trans h₂
    cases hrestSlice.symm.trans h₃
    rw [ofText_encode]
  next hnone => exact (hnone _ _ _ hbeforeSlice hinnerSlice hrestSlice).elim

/-- By offsets, a text is cut into what its characters are cut into. -/
theorem Cut.scanFrom_eq (h : Cut cs segs unclosed) (offset : Nat) :
    scanFrom offset (Text.encode cs) = some (match unclosed with
      | none => .ok (segs.map Segment.encode)
      | some _ => .error (offset + byteLength (segs.flatMap Segment.source))) := by
  induction h generalizing offset with
  | last hcs => rw [scanFrom_of_unmarked hcs]
  | unclosed hbefore hopened => rw [scanFrom_unclosed hbefore hopened, Segment.source_ofText]
  | @reference before inner rest segs unclosed hbefore hinner hrest ih =>
    rw [scanFrom_reference hbefore hinner, ih]
    cases unclosed with
    | none => simp [Except.map, Segment.encode]
    | some opened =>
      simp only [Option.map_some, Except.map, List.flatMap_append, List.flatMap_cons,
        Segment.source_ofText, Segment.source, byteLength_append, byteLength_close]
      congr 2
      omega

theorem utf8ByteSize_eq (s : String) : s.utf8ByteSize = byteLength s.toList := by
  rw [← length_encode, ← Text.toList_toUTF8]
  rfl

/-- The texts and names that a cut text is read as. -/
theorem Cut.mem_pieces (h : Cut cs segs unclosed) {piece : Piece}
    (hpiece : piece ∈ segs.map Segment.piece) : match piece with
      | .text t => t ≠ "" ∧ ¬ referenceMark <:+: t.toList
      | .reference name => ')' ∉ name.toList ∧ Text.trimmed name = name := by
  obtain ⟨seg, hseg, rfl⟩ := List.mem_map.1 hpiece
  have hproper := h.proper seg hseg
  cases seg with
  | text t => simpa [Segment.Proper, Segment.piece] using hproper
  | reference inner =>
    refine ⟨?_, ?_⟩
    · simpa using fun hmem => hproper (Text.mem_of_mem_trim hmem)
    · simp [Text.trimmed, Text.trim_trim]

theorem exists_cut_of_ok {s : String} {ps : List Piece} (h : pieces? s = .ok ps) :
    ∃ segs, Cut s.toList segs none ∧ ps = segs.map Segment.piece := by
  obtain ⟨segs, unclosed, hcut⟩ := exists_cut s.toList
  rw [pieces?, hcut.piecesFrom_eq] at h
  cases unclosed with
  | none => exact ⟨segs, hcut, (Except.ok.inj h).symm⟩
  | some opened => cases h

theorem exists_cut_of_error {s : String} (h : pieces? s = .error offset) :
    ∃ segs opened, Cut s.toList segs (some opened) ∧
      offset = byteLength (segs.flatMap Segment.source) := by
  obtain ⟨segs, unclosed, hcut⟩ := exists_cut s.toList
  rw [pieces?, hcut.piecesFrom_eq] at h
  cases unclosed with
  | none => cases h
  | some opened => exact ⟨segs, opened, hcut, by simpa using (Except.error.inj h).symm⟩

/-- A text is refused at the mark that nothing closes, behind what can be read. -/
theorem pieces?_eq_error_iff {s : String} : pieces? s = .error offset ↔
    ∃ front opened, s = front ++ "$(" ++ opened ∧ ')' ∉ opened.toList ∧
      front.utf8ByteSize = offset ∧ ∃ ps, pieces? front = .ok ps := by
  constructor
  · intro h
    obtain ⟨segs, opened, hcut, rfl⟩ := exists_cut_of_error h
    refine ⟨String.ofList (segs.flatMap Segment.source), String.ofList opened, ?_, ?_, ?_,
      segs.map Segment.piece, ?_⟩
    · apply String.toList_injective
      simpa [referenceMark] using hcut.source_eq
    · simpa using hcut.not_mem_unclosed
    · rw [utf8ByteSize_eq, String.toList_ofList]
    · rw [pieces?, String.toList_ofList, hcut.front.piecesFrom_eq]
  · rintro ⟨front, opened, rfl, hopened, rfl, ps, hps⟩
    obtain ⟨segs, hcut, -⟩ := exists_cut_of_ok hps
    have hs : (front ++ "$(" ++ opened).toList =
        front.toList ++ (referenceMark ++ opened.toList) := by
      simp [referenceMark]
    have hsource : front.toList = segs.flatMap Segment.source := by simpa using hcut.source_eq
    rw [pieces?, hs, (hcut.append_unclosed hopened).piecesFrom_eq, utf8ByteSize_eq, ← hsource,
      Nat.zero_add]

/-- Nothing of a text is lost when it is cut at its references. What is read are texts that open no
reference and trimmed names, and the text is these as they were written; or the text is refused at
a mark behind which nothing closes a reference, and what is before the mark can be read. It is
refused if and only if it has such a mark. By offsets the same is cut, out of whole characters. -/
theorem template_lossless (s : String) :
    (∀ ps, pieces? s = .ok ps →
      (∀ t, .text t ∈ ps → t ≠ "" ∧ ¬ referenceMark <:+: t.toList) ∧
      (∀ name, .reference name ∈ ps → ')' ∉ name.toList ∧ Text.trimmed name = name) ∧
      ∃ segs : List (Segment Char), ps = segs.map Segment.piece ∧
        segs.flatMap Segment.source = s.toList ∧
        scan s = some (.ok (segs.map Segment.encode))) ∧
    (∀ offset, pieces? s = .error offset ↔
      ∃ front opened, s = front ++ "$(" ++ opened ∧ ')' ∉ opened.toList ∧
        front.utf8ByteSize = offset ∧ ∃ ps, pieces? front = .ok ps) ∧
    ((∃ offset, pieces? s = .error offset) ↔
      ∃ l r, s.toList = l ++ (referenceMark ++ r) ∧ ')' ∉ r) ∧
    ∀ offset, pieces? s = .error offset → scan s = some (.error offset) := by
  refine ⟨fun ps hps => ?_, fun offset => pieces?_eq_error_iff, ?_, fun offset herror => ?_⟩
  · obtain ⟨segs, hcut, rfl⟩ := exists_cut_of_ok hps
    refine ⟨fun t ht => hcut.mem_pieces ht, fun name hname => hcut.mem_pieces hname, segs, rfl,
      by simpa using hcut.source_eq.symm, ?_⟩
    rw [scan, Text.toList_toUTF8, hcut.scanFrom_eq]
  · rw [← isUnterminated_iff, isUnterminated]
    cases pieces? s <;> simp
  · obtain ⟨segs, opened, hcut, rfl⟩ := exists_cut_of_error herror
    rw [scan, Text.toList_toUTF8, hcut.scanFrom_eq, Nat.zero_add]

/-- A mark inside of a reference opens nothing. -/
example : pieces? "é$($(A)$(" = .error 8 := by cbv

end IncrementalBuild.Settings
