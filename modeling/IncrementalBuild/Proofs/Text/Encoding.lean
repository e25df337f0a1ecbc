import IncrementalBuild.Proofs.Text.Split

/-!
Texts as bytes. A character is written as one to four bytes, of which only the first can be that of
an ASCII character. So a piece of ASCII characters is found among the bytes of a text where it is
found in the text, and the cuts around it fall between characters.
-/

namespace IncrementalBuild.Text

/-- The bytes of a text. -/
def encode (cs : List Char) : List UInt8 :=
  cs.flatMap String.utf8EncodeChar

/-- The byte is not the first one of a character. -/
def continues (b : UInt8) : Bool :=
  128 ≤ b.toNat && b.toNat < 192

/-- The offset lies between two characters of a text, or at one of its ends. -/
def Boundary (bs : List UInt8) (k : Nat) : Prop :=
  k ≤ bs.length ∧ bs[k]?.any continues = false

instance (bs : List UInt8) (k : Nat) : Decidable (Boundary bs k) :=
  inferInstanceAs (Decidable (_ ∧ _))

/-- The bytes from one offset up to another. There is no such slice if an offset is behind the end
or inside a character, or if the offsets are out of order. -/
def slice? (bs : List UInt8) (i j : Nat) : Option (List UInt8) :=
  if i ≤ j ∧ Boundary bs i ∧ Boundary bs j then some ((bs.take j).drop i) else none

/-- The offset at which a piece first occurs among some bytes. -/
def indexOfPiece? (piece : List UInt8) : List UInt8 → Option Nat
  | [] => none
  | b :: bs =>
    if piece.isPrefixOf (b :: bs) then some 0 else (indexOfPiece? piece bs).map (· + 1)

variable {c d : Char} {cs l r piece : List Char} {b : UInt8} {bs left front back : List UInt8}
  {k : Nat}

theorem length_of_slice? {slice : List UInt8} {i : Nat} (h : slice? bs i k = some slice) :
    slice.length + i = k ∧ k ≤ bs.length := by
  unfold slice? at h
  split at h
  next hslice =>
    obtain ⟨hik, -, hk, -⟩ := hslice
    cases h
    exact ⟨by rw [List.length_drop, List.length_take]; omega, hk⟩
  · cases h

@[simp] theorem encode_nil : encode [] = [] := rfl

@[simp] theorem encode_cons : encode (c :: cs) = String.utf8EncodeChar c ++ encode cs := rfl

@[simp] theorem encode_append : encode (l ++ r) = encode l ++ encode r :=
  List.flatMap_append

theorem toList_toUTF8 (s : String) : s.toUTF8.data.toList = encode s.toList := by
  conv => lhs; rw [← String.ofList_toList (s := s)]
  rw [String.toUTF8_eq_toByteArray]
  exact List.toList_data_toByteArray

/-- A text is what its bytes encode. -/
theorem fromUTF8?_toUTF8 (s : String) : String.fromUTF8? s.toUTF8 = some s := by
  have hvalid := s.isValidUTF8
  simp [String.fromUTF8?, String.fromUTF8, String.toUTF8, hvalid]

/-- The bytes of a character: the first one, and those that go on with it. A first byte below 128
is the whole character. -/
theorem exists_utf8EncodeChar (c : Char) : ∃ b bs, String.utf8EncodeChar c = b :: bs ∧
    continues b = false ∧ (∀ x ∈ bs, continues x = true) ∧
      (b.toNat < 128 → c.toNat = b.toNat ∧ bs = []) := by
  have hc : c.val.toNat = c.toNat := rfl
  unfold String.utf8EncodeChar
  dsimp only
  rw [hc]
  split
  · exact ⟨_, _, rfl, by simp [continues]; omega, by simp, by simp; omega⟩
  split
  · exact ⟨_, _, rfl, by simp [continues]; omega, by simp [continues]; omega, by simp; omega⟩
  split
  · exact ⟨_, _, rfl, by simp [continues]; omega, by simp [continues]; omega, by simp; omega⟩
  · exact ⟨_, _, rfl, by simp [continues]; omega, by simp [continues]; omega, by simp; omega⟩

/-- An ASCII character is one byte. -/
theorem utf8EncodeChar_of_lt (h : c.toNat < 128) :
    String.utf8EncodeChar c = [UInt8.ofNat c.toNat] := by
  unfold String.utf8EncodeChar
  exact if_pos (Nat.le_of_lt_succ h)

theorem length_encode_of_lt (h : ∀ c ∈ cs, c.toNat < 128) : (encode cs).length = cs.length := by
  induction cs with
  | nil => rfl
  | cons c cs ih =>
    rw [encode_cons, utf8EncodeChar_of_lt (h c List.mem_cons_self), List.length_append,
      ih fun d hd => h d (List.mem_cons_of_mem _ hd), List.length_cons, Nat.add_comm]
    rfl

/-- A byte below 128 is all of its character. -/
theorem toNat_eq_of_mem_utf8EncodeChar (hb : b ∈ String.utf8EncodeChar c) (hlt : b.toNat < 128) :
    c.toNat = b.toNat := by
  obtain ⟨first, rest, hc, -, hrest, hfirst⟩ := exists_utf8EncodeChar c
  rw [hc] at hb
  rcases List.mem_cons.1 hb with rfl | hb
  · exact (hfirst hlt).1
  · have hcontinues := hrest b hb
    simp only [continues, Bool.and_eq_true, decide_eq_true_eq] at hcontinues
    omega

theorem utf8EncodeChar_append_inj (h : String.utf8EncodeChar c ++ front =
    String.utf8EncodeChar d ++ back) : c = d ∧ front = back := by
  have hdecode (e : Char) (rest : List UInt8) :
      ByteArray.utf8DecodeChar? (String.utf8EncodeChar e ++ rest).toByteArray 0 = some e := by
    rw [List.toByteArray_append]
    exact ByteArray.utf8DecodeChar?_utf8EncodeChar_append
  have heq : c = d := Option.some.inj ((hdecode c front).symm.trans (h ▸ hdecode d back))
  subst heq
  exact ⟨rfl, List.append_cancel_left h⟩

/-- The bytes of a character are found among those of a text only where it stands in the text. -/
theorem exists_of_encode_eq (h : encode cs = front ++ (String.utf8EncodeChar c ++ back)) :
    ∃ l r, cs = l ++ c :: r ∧ encode l = front ∧ encode r = back := by
  induction cs generalizing front with
  | nil => simp at h
  | cons d cs ih =>
    rw [encode_cons] at h
    rcases List.append_eq_append_iff.1 h with ⟨more, hfront, hmore⟩ | ⟨more, hd, hmore⟩
    · obtain ⟨l, r, rfl, hl, hr⟩ := ih hmore
      exact ⟨d :: l, r, rfl, by rw [encode_cons, hl, hfront], hr⟩
    cases front with
    | nil =>
      obtain ⟨rfl, hback⟩ := utf8EncodeChar_append_inj (h.trans (List.nil_append _))
      exact ⟨[], cs, rfl, rfl, hback⟩
    | cons y front =>
      cases more with
      | nil =>
        obtain ⟨l, r, rfl, hl, hr⟩ := @ih [] hmore.symm
        exact ⟨d :: l, r, rfl, by simp [encode_cons, hl, hd], hr⟩
      | cons x more =>
        -- A first byte would stand among those that go on with another character.
        obtain ⟨b, bs, hc, hb, -⟩ := exists_utf8EncodeChar c
        obtain ⟨b', bs', hd', -, hbs', -⟩ := exists_utf8EncodeChar d
        rw [hc, List.cons_append, List.cons_append] at hmore
        rw [hd', List.cons_append] at hd
        obtain rfl := (List.cons.inj hmore).1
        have hcontinues := hbs' b (by simp [(List.cons.inj hd).2])
        rw [hb] at hcontinues
        cases hcontinues

/-- Where a character of a text starts, there is a boundary among its bytes. -/
theorem boundary_encode (l r : List Char) : Boundary (encode (l ++ r)) (encode l).length := by
  refine ⟨by simp, ?_⟩
  rw [encode_append, List.getElem?_append_right (Nat.le_refl _), Nat.sub_self]
  cases r with
  | nil => rfl
  | cons c r =>
    obtain ⟨b, bs, hc, hb, -⟩ := exists_utf8EncodeChar c
    simpa [hc] using hb

/-- The bytes of a text are sliced where its characters are. -/
theorem slice?_encode {m : List Char} {i j : Nat} (hcs : cs = l ++ m ++ r)
    (hi : i = (encode l).length) (hj : j = i + (encode m).length) :
    slice? (encode cs) i j = some (encode m) := by
  subst hcs hj hi
  have hstart : Boundary (encode (l ++ m ++ r)) (encode l).length := by
    simpa using boundary_encode l (m ++ r)
  have hend : Boundary (encode (l ++ m ++ r)) ((encode l).length + (encode m).length) := by
    simpa using boundary_encode (l ++ m) r
  rw [slice?, if_pos ⟨Nat.le_add_right _ _, hstart, hend⟩, encode_append, encode_append,
    List.append_assoc, List.take_length_add_append, List.take_left, List.drop_left]

theorem toNat_ofNat_of_lt (h : c.toNat < 128) : (UInt8.ofNat c.toNat).toNat = c.toNat :=
  UInt8.toNat_ofNat_of_lt' (Nat.lt_trans h (by decide))

theorem encode_prefix_iff (hpiece : ∀ c ∈ piece, c.toNat < 128) :
    encode piece <+: encode cs ↔ piece <+: cs := by
  induction piece generalizing cs with
  | nil => simp
  | cons x xs ih =>
    have hx : x.toNat < 128 := hpiece x List.mem_cons_self
    have hxs (cs : List Char) : encode xs <+: encode cs ↔ xs <+: cs :=
      ih fun c hc => hpiece c (List.mem_cons_of_mem x hc)
    cases cs with
    | nil => simp [utf8EncodeChar_of_lt hx]
    | cons c cs =>
      rw [encode_cons, encode_cons, utf8EncodeChar_of_lt hx, List.singleton_append,
        List.cons_prefix_cons]
      constructor
      · obtain ⟨b, bs, hc, -, -, hb⟩ := exists_utf8EncodeChar c
        rw [hc, List.cons_append, List.cons_prefix_cons]
        rintro ⟨rfl, hinitial⟩
        obtain ⟨hcode, rfl⟩ := hb (by rwa [toNat_ofNat_of_lt hx])
        have heq : x = c := Char.toNat_inj.1 (by rw [hcode, toNat_ofNat_of_lt hx])
        exact ⟨heq, (hxs cs).1 hinitial⟩
      · rintro ⟨rfl, hinitial⟩
        rw [utf8EncodeChar_of_lt hx, List.singleton_append, List.cons_prefix_cons]
        exact ⟨rfl, (hxs cs).2 hinitial⟩

/-- Bytes with which a piece does not start are passed over. -/
theorem indexOfPiece?_append (h : b ∉ left) (piece right : List UInt8) :
    indexOfPiece? (b :: piece) (left ++ right) =
      (indexOfPiece? (b :: piece) right).map (· + left.length) := by
  induction left with
  | nil => simp
  | cons x xs ih =>
    obtain ⟨hx, hxs⟩ := List.ne_and_not_mem_of_not_mem_cons h
    have hdiffers : (b :: piece).isPrefixOf (x :: (xs ++ right)) = false := by
      simp [List.isPrefixOf, hx]
    rw [List.cons_append, indexOfPiece?, hdiffers, if_neg Bool.false_ne_true, ih hxs,
      Option.map_map]
    rfl

/-- A piece of ASCII characters is found among the bytes of a text where it is found in the text. -/
theorem indexOfPiece?_encode (hne : piece ≠ []) (hpiece : ∀ c ∈ piece, c.toNat < 128)
    (cs : List Char) : indexOfPiece? (encode piece) (encode cs) =
      (splitAtPiece piece cs).map fun cut => (encode cut.1).length := by
  obtain ⟨x, xs, rfl⟩ := List.exists_cons_of_ne_nil hne
  have hx : x.toNat < 128 := hpiece x List.mem_cons_self
  induction cs with
  | nil => rfl
  | cons c cs ih =>
    obtain ⟨b, bs, hc, -, hbs, -⟩ := exists_utf8EncodeChar c
    have hinitial : encode (x :: xs) <+: encode (c :: cs) ↔ x :: xs <+: c :: cs :=
      encode_prefix_iff hpiece
    have hencode : encode (c :: cs) = b :: (bs ++ encode cs) := by rw [encode_cons, hc]; rfl
    rw [hencode] at hinitial ⊢
    rw [indexOfPiece?, splitAtPiece]
    by_cases hfound : (x :: xs) <+: c :: cs
    · obtain ⟨r, hr⟩ := hfound
      rw [if_pos (List.isPrefixOf_iff_prefix.2 (hinitial.2 ⟨r, hr⟩)),
        after?_eq_some_iff.2 hr.symm]
      rfl
    · have hafter : after? (x :: xs) (c :: cs) = none := by
        rw [Option.eq_none_iff_forall_ne_some]
        exact fun r hr => hfound ⟨r, (after?_eq_some_iff.1 hr).symm⟩
      have hbyte : UInt8.ofNat x.toNat ∉ bs := by
        intro hmem
        have hcontinues := hbs _ hmem
        simp only [continues, Bool.and_eq_true, decide_eq_true_eq, toNat_ofNat_of_lt hx]
          at hcontinues
        omega
      rw [if_neg fun h => hfound (hinitial.1 (List.isPrefixOf_iff_prefix.1 h)), hafter]
      rw [encode_cons, utf8EncodeChar_of_lt hx, List.singleton_append] at ih ⊢
      rw [indexOfPiece?_append hbyte, ih]
      simp only [Option.map_map]
      congr 1
      funext cut
      simp only [Function.comp_apply, encode_cons, hc, List.length_append, List.length_cons]
      omega

end IncrementalBuild.Text
