import IncrementalBuild.SortedMap
import Mathlib.Tactic.Common

/-!
The entries of sorted maps.
-/

namespace IncrementalBuild.SortedMap

variable {κ α : Type} {order : κ → κ → Ordering}

/-- An entry of a map in which one was changed is an old one, or the changed one. -/
theorem mem_alterIn {key : κ} {f : Option α → α} {entries : List (κ × α)} {e : κ × α}
    (he : e ∈ alterIn order key f entries) :
    e ∈ entries ∨ e = (key, f none) ∨ ∃ k a, (k, a) ∈ entries ∧ e = (k, f (some a)) := by
  induction entries with
  | nil => simpa [alterIn] using he
  | cons entry rest ih =>
    obtain ⟨k, a⟩ := entry
    rw [alterIn] at he
    split at he
    · rcases List.mem_cons.1 he with rfl | he
      · exact .inr (.inl rfl)
      · exact .inl he
    · rcases List.mem_cons.1 he with rfl | he
      · exact .inr (.inr ⟨k, a, List.mem_cons_self, rfl⟩)
      · exact .inl (List.mem_cons_of_mem _ he)
    · rcases List.mem_cons.1 he with rfl | he
      · exact .inl List.mem_cons_self
      · rcases ih he with hold | rfl | ⟨k', a', hmem, rfl⟩
        · exact .inl (List.mem_cons_of_mem _ hold)
        · exact .inr (.inl rfl)
        · exact .inr (.inr ⟨k', a', List.mem_cons_of_mem _ hmem, rfl⟩)

theorem mem_entries_of_get? {m : SortedMap κ α} {key : κ} {a : α} (h : m.get? order key = some a) :
    ∃ k, (k, a) ∈ m.entries := by
  obtain ⟨⟨k, b⟩, hfind, rfl⟩ := Option.map_eq_some_iff.1 h
  exact ⟨k, List.mem_of_find?_eq_some hfind⟩

theorem get?_insert_self {m : SortedMap κ α} {key : κ} (a : α) (hkey : order key key = .eq) :
    (m.insert order key a).get? order key = some a := by
  obtain ⟨entries⟩ := m
  unfold insert alter get?
  dsimp only
  induction entries with
  | nil => simp [alterIn, hkey]
  | cons entry rest ih =>
    obtain ⟨k, b⟩ := entry
    rw [alterIn]
    split
    next => simp [hkey]
    next heq => simp [heq]
    next hgt => simpa [hgt] using ih

/-- Changing the entry of one key leaves those of the others. -/
theorem get?_alter_of_ne {m : SortedMap κ α} {key other : κ} (f : Option α → α)
    (hother : order other key ≠ .eq) (hne : ∀ k, order key k = .eq → order other k ≠ .eq) :
    (m.alter order key f).get? order other = m.get? order other := by
  obtain ⟨entries⟩ := m
  unfold alter get?
  dsimp only
  congr 1
  induction entries with
  | nil => simp [alterIn, hother]
  | cons entry rest ih =>
    obtain ⟨k, b⟩ := entry
    rw [alterIn]
    split
    next => simp [hother]
    next heq => simp [hne k heq]
    next hgt =>
      rw [List.find?_cons, List.find?_cons]
      split
      · rfl
      · exact ih

theorem get?_insert_of_ne {m : SortedMap κ α} {key other : κ} (a : α)
    (hother : order other key ≠ .eq) (hne : ∀ k, order key k = .eq → order other k ≠ .eq) :
    (m.insert order key a).get? order other = m.get? order other :=
  get?_alter_of_ne _ hother hne

theorem get?_keep {m : SortedMap κ α} {key : κ} {p : κ → Bool}
    (hp : ∀ k, order key k = .eq → p k = true) :
    (m.keep p).get? order key = m.get? order key := by
  obtain ⟨entries⟩ := m
  unfold keep get?
  dsimp only
  congr 1
  induction entries with
  | nil => rfl
  | cons entry rest ih =>
    obtain ⟨k, b⟩ := entry
    by_cases hk : order key k = .eq
    · simp [hp k hk, hk]
    · by_cases hkept : p k = true
      · simpa [hkept, hk] using ih
      · simpa [hkept, hk] using ih

theorem get?_keep_eq_none {m : SortedMap κ α} {key : κ} {p : κ → Bool}
    (hp : ∀ k, order key k = .eq → p k = false) : (m.keep p).get? order key = none := by
  unfold keep get?
  rw [Option.map_eq_none_iff, List.find?_eq_none]
  rintro ⟨k, a⟩ hmem heq
  have hkept := (List.mem_filter.1 hmem).2
  rw [hp k (by simpa using heq)] at hkept
  cases hkept

/-- An order of keys under which entries can be kept sorted. -/
structure Linear (order : κ → κ → Ordering) : Prop where
  lt_trans : ∀ a b c, order a b = .lt → order b c = .lt → order a c = .lt
  eq_swap : ∀ a b, order a b = (order b a).swap
  refl : ∀ a, order a a = .eq

theorem linear_compare [Ord κ] [Std.TransOrd κ] : Linear (compare : κ → κ → Ordering) where
  lt_trans _ _ _ := Std.TransCmp.lt_trans
  eq_swap _ _ := Std.OrientedCmp.eq_swap
  refl _ := Std.ReflCmp.compare_self

/-- Lists are in a linear order where their first members that differ decide. -/
theorem Linear.lists (h : Linear order) (heq : ∀ j k, order j k = .eq → j = k)
    {lists : List κ → List κ → Ordering} (hnil : lists [] [] = .eq)
    (hlt : ∀ k ks, lists [] (k :: ks) = .lt) (hgt : ∀ k ks, lists (k :: ks) [] = .gt)
    (hcons : ∀ j js k ks, lists (j :: js) (k :: ks) = (order j k).then (lists js ks)) :
    Linear lists where
  lt_trans js ks ls hjk hkl := by
    induction js generalizing ks ls with
    | nil =>
      cases ls with
      | nil => cases ks <;> simp_all
      | cons l ls => exact hlt l ls
    | cons j js ih =>
      cases ks with
      | nil => simp [hgt] at hjk
      | cons k ks =>
        cases ls with
        | nil => simp [hgt] at hkl
        | cons l ls =>
          rw [hcons, Ordering.then_eq_lt] at hjk hkl ⊢
          rcases hjk with hjk | ⟨hjk, hrest⟩ <;> rcases hkl with hkl | ⟨hkl, hrest'⟩
          · exact .inl (h.lt_trans _ _ _ hjk hkl)
          · exact .inl (heq k l hkl ▸ hjk)
          · exact .inl (heq j k hjk ▸ hkl)
          · obtain rfl := heq j k hjk
            exact .inr ⟨hkl, ih ks ls hrest hrest'⟩
  eq_swap js ks := by
    induction js generalizing ks with
    | nil => cases ks <;> simp [hnil, hlt, hgt]
    | cons j js ih =>
      cases ks with
      | nil => simp [hlt, hgt]
      | cons k ks => rw [hcons, hcons, Ordering.swap_then, ← h.eq_swap, ← ih]
  refl js := by
    induction js with
    | nil => exact hnil
    | cons j js ih => simp [hcons, h.refl, ih]

/-- Every entry stands before those with greater keys. -/
def Sorted (order : κ → κ → Ordering) (m : SortedMap κ α) : Prop :=
  m.entries.Pairwise fun a b => order a.1 b.1 = .lt

theorem sorted_empty : Sorted order (empty : SortedMap κ α) :=
  List.Pairwise.nil

theorem Sorted.keep {m : SortedMap κ α} (h : m.Sorted order) (p : κ → Bool) :
    (m.keep p).Sorted order :=
  List.Pairwise.filter _ h

theorem Sorted.alter (hlinear : Linear order) {m : SortedMap κ α} (h : m.Sorted order) (key : κ)
    (f : Option α → α) : (m.alter order key f).Sorted order := by
  obtain ⟨entries⟩ := m
  unfold Sorted at h
  unfold SortedMap.alter Sorted
  dsimp only at h ⊢
  induction entries with
  | nil => simp [alterIn]
  | cons entry rest ih =>
    obtain ⟨k, a⟩ := entry
    obtain ⟨hk, hrest⟩ := List.pairwise_cons.1 h
    rw [alterIn]
    split
    next hlt =>
      refine List.pairwise_cons.2 ⟨?_, h⟩
      intro e he
      rcases List.mem_cons.1 he with rfl | he
      · exact hlt
      · exact hlinear.lt_trans _ _ _ hlt (hk e he)
    next => exact List.pairwise_cons.2 ⟨hk, hrest⟩
    next hgt =>
      refine List.pairwise_cons.2 ⟨?_, ih hrest⟩
      have hlt : order k key = .lt := by rw [hlinear.eq_swap, hgt, Ordering.swap_gt]
      intro e he
      rcases mem_alterIn he with he | rfl | ⟨k', a', hmem, rfl⟩
      · exact hk e he
      · exact hlt
      · exact hk (k', a') hmem

/-- A key above all others is put at the end. -/
theorem alterIn_of_gt {key : κ} {f : Option α → α} {entries : List (κ × α)}
    (h : ∀ e ∈ entries, order key e.1 = .gt) :
    alterIn order key f entries = entries ++ [(key, f none)] := by
  induction entries with
  | nil => rfl
  | cons entry rest ih =>
    obtain ⟨k, a⟩ := entry
    have hgt : order key k = .gt := h (k, a) List.mem_cons_self
    rw [alterIn, hgt, List.cons_append, ih fun e he => h e (List.mem_cons_of_mem _ he)]

variable {m n : SortedMap κ α} {key : κ} {a : α}

/-- Where only equal keys compare as equal, looking up the key of an entry finds that entry. -/
theorem Sorted.get?_eq_some_iff (hlinear : Linear order) (heq : ∀ j k, order j k = .eq → j = k)
    (h : m.Sorted order) : m.get? order key = some a ↔ (key, a) ∈ m.entries := by
  constructor
  · intro hget
    obtain ⟨⟨k, b⟩, hfind, rfl⟩ := Option.map_eq_some_iff.1 hget
    obtain rfl : key = k := heq key k (by simpa using List.find?_some hfind)
    exact List.mem_of_find?_eq_some hfind
  · intro hmem
    obtain ⟨before, after, hsplit⟩ := List.append_of_mem hmem
    unfold Sorted at h
    rw [hsplit] at h
    -- The entries before it have smaller keys.
    have hbefore : ∀ e ∈ before, (order key e.1 == .eq) = false := by
      intro e he
      have hlt := (List.pairwise_append.1 h).2.2 e he (key, a) List.mem_cons_self
      rw [hlinear.eq_swap, hlt]
      rfl
    rw [get?, hsplit, List.find?_append, List.find?_eq_none.2 fun e he => by simp [hbefore e he]]
    simp [hlinear.refl]

theorem Sorted.get?_alter_self (hlinear : Linear order) (h : m.Sorted order) (f : Option α → α) :
    (m.alter order key f).get? order key = some (f (m.get? order key)) := by
  obtain ⟨entries⟩ := m
  unfold Sorted at h
  unfold SortedMap.alter get?
  dsimp only at h ⊢
  induction entries with
  | nil => simp [alterIn, hlinear.refl]
  | cons entry rest ih =>
    obtain ⟨k, a⟩ := entry
    obtain ⟨hk, hrest⟩ := List.pairwise_cons.1 h
    rw [alterIn]
    split
    next hlt =>
      -- All entries have keys above the one that was not there.
      have habsent : ∀ e ∈ rest, (order key e.1 == .eq) = false := by
        intro e he
        rw [hlinear.lt_trans _ _ _ hlt (hk e he)]
        rfl
      have hnone : rest.find? (fun e => order key e.1 == .eq) = none :=
        List.find?_eq_none.2 fun e he => by simp [habsent e he]
      simp [hlinear.refl, hlt, hnone]
    next heq => simp [heq]
    next hgt => simpa [hgt] using ih hrest

theorem Sorted.get?_alter [DecidableEq κ] (hlinear : Linear order)
    (heq : ∀ j k, order j k = .eq → j = k) (h : m.Sorted order) (key : κ) (f : Option α → α)
    (k : κ) : (m.alter order key f).get? order k =
      if k = key then some (f (m.get? order k)) else m.get? order k := by
  split
  next hk => rw [hk, h.get?_alter_self hlinear]
  next hk =>
    refine get?_alter_of_ne f (fun hsame => hk (heq k key hsame)) fun j hj hsame => hk ?_
    rw [heq k j hsame, heq key j hj]

theorem mem_keys_alter {k : κ} (heq : ∀ j k, order j k = .eq → j = k) (m : SortedMap κ α)
    (key : κ) (f : Option α → α) : k ∈ (m.alter order key f).keys ↔ k = key ∨ k ∈ m.keys := by
  obtain ⟨entries⟩ := m
  unfold SortedMap.alter keys
  dsimp only
  induction entries with
  | nil => simp [alterIn]
  | cons entry rest ih =>
    obtain ⟨j, a⟩ := entry
    rw [alterIn]
    split
    next => simp
    next hsame =>
      obtain rfl := heq key j hsame
      simp
    next =>
      rw [List.map_cons, List.mem_cons, ih, List.map_cons, List.mem_cons]
      exact or_left_comm

/-- What is listed for one key alone is listed for its entry. -/
theorem Sorted.flatMap_eq {β : Type} [DecidableEq κ] (hlinear : Linear order)
    (heq : ∀ j k, order j k = .eq → j = k) (h : m.Sorted order) (key : κ) (f : α → List β) :
    (m.entries.flatMap fun e => if e.1 = key then f e.2 else []) =
      ((m.get? order key).map f).getD [] := by
  obtain ⟨entries⟩ := m
  unfold Sorted at h
  unfold get?
  dsimp only at h ⊢
  induction entries with
  | nil => rfl
  | cons entry rest ih =>
    obtain ⟨k, a⟩ := entry
    obtain ⟨hk, hrest⟩ := List.pairwise_cons.1 h
    rw [List.flatMap_cons, ih hrest]
    by_cases hkey : k = key
    · subst hkey
      have habsent : rest.find? (fun e => order k e.1 == .eq) = none := by
        rw [List.find?_eq_none]
        intro e he
        simp [hk e he]
      simp [hlinear.refl, habsent]
    · have hne : (order key k == .eq) = false := by
        simpa using fun hsame => hkey (heq key k hsame).symm
      simp [hkey, hne]

theorem Sorted.nodup (hlinear : Linear order) (h : m.Sorted order) : m.entries.Nodup := by
  refine List.Pairwise.imp (fun {e e'} hlt hsame => ?_) h
  rw [hsame, hlinear.refl] at hlt
  cases hlt

/-- A sorted map is determined by what is found in it. -/
theorem Sorted.ext (hlinear : Linear order) (heq : ∀ j k, order j k = .eq → j = k)
    (hm : m.Sorted order) (hn : n.Sorted order)
    (h : ∀ key, m.get? order key = n.get? order key) : m = n := by
  have hperm : m.entries.Perm n.entries := by
    refine (List.perm_ext_iff_of_nodup (hm.nodup hlinear) (hn.nodup hlinear)).2 fun e => ?_
    rw [← hm.get?_eq_some_iff hlinear heq, ← hn.get?_eq_some_iff hlinear heq, h]
  have hentries : m.entries = n.entries := by
    refine hperm.eq_of_pairwise (fun e e' _ _ hlt hgt => ?_) hm hn
    have hloop := hlinear.lt_trans _ _ _ hlt hgt
    rw [hlinear.refl] at hloop
    cases hloop
  cases m
  cases n
  exact congrArg SortedMap.mk hentries

end IncrementalBuild.SortedMap
