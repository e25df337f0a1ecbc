import IncrementalBuild.Settings.Resolution
import IncrementalBuild.Proofs.Except
import IncrementalBuild.Proofs.Settings.Index
import IncrementalBuild.Proofs.Text.Split
import Mathlib

/-!
The models that description files, settings from outside and merging lead to. Their index is in
step with their values, and so lists values that they have.

The full name of a key is its group and the key with a dot between them, and a reference is cut at
its first dot. So the full name of a key leads to its values just if there is no dot in the name of
the group: a group may be called anything, and one whose name has a dot is cut in two, so that its
keys cannot be referred to from outside of it.
-/

namespace IncrementalBuild.Settings.Model

/-- The models that any sequence of operations leads to. -/
inductive Reachable : Model → Prop where
  | empty : Reachable empty
  | ofSource {path : Path} {source : String} {m : Model} :
      ofSource path source = .ok m → Reachable m
  | set {m n : Model} {group key value : String} :
      Reachable m → m.set group key value = .ok n → Reachable n
  | merge {m other : Model} : Reachable m → Reachable other → Reachable (m.merge other)
  | resolve {m : Model} : Reachable m → Reachable m.resolve

/-- Every value that the index lists is there. -/
def Indexed (m : Model) : Prop :=
  ∀ group keys, (group, keys) ∈ m.index.entries → ∀ key ids, (key, ids) ∈ keys.entries →
    ∀ id ∈ ids, id < m.values.size

/-- The index of every model that can be reached is in step with its values. -/
theorem Reachable.inStep {m : Model} (h : m.Reachable) : m.InStep := by
  induction h with
  | empty => exact inStep_empty
  | @ofSource path source m hm =>
    obtain ⟨statements, -, hm⟩ := bind_eq_ok_iff.1 hm
    cases hm
    have hempty : ({ Model.empty with path } : Model).InStep :=
      ⟨inStep_empty.groups, inStep_empty.keys, inStep_empty.ids⟩
    exact (hempty.foldl (fun m s hm => hm.addStatement s "" "") statements).1
  | @set m n group key value _ hn ih =>
    unfold Model.set at hn
    split at hn
    · cases hn
    · cases hn
      exact ih.addValue _
  | merge _ _ ih ih' => exact (ih.merge ih' "" "").1
  | resolve _ ih => exact ⟨ih.groups, ih.keys, ih.ids⟩

theorem Reachable.indexed {m : Model} (h : m.Reachable) : m.Indexed :=
  fun _ _ hkeys _ _ hids id hid => lt_size_of_belongs ((h.inStep.of_entry hkeys hids).2 id hid)

theorem Indexed.lt_of_idsOf? {m : Model} (h : m.Indexed) {group key : String} {ids : List Nat}
    (hids : m.idsOf? group key = some ids) {id : Nat} (hid : id ∈ ids) : id < m.values.size := by
  obtain ⟨keys, hkeys, hids⟩ := Option.bind_eq_some_iff.1 hids
  obtain ⟨g, hg⟩ := SortedMap.mem_entries_of_get? hkeys
  obtain ⟨k, hk⟩ := SortedMap.mem_entries_of_get? hids
  exact h g keys hg k ids hk id hid

/-- What a reference finds is listed under the two parts it is cut into, or under the whole of it in
the scope or in the global group. -/
theorem idsOf?_of_lookup {m : Model} {name scope : String} {ids : List Nat}
    (h : m.lookup name scope = some ids) :
    (∃ l r, Text.splitOnce '.' name.toList = some (l, r) ∧
      m.idsOf? (String.ofList l) (String.ofList r) = some ids) ∨
    m.idsOf? scope name = some ids ∨ m.idsOf? "" name = some ids := by
  rw [lookup] at h
  dsimp only at h
  generalize hqualified : (Text.splitOnce '.' name.toList).bind _ = qualified at h
  cases qualified with
  | some found =>
    cases h
    obtain ⟨⟨l, r⟩, hcut, hids⟩ := Option.bind_eq_some_iff.1 hqualified
    exact .inl ⟨l, r, hcut, hids⟩
  | none =>
    cases hscope : m.idsOf? scope name with
    | some found =>
      rw [hscope] at h
      exact .inr (.inl h)
    | none =>
      rw [hscope] at h
      exact .inr (.inr h)

/-- What a reference names are values of the model. -/
theorem Indexed.lt_of_lookup {m : Model} (h : m.Indexed) {name scope : String} {ids : List Nat}
    (hids : m.lookup name scope = some ids) {id : Nat} (hid : id ∈ ids) : id < m.values.size := by
  obtain ⟨l, r, -, hlisted⟩ | hlisted | hlisted := idsOf?_of_lookup hids
  · exact h.lt_of_idsOf? hlisted hid
  · exact h.lt_of_idsOf? hlisted hid
  · exact h.lt_of_idsOf? hlisted hid

section FullName

variable {m : Model} {group key name scope : String} {ids : List Nat} {id : Nat}

/-- What is listed for a key is never an empty list: a key is declared with its first value. -/
def Valued (m : Model) : Prop :=
  ∀ group key, m.idsOf? group key ≠ some []

theorem Valued.addGroup (h : m.Valued) (hm : m.InStep) (name : String) :
    (m.addGroup name).Valued := by
  intro group key
  rw [← get?_keysOf, keysOf_addGroup hm, get?_keysOf]
  exact h group key

theorem Valued.addValue (h : m.Valued) (hm : m.InStep) (v : Value) : (m.addValue v).Valued := by
  intro group key
  rw [idsOf?_addValue hm]
  split
  · simp
  · exact h group key

theorem Valued.addStatement (h : m.Valued) (hm : m.InStep) (s : Statement) :
    (m.addStatement s).Valued := by
  cases s with
  | group name place => exact h.addGroup hm name
  | assignment => exact h.addValue hm _

theorem Valued.merge (h : m.Valued) (hm : m.InStep) (other : Model) :
    (m.merge other).Valued := by
  -- Each of the three loops keeps the index in step as well, which adding to it relies on.
  suffices hboth : (m.merge other).InStep ∧ (m.merge other).Valued from hboth.2
  unfold Model.merge
  refine List.foldlRecOn (motive := fun m : Model => m.InStep ∧ m.Valued) _ _ ⟨hm, h⟩ ?_
  rintro m ⟨hm, h⟩ ⟨name, keys⟩ -
  refine List.foldlRecOn (motive := fun m : Model => m.InStep ∧ m.Valued) _ _
    ⟨hm.addGroup name, h.addGroup hm name⟩ ?_
  rintro m ⟨hm, h⟩ ⟨name', ids⟩ -
  refine List.foldlRecOn (motive := fun m : Model => m.InStep ∧ m.Valued) _ _ ⟨hm, h⟩ ?_
  exact fun m hm id _ => ⟨hm.1.addValue _, hm.2.addValue hm.1 _⟩

theorem valued_empty : Valued empty := by
  intro group key hids
  obtain ⟨keys, hkeys, hkey⟩ := Option.bind_eq_some_iff.1 hids
  obtain ⟨name, hname⟩ := SortedMap.mem_entries_of_get? hkeys
  cases List.mem_singleton.1 hname
  cases hkey

theorem Reachable.valued (h : m.Reachable) : m.Valued := by
  induction h with
  | empty => exact valued_empty
  | @ofSource path source m hm =>
    obtain ⟨statements, -, hm⟩ := bind_eq_ok_iff.1 hm
    cases hm
    have hempty : ({ Model.empty with path } : Model).InStep :=
      ⟨inStep_empty.groups, inStep_empty.keys, inStep_empty.ids⟩
    exact (List.foldlRecOn (motive := fun m : Model => m.InStep ∧ m.Valued) statements addStatement
      ⟨hempty, valued_empty⟩ fun m hm s _ =>
        ⟨(hm.1.addStatement s "" "").1, hm.2.addStatement hm.1 s⟩).2
  | @set m n group key value hm hn ih =>
    unfold Model.set at hn
    split at hn
    · cases hn
    · cases hn
      exact ih.addValue hm.inStep _
  | merge hm _ ih _ => exact ih.merge hm.inStep _
  | resolve _ ih => exact ih

theorem exists_idsOf?_of_mem_keys (hm : m.InStep) (hkey : key ∈ m.keys group) :
    ∃ ids, m.idsOf? group key = some ids := by
  have hkeys : m.keys group = (m.keysOf group).keys := by
    unfold Model.keys keysOf
    cases m.index.get? compare group <;> rfl
  rw [hkeys] at hkey
  obtain ⟨⟨key, ids⟩, hids, rfl⟩ := List.mem_map.1 hkey
  exact ⟨ids, (get?_keysOf m group key).symm.trans
    ((get?_eq_some_iff (hm.keysOf_sorted group)).2 hids)⟩

/-- A key that a group holds lists the values that were declared for it, and there is one. -/
theorem Reachable.idsOf?_of_mem_keys (h : m.Reachable) (hkey : key ∈ m.keys group) :
    m.idsOf? group key = some ((List.range m.values.size).filter (m.belongs group key)) ∧
      (List.range m.values.size).filter (m.belongs group key) ≠ [] := by
  obtain ⟨ids, hids⟩ := exists_idsOf?_of_mem_keys h.inStep hkey
  have hlisted := h.inStep.ids group key
  rw [hids, Option.getD_some] at hlisted
  exact ⟨hlisted ▸ hids, fun hnone => h.valued group key (hids.trans (by rw [hlisted, hnone]))⟩

theorem belongs_of_idsOf? (hm : m.InStep) (hids : m.idsOf? group key = some ids)
    (hid : id ∈ ids) : m.belongs group key id = true := by
  have hlisted := hm.ids group key
  rw [hids, Option.getD_some] at hlisted
  rw [hlisted] at hid
  exact (List.mem_filter.1 hid).2

/-- A name with a dot is found under the two parts it is cut into, if there is such a key. -/
theorem lookup_of_splitOnce {l r : List Char} (hcut : Text.splitOnce '.' name.toList = some (l, r))
    (hids : m.idsOf? (String.ofList l) (String.ofList r) = some ids) :
    m.lookup name scope = some ids := by
  simp [lookup, hcut, hids]

theorem toList_fullName (group key : String) :
    (group ++ "." ++ key).toList = group.toList ++ '.' :: key.toList := by
  simp

/-- A full name is longer than its key. -/
theorem fullName_ne_key (group key : String) : group ++ "." ++ key ≠ key := by
  intro h
  have hlength := congrArg (fun s : String => s.toList.length) h
  simp only [toList_fullName, List.length_append, List.length_cons] at hlength
  omega

/-- A reference by the full name of a key of a group finds the values of that key just if there is
no dot in the name of the group. If there is one, what the reference finds, if anything, are values
of other keys. -/
theorem lookup_fullName_eq_iff (hm : m.Reachable) (hkey : key ∈ m.keys group)
    (scope : String) :
    (m.lookup (group ++ "." ++ key) scope =
        some ((List.range m.values.size).filter (m.belongs group key)) ↔ '.' ∉ group.toList) ∧
      ('.' ∈ group.toList → ∀ found, m.lookup (group ++ "." ++ key) scope = some found →
        ∀ id ∈ found, m.belongs group key id = false) := by
  obtain ⟨hids, hsome⟩ := hm.idsOf?_of_mem_keys hkey
  have hother (hdot : '.' ∈ group.toList) (found : List Nat)
      (hfound : m.lookup (group ++ "." ++ key) scope = some found) (id : Nat) (hid : id ∈ found) :
      m.belongs group key id = false := by
    refine Bool.eq_false_iff.2 fun hbelongs => ?_
    obtain ⟨l, r, hcut, hlisted⟩ | hlisted | hlisted := idsOf?_of_lookup hfound
    · -- The cut is at the first dot, so what stands before it is not the name of the group.
      have hl : String.ofList l = group :=
        (belongs_unique (belongs_of_idsOf? hm.inStep hlisted hid) hbelongs).1
      rw [← hl, String.toList_ofList] at hdot
      exact Text.not_mem_of_splitOnce hcut hdot
    · exact fullName_ne_key group key
        (belongs_unique (belongs_of_idsOf? hm.inStep hlisted hid) hbelongs).2
    · exact fullName_ne_key group key
        (belongs_unique (belongs_of_idsOf? hm.inStep hlisted hid) hbelongs).2
  refine ⟨⟨fun hlookup hdot => ?_, fun hdot => ?_⟩, hother⟩
  · obtain ⟨id, hid⟩ := List.exists_mem_of_ne_nil _ hsome
    have hnot := hother hdot _ hlookup id hid
    rw [(List.mem_filter.1 hid).2] at hnot
    cases hnot
  · refine lookup_of_splitOnce (l := group.toList) (r := key.toList) ?_ ?_
    · rw [toList_fullName, Text.splitOnce_append_cons hdot]
    · simpa using hids

/-- Two groups that hold one key each, the second with a dot in its name, and a value that refers to
the keys of both. -/
def dottedSource : String :=
  "[Project]\nFlags = $(a.d) $(a.b.c)\n[a]\nd = 1\n[a.b]\nc = 2\n"

theorem dottedSource_fullName : ∃ m, ofSource ⟨"app"⟩ dottedSource = .ok m ∧
    m.idsOf? "a" "d" = some [1] ∧ m.lookup "a.d" "Project" = some [1] ∧
    m.idsOf? "a.b" "c" = some [2] ∧ m.lookup "a.b.c" "Project" ≠ some [2] := by
  have hfacts : ((ofSource ⟨"app"⟩ dottedSource).toOption.map fun m =>
      (m.keys "a", m.keys "a.b", m.idsOf? "a" "d", m.idsOf? "a.b" "c")) =
        some (["d"], ["c"], some [1], some [2]) := by
    cbv
  cases hm : ofSource ⟨"app"⟩ dottedSource with
  | error e => simp [hm, Except.toOption] at hfacts
  | ok m =>
    obtain ⟨hplain, hdotted, hd, hc⟩ : m.keys "a" = ["d"] ∧ m.keys "a.b" = ["c"] ∧
        m.idsOf? "a" "d" = some [1] ∧ m.idsOf? "a.b" "c" = some [2] := by
      simpa [hm, Except.toOption] using hfacts
    have hreachable := Reachable.ofSource hm
    have hkey : "d" ∈ m.keys "a" := by simp [hplain]
    have hkey' : "c" ∈ m.keys "a.b" := by simp [hdotted]
    have hfound := (lookup_fullName_eq_iff hreachable hkey "Project").1.2 (by decide)
    have hmissed := mt (lookup_fullName_eq_iff hreachable hkey' "Project").1.1 (by decide)
    rw [← (hreachable.idsOf?_of_mem_keys hkey).1, hd] at hfound
    rw [← (hreachable.idsOf?_of_mem_keys hkey').1, hc] at hmissed
    exact ⟨m, rfl, hd, hfound, hc, hmissed⟩

end FullName

end IncrementalBuild.Settings.Model
