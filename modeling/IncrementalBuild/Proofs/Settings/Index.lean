import IncrementalBuild.Settings.Model
import IncrementalBuild.Proofs.SortedMap
import Mathlib.Data.List.Nodup
import Mathlib.Tactic.Common

/-!
The index of a model and its values stay in step: under every key of every group the index lists
where the values that were declared there are, in the order they were declared in, and it lists
every value once. So what a key was given is read off the index, and merging appends to it.
-/

namespace IncrementalBuild.Settings

/-- What a value was declared with, wherever it is kept. -/
def Value.content (v : Value) : String × List Condition × Option Place :=
  (v.raw, v.conditions, v.origin)

/-- What a statement declares for a key of a group. -/
def Statement.contentFor (group key : String) :
    Statement → List (String × List Condition × Option Place)
  | .group _ _ => []
  | .assignment group' key' value conditions place =>
    if group = group' ∧ key = key' then [(value, conditions, some place)] else []

namespace Model

/-- The value at `id` was declared for a key of a group. -/
def belongs (m : Model) (group key : String) (id : Nat) : Bool :=
  m.values[id]?.any fun v => v.group = group && v.key = key

/-- The index is sorted, and lists under every key of every group the values that belong there. -/
structure InStep (m : Model) : Prop where
  groups : m.index.Sorted compare
  keys : ∀ group keys, m.index.get? compare group = some keys → keys.Sorted compare
  ids : ∀ group key, (m.idsOf? group key).getD [] =
    (List.range m.values.size).filter (m.belongs group key)

/-- What the values at some indices were declared with. -/
def contentsAt (m : Model) (ids : List Nat) : List (String × List Condition × Option Place) :=
  ids.filterMap fun id => m.values[id]?.map Value.content

/-- What was declared for a key of a group, in the order the index lists it. -/
def contentsOf (m : Model) (group key : String) : List (String × List Condition × Option Place) :=
  m.contentsAt ((m.idsOf? group key).getD [])

/-- All values that the index lists, under whatever key. -/
def listing (m : Model) : List Nat :=
  m.index.entries.flatMap fun group => group.2.entries.flatMap Prod.snd

section Step

variable {m : Model} {group key : String} {v : Value}

theorem get?_alter {α : Type} {entries : SortedMap String α} (h : entries.Sorted compare)
    (name : String) (f : Option α → α) (other : String) :
    (entries.alter compare name f).get? compare other =
      if other = name then some (f (entries.get? compare other)) else entries.get? compare other :=
  h.get?_alter SortedMap.linear_compare (fun _ _ => Std.LawfulEqCmp.eq_of_compare) name f other

theorem lt_size_of_belongs {id : Nat} (h : m.belongs group key id = true) : id < m.values.size := by
  cases hv : m.values[id]? with
  | none => simp [belongs, hv] at h
  | some v => exact (Array.getElem?_eq_some_iff.1 hv).1

theorem belongs_addValue (id : Nat) : (m.addValue v).belongs group key id =
    if id = m.values.size then v.group = group && v.key = key else m.belongs group key id := by
  unfold belongs Model.addValue
  dsimp only
  rw [Array.getElem?_push]
  split <;> simp

/-- The keys of a group, none for one that is not declared. -/
def keysOf (m : Model) (group : String) : SortedMap String (List Nat) :=
  (m.index.get? compare group).getD .empty

theorem get?_keysOf (m : Model) (group key : String) :
    (m.keysOf group).get? compare key = m.idsOf? group key := by
  unfold keysOf idsOf?
  cases m.index.get? compare group <;> rfl

theorem InStep.keysOf_sorted (h : m.InStep) (group : String) : (m.keysOf group).Sorted compare := by
  unfold keysOf
  cases hkeys : m.index.get? compare group with
  | none => exact SortedMap.sorted_empty
  | some keys => exact h.keys group keys hkeys

theorem keysOf_addGroup (h : m.InStep) (name : String) :
    (m.addGroup name).keysOf group = m.keysOf group := by
  unfold keysOf Model.addGroup
  dsimp only
  rw [get?_alter h.groups]
  split <;> rfl

theorem keysOf_addValue (h : m.InStep) : (m.addValue v).keysOf group =
    if group = v.group then
      (m.keysOf group).alter compare v.key fun ids => ids.getD [] ++ [m.values.size]
    else m.keysOf group := by
  unfold keysOf Model.addValue
  dsimp only
  rw [get?_alter h.groups]
  split <;> rfl

theorem idsOf?_addValue (h : m.InStep) : (m.addValue v).idsOf? group key =
    if group = v.group ∧ key = v.key then some ((m.idsOf? group key).getD [] ++ [m.values.size])
    else m.idsOf? group key := by
  rw [← get?_keysOf, keysOf_addValue h]
  by_cases hgroup : group = v.group
  · rw [if_pos hgroup, get?_alter (h.keysOf_sorted group), get?_keysOf]
    by_cases hkey : key = v.key <;> simp [hgroup, hkey]
  · rw [if_neg hgroup, if_neg fun hboth => hgroup hboth.1, get?_keysOf]

theorem InStep.addGroup (h : m.InStep) (name : String) : (m.addGroup name).InStep where
  groups := h.groups.alter SortedMap.linear_compare name _
  keys group keys hkeys := by
    have hsorted := h.keysOf_sorted group
    rw [← keysOf_addGroup h name, keysOf, hkeys] at hsorted
    exact hsorted
  ids group key := by
    rw [← get?_keysOf, keysOf_addGroup h, get?_keysOf]
    exact h.ids group key

theorem InStep.addValue (h : m.InStep) (v : Value) : (m.addValue v).InStep where
  groups := h.groups.alter SortedMap.linear_compare v.group _
  keys group keys hkeys := by
    have hsorted : ((m.addValue v).keysOf group).Sorted compare := by
      rw [keysOf_addValue h]
      split
      · exact (h.keysOf_sorted group).alter SortedMap.linear_compare v.key _
      · exact h.keysOf_sorted group
    rw [keysOf, hkeys] at hsorted
    exact hsorted
  ids group key := by
    have hold : (List.range m.values.size).filter ((m.addValue v).belongs group key) =
        (m.idsOf? group key).getD [] := by
      rw [h.ids]
      refine List.filter_congr fun id hid => ?_
      rw [belongs_addValue, if_neg (Nat.ne_of_lt (List.mem_range.1 hid))]
    have hsize : (m.addValue v).values.size = m.values.size + 1 := by simp [Model.addValue]
    rw [hsize, List.range_succ, List.filter_append, hold, idsOf?_addValue h]
    by_cases hboth : group = v.group ∧ key = v.key
    · obtain ⟨rfl, rfl⟩ := hboth
      have hnew : (m.addValue v).belongs v.group v.key m.values.size = true := by
        simp [belongs_addValue]
      simp [hnew]
    · have hnew : (m.addValue v).belongs group key m.values.size = false := by
        rw [belongs_addValue, if_pos rfl, Bool.eq_false_iff]
        intro hsame
        simp only [Bool.and_eq_true, decide_eq_true_eq] at hsame
        exact hboth ⟨hsame.1.symm, hsame.2.symm⟩
      simp [hboth, hnew]

/-- A value is added behind what was declared for its key before. -/
theorem InStep.contentsOf_addValue (h : m.InStep) (v : Value) (group key : String) :
    (m.addValue v).contentsOf group key = m.contentsOf group key ++
      if group = v.group ∧ key = v.key then [v.content] else [] := by
  have hold : (m.addValue v).contentsAt ((m.idsOf? group key).getD []) =
      m.contentsOf group key := by
    refine List.filterMap_congr fun id hid => ?_
    have hlt : id < m.values.size := by
      rw [h.ids] at hid
      exact List.mem_range.1 (List.mem_filter.1 hid).1
    simp [Model.addValue, Array.getElem?_push, Nat.ne_of_lt hlt]
  rw [contentsOf, idsOf?_addValue h]
  split
  next =>
    rw [Option.getD_some, contentsAt, List.filterMap_append, ← contentsAt, hold]
    simp [Model.addValue]
  next => rw [hold, List.append_nil]

theorem InStep.contentsOf_addGroup (h : m.InStep) (name group key : String) :
    (m.addGroup name).contentsOf group key = m.contentsOf group key := by
  unfold contentsOf
  rw [← get?_keysOf, keysOf_addGroup h, get?_keysOf]
  rfl

theorem mem_groups_addGroup (name : String) :
    group ∈ (m.addGroup name).groups ↔ group = name ∨ group ∈ m.groups :=
  SortedMap.mem_keys_alter (fun _ _ => Std.LawfulEqCmp.eq_of_compare) m.index name _

theorem mem_groups_addValue (v : Value) :
    group ∈ (m.addValue v).groups ↔ group = v.group ∨ group ∈ m.groups :=
  SortedMap.mem_keys_alter (fun _ _ => Std.LawfulEqCmp.eq_of_compare) m.index v.group _

end Step

theorem inStep_empty : InStep empty := by
  have hkeys (group : String) : empty.index.get? compare group =
      if group = "" then some .empty else none :=
    get?_alter SortedMap.sorted_empty "" _ group
  refine ⟨?_, fun group keys h => ?_, fun group key => ?_⟩
  · exact SortedMap.sorted_empty.alter SortedMap.linear_compare "" _
  · rw [hkeys] at h
    split at h <;> cases h
    exact SortedMap.sorted_empty
  · rw [idsOf?, hkeys]
    split <;> rfl

section Run

variable {m other : Model} {group key : String}

/-- Steps that each keep a model in step and add to what was declared for a key do so one after the
other. -/
theorem InStep.foldl {β : Type} {f : Model → β → Model}
    {added : β → List (String × List Condition × Option Place)}
    (hf : ∀ m b, m.InStep →
      (f m b).InStep ∧ (f m b).contentsOf group key = m.contentsOf group key ++ added b)
    (h : m.InStep) (bs : List β) : (bs.foldl f m).InStep ∧
      (bs.foldl f m).contentsOf group key = m.contentsOf group key ++ bs.flatMap added := by
  induction bs generalizing m with
  | nil => exact ⟨h, by simp⟩
  | cons b bs ih =>
    obtain ⟨hstep, hadded⟩ := hf m b h
    obtain ⟨hrun, hmore⟩ := ih hstep
    exact ⟨hrun, by rw [List.foldl_cons, hmore, hadded, List.flatMap_cons, List.append_assoc]⟩

theorem get?_eq_some_iff {α : Type} {entries : SortedMap String α} (h : entries.Sorted compare)
    {name : String} {a : α} :
    entries.get? compare name = some a ↔ (name, a) ∈ entries.entries :=
  h.get?_eq_some_iff SortedMap.linear_compare fun _ _ => Std.LawfulEqCmp.eq_of_compare

/-- What an entry of the index lists are the values of its key. -/
theorem InStep.ids_of_entry (h : m.InStep) {keys : SortedMap String (List Nat)} {ids : List Nat}
    (hkeys : (group, keys) ∈ m.index.entries) (hids : (key, ids) ∈ keys.entries) :
    ids = (List.range m.values.size).filter (m.belongs group key) := by
  have hget := (get?_eq_some_iff h.groups).2 hkeys
  rw [← h.ids, idsOf?, hget, Option.bind_some,
    (get?_eq_some_iff (h.keys group keys hget)).2 hids, Option.getD_some]

/-- What a sorted map of lists holds for a key. -/
theorem flatMap_of_key {α β : Type} {entries : SortedMap String α} (h : entries.Sorted compare)
    (name : String) (f : α → List β) :
    (entries.entries.flatMap fun e => if e.1 = name then f e.2 else []) =
      ((entries.get? compare name).map f).getD [] :=
  h.flatMap_eq SortedMap.linear_compare (fun _ _ => Std.LawfulEqCmp.eq_of_compare) name f

/-- Merging appends what the other model has for a key. -/
theorem InStep.merge (h : m.InStep) (hother : other.InStep) (group key : String) :
    (m.merge other).InStep ∧ (m.merge other).contentsOf group key =
      m.contentsOf group key ++ other.contentsOf group key := by
  have hmerge : (m.merge other).InStep ∧ (m.merge other).contentsOf group key =
      m.contentsOf group key ++ other.index.entries.flatMap fun entry =>
        entry.2.entries.flatMap fun entry' => entry'.2.flatMap fun id =>
          if group = entry.1 ∧ key = entry'.1 then [(other.values[id]?.getD default).content]
          else [] := by
    unfold Model.merge
    refine InStep.foldl ?_ h _
    rintro m ⟨name, keys⟩ hm
    have hgroup := hm.contentsOf_addGroup name group key
    rw [← hgroup]
    refine InStep.foldl ?_ (hm.addGroup name) _
    rintro m ⟨name', ids⟩ hm
    refine InStep.foldl ?_ hm _
    intro m id hm
    exact ⟨hm.addValue _, hm.contentsOf_addValue _ group key⟩
  refine ⟨hmerge.1, hmerge.2.trans (congrArg _ ?_)⟩
  -- Of all entries, only the one of the key has anything to add.
  have hentry : ∀ entry ∈ other.index.entries, ∀ entry' ∈ entry.2.entries,
      (entry'.2.flatMap fun id => if group = entry.1 ∧ key = entry'.1 then
        [(other.values[id]?.getD default).content] else []) =
      if entry.1 = group then if entry'.1 = key then other.contentsAt entry'.2 else [] else [] := by
    rintro ⟨name, keys⟩ hkeys ⟨name', ids⟩ hids
    have hfound : ∀ id ∈ ids, [(other.values[id]?.getD default).content] =
        (other.values[id]?.map Value.content).toList := by
      intro id hid
      rw [hother.ids_of_entry hkeys hids] at hid
      have hlt : id < other.values.size := List.mem_range.1 (List.mem_filter.1 hid).1
      simp [hlt]
    by_cases hboth : group = name ∧ key = name'
    · obtain ⟨rfl, rfl⟩ := hboth
      rw [if_pos rfl, if_pos rfl, contentsAt, List.filterMap_eq_flatMap_toList]
      exact List.flatMap_congr fun id hid => (if_pos ⟨rfl, rfl⟩).trans (hfound id hid)
    · have hnot : ¬ (name = group ∧ name' = key) := fun h => hboth ⟨h.1.symm, h.2.symm⟩
      rw [← ite_and, if_neg hnot]
      simp [hboth]
  have hgroup : ∀ entry ∈ other.index.entries, (entry.2.entries.flatMap fun entry' =>
      if entry.1 = group then if entry'.1 = key then other.contentsAt entry'.2 else [] else []) =
      if entry.1 = group then ((entry.2.get? compare key).map other.contentsAt).getD []
      else [] := by
    rintro ⟨name, keys⟩ hkeys
    split
    · exact flatMap_of_key (hother.keys name keys ((get?_eq_some_iff hother.groups).2 hkeys)) key _
    · simp
  calc
    _ = other.index.entries.flatMap fun entry => if entry.1 = group then
          ((entry.2.get? compare key).map other.contentsAt).getD [] else [] :=
      List.flatMap_congr fun entry hmem =>
        (List.flatMap_congr (hentry entry hmem)).trans (hgroup entry hmem)
    _ = ((other.index.get? compare group).map fun keys =>
          ((keys.get? compare key).map other.contentsAt).getD []).getD [] :=
      flatMap_of_key hother.groups group fun keys =>
        ((keys.get? compare key).map other.contentsAt).getD []
    _ = other.contentsOf group key := by
      rw [contentsOf, idsOf?]
      cases other.index.get? compare group with
      | none => rfl
      | some keys => cases hids : keys.get? compare key <;> simp [hids, contentsAt]

theorem InStep.addStatement (h : m.InStep) (s : Statement) (group key : String) :
    (m.addStatement s).InStep ∧ (m.addStatement s).contentsOf group key =
      m.contentsOf group key ++ s.contentFor group key := by
  cases s with
  | group name place =>
    refine ⟨h.addGroup name, ?_⟩
    rw [Statement.contentFor, List.append_nil]
    exact h.contentsOf_addGroup name group key
  | assignment => exact ⟨h.addValue _, h.contentsOf_addValue _ group key⟩

/-- Steps that each add some groups add those of all. -/
theorem mem_groups_foldl {β : Type} {f : Model → β → Model} (adds : β → Prop)
    (hf : ∀ m b, group ∈ (f m b).groups ↔ group ∈ m.groups ∨ adds b) (m : Model) (bs : List β) :
    group ∈ (bs.foldl f m).groups ↔ group ∈ m.groups ∨ ∃ b ∈ bs, adds b := by
  induction bs generalizing m with
  | nil => simp
  | cons b bs ih => rw [List.foldl_cons, ih, hf]; simp [or_assoc]

theorem mem_groups_merge :
    group ∈ (m.merge other).groups ↔ group ∈ m.groups ∨ group ∈ other.groups := by
  have hvalues (name name' : String) (m : Model) (ids : List Nat) :
      group ∈ (ids.foldl (fun m id => m.addValue
        { other.values[id]?.getD default with group := name, key := name' }) m).groups ↔
      group ∈ m.groups ∨ ∃ id ∈ ids, group = name := by
    refine mem_groups_foldl (fun _ => group = name) (fun m id => ?_) m ids
    exact (mem_groups_addValue _).trans or_comm
  unfold Model.merge
  rw [mem_groups_foldl fun entry => group = entry.1]
  · simp [groups, SortedMap.keys, eq_comm]
  rintro m ⟨name, keys⟩
  dsimp only
  rw [mem_groups_foldl (fun entry => ∃ id ∈ entry.2, group = name)
    (fun m entry => hvalues name entry.1 m entry.2), mem_groups_addGroup]
  tauto

/-- A value belongs under one key of one group. -/
theorem belongs_unique {group' key' : String} {id : Nat} (h : m.belongs group key id = true)
    (h' : m.belongs group' key' id = true) : group = group' ∧ key = key' := by
  unfold belongs at h h'
  cases hv : m.values[id]? with
  | none => simp [hv] at h
  | some v =>
    simp only [hv, Option.any_some, Bool.and_eq_true, decide_eq_true_eq] at h h'
    exact ⟨h.1.symm.trans h'.1, h.2.symm.trans h'.2⟩

/-- A list of the index has the values of its key, from the first on. -/
theorem InStep.of_entry (h : m.InStep) {keys : SortedMap String (List Nat)} {ids : List Nat}
    (hkeys : (group, keys) ∈ m.index.entries) (hids : (key, ids) ∈ keys.entries) :
    ids.Pairwise (· < ·) ∧ ∀ id ∈ ids, m.belongs group key id = true := by
  rw [h.ids_of_entry hkeys hids]
  exact ⟨List.pairwise_lt_range.filter _, fun id hid => (List.mem_filter.1 hid).2⟩

/-- Every value is listed once. -/
theorem InStep.listing_perm (h : m.InStep) : m.listing.Perm (List.range m.values.size) := by
  have hbelongs : ∀ entry ∈ m.index.entries, ∀ id ∈ entry.2.entries.flatMap Prod.snd,
      ∃ key, m.belongs entry.1 key id = true := by
    intro entry hentry id hid
    obtain ⟨⟨key, ids⟩, hids, hid⟩ := List.mem_flatMap.1 hid
    exact ⟨key, (h.of_entry hentry hids).2 id hid⟩
  have hnodup : m.listing.Nodup := by
    refine List.nodup_flatMap.2 ⟨fun entry hentry => List.nodup_flatMap.2 ⟨?_, ?_⟩, ?_⟩
    · rintro ⟨key, ids⟩ hids
      exact (h.of_entry hentry hids).1.imp Nat.ne_of_lt
    · have hsorted := h.keys entry.1 entry.2 ((get?_eq_some_iff h.groups).2 hentry)
      refine List.Pairwise.imp_of_mem (fun {e e'} he he' hlt id hid hid' => ?_) hsorted
      have hkey := (belongs_unique ((h.of_entry hentry he).2 id hid)
        ((h.of_entry hentry he').2 id hid')).2
      simp [hkey] at hlt
    · refine List.Pairwise.imp_of_mem (fun {e e'} he he' hlt id hid hid' => ?_) h.groups
      obtain ⟨key, hkey⟩ := hbelongs e he id hid
      obtain ⟨key', hkey'⟩ := hbelongs e' he' id hid'
      simp [(belongs_unique hkey hkey').1] at hlt
  refine (List.perm_ext_iff_of_nodup hnodup List.nodup_range).2 fun id => ?_
  rw [List.mem_range]
  constructor
  · intro hid
    obtain ⟨entry, hentry, hid⟩ := List.mem_flatMap.1 hid
    obtain ⟨key, hkey⟩ := hbelongs entry hentry id hid
    exact lt_size_of_belongs hkey
  · intro hlt
    have hown : m.belongs m.values[id].group m.values[id].key id = true := by simp [belongs, hlt]
    have hmem : id ∈ (m.idsOf? m.values[id].group m.values[id].key).getD [] := by
      rw [h.ids]
      exact List.mem_filter.2 ⟨List.mem_range.2 hlt, hown⟩
    cases hids : m.idsOf? m.values[id].group m.values[id].key with
    | none => simp [hids] at hmem
    | some ids =>
      obtain ⟨keys, hkeys, hkey⟩ := Option.bind_eq_some_iff.1 hids
      rw [hids] at hmem
      exact List.mem_flatMap.2 ⟨_, (get?_eq_some_iff h.groups).1 hkeys,
        List.mem_flatMap.2 ⟨_, (get?_eq_some_iff (h.keys _ keys hkeys)).1 hkey, hmem⟩⟩

end Run

end Model

end IncrementalBuild.Settings
