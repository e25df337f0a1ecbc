import IncrementalBuild.Proofs.Disk.Directories
import Mathlib.Data.List.Induction

/-!
Taking away what stands at some places. Nothing lies below a file, or below a place where nothing
stands, so a disk without a place is a disk without all that lies below it. Whether something can be
taken away depends on what was taken away before, as long as a path may lead through one place to
another; it does not where paths that come to a place stay there.
-/

namespace IncrementalBuild

namespace Path

/-- Once the path has come to the place `i`, or to one below it, it does not leave it again. -/
def StaysIn (p : Path) (i workingDirectory : Location) : Prop :=
  (p.trail workingDirectory).Pairwise fun j k => i <+: j → i <+: k

instance (p : Path) (i l : Location) : Decidable (p.StaysIn i l) :=
  inferInstanceAs (Decidable (List.Pairwise _ _))

/-- The last piece of a path is an ordinary name, whatever slashes stand behind it. -/
def EndsInName (p : Path) : Prop :=
  ((p.parts []).2.reverse.dropWhile List.isEmpty).headD [] ∉ [[], ['.'], ['.', '.']]

instance (p : Path) : Decidable p.EndsInName :=
  inferInstanceAs (Decidable (¬ _))

theorem parts_snd (p : Path) (l : Location) : (p.parts l).2 = (p.parts []).2 := by
  unfold parts
  split <;> rfl

theorem passed_idle (l : Location) {idle : List (List Char)} (hidle : ∀ piece ∈ idle, piece = []) :
    ∀ k ∈ passed l idle, k = l := by
  induction idle with
  | nil => simp [passed]
  | cons piece idle ih =>
    have hpiece := hidle piece List.mem_cons_self
    subst hpiece
    intro k hk
    rcases List.mem_cons.1 hk with rfl | hk
    · rfl
    · exact ih (fun piece hmem => hidle piece (List.mem_cons_of_mem _ hmem)) k hk

theorem follow_idle (l : Location) {idle : List (List Char)} (hidle : ∀ piece ∈ idle, piece = []) :
    follow l idle = l := by
  induction idle with
  | nil => rfl
  | cons piece idle ih =>
    obtain rfl := hidle piece List.mem_cons_self
    exact ih fun piece hmem => hidle piece (List.mem_cons_of_mem _ hmem)

/-- The pieces of a path, with its name behind what leads to it, and slashes behind the name. -/
theorem EndsInName.exists_pieces {p : Path} (h : p.EndsInName) (l : Location) :
    ∃ init last idle, (p.parts l).2 = init ++ last :: idle ∧
      last ∉ [[], ['.'], ['.', '.']] ∧ ∀ piece ∈ idle, piece = [] := by
  unfold EndsInName at h
  rw [← p.parts_snd l] at h
  obtain ⟨last, init, hlast⟩ : ∃ last init,
      (p.parts l).2.reverse.dropWhile List.isEmpty = last :: init := by
    refine List.exists_cons_of_ne_nil fun hnil => h ?_
    rw [hnil]
    exact List.mem_cons_self
  rw [hlast] at h
  refine ⟨init.reverse, last, ((p.parts l).2.reverse.takeWhile List.isEmpty).reverse, ?_, h,
    fun piece hmem => ?_⟩
  · have hreverse := List.takeWhile_append_dropWhile (p := List.isEmpty) (l := (p.parts l).2.reverse)
    rw [hlast] at hreverse
    simpa using (congrArg List.reverse hreverse).symm
  · exact List.isEmpty_iff.1 (List.all_eq_true.1 List.all_takeWhile _ (List.mem_reverse.1 hmem))

/-- A path that ends in a name does not lead to the root. -/
theorem EndsInName.location_ne_root {p : Path} (h : p.EndsInName) (l : Location) :
    p.location l ≠ [] := by
  obtain ⟨init, last, idle, hpieces, hlast, hidle⟩ := h.exists_pieces l
  have hnext : next (follow (p.parts l).1 init) last ≠ [] := by
    simp only [List.mem_cons, List.not_mem_nil, or_false, not_or] at hlast
    simp [next, hlast]
  rwa [location, hpieces, follow, List.foldl_append, List.foldl_cons, ← follow, ← follow,
    follow_idle _ hidle]

end Path

namespace Disk

variable {d e : Disk} {p : Path} {k l : Location} {n : Node} {gone : Location → Bool}

/-- What stands anywhere lies in a directory, and in the list of nodes it stands behind it. -/
structure IsTree (d : Disk) : Prop where
  sorted : d.nodes.Sorted Location.order
  above : ∀ e ∈ d.nodes.entries, e.1 ≠ [] ∧ d.node? e.1.dropLast = some .directory

theorem mem_entries_of_node? (h : d.node? k = some n) (hk : k ≠ []) : (k, n) ∈ d.nodes.entries := by
  unfold node? at h
  rw [if_neg (by simpa using hk)] at h
  obtain ⟨⟨j, m⟩, hfind, rfl⟩ := Option.map_eq_some_iff.1 h
  obtain rfl : k = j := Location.order_eq_iff.1 (by simpa using List.find?_some hfind)
  exact List.mem_of_find?_eq_some hfind

instance (d : Disk) : Decidable d.IsTree :=
  have : Decidable (d.nodes.Sorted Location.order) := inferInstanceAs (Decidable (List.Pairwise _ _))
  decidable_of_iff (d.nodes.Sorted Location.order ∧
      ∀ e ∈ d.nodes.entries, e.1 ≠ [] ∧ d.node? e.1.dropLast = some .directory)
    ⟨fun h => ⟨h.1, h.2⟩, fun h => ⟨h.sorted, h.above⟩⟩

namespace IsTree

/-- Whatever something lies below is a directory. -/
theorem directory (hd : d.IsTree) (hk : (k, n) ∈ d.nodes.entries) {j : Location} (hj : j <+: k)
    (hne : j ≠ k) : d.node? j = some .directory := by
  induction k using List.reverseRecOn generalizing n with
  | nil => exact absurd rfl (hd.above _ hk).1
  | append_singleton init name ih =>
    have hinit : d.node? init = some .directory := by
      simpa using (hd.above _ hk).2
    rcases List.prefix_concat_iff.1 hj with rfl | hj
    · exact absurd rfl hne
    by_cases heq : j = init
    · exact heq ▸ hinit
    · refine ih (mem_entries_of_node? hinit ?_) hj heq
      rintro rfl
      exact heq (List.prefix_nil.1 hj)

theorem node?_eq_some (hd : d.IsTree) (hk : (k, n) ∈ d.nodes.entries) : d.node? k = some n := by
  unfold node?
  rw [if_neg (by simpa using (hd.above _ hk).1)]
  exact (hd.sorted.get?_eq_some_iff Location.order_linear fun _ _ => Location.order_eq_iff.1).2 hk

/-- Nothing lies below a place where no directory stands. -/
theorem eq_of_isPrefix (hd : d.IsTree) (hl : d.node? l ≠ some .directory)
    (hk : (k, n) ∈ d.nodes.entries) (h : l <+: k) : l = k := by
  by_contra hne
  exact hl (hd.directory hk h hne)

theorem not_isPrefix_of_none (hd : d.IsTree) (hl : d.node? l = none)
    (hk : (k, n) ∈ d.nodes.entries) : ¬ l <+: k := by
  intro h
  rw [hd.eq_of_isPrefix (by simp [hl]) hk h, hd.node?_eq_some hk] at hl
  cases hl

end IsTree

/-- The disk without what stands at some places. -/
def without (d : Disk) (gone : Location → Bool) : Disk :=
  { d with nodes := d.nodes.keep fun k => !gone k }

theorem node?_without (h : gone k = false) : (d.without gone).node? k = d.node? k := by
  unfold node? without
  split
  · rfl
  · refine SortedMap.get?_keep fun j hj => ?_
    rw [← Location.order_eq_iff.1 hj, h]
    rfl

theorem node?_eq_of_keep_eq
    (h : (e.nodes.keep fun k => !gone k) = d.nodes.keep fun k => !gone k) (hk : gone k = false) :
    e.node? k = d.node? k := by
  have hwithout : (e.without gone).node? k = (d.without gone).node? k := by
    unfold node? without
    rw [h]
  rwa [node?_without hk, node?_without hk] at hwithout

theorem node?_without_gone (hk : k ≠ []) (h : gone k = true) :
    (d.without gone).node? k = none := by
  unfold node? without
  rw [if_neg (by simpa using hk)]
  refine SortedMap.get?_keep_eq_none fun j hj => ?_
  rw [← Location.order_eq_iff.1 hj, h]
  rfl

theorem node?_of_without (h : (d.without gone).node? k = some n) : d.node? k = some n := by
  by_cases hk : k = []
  · subst hk
    exact h
  cases hgone : gone k with
  | false => rwa [node?_without hgone] at h
  | true =>
    rw [node?_without_gone hk hgone] at h
    cases h

theorem erase_eq_without (d : Disk) (l : Location) : d.erase l = d.without l.isPrefixOf := rfl

theorem eraseBelow_eq_without (d : Disk) (l : Location) :
    d.eraseBelow l = d.without fun k => l.isPrefixOf k && k != l := by
  simp only [eraseBelow, without, bne, Bool.not_and, Bool.not_not]

theorem without_nothing (d : Disk) : (d.without fun _ => false) = d := by
  have hkept : (d.nodes.keep fun _ => !false) = d.nodes :=
    congrArg SortedMap.mk (List.filter_eq_self.2 fun _ _ => rfl)
  rw [without, hkept]

theorem without_without (d : Disk) (gone more : Location → Bool) :
    (d.without gone).without more = d.without fun k => gone k || more k := by
  simp only [without, SortedMap.keep, List.filter_filter, Bool.not_or, Bool.and_comm]

theorem without_congr {gone' : Location → Bool}
    (h : ∀ k n, (k, n) ∈ d.nodes.entries → gone k = gone' k) :
    d.without gone = d.without gone' := by
  have hkept : (d.nodes.keep fun k => !gone k) = d.nodes.keep fun k => !gone' k :=
    congrArg SortedMap.mk (List.filter_congr fun e he => congrArg not (h e.1 e.2 he))
  rw [without, without, hkept]

/-- Where two disks differ only at some places, the same nodes are left without these. -/
theorem keep_eq_of_node?_eq (hd : d.IsTree) (he : e.IsTree)
    (h : ∀ k, gone k = false → e.node? k = d.node? k) :
    (e.nodes.keep fun k => !gone k) = d.nodes.keep fun k => !gone k := by
  have hroot {d : Disk} (hd : d.IsTree) : d.nodes.get? Location.order [] = none := by
    refine Option.eq_none_iff_forall_ne_some.2 fun n hn => ?_
    rw [hd.sorted.get?_eq_some_iff Location.order_linear fun _ _ => Location.order_eq_iff.1] at hn
    exact (hd.above _ hn).1 rfl
  have hget (key : Location) (hkey : gone key = false) :
      e.nodes.get? Location.order key = d.nodes.get? Location.order key := by
    by_cases hnil : key = []
    · rw [hnil, hroot hd, hroot he]
    · have hnode := h key hkey
      unfold node? at hnode
      rwa [if_neg (by simpa using hnil), if_neg (by simpa using hnil)] at hnode
  refine SortedMap.Sorted.ext Location.order_linear (fun _ _ => Location.order_eq_iff.1)
    (he.sorted.keep _) (hd.sorted.keep _) fun key => ?_
  cases hkey : gone key with
  | false =>
    have hkept (k) (hk : Location.order key k = .eq) : (!gone k) = true := by
      rw [← Location.order_eq_iff.1 hk, hkey]
      rfl
    rw [SortedMap.get?_keep hkept, SortedMap.get?_keep hkept, hget key hkey]
  | true =>
    have hgone (k) (hk : Location.order key k = .eq) : (!gone k) = false := by
      rw [← Location.order_eq_iff.1 hk, hkey]
      rfl
    rw [SortedMap.get?_keep_eq_none hgone, SortedMap.get?_keep_eq_none hgone]

/-- Two disks that differ only at some places are one disk without these. -/
theorem without_eq_of_node?_eq (hd : d.IsTree) (he : e.IsTree)
    (hworking : e.workingDirectory = d.workingDirectory) (hclock : e.clock = d.clock)
    (h : ∀ k, gone k = false → e.node? k = d.node? k) : e.without gone = d.without gone := by
  rw [without, without, keep_eq_of_node?_eq hd he h, hworking, hclock]

theorem lookup_of_without (h : (d.without gone).lookup p = .ok n) : d.lookup p = .ok n := by
  have hstanding := (lookup_eq_ok h).1
  exact lookup_congr h rfl (fun k _ hk => node?_of_without hk)
    ((node?_of_without hstanding).trans hstanding.symm)

/-- A path leads on to what it led to, if nothing along it is gone. -/
theorem lookup_without (h : d.lookup p = .ok n)
    (htrail : ∀ j ∈ p.trail d.workingDirectory, gone j = false) :
    (d.without gone).lookup p = .ok n := by
  refine lookup_congr h rfl (fun k hk hnode => ?_) ?_
  · rwa [node?_without (htrail k (List.mem_append_left _ hk))]
  · exact node?_without (htrail _ (List.mem_append_right _ List.mem_cons_self))

theorem lookup_of_present (h : d.present p = true) : ∃ n, d.lookup p = .ok n := by
  unfold present at h
  split at h
  next n hn => exact ⟨n, hn⟩
  next => cases h

theorem isFile_iff : d.isFile p = true ↔ ∃ f, d.lookup p = .ok (.file f) := by
  unfold isFile
  split
  next f h => simp [h]
  next h =>
    refine iff_of_false (by simp) ?_
    rintro ⟨f, hf⟩
    exact h f hf

theorem name_of_endsInName {entry : Entry} (hentry : d.entry p = .ok entry) (hname : p.EndsInName) :
    ∃ name, entry.name? = some name := by
  obtain ⟨⟨start, pieces⟩, hpieces, h⟩ := bind_eq_ok_iff.1 hentry
  obtain ⟨directory, -, h⟩ := bind_eq_ok_iff.1 h
  unfold Path.EndsInName at hname
  rw [← p.parts_snd d.workingDirectory, pieces_eq_ok hpieces] at hname
  split at h
  · cases h
  · cases h
  · cases h
    dsimp only at hname ⊢
    rw [if_neg (by simpa [and_assoc] using hname)]
    exact ⟨_, rfl⟩

/-- A path to an entry goes through nothing below the entry, and through the entry only where slashes
ask for a directory. -/
theorem eq_of_mem_way {entry : Entry} {name : String} (hentry : d.entry p = .ok entry)
    (hname : entry.name? = some name)
    (hstays : p.StaysIn (p.location d.workingDirectory) d.workingDirectory)
    (hk : k ∈ p.way d.workingDirectory) (h : p.location d.workingDirectory <+: k) :
    k = p.location d.workingDirectory := by
  obtain ⟨hlocation, -⟩ := entry_eq_ok hentry hname
  obtain ⟨start, init, last, idle, hpieces, hidle, -, hlast, rfl, hwalk, -⟩ :=
    pieces_of_entry hentry hname
  have hnot : ¬ p.location d.workingDirectory <+: entry.directory := by
    intro hbelow
    have hlength := hbelow.length_le
    rw [hlocation, List.length_append, List.length_singleton] at hlength
    omega
  have hnext : Path.next entry.directory last = p.location d.workingDirectory := by
    rw [hlocation]
    simp [Path.next, hlast]
  have hway : p.way d.workingDirectory = Path.passed start init ++
      entry.directory :: Path.passed (p.location d.workingDirectory) idle := by
    rw [← hnext, Path.way, pieces_eq_ok hpieces, Path.passed_append, ← (walk_eq_ok hwalk).1]
    rfl
  unfold Path.StaysIn Path.trail at hstays
  rw [hway, List.append_assoc] at hstays
  rw [hway] at hk
  rcases List.mem_append.1 hk with hk | hk
  · -- The path would have left the directory for the one that holds it.
    have hleft := (List.pairwise_append.1 hstays).2.2 k hk entry.directory List.mem_cons_self
    exact absurd (hleft h) hnot
  · rcases List.mem_cons.1 hk with rfl | hk
    · exact absurd h hnot
    · exact Path.passed_idle _ hidle k hk

/-- A directory is taken away with all it holds, if its path ends in its name and does not lead
through it before. -/
theorem removeDirectory_of_isDirectory (h : d.isDirectory p = true) (hname : p.EndsInName)
    (hstays : p.StaysIn (p.location d.workingDirectory) d.workingDirectory) :
    d.removeDirectory p = (.ok (), d.erase (p.location d.workingDirectory)) := by
  obtain ⟨l, hlocate, hnode⟩ := lookup_eq_ok_iff.1 (isDirectory_iff.1 h)
  obtain ⟨rfl, -⟩ := locate_eq_ok hlocate
  obtain ⟨entry, hentry⟩ := exists_entry_of_isDirectory h
  obtain ⟨name, hentryName⟩ := name_of_endsInName hentry hname
  obtain ⟨hlocation, -⟩ := entry_eq_ok hentry hentryName
  have hbare : (d.eraseBelow (p.location d.workingDirectory)).entry p = .ok entry := by
    refine entry_congr hentry hentryName rfl fun k hk hdirectory => ?_
    rw [eraseBelow_eq_without, node?_without, hdirectory]
    rw [Bool.and_eq_false_imp]
    intro hbelow
    rw [eq_of_mem_way hentry hentryName hstays hk (List.isPrefixOf_iff_prefix.1 hbelow)]
    exact bne_self_eq_false _
  have hempty : (d.eraseBelow (p.location d.workingDirectory)).removeEmpty p =
      .ok (d.erase (p.location d.workingDirectory)) := by
    refine bind_eq_ok_iff.2 ⟨entry, hbare, ?_⟩
    simp only [hentryName, ← hlocation]
    rw [eraseBelow_eq_without, erase_eq_without, erase_eq_without, without_without]
    refine congrArg (fun gone => Except.ok (d.without gone)) (funext fun k => ?_)
    cases (p.location d.workingDirectory).isPrefixOf k <;> simp
  simp only [removeDirectory, hlocate, hnode, hempty]

theorem removeFile_of_isFile (h : d.isFile p = true) :
    d.removeFile p = .ok (d.erase (p.location d.workingDirectory)) := by
  obtain ⟨f, hf⟩ := isFile_iff.1 h
  obtain ⟨l, hlocate, hnode⟩ := lookup_eq_ok_iff.1 hf
  obtain ⟨rfl, -⟩ := locate_eq_ok hlocate
  refine bind_eq_ok_iff.2 ⟨_, hlocate, ?_⟩
  simp only [hnode]
  rfl

theorem node?_ne_directory (h : d.standing p = none ∨ d.isFile p = true) :
    d.node? (p.location d.workingDirectory) ≠ some .directory := by
  rw [← standing]
  rcases h with hnone | hfile
  · simp [hnone]
  · obtain ⟨f, hf⟩ := isFile_iff.1 hfile
    simp [(lookup_eq_ok hf).1]

/-- A directory that is gone lies at or below one of some places with all below which it went. -/
def WentWhole (d : Disk) (places : List Location) (gone : Location → Bool) : Prop :=
  ∀ j, gone j = true → d.node? j = some .directory →
    ∃ i ∈ places, i <+: j ∧ ∀ k, i <+: k → gone k = true

namespace WentWhole

variable {places : List Location}

theorem none (d : Disk) (places : List Location) : d.WentWhole places fun _ => false :=
  fun _ h => nomatch h

/-- Where a path comes to something that is gone, what it leads to is gone, and all below it. -/
theorem gone_of_isPrefix (h : d.WentWhole places gone)
    (hstays : ∀ i ∈ places, p.StaysIn i d.workingDirectory) {j : Location}
    (hj : j ∈ p.trail d.workingDirectory) (hgone : gone j = true)
    (hdirectory : d.node? j = some .directory) (hk : p.location d.workingDirectory <+: k) :
    gone k = true := by
  obtain ⟨i, hi, hij, hbelow⟩ := h j hgone hdirectory
  refine hbelow k (List.IsPrefix.trans ?_ hk)
  rcases List.mem_append.1 hj with hway | hend
  · exact (List.pairwise_append.1 (hstays i hi)).2.2 j hway _ List.mem_cons_self hij
  · exact List.mem_singleton.1 hend ▸ hij

/-- More may go, if its directories go whole. -/
theorem or {also : Location → Bool} (h : d.WentWhole places gone) (hl : d.WentWhole places also) :
    d.WentWhole places fun k => gone k || also k := by
  intro j hj hdirectory
  rcases Bool.or_eq_true_iff.1 hj with hj | hj
  · obtain ⟨i, hi, hij, hbelow⟩ := h j hj hdirectory
    exact ⟨i, hi, hij, fun k hk => by simp [hbelow k hk]⟩
  · obtain ⟨i, hi, hij, hbelow⟩ := hl j hj hdirectory
    exact ⟨i, hi, hij, fun k hk => by simp [hbelow k hk]⟩

theorem isPrefixOf (d : Disk) (hl : l ∈ places) : d.WentWhole places fun k => l.isPrefixOf k :=
  fun _ hj _ => ⟨l, hl, List.isPrefixOf_iff_prefix.1 hj, fun _ => List.isPrefixOf_iff_prefix.2⟩

theorem beq (places : List Location) (hl : d.node? l ≠ some .directory) :
    d.WentWhole places fun k => k == l :=
  fun _ hj hdirectory => absurd hdirectory (beq_iff_eq.1 hj ▸ hl)

end WentWhole

/-- What a path led to is still there, or gone with all that lies below it. -/
theorem lookup_or_gone {places : List Location} (hgone : d.WentWhole places gone)
    (hstays : ∀ i ∈ places, p.StaysIn i d.workingDirectory) (h : d.lookup p = .ok n) :
    (d.without gone).lookup p = .ok n ∨ gone (p.location d.workingDirectory) = true ∧
      (n = .directory → ∀ k, p.location d.workingDirectory <+: k → gone k = true) := by
  obtain ⟨hstanding, hway⟩ := lookup_eq_ok h
  by_cases htrail : ∀ j ∈ p.trail d.workingDirectory, gone j = false
  · exact .inl (lookup_without h htrail)
  right
  obtain ⟨j, hj, hjgone⟩ : ∃ j ∈ p.trail d.workingDirectory, gone j = true := by
    simpa using htrail
  rcases List.mem_append.1 hj with hmem | hmem
  · have hbelow {k : Location} (hk : p.location d.workingDirectory <+: k) : gone k = true :=
      hgone.gone_of_isPrefix hstays hj hjgone (hway j hmem) hk
    exact ⟨hbelow (List.prefix_refl _), fun _ k hk => hbelow hk⟩
  · obtain rfl := List.mem_singleton.1 hmem
    refine ⟨hjgone, ?_⟩
    rintro rfl k hk
    exact hgone.gone_of_isPrefix hstays hj hjgone hstanding hk

/-- Whatever is gone already, taking away a directory or nothing leaves the disk without the place
and all below it. -/
theorem removeDirectory_without {places : List Location} (hd : d.IsTree)
    (hgone : d.WentWhole places gone) (hstays : ∀ i ∈ places, p.StaysIn i d.workingDirectory)
    (hplace : p.location d.workingDirectory ∈ places) (hname : p.EndsInName)
    (hstands : d.standing p = none ∨ d.isDirectory p = true) :
    if (d.without gone).present p then
      (d.without gone).removeDirectory p =
        (.ok (), d.without fun k => gone k || (p.location d.workingDirectory).isPrefixOf k)
    else
      d.without gone =
        d.without fun k => gone k || (p.location d.workingDirectory).isPrefixOf k := by
  split
  next hpresent =>
    obtain ⟨n, hn⟩ := lookup_of_present hpresent
    have hstanding := (lookup_eq_ok (lookup_of_without hn)).1
    have hdirectory : d.isDirectory p = true := by
      refine hstands.resolve_left fun hnone => ?_
      rw [hnone] at hstanding
      cases hstanding
    obtain rfl : n = .directory := by
      rw [isDirectory_iff, lookup_of_without hn] at hdirectory
      exact Except.ok.inj hdirectory
    rw [removeDirectory_of_isDirectory (isDirectory_iff.2 hn) hname (hstays _ hplace),
      erase_eq_without, without_without]
    rfl
  next hmissing =>
    refine without_congr fun k n hk => ?_
    suffices (p.location d.workingDirectory).isPrefixOf k = true → gone k = true by
      cases hunder : (p.location d.workingDirectory).isPrefixOf k <;> simp [hunder] at this ⊢
      exact this
    intro hunder
    rw [List.isPrefixOf_iff_prefix] at hunder
    rcases hstands with hnone | hdirectory
    · exact absurd hunder (hd.not_isPrefix_of_none hnone hk)
    · rcases lookup_or_gone hgone hstays (isDirectory_iff.1 hdirectory) with hthere | ⟨-, hbelow⟩
      · exact absurd (by rw [present, hthere]) hmissing
      · exact hbelow rfl k hunder

/-- Whatever is gone already, taking away a file or nothing leaves the disk without the place. -/
theorem removeFile_without {places : List Location} (hd : d.IsTree)
    (hgone : d.WentWhole places gone) (hstays : ∀ i ∈ places, p.StaysIn i d.workingDirectory)
    (hstands : d.standing p = none ∨ d.isFile p = true) :
    if (d.without gone).isFile p then
      (d.without gone).removeFile p =
        .ok (d.without fun k => gone k || k == p.location d.workingDirectory)
    else d.without gone = d.without fun k => gone k || k == p.location d.workingDirectory := by
  split
  next hfile =>
    rw [removeFile_of_isFile hfile, erase_eq_without, without_without]
    refine congrArg Except.ok (without_congr fun k n hk => ?_)
    congr 1
    rw [Bool.eq_iff_iff, List.isPrefixOf_iff_prefix, beq_iff_eq]
    refine ⟨fun hunder => (hd.eq_of_isPrefix (node?_ne_directory hstands) hk hunder).symm, ?_⟩
    rintro rfl
    exact List.prefix_refl _
  next hmissing =>
    refine without_congr fun k n hk => ?_
    suffices k = p.location d.workingDirectory → gone k = true by
      by_cases heq : k = p.location d.workingDirectory
      · simp [heq, heq ▸ this heq]
      · simp [heq]
    rintro rfl
    rcases hstands with hnone | hfile
    · rw [standing, hd.node?_eq_some hk] at hnone
      cases hnone
    · obtain ⟨f, hf⟩ := isFile_iff.1 hfile
      rcases lookup_or_gone hgone hstays hf with hthere | ⟨hgone, -⟩
      · exact absurd (isFile_iff.2 ⟨f, hthere⟩) hmissing
      · exact hgone

end Disk

end IncrementalBuild
