import IncrementalBuild.Proofs.Disk.Removal
import IncrementalBuild.Proofs.Disk.Spelling
import IncrementalBuild.Proofs.Path.Extension
import IncrementalBuild.Proofs.Workspace.Wildcard
import Mathlib.Data.List.Basic

/-!
Which files a pattern describes. Its parts before the first wildcard lead to a directory, and the
names from there to a file are cut into segments, one for each part from the wildcard on. The files
are found on a walk through the directory that takes the entries of each directory by name.
-/

namespace IncrementalBuild

open Component

/-- A walk that takes the entries of each directory by name comes to `earlier` first: in the last
directory that they share, its entry has the lesser name. -/
def Location.Precedes (earlier later : Location) : Prop :=
  ∃ shared a b rest rest', earlier = shared ++ a :: rest ∧ later = shared ++ b :: rest' ∧ a < b

namespace Location

variable {k l : Location}

theorem Precedes.cons (h : k.Precedes l) (name : String) : Precedes (name :: k) (name :: l) := by
  obtain ⟨shared, a, b, rest, rest', rfl, rfl, hlt⟩ := h
  exact ⟨name :: shared, a, b, rest, rest', rfl, rfl, hlt⟩

theorem Precedes.ne (h : k.Precedes l) : k ≠ l := by
  obtain ⟨shared, a, b, rest, rest', rfl, rfl, hlt⟩ := h
  intro heq
  obtain ⟨rfl, -⟩ := List.cons.inj (List.append_cancel_left heq)
  exact String.lt_irrefl a hlt

theorem precedes_of_order (h : order k l = .lt) : k <+: l ∨ k.Precedes l := by
  induction k generalizing l with
  | nil => exact .inl List.nil_prefix
  | cons a k ih =>
    cases l with
    | nil => cases h
    | cons b l =>
      rw [order, Ordering.then_eq_lt] at h
      rcases h with hlt | ⟨heq, h⟩
      · exact .inr ⟨[], a, b, k, l, rfl, rfl, compareOfLessAndEq_eq_lt.1 hlt⟩
      · obtain rfl := Std.LawfulEqCmp.eq_of_compare heq
        exact (ih h).imp (List.cons_prefix_cons.2 ⟨rfl, ·⟩) (·.cons a)

theorem order_append (shared k l : Location) : order (shared ++ k) (shared ++ l) = order k l := by
  induction shared with
  | nil => rfl
  | cons a shared ih => simp [order, ih]

end Location

namespace Path

variable {names : Location}

/-- The path of what lies at some names below a directory. -/
def below (p : Path) (names : Location) : Path :=
  names.foldl (fun p n => p.join ⟨n⟩) p

theorem components_below (h : ∀ n ∈ names, Ordinary n.toList) (p : Path) :
    (p.below names).components = p.components ++ names.map .name := by
  induction names generalizing p with
  | nil => simp [below]
  | cons n names ih =>
    have hjoin := components_join_ofList p (h n List.mem_cons_self)
    rw [String.ofList_toList] at hjoin
    have hrest := ih (fun m hm => h m (List.mem_cons_of_mem _ hm)) (p.join ⟨n⟩)
    rw [hjoin] at hrest
    simpa [below] using hrest

theorem foldl_step_names (l : Location) : (names.map .name).foldl step l = l ++ names := by
  induction names generalizing l with
  | nil => simp
  | cons n names ih => simp [step, ih]

theorem location_below (h : ∀ n ∈ names, Ordinary n.toList) (p : Path) (l : Location) :
    (p.below names).location l = p.location l ++ names := by
  rw [location_eq_foldl, components_below h, List.foldl_append, ← location_eq_foldl,
    foldl_step_names]

end Path

namespace Disk

variable {d : Disk} {l names : Location} {n : Node}

/-- Every name on the disk is written as one piece of a path. -/
def Named (d : Disk) : Prop :=
  ∀ e ∈ d.nodes.entries, ∀ name ∈ e.1, Ordinary name.toList

instance (d : Disk) : Decidable d.Named :=
  inferInstanceAs (Decidable (∀ e ∈ d.nodes.entries, ∀ name ∈ e.1, Ordinary name.toList))

theorem Named.ordinary (hd : d.Named) {k : Location} (h : d.node? k = some n) :
    ∀ name ∈ k, Ordinary name.toList := by
  intro name hname
  exact hd _ (mem_entries_of_node? h (List.ne_nil_of_mem hname)) name hname

namespace IsTree

theorem directory_above (hd : d.IsTree) {j k : Location} (h : d.node? k = some n) (hj : j <+: k)
    (hne : j ≠ k) : d.node? j = some .directory := by
  refine hd.directory (mem_entries_of_node? h ?_) hj hne
  rintro rfl
  exact hne (List.prefix_nil.1 hj)

theorem mem_below_iff (hd : d.IsTree) :
    (names, n) ∈ d.below l ↔ names ≠ [] ∧ d.node? (l ++ names) = some n := by
  unfold below
  rw [List.mem_filterMap]
  constructor
  · rintro ⟨⟨k, m⟩, hk, h⟩
    dsimp only at h
    split at h
    next hbelow =>
      rw [Bool.and_eq_true, List.isPrefixOf_iff_prefix, decide_eq_true_eq] at hbelow
      obtain ⟨⟨more, rfl⟩, hlength⟩ := hbelow
      cases h
      rw [List.drop_left]
      refine ⟨?_, hd.node?_eq_some hk⟩
      rintro rfl
      simp at hlength
    · cases h
  · rintro ⟨hne, hnode⟩
    refine ⟨(l ++ names, n), mem_entries_of_node? hnode (by simp [hne]), ?_⟩
    have hlength : 0 < names.length := List.length_pos_iff.2 hne
    simp [hlength]

theorem pairwise_below (hd : d.IsTree) (l : Location) :
    (d.below l).Pairwise fun e e' => Location.order e.1 e'.1 = .lt := by
  refine hd.sorted.filterMap _ fun e e' hlt x hx y hy => ?_
  obtain ⟨k, m⟩ := e
  obtain ⟨k', m'⟩ := e'
  simp only [Option.ite_none_right_eq_some, Bool.and_eq_true, List.isPrefixOf_iff_prefix,
    Option.some.injEq] at hx hy
  obtain ⟨⟨⟨more, rfl⟩, -⟩, rfl⟩ := hx
  obtain ⟨⟨⟨more', rfl⟩, -⟩, rfl⟩ := hy
  simpa [Location.order_append] using hlt

end IsTree

end Disk

namespace Workspace

/-- A pattern with nothing but slashes between its parts. -/
def slashed (pattern : String) : List Char :=
  pattern.toList.map fun c => if c = '\\' then '/' else c

/-- The parts of a pattern. -/
def partsOf (pattern : String) : List (List Char) :=
  (Text.splitOn '/' (slashed pattern)).filter fun part => Path.Names part

/-- The directory that parts at the start of a pattern lead to. -/
def rootOf (base : Path) (pattern : String) (plain : List (List Char)) : Path :=
  plain.foldl (fun p part => p.join ⟨String.ofList part⟩)
    (if (slashed pattern).head? = some '/' then ⟨"/"⟩ else base)

/-- The names that parts of a pattern describe: they are cut into segments, one for each part, where
`**` takes any names, and every other part one name that it matches. -/
def Describes : (parts : List String) → (names : Location) → Prop :=
  Cut anyDirectories fun part name => nameMatches (utf8 part) (utf8 name) = true

theorem pathMatches_iff (parts names : List String) :
    pathMatches parts names = true ↔ Describes parts names := by
  refine iff_cut_of_steps (fun parts names => pathMatches parts names = true) (fun names => ?_)
    (fun part parts => ?_) (fun parts name names => ?_) fun part parts name names hpart => ?_
  · simp [pathMatches]
  · by_cases hpart : part = anyDirectories <;> simp [pathMatches, hpart]
  · rw [pathMatches, if_pos rfl, Bool.or_eq_true]
  · rw [pathMatches, if_neg hpart, Bool.and_eq_true]

variable {d : Disk} {base directory : Path} {pattern : String} {plain rest : List (List Char)}
  {part : List Char} {parts : List String} {l names : Location}

theorem expandPattern_eq (hparts : partsOf pattern = plain ++ part :: rest)
    (hplain : ∀ p ∈ plain, hasWildcard p = false) (hpart : hasWildcard part = true) :
    expandPattern d base pattern =
      filesBelow d (rootOf base pattern plain) ((part :: rest).map String.ofList) := by
  have htake : (partsOf pattern).takeWhile (fun part => !hasWildcard part) = plain := by
    rw [hparts, List.takeWhile_append_of_pos (by simpa using hplain),
      List.takeWhile_cons_of_neg (by simp [hpart]), List.append_nil]
  have hdrop : (partsOf pattern).dropWhile (fun part => !hasWildcard part) = part :: rest := by
    rw [hparts, List.dropWhile_append_of_pos (by simpa using hplain),
      List.dropWhile_cons_of_neg (by simp [hpart])]
  have hunfold : expandPattern d base pattern =
      if ((partsOf pattern).dropWhile fun part => !hasWildcard part).isEmpty then
        let file := rooted base (String.ofList (slashed pattern))
        if d.isFile file then .ok [file] else .error (.fileNotFound file)
      else filesBelow d
        (rootOf base pattern ((partsOf pattern).takeWhile fun part => !hasWildcard part))
        (((partsOf pattern).dropWhile fun part => !hasWildcard part).map String.ofList) := rfl
  rw [hunfold, htake, hdrop]
  rfl

/-- The files below a location that parts of a pattern describe, in the order of the disk. -/
def foundBelow (d : Disk) (l : Location) (parts : List String) : List Location :=
  (d.below l).filterMap fun (names, n) =>
    match n with
    | .directory => none
    | .file _ => if pathMatches parts names then some names else none

theorem filesBelow_eq (h : d.isDirectory directory = true) :
    filesBelow d directory parts =
      .ok ((foundBelow d (directory.location d.workingDirectory) parts).map directory.below) := by
  obtain ⟨l, hlocate, hnode⟩ := Disk.lookup_eq_ok_iff.1 (Disk.isDirectory_iff.1 h)
  obtain ⟨rfl, -⟩ := Disk.locate_eq_ok hlocate
  unfold filesBelow foundBelow
  simp only [hlocate, hnode, List.map_filterMap]
  congr 1
  refine List.filterMap_congr fun e _ => ?_
  obtain ⟨names, n⟩ := e
  cases n with
  | directory => rfl
  | file f =>
    dsimp only
    split <;> rfl

theorem mem_foundBelow_iff (hd : d.IsTree) (hl : d.node? l = some .directory) :
    names ∈ foundBelow d l parts ↔
      Describes parts names ∧ ∃ f, d.node? (l ++ names) = some (.file f) := by
  unfold foundBelow
  rw [List.mem_filterMap]
  constructor
  · rintro ⟨⟨k, n⟩, hmem, h⟩
    cases n with
    | directory => cases h
    | file f =>
      dsimp only at h
      split at h
      next hmatches =>
        cases h
        exact ⟨(pathMatches_iff _ _).1 hmatches, f, (hd.mem_below_iff.1 hmem).2⟩
      · cases h
  · rintro ⟨hdescribes, f, hfile⟩
    have hne : names ≠ [] := by
      rintro rfl
      rw [List.append_nil, hl] at hfile
      cases hfile
    exact ⟨(names, .file f), hd.mem_below_iff.2 ⟨hne, hfile⟩,
      if_pos ((pathMatches_iff _ _).2 hdescribes)⟩

/-- Files are found in the order of a walk, because nothing lies below a file. -/
theorem pairwise_foundBelow (hd : d.IsTree) (hl : d.node? l = some .directory) :
    (foundBelow d l parts).Pairwise Location.Precedes := by
  have hordered : (foundBelow d l parts).Pairwise fun k k' => Location.order k k' = .lt := by
    refine (hd.pairwise_below l).filterMap _ fun (_, n) (_, n') hlt _ hk _ hk' => ?_
    cases n with
    | directory => cases hk
    | file f =>
      cases n' with
      | directory => cases hk'
      | file f' =>
        obtain ⟨-, ⟨⟩⟩ := Option.ite_none_right_eq_some.1 hk
        obtain ⟨-, ⟨⟩⟩ := Option.ite_none_right_eq_some.1 hk'
        exact hlt
  refine hordered.imp_of_mem fun {k k'} hk hk' hlt => ?_
  refine (Location.precedes_of_order hlt).resolve_left fun hprefix => ?_
  obtain ⟨-, f, hfile⟩ := (mem_foundBelow_iff hd hl).1 hk
  obtain ⟨-, f', hfile'⟩ := (mem_foundBelow_iff hd hl).1 hk'
  have hne : k ≠ k' := by
    rintro rfl
    rw [Location.order_eq_iff.2 rfl] at hlt
    cases hlt
  have hdirectory : d.node? (l ++ k) = some .directory :=
    hd.directory_above hfile' ((List.prefix_append_right_inj l).2 hprefix) (by simpa using hne)
  rw [hfile] at hdirectory
  cases hdirectory

/-- A pattern with wildcards selects exactly what it describes: the files below the directory that
its plain parts lead to whose names from there are described by the other parts. Each is found once,
in the order of a walk that takes the entries of each directory by name, and under the path that
leads on to it from the directory. -/
theorem expandPattern_selects (hd : d.IsTree) (hnamed : d.Named)
    (hparts : partsOf pattern = plain ++ part :: rest)
    (hplain : ∀ p ∈ plain, hasWildcard p = false) (hpart : hasWildcard part = true)
    (hroot : d.isDirectory (rootOf base pattern plain) = true) :
    let root := rootOf base pattern plain
    let start := root.location d.workingDirectory
    ∃ found : List Location, expandPattern d base pattern = .ok (found.map root.below) ∧
      (∀ names, names ∈ found ↔ Describes ((part :: rest).map String.ofList) names ∧
        ∃ f, d.node? (start ++ names) = some (.file f)) ∧
      found.Nodup ∧ found.Pairwise Location.Precedes ∧
      ∀ names ∈ found, (root.below names).components = root.components ++ names.map .name ∧
        (root.below names).location d.workingDirectory = start ++ names := by
  intro root start
  have hstart : d.node? start = some .directory :=
    (Disk.lookup_eq_ok (Disk.isDirectory_iff.1 hroot)).1
  refine ⟨foundBelow d start ((part :: rest).map String.ofList), ?_,
    fun names => mem_foundBelow_iff hd hstart, ?_, pairwise_foundBelow hd hstart, ?_⟩
  · rw [expandPattern_eq hparts hplain hpart, filesBelow_eq hroot]
  · exact (pairwise_foundBelow hd hstart).imp Location.Precedes.ne
  · intro names hmem
    obtain ⟨-, f, hfile⟩ := (mem_foundBelow_iff hd hstart).1 hmem
    have hordinary : ∀ n ∈ names, Ordinary n.toList := fun n hn =>
      hnamed.ordinary hfile n (List.mem_append_right _ hn)
    exact ⟨Path.components_below hordinary root,
      Path.location_below hordinary root d.workingDirectory⟩

/-- A project with sources in two directories. -/
def sourceTree : Disk :=
  { nodes := ⟨[(["w"], .directory), (["w", "src"], .directory),
      (["w", "src", "main.c"], .file default), (["w", "src", "util"], .directory),
      (["w", "src", "util", "str.c"], .file default),
      (["w", "src", "util", "str.h"], .file default)]⟩
    workingDirectory := []
    clock := 0 }

/-- Sources are found in a directory and below it, and a header is not. -/
theorem sourceTree_selects : ∃ found : List Location,
    expandPattern sourceTree ⟨"/w"⟩ ".\\src/**/*.c" = .ok (found.map (Path.below ⟨"/w/src"⟩)) ∧
      ["main.c"] ∈ found ∧ ["util", "str.c"] ∈ found ∧ ["util", "str.h"] ∉ found := by
  have hparts : partsOf ".\\src/**/*.c" = ["src".toList] ++ "**".toList :: ["*.c".toList] := by
    decide +kernel
  have hdirectory :
      sourceTree.isDirectory (rootOf ⟨"/w"⟩ ".\\src/**/*.c" ["src".toList]) = true := by
    decide +kernel
  have hroot : rootOf ⟨"/w"⟩ ".\\src/**/*.c" ["src".toList] = ⟨"/w/src"⟩ := by
    refine congrArg Path.mk (?_ : _ = "/w/src")
    decide +kernel
  obtain ⟨found, hexpand, hfound, -⟩ := expandPattern_selects (by decide) (by decide) hparts
    (by decide) (by decide) hdirectory
  rw [hroot] at hexpand hfound
  have hplace : Path.location ⟨"/w/src"⟩ sourceTree.workingDirectory = ["w", "src"] := by
    decide +kernel
  rw [hplace] at hfound
  refine ⟨found, hexpand, (hfound _).2 ⟨?_, default, by decide +kernel⟩,
    (hfound _).2 ⟨?_, default, by decide +kernel⟩, fun h => ?_⟩
  · exact .any [] (.one (by decide) (by decide +kernel) .nil)
  · exact .any ["util"] (.one (by decide) (by decide +kernel) .nil)
  · have hmatches := (pathMatches_iff _ _).2 ((hfound _).1 h).1
    revert hmatches
    decide +kernel

end Workspace

end IncrementalBuild
