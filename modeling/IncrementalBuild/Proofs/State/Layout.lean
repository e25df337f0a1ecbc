import IncrementalBuild.Proofs.Path.Extension
import IncrementalBuild.Proofs.Path
import IncrementalBuild.Proofs.State.CommonRoot
import IncrementalBuild.Proofs.State.Freshness
import IncrementalBuild.Workspace.Project

/-!
Which sources share an object. An object keeps the ordinary names above its source, below the
directory that holds all sources, and the stem of the source; a step up and the extension of the
source are not to be seen in it.
-/

namespace IncrementalBuild

namespace Path

open Component

variable {p q : Path}

/-- A file joined to a directory that is itself joined to another. -/
theorem join_join {n : List Char} (p : Path) (hne : q.text ≠ "") (hq : q.isAbsolute = false)
    (hn : '/' ∉ n) : p.join (q.join ⟨String.ofList n⟩) = (p.join q).join ⟨String.ofList n⟩ := by
  have hne : q.text.toList ≠ [] := by simpa using hne
  have hclosed {r : Path} (hr : r.text.toList ≠ []) : r.leading =
      if r.text.toList.getLast? = some '/' then r.text.toList else r.text.toList ++ ['/'] := by
    simp [leading, hr]
  have hleading : (p.join q).leading = p.leading ++ q.leading := by
    rw [hclosed (by rw [toList_text_join p hq]; simp [hne]), hclosed hne, toList_text_join p hq]
    cases hlast : q.text.toList.getLast? with
    | none => exact absurd (List.getLast?_eq_none_iff.1 hlast) hne
    | some c =>
      rw [List.getLast?_append, hlast, Option.some_or]
      split <;> simp
  have habsolute : isAbsolute ⟨String.ofList (q.leading ++ n)⟩ = false := by
    obtain ⟨c, cs, hcs⟩ := List.exists_cons_of_ne_nil hne
    rw [isAbsolute, leading]
    split <;> simpa [isAbsolute, hcs] using hq
  rw [join_ofList q hn, join_ofList (p.join q) hn, hleading, List.append_assoc,
    ← mk_toList (p.join _), toList_text_join p habsolute, String.toList_ofList]

/-- The path of a file below a directory, as the file joined to the directory that holds it. -/
theorem exists_join_ofComponents (p : Path) (names : List Component)
    (hnames : ∀ c ∈ names, c.IsInner) : ∃ directory : Path,
      directory.components = p.components ++ names ∧ ∀ n : List Char, '/' ∉ n →
        p.join ((ofComponents names).join ⟨String.ofList n⟩) =
          directory.join ⟨String.ofList n⟩ := by
  induction names using List.reverseRecOn with
  | nil =>
    refine ⟨p, by simp, fun n hn => ?_⟩
    have hempty : (ofComponents []).join ⟨String.ofList n⟩ = ⟨String.ofList n⟩ := by
      rw [join_ofList _ hn]
      rfl
    rw [hempty]
  | append_singleton names c ih =>
    obtain ⟨holder, hholder, hjoin⟩ := ih fun d hd => hnames d (List.mem_append_left [c] hd)
    have hc := hnames c (by simp)
    have hspelled := isSpelled_of_forall_isInner hnames
    have hcomponents := components_ofComponents hspelled
    rw [ofComponents_append_singleton] at hcomponents ⊢
    have hslash : '/' ∉ c.text.toList := by
      cases c with
      | name s => exact hc.2.2.2
      | parent => decide
      | root | current => exact hc.elim
    refine ⟨p.join ((ofComponents names).join ⟨c.text⟩), ?_, fun n hn => join_join p ?_ ?_ hn⟩
    · have hstep := hjoin c.text.toList hslash
      rw [String.ofList_toList] at hstep
      rw [hstep, components_join _ (components_text hc.isInitial) hc, hholder, List.append_assoc]
    · rintro hempty
      have hnil : ((ofComponents names).join ⟨c.text⟩).components = [] := by
        generalize (ofComponents names).join ⟨c.text⟩ = q at hempty
        obtain ⟨text⟩ := q
        obtain rfl : text = "" := hempty
        exact components_empty
      simp [hnil] at hcomponents
    · rw [← Bool.not_eq_true]
      intro habsolute
      have hhead := head?_components_of_isAbsolute habsolute
      rw [hcomponents] at hhead
      exact hnames .root (List.mem_of_mem_head? hhead)

theorem namesOnly_eq (p : Path) : p.namesOnly = ofComponents (p.components.filter isName) := by
  unfold namesOnly
  congr 1

/-- The ordinary names below `root` on the way to a file. -/
def namesBelow (root p : Path) : List Component :=
  (p.components.drop root.components.length).dropLast.filter isName

/-- The file name of a path up to its last dot. -/
def stem (p : Path) : List Char :=
  (cutExtension (p.fileName?.getD "").toList).1

/-- Two files lie under the same names below `root`, and differ in their extensions at most. -/
def Twins (root p q : Path) : Prop :=
  namesBelow root p = namesBelow root q ∧ p.stem = q.stem

instance (root p q : Path) : Decidable (Twins root p q) :=
  inferInstanceAs (Decidable (_ ∧ _))

end Path

namespace State

open Component Path

variable {p : Project} {s t directory : Path} {extension : String}

/-- The object of a source is the source below the output directory, without the steps on the way
to it that are no names, and with another extension. -/
theorem exists_objectPath {root : Path} {below : List Component} {n : String}
    (hs : s.components = root.components ++ (below ++ [.name n])) (directory : Path)
    (extension : String) : Ordinary n.toList ∧ ∃ holder : Path,
      holder.components = directory.components ++ below.filter isName ∧
      objectPath root directory extension s =
        (holder.join ⟨String.ofList n.toList⟩).withExtension extension := by
  have hspelled : IsSpelled (below ++ [.name n]) :=
    (hs ▸ s.isSpelled_components : IsSpelled (_ ++ _)).of_append.2
  have hn : Ordinary n.toList := by
    cases below with
    | nil => exact hspelled.1 (.name n) rfl
    | cons c below => exact hspelled.2 (.name n) (by simp)
  have hinner : ∀ c ∈ below.filter isName, c.IsInner := by
    intro c hc
    obtain ⟨hmem, hname⟩ := List.mem_filter.1 hc
    cases c with
    | name m =>
      cases below with
      | nil => cases hmem
      | cons d below =>
        rcases List.mem_cons.1 hmem with rfl | hmem
        · exact hspelled.1 (.name m) rfl
        · exact hspelled.2 (.name m) (List.mem_append_left _ hmem)
    | root | current | parent => cases hname
  obtain ⟨holder, hholder, hjoin⟩ := exists_join_ofComponents directory _ hinner
  refine ⟨hn, holder, hholder, ?_⟩
  rw [objectPath, (relativeTo?_of_components hs).1]
  simp only [Option.getD_some]
  rw [namesOnly_eq, components_ofComponents hspelled, List.filter_append,
    List.filter_cons_of_pos (by rfl), List.filter_nil, ofComponents_append_singleton,
    ← hjoin n.toList hn.2.2.2, String.ofList_toList]
  rfl

theorem fileName?_of_mem_sourceFiles (hs : s ∈ p.sourceFiles) : ∃ n, s.fileName? = some n := by
  have hsource : p.language.isSource s := (List.mem_filter.1 hs).2
  cases hname : s.fileName? with
  | some n => exact ⟨n, rfl⟩
  | none =>
    rw [Workspace.Language.isSource, extension?, hname] at hsource
    exact absurd hsource (by cases p.language <;> decide)

/-- Two sources of a project have one object if they lie under the same names below the directory
that holds all sources and differ in their extensions at most, and so for the dependency files
beside their objects. -/
theorem objectPath_eq_iff (hs : s ∈ p.sourceFiles) (ht : t ∈ p.sourceFiles) (directory : Path)
    (hne : extension ≠ "") (hslash : '/' ∉ extension.toList) :
    let root := commonRoot p.sourceFiles
    let a := objectPath root directory extension s
    let b := objectPath root directory extension t
    (a.components = b.components ↔ Twins root s t) ∧
      ((a.withExtension "d").components = (b.withExtension "d").components ↔ Twins root s t) := by
  have hplace {r : Path} (hr : r ∈ p.sourceFiles) : ∃ n below, r.fileName? = some n ∧
      r.components = (commonRoot p.sourceFiles).components ++ (below ++ [.name n]) := by
    obtain ⟨n, hn⟩ := fileName?_of_mem_sourceFiles hr
    obtain ⟨below, hbelow⟩ := exists_below hr hn
    exact ⟨n, below, hn, hbelow⟩
  obtain ⟨n, below, hsname, hsbelow⟩ := hplace hs
  obtain ⟨m, beside, htname, htbeside⟩ := hplace ht
  obtain ⟨hn, holder, hholder, hobject⟩ := exists_objectPath hsbelow directory extension
  obtain ⟨hm, keeper, hkeeper, htobject⟩ := exists_objectPath htbeside directory extension
  have hdirectories : holder.components = keeper.components ↔
      namesBelow (commonRoot p.sourceFiles) s = namesBelow (commonRoot p.sourceFiles) t := by
    rw [hholder, hkeeper, List.append_right_inj]
    simp only [namesBelow, hsbelow, htbeside, List.drop_left, List.dropLast_concat]
  have hstems : (cutExtension n.toList).1 = (cutExtension m.toList).1 ↔ s.stem = t.stem := by
    simp [stem, hsname, htname]
  have hinj := withExtension_join_inj (p := holder) (q := keeper) (.inr hn) (.inr hm) hne hslash
    (f := "d") (by decide) (by decide)
  simp only [hobject, htobject]
  rw [hdirectories, hstems] at hinj
  exact hinj

/-- The objects of a project's sources are all different exactly if no two sources are twins, and so
are the dependency files beside them. Objects are what the records of a manifest are found by. -/
theorem checkedUnits_pairwise_iff (p : Project) (d : Disk) (directory : Path)
    (fingerprint : UInt64) (compileStep : Bool) (manifest : Manifest) {extension : String}
    (hne : extension ≠ "") (hslash : '/' ∉ extension.toList) :
    let root := commonRoot p.sourceFiles
    let units := checkedUnits d p.sourceFiles root directory fingerprint compileStep manifest
      extension
    (units.Pairwise (fun u v => (u.output == v.output) = false) ↔
      p.sourceFiles.Pairwise fun s t => ¬ Twins root s t) ∧
    (units.Pairwise (fun u v => (u.dependencyFile == v.dependencyFile) = false) ↔
      p.sourceFiles.Pairwise fun s t => ¬ Twins root s t) := by
  have hbeq (a b : Path) : (a == b) = false ↔ a.components ≠ b.components :=
    decide_eq_false_iff_not
  simp only [checkedUnits, List.pairwise_map]
  refine ⟨List.Pairwise.iff_of_mem fun {s t} hs ht => ?_,
    List.Pairwise.iff_of_mem fun {s t} hs ht => ?_⟩
  · rw [(CompileUnit.check_make s _ d fingerprint compileStep manifest).2.1,
      (CompileUnit.check_make t _ d fingerprint compileStep manifest).2.1, hbeq]
    exact not_congr (objectPath_eq_iff hs ht directory hne hslash).1
  · rw [(CompileUnit.check_make s _ d fingerprint compileStep manifest).2.2,
      (CompileUnit.check_make t _ d fingerprint compileStep manifest).2.2, hbeq]
    exact not_congr (objectPath_eq_iff hs ht directory hne hslash).2

/-- A project with sources of two languages. -/
def mixedProject (files : List Path) : Project :=
  { (default : Project) with language := .cpp, files }

theorem mixed_objects_differ :
    let sources : List Path := [⟨"/w/src/a.c"⟩, ⟨"/w/src/b.cpp"⟩, ⟨"/w/src/sub/a.cpp"⟩]
    let units := checkedUnits default (mixedProject sources).sourceFiles
      (commonRoot (mixedProject sources).sourceFiles) ⟨"/w/obj"⟩ 0 true .empty "o"
    units.Pairwise fun u v => (u.output == v.output) = false :=
  (checkedUnits_pairwise_iff (mixedProject _) default ⟨"/w/obj"⟩ 0 true .empty (by decide)
    (by decide)).1.2 (by decide +kernel)

example : Twins ⟨"/w/src"⟩ ⟨"/w/src/a.c"⟩ ⟨"/w/src/a.cpp"⟩ ∧
    Twins ⟨"/w/src"⟩ ⟨"/w/src/sub/../a.c"⟩ ⟨"/w/src/sub/a.c"⟩ := by
  decide +kernel

end State

end IncrementalBuild
