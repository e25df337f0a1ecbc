import IncrementalBuild.Proofs.State.Layout

/-!
Whether objects stay in the output directory. The steps to a source that are no names are left out
of the place of its object, so an object can only get out at its own end: where the stem of the
source is a dot, the stem and the dot before the extension make a step up.
-/

namespace IncrementalBuild

namespace Path

open Component

variable {p directory holder : Path} {names : List Component} {n extension : List Char}

/-- The path leads to below a directory, by ordinary names alone. -/
def Inside (directory p : Path) : Prop :=
  ∃ names : List Component, names ≠ [] ∧ (∀ c ∈ names, c.isName = true) ∧
    p.components = directory.components ++ names

/-- The last piece decides whether a path stays inside that has only names before it. -/
theorem inside_join_iff (hholder : holder.components = directory.components ++ names)
    (hnames : ∀ c ∈ names, c.isName = true) (hn : IsStep n) :
    Inside directory (holder.join ⟨String.ofList n⟩) ↔ n ≠ ['.', '.'] := by
  rcases hn with rfl | hn
  · refine iff_of_false ?_ (not_not_intro rfl)
    rintro ⟨more, -, hmore, hcomponents⟩
    rw [components_join_parent, hholder, List.append_assoc, List.append_cancel_left_eq]
      at hcomponents
    have hparent : Component.parent.isName = true := hmore _ (by simp [← hcomponents])
    cases hparent
  · refine iff_of_true ⟨names ++ [.name (String.ofList n)], by simp, ?_, ?_⟩ hn.2.2.1
    · intro c hc
      rcases List.mem_append.1 hc with hc | hc
      · exact hnames c hc
      · rw [List.mem_singleton.1 hc]
        rfl
    · rw [components_join_ofList holder hn, hholder, List.append_assoc]

theorem retitled_eq_up_iff (hn : IsStep n) (hne : extension ≠ []) (hslash : '/' ∉ extension) :
    retitled extension n = ['.', '.'] ↔ (cutExtension n).1 = ['.'] := by
  rcases retitled_cases hn hne hslash with ⟨hdot, hup⟩ | ⟨hdot, -, hordinary⟩
  · exact iff_of_true hup hdot
  · exact iff_of_false hordinary.2.2.1 hdot

/-- Another extension makes no stem a dot that was none. -/
theorem stem_retitled_eq_dot_iff (hn : IsStep n) (hne : extension ≠ [])
    (hslash : '/' ∉ extension) :
    (cutExtension (retitled extension n)).1 = ['.'] ↔ (cutExtension n).1 = ['.'] :=
  stem_retitled_inj (m := ['.', '.']) hn (.inl rfl) hne hslash

end Path

namespace State

open Component Path

variable {p : Project} {s : Path} {extension : String}

/-- An object, and the dependency file beside it, lie inside the output directory unless the stem of
the source is a dot. -/
theorem inside_objectPath_iff (hs : s ∈ p.sourceFiles) (directory : Path) (hne : extension ≠ "")
    (hslash : '/' ∉ extension.toList) :
    let object := objectPath (commonRoot p.sourceFiles) directory extension s
    (Inside directory object ↔ s.stem ≠ ['.']) ∧
      (Inside directory (object.withExtension "d") ↔ s.stem ≠ ['.']) := by
  obtain ⟨n, hname⟩ := fileName?_of_mem_sourceFiles hs
  obtain ⟨below, hbelow⟩ := exists_below hs hname
  obtain ⟨hn, holder, hholder, hobject⟩ := exists_objectPath hbelow directory extension
  have hnames : ∀ c ∈ below.filter isName, c.isName = true := fun c hc => (List.mem_filter.1 hc).2
  have hstep : IsStep n.toList := .inr hn
  have hne' : extension.toList ≠ [] := by simpa using hne
  have hretitled := isStep_retitled hstep hne' hslash
  have hstem : (cutExtension n.toList).1 = s.stem := by simp [stem, hname]
  dsimp only
  rw [hobject, withExtension_join holder hstep hne hslash]
  constructor
  · rw [inside_join_iff hholder hnames hretitled, ne_eq, retitled_eq_up_iff hstep hne' hslash,
      hstem]
  · rw [withExtension_join holder hretitled (by decide) (by decide),
      inside_join_iff hholder hnames (isStep_retitled hretitled (by decide) (by decide)), ne_eq,
      retitled_eq_up_iff hretitled (by decide) (by decide),
      stem_retitled_eq_dot_iff hstep hne' hslash, hstem]

/-- Each object of a project's sources lies inside the output directory exactly if the stem of its
source is not a dot, wherever the sources lie and whatever steps lead to them, and so does the
dependency file beside it. A source whose name is two dots and an extension has such a stem. -/
theorem checkedUnits_inside_iff (p : Project) (d : Disk) (directory : Path) (fingerprint : UInt64)
    (compileStep : Bool) (manifest : Manifest) {extension : String} (hne : extension ≠ "")
    (hslash : '/' ∉ extension.toList) :
    ∀ u ∈ checkedUnits d p.sourceFiles (commonRoot p.sourceFiles) directory fingerprint compileStep
        manifest extension,
      (Inside directory u.output ↔ u.source.stem ≠ ['.']) ∧
        (Inside directory u.dependencyFile ↔ u.source.stem ≠ ['.']) := by
  intro u hu
  obtain ⟨s, hs, rfl⟩ := List.mem_map.1 hu
  obtain ⟨hsource, houtput, hdependency⟩ := CompileUnit.check_make s
    (objectPath (commonRoot p.sourceFiles) directory extension s) d fingerprint compileStep manifest
  rw [hsource, houtput, hdependency]
  exact inside_objectPath_iff hs directory hne hslash

/-- The object of a source with nothing but a dot before its extension is a step up. -/
theorem dotted_object_outside :
    let sources : List Path := [⟨"/w/src/..c"⟩, ⟨"/w/src/sub/../a.cpp"⟩]
    let units := checkedUnits default (mixedProject sources).sourceFiles
      (commonRoot (mixedProject sources).sourceFiles) ⟨"/w/obj"⟩ 0 true .empty "o"
    (∃ u ∈ units, u.output.text = "/w/obj/.." ∧ ¬ Inside ⟨"/w/obj"⟩ u.output) ∧
      ∃ u ∈ units, u.output.text = "/w/obj/sub/a.o" ∧ Inside ⟨"/w/obj"⟩ u.output := by
  intro sources units
  have hinside : ∀ u ∈ units, _ := checkedUnits_inside_iff (mixedProject sources) default ⟨"/w/obj"⟩
    0 true .empty (by decide) (by decide)
  have hunit {s : Path} (hs : s ∈ (mixedProject sources).sourceFiles) : ∃ u ∈ units,
      u.source = s ∧
        u.output = objectPath (commonRoot (mixedProject sources).sourceFiles) ⟨"/w/obj"⟩ "o" s := by
    obtain ⟨hsource, houtput, -⟩ := CompileUnit.check_make s
      (objectPath (commonRoot (mixedProject sources).sourceFiles) ⟨"/w/obj"⟩ "o" s) default 0 true
      .empty
    exact ⟨_, List.mem_map_of_mem hs, hsource, houtput⟩
  constructor
  · obtain ⟨u, hu, hsource, houtput⟩ :=
      hunit (List.mem_filter.2 ⟨List.mem_cons_self, by decide +kernel⟩)
    refine ⟨u, hu, by rw [houtput]; decide +kernel, fun hin => (hinside u hu).1.1 hin ?_⟩
    rw [hsource]
    decide +kernel
  · obtain ⟨u, hu, hsource, houtput⟩ :=
      hunit (List.mem_filter.2 ⟨List.mem_cons_of_mem _ List.mem_cons_self, by decide +kernel⟩)
    refine ⟨u, hu, by rw [houtput]; decide +kernel, (hinside u hu).1.2 ?_⟩
    rw [hsource]
    decide +kernel

end State

end IncrementalBuild
