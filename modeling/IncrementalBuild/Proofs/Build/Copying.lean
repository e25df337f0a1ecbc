import IncrementalBuild.Proofs.Build.Site

/-!
A toolchain that copies sources into objects and joins the objects. It does what is relied on of
toolchains, for a project of two sources.
-/

namespace IncrementalBuild.Build

open State

/-- Copies a source into an object, and lists no headers. -/
def copyTask (source object : Path) : Build.Task Unit where
  description := "copy " ++ source.text
  stage := .compile
  parallel := true
  wantsPosition := true
  execute _ w :=
    match w.disk.read source with
    | .error _ => (.failed (.compile source), w)
    | .ok bytes =>
      match w.disk.write object bytes with
      | .error _ => (.failed (.compile source), w)
      | .ok disk =>
        match disk.write (object.withExtension "d") .empty with
        | .error _ => (.failed (.compile source), { w with disk })
        | .ok disk => (.done, { w with disk })

/-- One file after another. -/
def joined (contents : List (Option ByteArray)) : ByteArray :=
  contents.foldl (fun bytes more => bytes ++ more.getD .empty) .empty

/-- Joins objects. -/
def joinTask (objects : List Path) (artifact : Path) : Build.Task Unit where
  description := "join " ++ artifact.text
  stage := .link
  parallel := false
  wantsPosition := false
  execute _ w :=
    match w.disk.write artifact (joined (objects.map w.disk.contents?)) with
    | .error _ => (.failed .tasksFailed, w)
    | .ok disk => (.done, { w with disk })

section Keeping

variable {R : Disk → Disk → Prop}

/-- Copying keeps what is kept where the object or the file beside it is written. -/
theorem copyTask_keeps (hrefl : ∀ d, R d d) (htrans : ∀ {d₁ d₂ d₃}, R d₁ d₂ → R d₂ d₃ → R d₁ d₃)
    {source object : Path} (hwrite : ∀ o ∈ [object, object.withExtension "d"], ∀ d e bytes,
      d.write o bytes = .ok e → R d e) (position : Option Position) (w : World Unit) :
    R w.disk ((copyTask source object).execute position w).2.disk := by
  unfold copyTask
  dsimp only
  split
  · exact hrefl _
  split
  · exact hrefl _
  next d hobject =>
  have hcopied := hwrite _ List.mem_cons_self _ _ _ hobject
  split
  · exact hcopied
  next e hlisted =>
  exact htrans hcopied (hwrite _ (List.mem_cons_of_mem _ List.mem_cons_self) _ _ _ hlisted)

theorem joinTask_keeps (hrefl : ∀ d, R d d) {objects : List Path} {artifact : Path}
    (hwrite : ∀ d e bytes, d.write artifact bytes = .ok e → R d e) (position : Option Position)
    (w : World Unit) : R w.disk ((joinTask objects artifact).execute position w).2.disk := by
  unfold joinTask
  dsimp only
  split
  · exact hrefl _
  next d hjoined => exact hwrite _ _ _ hjoined

end Keeping

/-- What copying makes. -/
def copies : Compiler where
  headers _ _ := []
  object d source := (d.contents? source).getD .empty
  link := joined
  determined d e source hsource _ := ⟨rfl, by rw [hsource]⟩

namespace Site

/-- Two sources beside each other. -/
def copiedProject : Project :=
  { (default : Project) with
    path := ⟨"/w/p.kiln"⟩
    directory := ⟨"/w"⟩
    name := "P"
    language := .c
    outputType := .executable
    outputName := "p"
    outputExtension := ""
    outputDirectory := ⟨"/w"⟩
    intermediateDirectory := ⟨"/w"⟩
    files := [⟨"/w/a.c"⟩, ⟨"/w/b.c"⟩] }

/-- What a source of the project is copied into. -/
def copiedObject (source : Path) : Path :=
  objectPath (Path.commonRoot copiedProject.sourceFiles) copiedProject.intermediateDirectory "o"
    source

/-- Copies stale sources, and joins all objects. -/
def copying : Toolchain Unit where
  description := "copying"
  compileStep := true
  objectExtension := "o"
  tasks units _ output _ :=
    (units.filter CompileUnit.isStale).map (fun u => copyTask u.source u.output) ++
      [joinTask (copiedProject.sourceFiles.map copiedObject) output]

/-- The project with the toolchain that copies. -/
def copied : Site Unit where
  builder := { (default : Builder) with projects := [copiedProject] }
  project := copiedProject
  choose _ := .ok (pure copying)
  compiler := copies
  objectExtension := "o"
  Input q := q ∈ copiedProject.sourceFiles

/-- What is made of a source lies apart from the sources, and from what is made of another one. -/
theorem copied_apart : ∀ s ∈ copied.sources,
    (copied.object s).Apart (copied.dependencyFile s) ∧
      ∀ o ∈ [copied.object s, copied.dependencyFile s],
        copied.manifest.Apart o ∧ (∀ q ∈ copied.sources, q.Apart o) ∧
          ∀ t ∈ copied.sources, t.text ≠ s.text →
            (copied.object t).Apart o ∧ (copied.dependencyFile t).Apart o := by
  decide +kernel

theorem artifact_apart : copied.manifest.Apart copied.artifact ∧
    ∀ s ∈ copied.sources, s.Apart copied.artifact ∧ (copied.object s).Apart copied.artifact ∧
      (copied.dependencyFile s).Apart copied.artifact := by
  decide +kernel

variable {d e : Disk} {s : Path} {bytes : ByteArray}

theorem leaves_of_write_copied (hs : s ∈ copied.sources) {o : Path}
    (ho : o ∈ [copied.object s, copied.dependencyFile s]) (h : d.write o bytes = .ok e) :
    copied.Leaves (· ≠ s) d e := by
  obtain ⟨hmanifest, hinput, hother⟩ := (copied_apart s hs).2 o ho
  refine .of_placed (Disk.placed_of_write h) (fun q hq => (hinput q hq).location_ne _) ?_
    (hmanifest.location_ne _)
  intro t ht hne
  have htext : t.text ≠ s.text := fun heq => hne (congrArg Path.mk heq)
  obtain ⟨hobject, hdependencyFile⟩ := hother t ht htext
  exact ⟨hobject.location_ne _, hdependencyFile.location_ne _⟩

theorem readDependencies_of_empty {p : Path} (h : d.contents? p = some .empty) :
    readDependencies d p = .ok [] := by
  have hnone : dependenciesOf "" = [] := by cbv
  have htext : d.readText p = .ok "" := Disk.readText_of_contents? h
  rw [readDependencies, htext]
  exact congrArg Except.ok hnone

theorem compiles_copyTask (hs : s ∈ copied.sources) :
    copied.Compiles (copyTask s (copied.object s)) s where
  stage_eq := rfl
  leaves := copyTask_keeps (R := copied.Leaves (· ≠ s)) (.refl _ _) .trans
    fun _ ho _ _ _ => leaves_of_write_copied hs ho
  made position w v h := by
    unfold copyTask at h
    dsimp only at h
    split at h
    · cases h
    next bytes hread =>
    split at h
    · cases h
    next d hobject =>
    split at h
    · cases h
    next e hlisted =>
    cases h
    have hsource : w.disk.contents? s = some bytes := by
      rw [Disk.contents?, hread]
      rfl
    have hcopy : copied.compiler.object w.disk s = (w.disk.contents? s).getD .empty := rfl
    have happart := (copied_apart s hs).1.location_ne d.workingDirectory
    refine ⟨?_, readDependencies_of_empty (Disk.contents?_of_write hlisted)⟩
    dsimp only
    rw [(Disk.placed_of_write hlisted).contents?_eq happart, Disk.contents?_of_write hobject,
      hcopy, hsource, Option.getD_some]

theorem links_joinTask :
    copied.Links (joinTask (copiedProject.sourceFiles.map copiedObject) copied.artifact) where
  stage_eq := rfl
  leaves := by
    refine joinTask_keeps (R := copied.Leaves fun _ => True) (.refl _ _) fun d e _ hwrite => ?_
    obtain ⟨hmanifest, hall⟩ := artifact_apart
    refine .of_placed (Disk.placed_of_write hwrite) (fun q hq => (hall q hq).1.location_ne _) ?_
      (hmanifest.location_ne _)
    exact fun t ht _ => ⟨(hall t ht).2.1.location_ne _, (hall t ht).2.2.location_ne _⟩
  made position w v h := by
    unfold joinTask at h
    dsimp only at h
    split at h
    · cases h
    next d hwrite =>
    cases h
    rw [List.map_map] at hwrite
    exact Disk.contents?_of_write hwrite

theorem serves_copying : copied.Serves copying where
  compileStep_eq := rfl
  objectExtension_eq := rfl
  compiles_or_links units fingerprint version hunits task htask := by
    rcases List.mem_append.1 htask with htask | htask
    · obtain ⟨u, hu, rfl⟩ := List.mem_map.1 htask
      obtain ⟨hu, hstale⟩ := List.mem_filter.1 hu
      obtain ⟨hsource, houtput⟩ := hunits u hu
      refine .inl ⟨u, hu, hstale, ?_⟩
      rw [houtput]
      exact compiles_copyTask hsource
    · obtain rfl := List.mem_singleton.1 htask
      exact .inr links_joinTask
  exists_compiles units fingerprint version hunits u hu hstale := by
    obtain ⟨hsource, houtput⟩ := hunits u hu
    refine ⟨copyTask u.source u.output, List.mem_append_left _ ?_, ?_⟩
    · exact List.mem_map_of_mem (List.mem_filter.2 ⟨hu, hstale⟩)
    · rw [houtput]
      exact compiles_copyTask hsource
  exists_links units fingerprint version hunits :=
    ⟨_, List.mem_append_right _ List.mem_cons_self, links_joinTask⟩

/-- All that is relied on holds of the project with the toolchain that copies. -/
theorem lawful_copied : copied.Lawful where
  distinct := by decide +kernel
  description_ne := by decide +kernel
  input_source _ := id
  input_header _ _ _ _ hmem := nomatch hmem
  avoids q hq := by
    have hq : q ∈ copied.sources ++ copied.outputs := List.mem_append.2 hq
    have hall : ∀ q ∈ copied.sources ++ copied.outputs,
        ∀ p ∈ [Manifest.temporary copied.manifest, copied.manifest],
          q.isAbsolute = true ∧ p.isAbsolute = true ∧
            ∀ l ∈ q.location [] :: q.way [], ¬ p.location [] <+: l := by
      decide +kernel
    have hone (p : Path) (hp : p ∈ [Manifest.temporary copied.manifest, copied.manifest]) :
        q.Avoids p := by
      obtain ⟨habsolute, habsolute', hnone⟩ := hall q hq p hp
      exact Path.avoids_of_isAbsolute habsolute habsolute' hnone
    exact ⟨hone _ List.mem_cons_self, hone _ (List.mem_cons_of_mem _ List.mem_cons_self)⟩
  versionFile_ne _ hq := by rcases hq with hq | hq <;> cases hq
  preBuild _ hline := nomatch hline
  postBuild _ hline := nomatch hline
  toolchain request makeReady hchoose := by
    cases hchoose
    refine ⟨Action.Keeps.pure (World.Spares.frame _) _, fun w t ht => ?_⟩
    cases ht
    exact serves_copying

end Site

end IncrementalBuild.Build
