import IncrementalBuild.Build.Builder
import IncrementalBuild.Proofs.Except
import Mathlib

/-!
The order projects are built in, against the dependencies they declare. A search fails exactly where
it can reach a project that is not there, or one that needs itself; otherwise it lists what it can
reach, each project once and behind its dependencies.
-/

namespace IncrementalBuild

namespace ProjectOrder

open Build Relation

/-- The project of the first name declares the second as a dependency. -/
def Declares (projects : List Project) (name dependency : String) : Prop :=
  ∃ p ∈ projects, p.name = name ∧ dependency ∈ p.dependencies

/-- The project of the first name needs that of the second, directly or through others. -/
def Needs (projects : List Project) : String → String → Prop :=
  TransGen (Declares projects)

/-- The search from a name comes to the second. -/
def Reaches (projects : List Project) : String → String → Prop :=
  ReflTransGen (Declares projects)

/-- From a name, the search comes to one that no project has, or to one that needs itself. -/
def Unbuildable (projects : List Project) (name : String) : Prop :=
  ∃ n, Reaches projects name n ∧ ((∀ p ∈ projects, p.name ≠ n) ∨ Needs projects n n)

/-- No project comes twice, and each comes behind all its dependencies. -/
inductive Ordered (projects : List Project) : List Project → Prop where
  | nil : Ordered projects []
  | snoc {found : List Project} {p : Project} :
      Ordered projects found → p ∈ projects → (∀ q ∈ found, q.name ≠ p.name) →
      (∀ d ∈ p.dependencies, ∃ q ∈ found, q.name = d) → Ordered projects (found ++ [p])

variable {projects found all : List Project}

theorem projectOf?_eq_some {name : String} {p : Project} (h : projectOf? projects name = some p) :
    p ∈ projects ∧ p.name = name :=
  ⟨List.mem_of_find?_eq_some h, by simpa using List.find?_some h⟩

theorem eq_of_name_eq (hunique : (projects.map Project.name).Nodup) {p q : Project}
    (hp : p ∈ projects) (hq : q ∈ projects) (hname : p.name = q.name) : p = q :=
  List.inj_on_of_nodup_map hunique hp hq hname

theorem Unbuildable.of_reaches {name n : String} (h : Unbuildable projects n)
    (hn : Reaches projects name n) : Unbuildable projects name := by
  obtain ⟨m, hm, hbad⟩ := h
  exact ⟨m, hn.trans hm, hbad⟩

namespace Ordered

theorem subset (h : Ordered projects found) : ∀ p ∈ found, p ∈ projects := by
  induction h with
  | nil => simp
  | snoc _ hp _ _ ih =>
    intro q hq
    rcases List.mem_append.1 hq with hq | hq
    · exact ih q hq
    · exact List.mem_singleton.1 hq ▸ hp

theorem nodup (h : Ordered projects found) : (found.map Project.name).Nodup := by
  induction h with
  | nil => simp
  | @snoc found p _ _ hnew _ ih =>
    rw [List.map_append, List.map_singleton, List.nodup_append]
    refine ⟨ih, List.nodup_singleton _, ?_⟩
    intro n hn m hm
    obtain ⟨q, hq, rfl⟩ := List.mem_map.1 hn
    obtain rfl := List.mem_singleton.1 hm
    exact hnew q hq

/-- What a listed project needs is listed, too. -/
theorem exists_of_reaches (h : Ordered projects found)
    (hunique : (projects.map Project.name).Nodup) {p : Project} (hp : p ∈ found) {n : String}
    (hn : Reaches projects p.name n) : ∃ q ∈ found, q.name = n := by
  have hstep : ∀ q ∈ found, ∀ d ∈ q.dependencies, ∃ r ∈ found, r.name = d := by
    clear hp hn
    induction h with
    | nil => simp
    | @snoc found p _ _ _ hdependencies ih =>
      intro q hq d hd
      obtain ⟨r, hr, hname⟩ : ∃ r ∈ found, r.name = d := by
        rcases List.mem_append.1 hq with hq | hq
        · exact ih q hq d hd
        · exact hdependencies d (List.mem_singleton.1 hq ▸ hd)
      exact ⟨r, List.mem_append_left _ hr, hname⟩
  unfold Reaches at hn
  induction hn with
  | refl => exact ⟨p, hp, rfl⟩
  | tail _ hdeclares ih =>
    obtain ⟨q, hq, rfl⟩ := ih
    obtain ⟨q', hq', hname, hd⟩ := hdeclares
    rw [eq_of_name_eq hunique hq' (h.subset q hq) hname] at hd
    exact hstep q hq _ hd

/-- No project needs one that comes behind it, or itself. -/
theorem pairwise (h : Ordered projects found) (hunique : (projects.map Project.name).Nodup) :
    found.Pairwise (fun p q => ¬ Needs projects p.name q.name) ∧
      ∀ p ∈ found, ¬ Needs projects p.name p.name := by
  induction h with
  | nil => simp
  | @snoc found p hfound hp hnew hdependencies ih =>
    have hnone (q : Project) (hq : q ∈ found) : ¬ Reaches projects q.name p.name := by
      intro hreaches
      obtain ⟨r, hr, hname⟩ := hfound.exists_of_reaches hunique hq hreaches
      exact hnew r hr hname
    refine ⟨List.pairwise_append.2 ⟨ih.1, List.pairwise_singleton _ _, ?_⟩, ?_⟩
    · intro q hq r hr hneeds
      obtain rfl := List.mem_singleton.1 hr
      exact hnone q hq hneeds.to_reflTransGen
    · intro q hq hneeds
      rcases List.mem_append.1 hq with hq | hq
      · exact ih.2 q hq hneeds
      obtain rfl := List.mem_singleton.1 hq
      obtain ⟨d, ⟨q', hq', hname, hd⟩, hreaches⟩ := TransGen.head'_iff.1 hneeds
      rw [eq_of_name_eq hunique hq' hp hname] at hd
      obtain ⟨r, hr, rfl⟩ := hdependencies d hd
      exact hnone r hr hreaches

theorem after_dependencies (h : Ordered projects found) {before after : List Project} {p : Project}
    (hsplit : found = before ++ p :: after) : ∀ d ∈ p.dependencies, ∃ q ∈ before, q.name = d := by
  induction h generalizing after with
  | nil => simp at hsplit
  | @snoc found r _ _ _ hdependencies ih =>
    rcases List.eq_nil_or_concat after with rfl | ⟨init, last, rfl⟩
    · obtain ⟨rfl, hlast⟩ := List.append_inj' hsplit rfl
      cases hlast
      exact hdependencies
    · rw [List.concat_eq_append, ← List.cons_append, ← List.append_assoc] at hsplit
      exact ih (List.append_inj' hsplit rfl).1

/-- A list of what can be reached from one of its projects ends with that project. -/
theorem getLast?_name (h : Ordered projects found) (hunique : (projects.map Project.name).Nodup)
    {p : Project} (hp : p ∈ found) (hall : ∀ q ∈ found, Reaches projects p.name q.name) :
    found.getLast?.map Project.name = some p.name := by
  cases h with
  | nil => simp at hp
  | @snoc init last hinit _ hnew _ =>
    rw [List.getLast?_concat, Option.map_some, Option.some.injEq]
    rcases List.mem_append.1 hp with hp | hp
    · have hreaches := hall last (List.mem_append_right _ List.mem_cons_self)
      obtain ⟨r, hr, hname⟩ := hinit.exists_of_reaches hunique hp hreaches
      exact absurd hname (hnew r hr)
    · rw [List.mem_singleton.1 hp]

/-- From a listed project, the search comes to nothing that is missing or needs itself. -/
theorem not_unbuildable (h : Ordered projects found)
    (hunique : (projects.map Project.name).Nodup) {p : Project} (hp : p ∈ found) :
    ¬ Unbuildable projects p.name := by
  rintro ⟨n, hreaches, hbad⟩
  obtain ⟨q, hq, rfl⟩ := h.exists_of_reaches hunique hp hreaches
  rcases hbad with hunknown | hcycle
  · exact hunknown q (h.subset q hq) rfl
  · exact (h.pairwise hunique).2 q hq hcycle

end Ordered

/-- What becomes of a search for some names that has found projects before. -/
inductive Found (projects : List Project) (names : List String) (found : List Project) :
    Except Failure (List Project) → Prop where
  | ok {all : List Project} :
      Ordered projects all → found <+: all → (∀ n ∈ names, ∃ q ∈ all, q.name = n) →
      (∀ q ∈ all, q ∈ found ∨ ∃ n ∈ names, Reaches projects n q.name) →
      Found projects names found (.ok all)
  | error {f : Failure} {n : String} :
      n ∈ names → Unbuildable projects n → Found projects names found (.error f)

namespace Found

variable {names : List String} {result : Except Failure (List Project)}

theorem mapError (h : Found projects names found result) (wrap : Failure → Failure) :
    Found projects names found (result.mapError wrap) := by
  cases h with
  | ok hordered hinitial hnames hmem => exact .ok hordered hinitial hnames hmem
  | error hn hbad => exact .error hn hbad

/-- Searching for one name after another finds what is needed for all of them. -/
theorem foldlM {search : List Project → String → Except Failure (List Project)}
    (hsearch : ∀ found, Ordered projects found → ∀ n ∈ names,
      Found projects [n] found (search found n)) (hfound : Ordered projects found) :
    Found projects names found (names.foldlM search found) := by
  induction names generalizing found with
  | nil => exact .ok hfound (List.prefix_refl _) (by simp) fun q hq => .inl hq
  | cons n names ih =>
    rw [List.foldlM_cons]
    cases hfirst : search found n with
    | error f =>
      have hone := hsearch found hfound n List.mem_cons_self
      rw [hfirst] at hone
      cases hone with
      | error hm hbad => exact .error (List.mem_singleton.1 hm ▸ List.mem_cons_self) hbad
    | ok more =>
      have hone := hsearch found hfound n List.mem_cons_self
      rw [hfirst] at hone
      cases hone with
      | ok hmore hinitial hnames hmem =>
      have hrest := ih (fun found hfound m hm => hsearch found hfound m (.tail _ hm)) hmore
      show Found projects (n :: names) found (names.foldlM search more)
      cases hrest' : names.foldlM search more with
      | error f =>
        rw [hrest'] at hrest
        cases hrest with
        | error hm hbad => exact .error (List.mem_cons_of_mem _ hm) hbad
      | ok all =>
        rw [hrest'] at hrest
        cases hrest with
        | ok hall hinitial' hnames' hmem' =>
        refine .ok hall (hinitial.trans hinitial') ?_ ?_
        · intro m hm
          rcases List.mem_cons.1 hm with rfl | hm
          · obtain ⟨q, hq, hname⟩ := hnames m List.mem_cons_self
            exact ⟨q, hinitial'.subset hq, hname⟩
          · exact hnames' m hm
        · intro q hq
          rcases hmem' q hq with hq | ⟨m, hm, hreaches⟩
          · rcases hmem q hq with hq | ⟨m, hm, hreaches⟩
            · exact .inl hq
            · exact .inr ⟨m, List.mem_singleton.1 hm ▸ List.mem_cons_self, hreaches⟩
          · exact .inr ⟨m, List.mem_cons_of_mem _ hm, hreaches⟩

/-- A project is listed behind its dependencies. -/
theorem snoc {p : Project} (hunique : (projects.map Project.name).Nodup) (hp : p ∈ projects)
    (hnew : ∀ q ∈ found, q.name ≠ p.name) (h : Found projects p.dependencies found result) :
    Found projects [p.name] found (result >>= fun all => .ok (all ++ [p])) := by
  have hdeclares (d : String) (hd : d ∈ p.dependencies) : Declares projects p.name d :=
    ⟨p, hp, rfl, hd⟩
  cases h with
  | error hn hbad =>
    exact .error List.mem_cons_self (hbad.of_reaches (.single (hdeclares _ hn)))
  | @ok all hall hinitial hnames hmem =>
    have hfresh (q : Project) (hq : q ∈ all) : q.name ≠ p.name := by
      rcases hmem q hq with hold | ⟨d, hd, hreaches⟩
      · exact hnew q hold
      · intro hname
        apply (hall.pairwise hunique).2 q hq
        rw [hname] at hreaches ⊢
        exact TransGen.head' (hdeclares d hd) hreaches
    refine .ok (.snoc hall hp hfresh hnames) (hinitial.trans (List.prefix_append _ _)) ?_ ?_
    · intro n hn
      exact ⟨p, by simp, (List.mem_singleton.1 hn).symm⟩
    · intro q hq
      rcases List.mem_append.1 hq with hq | hq
      · rcases hmem q hq with hold | ⟨d, hd, hreaches⟩
        · exact .inl hold
        · exact .inr ⟨p.name, List.mem_cons_self, .head (hdeclares d hd) hreaches⟩
      · obtain rfl := List.mem_singleton.1 hq
        exact .inr ⟨_, List.mem_cons_self, .refl⟩

end Found

/-- A search finds what is needed, or comes to something that cannot be built. The names it came
through need the one it is at. -/
theorem found_search (hunique : (projects.map Project.name).Nodup) (workspace : String)
    {path : List String} {name : String} (hpath : ∀ n ∈ path, Needs projects n name)
    (hfound : Ordered projects found) :
    Found projects [name] found (search projects workspace path name found) := by
  induction hsize : (notOnPath projects path).length using Nat.strongRecOn
    generalizing path name found with
  | _ size ih =>
    subst hsize
    rw [search]
    split
    next hany =>
      obtain ⟨q, hq, hname⟩ := List.any_eq_true.1 hany
      refine .ok hfound (List.prefix_refl _) ?_ fun r hr => .inl hr
      intro n hn
      exact ⟨q, hq, (of_decide_eq_true hname).trans (List.mem_singleton.1 hn).symm⟩
    next hnone =>
    split
    next hon => exact .error List.mem_cons_self ⟨name, .refl, .inr (hpath name hon)⟩
    next hnew =>
    split
    next hunknown =>
      refine .error List.mem_cons_self ⟨name, .refl, .inl fun p hp hname => ?_⟩
      have hnot := List.find?_eq_none.1 hunknown p hp
      exact hnot (decide_eq_true hname)
    next p hproject =>
      obtain ⟨hp, rfl⟩ := projectOf?_eq_some hproject
      have hfresh : ∀ q ∈ found, q.name ≠ p.name := by
        intro q hq hname
        exact hnone (List.any_eq_true.2 ⟨q, hq, decide_eq_true hname⟩)
      refine Found.snoc hunique hp hfresh (Found.foldlM (fun found hfound d hd => ?_) hfound)
      have hdeclares : Declares projects p.name d := ⟨p, hp, rfl, hd⟩
      refine (ih _ (length_notOnPath_lt hproject hnew) ?_ hfound rfl).mapError _
      intro n hn
      rcases List.mem_append.1 hn with hn | hn
      · exact (hpath n hn).tail hdeclares
      · exact List.mem_singleton.1 hn ▸ TransGen.single hdeclares

theorem found_buildOrder (hunique : (projects.map Project.name).Nodup) (workspace name : String) :
    Found projects [name] [] (buildOrder projects workspace name) :=
  found_search hunique workspace (by simp) .nil

/-- The projects of a list that are not selected yet, behind those that are. -/
def gather (selected order : List Project) : List Project :=
  order.foldl (fun selected p =>
    if selected.any fun q => q.name = p.name then selected else selected ++ [p]) selected

theorem gather_concat (selected order : List Project) (p : Project) :
    gather selected (order ++ [p]) =
      if (gather selected order).any fun q => q.name = p.name then gather selected order
      else gather selected order ++ [p] := by
  rw [gather, List.foldl_append]
  rfl

theorem buildOrderOfAll_eq_foldlM (workspace : String) (selected : List Project)
    (names : List String) : buildOrderOfAll projects workspace selected names =
      names.foldlM (fun selected n => (buildOrder projects workspace n).map (gather selected))
        selected := by
  induction names generalizing selected with
  | nil => rfl
  | cons n names ih =>
    rw [buildOrderOfAll, List.foldlM_cons]
    cases buildOrder projects workspace n with
    | error f => rfl
    | ok order => exact ih _

/-- Selecting projects in their order keeps them in order. -/
theorem found_gather {selected order : List Project} {names : List String}
    (hselected : Ordered projects selected) (horder : Ordered projects order)
    (hnames : ∀ n ∈ names, ∃ q ∈ order, q.name = n)
    (hreached : ∀ q ∈ order, ∃ n ∈ names, Reaches projects n q.name) :
    Found projects names selected (.ok (gather selected order)) := by
  have hgathered : Ordered projects (gather selected order) ∧
      selected <+: gather selected order ∧
      (∀ p ∈ order, ∃ q ∈ gather selected order, q.name = p.name) ∧
      ∀ q ∈ gather selected order, q ∈ selected ∨ q ∈ order := by
    clear hnames hreached
    induction horder with
    | nil => exact ⟨hselected, List.prefix_refl _, by simp, fun q hq => .inl hq⟩
    | @snoc order p _ hp _ hdependencies ih =>
      obtain ⟨hordered, hinitial, hlisted, hmem⟩ := ih
      have hold (r : Project) (hr : r ∈ order ++ [p]) : r ∈ order ∨ r = p := by simpa using hr
      rw [gather_concat]
      split
      next hany =>
        obtain ⟨q, hq, hname⟩ := List.any_eq_true.1 hany
        refine ⟨hordered, hinitial, fun r hr => ?_, fun r hr => ?_⟩
        · rcases hold r hr with hr | rfl
          · exact hlisted r hr
          · exact ⟨q, hq, of_decide_eq_true hname⟩
        · exact (hmem r hr).imp_right (List.mem_append_left _)
      next hnone =>
        refine ⟨.snoc hordered hp ?_ ?_, hinitial.trans (List.prefix_append _ _),
          fun r hr => ?_, fun r hr => ?_⟩
        · intro q hq hname
          exact hnone (List.any_eq_true.2 ⟨q, hq, decide_eq_true hname⟩)
        · intro d hd
          obtain ⟨r, hr, rfl⟩ := hdependencies d hd
          exact hlisted r hr
        · rcases hold r hr with hr | rfl
          · obtain ⟨q, hq, hname⟩ := hlisted r hr
            exact ⟨q, List.mem_append_left _ hq, hname⟩
          · exact ⟨r, by simp, rfl⟩
        · rcases List.mem_append.1 hr with hr | hr
          · exact (hmem r hr).imp_right (List.mem_append_left _)
          · exact .inr (List.mem_append_right _ hr)
  obtain ⟨hordered, hinitial, hlisted, hmem⟩ := hgathered
  refine .ok hordered hinitial ?_ fun q hq => (hmem q hq).imp_right (hreached q)
  intro n hn
  obtain ⟨p, hp, rfl⟩ := hnames n hn
  exact hlisted p hp

theorem found_buildOrderOfAll (hunique : (projects.map Project.name).Nodup) (workspace : String)
    (names : List String) :
    Found projects names [] (buildOrderOfAll projects workspace [] names) := by
  rw [buildOrderOfAll_eq_foldlM]
  refine Found.foldlM (fun selected hselected n _ => ?_) .nil
  have hone := found_buildOrder hunique workspace n
  cases horder : buildOrder projects workspace n with
  | error f =>
    rw [horder] at hone
    cases hone with
    | error hn hbad => exact .error hn hbad
  | ok order =>
    rw [horder] at hone
    cases hone with
    | ok hordered _ hnames hmem =>
    refine found_gather hselected hordered hnames fun q hq => ?_
    rcases hmem q hq with hnot | hreached
    · cases hnot
    · exact hreached

/-- Exactly what can be reached from some names is listed, each project once and behind its
dependencies. -/
structure BuildOrder (projects : List Project) (names : List String) (order : List Project) :
    Prop where
  mem_iff : ∀ p, p ∈ order ↔ p ∈ projects ∧ ∃ n ∈ names, Reaches projects n p.name
  nodup : (order.map Project.name).Nodup
  after_dependencies : ∀ before p after, order = before ++ p :: after →
    ∀ d ∈ p.dependencies, ∃ q ∈ before, q.name = d

namespace Found

variable {names : List String} {order : List Project}

theorem ordered (h : Found projects names [] (.ok order)) : Ordered projects order := by
  cases h with
  | ok hordered _ _ _ => exact hordered

theorem buildOrder (h : Found projects names [] (.ok order))
    (hunique : (projects.map Project.name).Nodup) : BuildOrder projects names order := by
  cases h with
  | ok hordered _ hnames hmem =>
  refine ⟨fun p => ⟨fun hp => ?_, ?_⟩, hordered.nodup, fun _ _ _ => hordered.after_dependencies⟩
  · rcases hmem p hp with hnot | hreached
    · cases hnot
    · exact ⟨hordered.subset p hp, hreached⟩
  · rintro ⟨hp, n, hn, hreaches⟩
    obtain ⟨q, hq, rfl⟩ := hnames n hn
    obtain ⟨r, hr, hname⟩ := hordered.exists_of_reaches hunique hq hreaches
    rwa [eq_of_name_eq hunique hp (hordered.subset r hr) hname.symm]

theorem exists_error_iff {result : Except Failure (List Project)}
    (h : Found projects names [] result) (hunique : (projects.map Project.name).Nodup) :
    (∃ f, result = .error f) ↔ ∃ n ∈ names, Unbuildable projects n := by
  cases h with
  | ok hordered _ hnames _ =>
    refine ⟨fun ⟨f, hf⟩ => (nomatch hf), ?_⟩
    rintro ⟨n, hn, hbad⟩
    obtain ⟨q, hq, rfl⟩ := hnames n hn
    exact absurd hbad (hordered.not_unbuildable hunique hq)
  | error hn hbad => exact ⟨fun _ => ⟨_, hn, hbad⟩, fun _ => ⟨_, rfl⟩⟩

end Found

/-- What a project is linked against: all libraries that it needs, each once, and each before those
that it needs itself. -/
structure LinkOrder (projects : List Project) (p : Project) (libraries : List Project) : Prop where
  mem_iff : ∀ q, q ∈ libraries ↔
    q ∈ projects ∧ q.outputType.isLibrary = true ∧ Needs projects p.name q.name
  nodup : (libraries.map Project.name).Nodup
  before_needed : ∀ i j : Fin libraries.length,
    Needs projects libraries[i].name libraries[j].name → i < j

theorem linkOrder_of_found (hunique : (projects.map Project.name).Nodup) {p : Project}
    (hp : p ∈ projects) {order : List Project} (h : Found projects [p.name] [] (.ok order)) :
    LinkOrder projects p
      (order.reverse.filter fun q => q.name ≠ p.name && q.outputType.isLibrary) := by
  have hbuild := h.buildOrder hunique
  obtain ⟨hpairwise, hacyclic⟩ := h.ordered.pairwise hunique
  generalize hlibraries :
    (order.reverse.filter fun q => q.name ≠ p.name && q.outputType.isLibrary) = libraries
  have hsub : libraries.Sublist order.reverse := hlibraries ▸ List.filter_sublist
  have hmem (q : Project) : q ∈ libraries ↔
      q ∈ projects ∧ q.outputType.isLibrary = true ∧ Needs projects p.name q.name := by
    rw [← hlibraries, List.mem_filter, List.mem_reverse, hbuild.mem_iff]
    simp only [List.mem_singleton, exists_eq_left, Bool.and_eq_true, decide_eq_true_eq]
    constructor
    · rintro ⟨⟨hq, hreaches⟩, hname, hlibrary⟩
      refine ⟨hq, hlibrary, ?_⟩
      rcases ReflTransGen.cases_head hreaches with heq | ⟨d, hd, hrest⟩
      · exact absurd heq.symm hname
      · exact TransGen.head' hd hrest
    · rintro ⟨hq, hlibrary, hneeds⟩
      refine ⟨⟨hq, hneeds.to_reflTransGen⟩, fun hname => ?_, hlibrary⟩
      have hself : p ∈ order := (hbuild.mem_iff p).2 ⟨hp, p.name, List.mem_cons_self, .refl⟩
      exact hacyclic p hself (hname ▸ hneeds)
  refine ⟨hmem, ?_, fun i j hneeds => ?_⟩
  · have hnodup : (order.reverse.map Project.name).Nodup := by
      rw [List.map_reverse]
      exact List.nodup_reverse.2 hbuild.nodup
    exact hnodup.sublist (hsub.map _)
  · have hback : libraries.Pairwise fun q r => ¬ Needs projects r.name q.name :=
      (List.pairwise_reverse.2 hpairwise).sublist hsub
    by_contra hnot
    rcases Nat.lt_or_eq_of_le (Nat.le_of_not_lt hnot) with hlt | heq
    · exact List.pairwise_iff_getElem.1 hback j i j.2 i.2 hlt hneeds
    · obtain rfl : j = i := Fin.ext heq
      have hmemOrder : libraries[j] ∈ order :=
        List.mem_reverse.1 (hsub.subset (List.getElem_mem j.2))
      exact hacyclic _ hmemOrder hneeds

end ProjectOrder

open Build ProjectOrder

/-- A selection with dependencies is in order. -/
theorem Builder.ordered_of_selection {b : Builder} {name : Option String} {order : List Project}
    (hunique : (b.projects.map Project.name).Nodup) (h : b.selection name true = .ok order) :
    Ordered b.projects order := by
  cases name with
  | none =>
    rw [Builder.selection, if_pos rfl] at h
    exact (h ▸ found_buildOrderOfAll hunique b.workspace.name _).ordered
  | some n =>
    rw [Builder.selection, if_pos rfl] at h
    exact (h ▸ found_buildOrderOfAll hunique b.workspace.name [n]).ordered

/-- The libraries a project is linked against are in order. -/
theorem Builder.linkOrder_of_dependencyOutputs {b : Builder} {p : Project} {outputs : List Path}
    (hunique : (b.projects.map Project.name).Nodup) (hp : p ∈ b.projects)
    (houtputs : b.dependencyOutputs p = .ok outputs) :
    ∃ libraries, outputs = libraries.map Project.outputFile ∧
      LinkOrder b.projects p libraries := by
  have hfound := found_buildOrder hunique b.workspace.name p.name
  obtain ⟨order, horder, houtputs⟩ := bind_eq_ok_iff.1 houtputs
  rw [Builder.order] at horder
  rw [horder] at hfound
  cases houtputs
  exact ⟨_, rfl, linkOrder_of_found hunique hp hfound⟩

/-- Whatever dependencies the projects of a workspace declare: the order for a name is refused
exactly if the search can come to a name that no project has, or to a project that needs itself, and
otherwise lists exactly what it can come to, dependencies first, and the named project last. The
selection of all projects has every project once, dependencies first. And a project is linked
against all libraries that it needs, each once and before those that it needs itself. -/
theorem Builder.orders_projects (b : Builder) (hunique : (b.projects.map Project.name).Nodup) :
    (∀ name,
      ((∃ f, b.order name = .error f) ↔ Unbuildable b.projects name) ∧
      ∀ order, b.order name = .ok order → BuildOrder b.projects [name] order ∧
        order.getLast?.map Project.name = some name) ∧
    (((∃ f, b.selection none true = .error f) ↔ ∃ p ∈ b.projects, Unbuildable b.projects p.name) ∧
      ∀ order, b.selection none true = .ok order →
        BuildOrder b.projects (b.projects.map Project.name) order ∧ order.Perm b.projects) ∧
    ∀ p ∈ b.projects,
      ((∃ f, b.dependencyOutputs p = .error f) ↔ Unbuildable b.projects p.name) ∧
      ∀ outputs, b.dependencyOutputs p = .ok outputs →
        ∃ libraries, outputs = libraries.map Project.outputFile ∧
          LinkOrder b.projects p libraries := by
  refine ⟨fun name => ?_, ⟨?_, fun order horder => ?_⟩,
    fun p hp => ⟨?_, fun outputs houtputs => ?_⟩⟩
  · have hfound := found_buildOrder hunique b.workspace.name name
    refine ⟨(hfound.exists_error_iff hunique).trans (by simp), fun order horder => ?_⟩
    rw [Builder.order] at horder
    rw [horder] at hfound
    have hbuild := hfound.buildOrder hunique
    refine ⟨hbuild, ?_⟩
    cases hfound with
    | ok hordered _ hnames _ =>
    obtain ⟨p, hp, rfl⟩ := hnames name List.mem_cons_self
    refine hordered.getLast?_name hunique hp fun q hq => ?_
    simpa using ((hbuild.mem_iff q).1 hq).2
  · have hfound := found_buildOrderOfAll hunique b.workspace.name (b.projects.map Project.name)
    exact (hfound.exists_error_iff hunique).trans (by simp)
  · have hfound := found_buildOrderOfAll hunique b.workspace.name (b.projects.map Project.name)
    rw [Builder.selection, if_pos rfl] at horder
    rw [horder] at hfound
    have hbuild := hfound.buildOrder hunique
    refine ⟨hbuild, ?_⟩
    rw [List.perm_ext_iff_of_nodup (List.Nodup.of_map _ hbuild.nodup)
      (List.Nodup.of_map _ hunique)]
    intro p
    rw [hbuild.mem_iff]
    exact ⟨And.left, fun hp => ⟨hp, p.name, List.mem_map_of_mem hp, .refl⟩⟩
  · have hfound := found_buildOrder hunique b.workspace.name p.name
    have hiff := (hfound.exists_error_iff hunique).symm
    simp only [List.mem_singleton, exists_eq_left] at hiff
    rw [hiff, Builder.dependencyOutputs, Builder.order]
    cases buildOrder b.projects b.workspace.name p.name with
    | error f => exact ⟨fun _ => ⟨f, rfl⟩, fun _ => ⟨f, rfl⟩⟩
    | ok order => exact ⟨fun ⟨f, hf⟩ => (nomatch hf), fun ⟨f, hf⟩ => (nomatch hf)⟩
  · exact linkOrder_of_dependencyOutputs hunique hp houtputs

/-- An application with two libraries, one of which needs the other, and a project that needs
itself. -/
def linkedLibraries : Builder where
  workspace := default
  target := default
  projects := [
    { (default : Project) with name := "App", dependencies := ["Util", "Net", "Util"] },
    { (default : Project) with
      name := "Net", outputType := .staticLibrary, dependencies := ["Util"] },
    { (default : Project) with name := "Util", outputType := .dynamicLibrary },
    { (default : Project) with name := "Loop", dependencies := ["App", "Loop"] }]

theorem linkedLibraries_ordered : (linkedLibraries.projects.map Project.name).Nodup ∧
    (∃ order, linkedLibraries.order "App" = .ok order ∧
      order.map Project.name = ["Util", "Net", "App"] ∧
      BuildOrder linkedLibraries.projects ["App"] order) ∧
    Unbuildable linkedLibraries.projects "Loop" ∧
    ∃ f, linkedLibraries.selection none true = .error f := by
  have hunique : (linkedLibraries.projects.map Project.name).Nodup := by decide
  obtain ⟨hnames, ⟨hall, -⟩, -⟩ := linkedLibraries.orders_projects hunique
  have happ : (linkedLibraries.order "App").toOption.map (List.map Project.name) =
      some ["Util", "Net", "App"] := by
    cbv
  have hloop : (linkedLibraries.order "Loop").toOption.isNone = true := by cbv
  have hunbuildable : Unbuildable linkedLibraries.projects "Loop" := by
    apply (hnames "Loop").1.1
    cases hresult : linkedLibraries.order "Loop" with
    | error f => exact ⟨f, rfl⟩
    | ok order => simp [hresult, Except.toOption] at hloop
  obtain ⟨loop, hmem, hname⟩ : ∃ p ∈ linkedLibraries.projects, p.name = "Loop" := by
    simp [linkedLibraries]
  refine ⟨hunique, ?_, hunbuildable, hall.2 ⟨loop, hmem, hname ▸ hunbuildable⟩⟩
  cases hresult : linkedLibraries.order "App" with
  | error f => simp [hresult, Except.toOption] at happ
  | ok order =>
    refine ⟨order, rfl, ?_, ((hnames "App").2 order hresult).1⟩
    simpa [hresult, Except.toOption] using happ

end IncrementalBuild
