import IncrementalBuild.Proofs.Build.Plan

/-!
Making the graph of tasks is never refused, and within a stage the sequential tasks come behind the
parallel ones, in the order they are listed.
-/

namespace IncrementalBuild.Build

open Jobs Relation Planning

variable {ν : Type}

/-- Nothing waits for the job. -/
def Unneeded (s : Scheduler) (j : Nat) : Prop :=
  ∀ i, ¬ s.DependsOn i j

theorem Unneeded.not_reaches {s : Scheduler} {i j : Nat} (h : Unneeded s j) (hne : i ≠ j) :
    ¬ Reaches s i j := by
  intro hpath
  rcases ReflTransGen.cases_tail hpath with heq | ⟨k, -, hk⟩
  · exact hne heq.symm
  · exact h k hk

theorem unneeded_of_size_le {s : Scheduler} (hexact : s.Exact) {j : Nat} (hj : s.jobs.size ≤ j) :
    Unneeded s j := by
  intro i hi
  have hlt := hexact.dependency_lt i j hi
  omega

/-- The indices of a job that may be missing. -/
def indices (h : Option Handle) : List Nat :=
  (h.map Handle.index).toList

@[simp] theorem mem_indices {h : Option Handle} {j : Nat} :
    j ∈ indices h ↔ ∃ l ∈ h, l.index = j := by
  cases h <;> simp [indices, eq_comm]

/-- A job has been made to wait for these, and nothing else has changed. -/
structure Waits (s t : Scheduler) (i : Nat) (ds : List Nat) : Prop where
  exact : t.Exact
  size_eq : t.jobs.size = s.jobs.size
  phase_eq : ∀ j, (t.job j).phase = (s.job j).phase
  dependsOn_iff : ∀ j k, t.DependsOn j k ↔ s.DependsOn j k ∨ j = i ∧ k ∈ ds

theorem waitFor_succeeds {s : Scheduler} {i d : Handle} (hexact : s.Exact)
    (hi : i.index < s.jobs.size) (hd : d.index < s.jobs.size)
    (hcreated : (s.job i.index).phase = .created) (hpath : ¬ Reaches s d.index i.index) :
    ∃ t, (waitFor i d).run s = .ok ((), t) ∧ Waits s t i.index [d.index] := by
  have hclosure : i.index ∉ s.closure d.index := by
    rwa [hexact.mem_closure_iff hd]
  obtain ⟨t, hadd⟩ := Scheduler.exists_addDependency hi hd hcreated hclosure
  have hlinking := Scheduler.linking_of_addDependency hadd
  refine ⟨t, ?_, hlinking.exact hexact, hlinking.size_eq, hlinking.phase_eq, fun j k => ?_⟩
  · rw [run_waitFor, hadd]
    rfl
  · rw [hlinking.dependsOn_iff, List.mem_singleton]

theorem waitForOption_succeeds {s : Scheduler} {i : Handle} {d : Option Handle} (hexact : s.Exact)
    (hi : i.index < s.jobs.size) (hd : ∀ l ∈ d, l.index < s.jobs.size)
    (hcreated : (s.job i.index).phase = .created)
    (hpath : ∀ l ∈ d, ¬ Reaches s l.index i.index) :
    ∃ t, (waitForOption i d).run s = .ok ((), t) ∧ Waits s t i.index (indices d) := by
  cases d with
  | none => exact ⟨s, rfl, hexact, rfl, fun _ => rfl, fun j k => by simp⟩
  | some d => exact waitFor_succeeds hexact hi (hd d rfl) hcreated (hpath d rfl)

/-- All dependencies that were added are on these jobs, or on new ones. -/
def AddsOnly (targets : List Nat) (s t : Scheduler) : Prop :=
  ∀ i d, t.DependsOn i d → s.DependsOn i d ∨ d ∈ targets ∨ s.jobs.size ≤ d

namespace AddsOnly

variable {targets more : List Nat} {s t u : Scheduler}

theorem refl (targets : List Nat) (s : Scheduler) : AddsOnly targets s s :=
  fun _ _ => .inl

theorem mono (h : AddsOnly targets s t) (hmore : ∀ d ∈ targets, d ∈ more) : AddsOnly more s t :=
  fun i d hd => (h i d hd).imp_right (.imp_left (hmore d))

theorem trans (h : AddsOnly targets s t) (h' : AddsOnly more t u)
    (hsize : s.jobs.size ≤ t.jobs.size)
    (hmore : ∀ d ∈ more, d ∈ targets ∨ s.jobs.size ≤ d) : AddsOnly targets s u := by
  intro i d hd
  rcases h' i d hd with hd | hd | hd
  · exact h i d hd
  · exact .inr (hmore d hd)
  · exact .inr (.inr (Nat.le_trans hsize hd))

theorem unneeded (h : AddsOnly targets s t) {j : Nat} (hj : Unneeded s j) (hlt : j < s.jobs.size)
    (hnot : j ∉ targets) : Unneeded t j := by
  intro i hi
  rcases h i j hi with hold | hmem | hge
  · exact hj i hold
  · exact hnot hmem
  · omega

end AddsOnly

theorem Waits.addsOnly {s t : Scheduler} {i : Nat} {ds targets : List Nat} (h : Waits s t i ds)
    (hds : ∀ d ∈ ds, d ∈ targets ∨ s.jobs.size ≤ d) : AddsOnly targets s t := by
  intro j k hk
  rcases (h.dependsOn_iff j k).1 hk with hold | ⟨-, hmem⟩
  · exact .inl hold
  · exact .inr (hds k hmem)

/-- A job that nothing waits for can be made to wait for any others. -/
theorem unneededWait_succeeds {s : Scheduler} {i : Handle} {d : Option Handle} (hexact : s.Exact)
    (hi : i.index < s.jobs.size) (hcreated : (s.job i.index).phase = .created)
    (hunneeded : Unneeded s i.index)
    (hd : ∀ l ∈ d, l.index < s.jobs.size ∧ l.index ≠ i.index) :
    ∃ t, (waitForOption i d).run s = .ok ((), t) ∧ Waits s t i.index (indices d) ∧
      AddsOnly (indices d) s t := by
  obtain ⟨t, hrun, hwaits⟩ := waitForOption_succeeds hexact hi (fun l hl => (hd l hl).1) hcreated
    fun l hl => hunneeded.not_reaches (hd l hl).2
  exact ⟨t, hrun, hwaits, hwaits.addsOnly fun d hd => .inl hd⟩

theorem dependsOn_create (s : Scheduler) : s.create.2.DependsOn = s.DependsOn :=
  Scheduler.dependsOn_congr (Scheduler.dependenciesOf_create s)

theorem addsOnly_create (targets : List Nat) (s : Scheduler) : AddsOnly targets s s.create.2 := by
  intro i d hd
  rw [dependsOn_create] at hd
  exact .inl hd

theorem created_of_size_le {s : Scheduler} {j : Nat} (hj : s.jobs.size ≤ j) :
    (s.job j).phase = .created := by
  rw [Scheduler.job_of_size_le hj]
  rfl

/-- What is there when the job of one more task of a stage is made: none of the jobs that the stage
waits for reaches `group`. -/
structure Preparing (s : Scheduler) (previous : Option Handle) (group : Handle)
    (last : Option Handle) : Prop where
  exact : s.Exact
  group_lt : group.index < s.jobs.size
  group_created : (s.job group.index).phase = .created
  previous_lt : ∀ l ∈ previous, l.index < s.jobs.size
  not_reaches : ∀ l ∈ previous, ¬ Reaches s l.index group.index
  last_lt : ∀ l ∈ last, l.index < s.jobs.size

/-- A job has been added; only it and `group` have been made to wait for something. -/
structure Extended (s t : Scheduler) (group : Handle) : Prop where
  exact : t.Exact
  size_eq : t.jobs.size = s.jobs.size + 1
  phase_eq : ∀ j, (t.job j).phase = (s.job j).phase
  dependent : ∀ i d, t.DependsOn i d → s.DependsOn i d ∨ i = group.index ∨ s.jobs.size ≤ i

namespace Extended

variable {s t u : Scheduler} {group : Handle} {previous last : Option Handle}

theorem reaches_group (h : Extended s t group) (hexact : s.Exact) {i : Nat}
    (hi : i < s.jobs.size) (hpath : Reaches t i group.index) : Reaches s i group.index := by
  induction hpath using ReflTransGen.head_induction_on with
  | refl => exact .refl
  | @head i k hik _ ih =>
    rcases h.dependent i k hik with hold | rfl | hge
    · exact .head hold (ih (hexact.dependency_lt i k hold))
    · exact .refl
    · omega

theorem preparing (h : Extended s t group) (hs : Preparing s previous group last)
    {last' : Option Handle} (hlast : ∀ l ∈ last', l.index < t.jobs.size) :
    Preparing t previous group last' := by
  have hsize := h.size_eq
  refine ⟨h.exact, ?_, ?_, ?_, ?_, hlast⟩
  · have hlt := hs.group_lt
    omega
  · rw [h.phase_eq]
    exact hs.group_created
  · intro l hl
    have hlt := hs.previous_lt l hl
    omega
  · exact fun l hl hpath =>
      hs.not_reaches l hl (h.reaches_group hs.exact (hs.previous_lt l hl) hpath)

theorem wait (h : Extended s t group) {i : Nat} {ds : List Nat} (hwaits : Waits t u i ds)
    (hi : i = group.index ∨ s.jobs.size ≤ i) : Extended s u group where
  exact := hwaits.exact
  size_eq := by rw [hwaits.size_eq, h.size_eq]
  phase_eq j := by rw [hwaits.phase_eq, h.phase_eq]
  dependent j k hjk := by
    rcases (hwaits.dependsOn_iff j k).1 hjk with hold | ⟨rfl, -⟩
    · exact h.dependent j k hold
    · exact .inr hi

end Extended

/-- A new job can be made to wait for others, and nothing waits for it. -/
theorem newJob_succeeds {previous : Option Handle} {s : Scheduler} (hexact : s.Exact)
    (hprevious : ∀ l ∈ previous, l.index < s.jobs.size) (group : Handle) :
    ∃ t, (waitForOption ⟨s.jobs.size⟩ previous).run s.create.2 = .ok ((), t) ∧
      Extended s t group ∧ AddsOnly (indices previous) s t ∧ Unneeded t s.jobs.size ∧
      ∀ d, t.DependsOn s.jobs.size d → d ∈ indices previous := by
  have hunneeded : Unneeded s.create.2 s.jobs.size := by
    intro i hi
    rw [dependsOn_create] at hi
    exact unneeded_of_size_le hexact (Nat.le_refl _) i hi
  obtain ⟨t, hrun, hwaits⟩ := waitForOption_succeeds (i := ⟨s.jobs.size⟩) (d := previous)
    hexact.create (by simp) (fun l hl => by have hlt := hprevious l hl; simp; omega)
    (by rw [Scheduler.job_create]; exact created_of_size_le (Nat.le_refl _))
    fun l hl => hunneeded.not_reaches (Nat.ne_of_lt (hprevious l hl))
  have hcreated : Extended s s.create.2 group :=
    ⟨hexact.create, Scheduler.size_create s, fun j => by rw [Scheduler.job_create],
      fun i d hd => .inl (dependsOn_create s ▸ hd)⟩
  refine ⟨t, hrun, hcreated.wait hwaits (.inr (Nat.le_refl _)), ?_, fun i hi => ?_, fun d hd => ?_⟩
  · exact (addsOnly_create _ s).trans (hwaits.addsOnly fun d hd => .inl hd) (by simp)
      fun d hd => .inl hd
  · rcases (hwaits.dependsOn_iff i _).1 hi with hold | ⟨-, hmem⟩
    · exact hunneeded i hold
    · obtain ⟨l, hl, heq⟩ := mem_indices.1 hmem
      have hlt := hprevious l hl
      omega
  · rcases (hwaits.dependsOn_iff _ d).1 hd with hold | ⟨-, hmem⟩
    · rw [dependsOn_create] at hold
      exact absurd (Scheduler.lt_size_of_dependsOn hold) (Nat.lt_irrefl _)
    · exact hmem

theorem parallelTask_succeeds {previous last : Option Handle} {group : Handle} {s : Scheduler}
    (h : Preparing s previous group last) :
    ∃ t u, (waitForOption ⟨s.jobs.size⟩ previous).run s.create.2 = .ok ((), t) ∧
      (waitFor group ⟨s.jobs.size⟩).run t = .ok ((), u) ∧ Extended s u group ∧
      AddsOnly (indices previous) s u := by
  obtain ⟨t, hrun, hextended, hadds, -, hdepends⟩ := newJob_succeeds h.exact h.previous_lt group
  have hgroup := h.group_lt
  have hsize := hextended.size_eq
  -- A path from the new job to `group` would lead through a job that the stage waits for.
  have hpath : ¬ Reaches t s.jobs.size group.index := by
    intro hpath
    rcases ReflTransGen.cases_head hpath with heq | ⟨k, hk, hpath⟩
    · omega
    · obtain ⟨l, hl, rfl⟩ := mem_indices.1 (hdepends k hk)
      exact h.not_reaches l hl (hextended.reaches_group h.exact (h.previous_lt l hl) hpath)
  obtain ⟨u, hrun', hwaits⟩ := waitFor_succeeds (i := group) (d := ⟨s.jobs.size⟩) hextended.exact
    (by omega) (by simp [hsize]) (by rw [hextended.phase_eq]; exact h.group_created) hpath
  refine ⟨t, u, hrun, hrun', hextended.wait hwaits (.inl rfl), ?_⟩
  exact hadds.trans (hwaits.addsOnly fun d hd => .inl hd) (by omega) (by simp)

theorem sequentialTask_succeeds {previous last : Option Handle} {group : Handle} {s : Scheduler}
    (h : Preparing s previous group last) :
    ∃ t u v, (waitForOption ⟨s.jobs.size⟩ previous).run s.create.2 = .ok ((), t) ∧
      (waitFor ⟨s.jobs.size⟩ group).run t = .ok ((), u) ∧
      (waitForOption ⟨s.jobs.size⟩ last).run u = .ok ((), v) ∧ Extended s v group ∧
      AddsOnly (group.index :: (indices previous ++ indices last)) s v := by
  obtain ⟨t, hrun, hextended, hadds, hunneeded, -⟩ :=
    newJob_succeeds h.exact h.previous_lt group
  have hgroup := h.group_lt
  have hsize := hextended.size_eq
  have hcreated : (t.job s.jobs.size).phase = .created := by
    rw [hextended.phase_eq]
    exact created_of_size_le (Nat.le_refl _)
  obtain ⟨u, hrun', hwaits⟩ := waitFor_succeeds (i := ⟨s.jobs.size⟩) (d := group) hextended.exact
    (by simp [hsize]) (by omega) hcreated (hunneeded.not_reaches (by omega))
  have haddsGroup : AddsOnly [group.index] t u := hwaits.addsOnly fun d hd => .inl hd
  have hunneeded' : Unneeded u s.jobs.size :=
    haddsGroup.unneeded hunneeded (by omega) (by simp; omega)
  have hextended' := hextended.wait hwaits (.inr (Nat.le_refl _))
  obtain ⟨v, hrun'', hwaits'⟩ := waitForOption_succeeds (i := ⟨s.jobs.size⟩) (d := last)
    hwaits.exact (by simp [hextended'.size_eq])
    (fun l hl => by have hlt := h.last_lt l hl; have hlt' := hextended'.size_eq; omega)
    (by rw [hwaits.phase_eq]; exact hcreated)
    fun l hl => hunneeded'.not_reaches (Nat.ne_of_lt (h.last_lt l hl))
  refine ⟨t, u, v, hrun, hrun', hrun'', hextended'.wait hwaits' (.inr (Nat.le_refl _)), ?_⟩
  have haddsLast : AddsOnly (indices last) u v := hwaits'.addsOnly fun d hd => .inl hd
  have hfirst : AddsOnly (group.index :: (indices previous ++ indices last)) s t :=
    hadds.mono fun d hd => List.mem_cons_of_mem _ (List.mem_append_left _ hd)
  have hsecond := hfirst.trans haddsGroup (by omega) fun d hd => .inl (by simp_all)
  exact hsecond.trans haddsLast (by rw [hextended'.size_eq]; omega) fun d hd =>
    .inl (List.mem_cons_of_mem _ (List.mem_append_right _ hd))

/-- Within a stage, `group` waits for the jobs of parallel tasks, and the job of a sequential task
for `group` and for those of the sequential tasks listed before it. -/
structure InOrder (t : Scheduler) (group : Handle) (assigned : Assigned ν) : Prop where
  parallel : ∀ x ∈ assigned, x.2.parallel = true → Reaches t group.index x.1
  sequential : ∀ x ∈ assigned, x.2.parallel = false → Reaches t x.1 group.index
  chain : assigned.Pairwise fun x y =>
    x.2.parallel = false → y.2.parallel = false → Reaches t y.1 x.1

namespace InOrder

variable {t u : Scheduler} {group : Handle} {assigned : Assigned ν} {x : Nat × Build.Task ν}

theorem mono (h : InOrder t group assigned) (hgrown : Grown t u) : InOrder u group assigned where
  parallel x hx hparallel := hgrown.reaches (h.parallel x hx hparallel)
  sequential x hx hsequential := hgrown.reaches (h.sequential x hx hsequential)
  chain := h.chain.imp fun hxy hx hy => hgrown.reaches (hxy hx hy)

theorem cons_parallel (h : InOrder t group assigned) (hx : x.2.parallel = true)
    (hgroup : Reaches t group.index x.1) : InOrder t group (x :: assigned) where
  parallel y hy hparallel := by
    rcases List.mem_cons.1 hy with rfl | hy
    · exact hgroup
    · exact h.parallel y hy hparallel
  sequential y hy hsequential := by
    rcases List.mem_cons.1 hy with rfl | hy
    · simp [hx] at hsequential
    · exact h.sequential y hy hsequential
  chain := List.pairwise_cons.2 ⟨fun y _ hnot => by simp [hx] at hnot, h.chain⟩

theorem cons_sequential (h : InOrder t group assigned) (hx : x.2.parallel = false)
    (hgroup : Reaches t x.1 group.index)
    (hbehind : ∀ y ∈ assigned, y.2.parallel = false → Reaches t y.1 x.1) :
    InOrder t group (x :: assigned) where
  parallel y hy hparallel := by
    rcases List.mem_cons.1 hy with rfl | hy
    · simp [hx] at hparallel
    · exact h.parallel y hy hparallel
  sequential y hy hsequential := by
    rcases List.mem_cons.1 hy with rfl | hy
    · exact hgroup
    · exact h.sequential y hy hsequential
  chain := List.pairwise_cons.2 ⟨fun y hy _ hy' => hbehind y hy hy', h.chain⟩

end InOrder

/-- The jobs of some tasks of a stage have been added, those of sequential tasks behind `last`; the
last of these is `last'`. -/
structure Added (s t : Scheduler) (previous : Option Handle) (group : Handle)
    (last last' : Option Handle) (assigned : Assigned ν) : Prop where
  size_eq : t.jobs.size = s.jobs.size + assigned.length
  addsOnly : AddsOnly (group.index :: (indices previous ++ indices last)) s t
  last_lt : ∀ l ∈ last', l.index < t.jobs.size
  last_new : ∀ l ∈ last', l ∈ last ∨ s.jobs.size ≤ l.index
  inOrder : InOrder t group assigned
  behind : ∀ l ∈ last, ∀ x ∈ assigned, x.2.parallel = false → Reaches t x.1 l.index

namespace Added

variable {s t u : Scheduler} {previous last last' : Option Handle} {group : Handle}
  {assigned : Assigned ν} {task : Build.Task ν}

theorem nil (h : Preparing s previous group last) :
    Added s s previous group last last ([] : Assigned ν) :=
  ⟨rfl, .refl _ _, h.last_lt, fun _ => .inl, ⟨by simp, by simp, .nil⟩, by simp⟩

theorem cons_parallel (h : Added u t previous group last last' assigned)
    (hextended : Extended s u group) (hadds : AddsOnly (indices previous) s u)
    (hgroup : Reaches t group.index s.jobs.size) (hparallel : task.parallel = true) :
    Added s t previous group last last' ((s.jobs.size, task) :: assigned) := by
  have hsize := hextended.size_eq
  have hadds' : AddsOnly (group.index :: (indices previous ++ indices last)) s u :=
    hadds.mono fun d hd => List.mem_cons_of_mem _ (List.mem_append_left _ hd)
  refine ⟨?_, hadds'.trans h.addsOnly (by omega) fun d hd => .inl hd, h.last_lt, ?_,
    h.inOrder.cons_parallel hparallel hgroup, ?_⟩
  · rw [h.size_eq, hsize, List.length_cons]
    omega
  · exact fun l hl => (h.last_new l hl).imp_right fun hge => by omega
  · intro l hl x hx hsequential
    rcases List.mem_cons.1 hx with rfl | hx
    · simp [hparallel] at hsequential
    · exact h.behind l hl x hx hsequential

theorem cons_sequential (h : Added u t previous group (some ⟨s.jobs.size⟩) last' assigned)
    (hextended : Extended s u group)
    (hadds : AddsOnly (group.index :: (indices previous ++ indices last)) s u)
    (hgroup : Reaches t s.jobs.size group.index)
    (hlast : ∀ l ∈ last, Reaches t s.jobs.size l.index) (hsequential : task.parallel = false) :
    Added s t previous group last last' ((s.jobs.size, task) :: assigned) := by
  have hsize := hextended.size_eq
  have hbehind := h.behind ⟨s.jobs.size⟩ rfl
  refine ⟨?_, hadds.trans h.addsOnly (by omega) fun d hd => ?_, h.last_lt, fun l hl => .inr ?_,
    h.inOrder.cons_sequential hsequential hgroup hbehind, ?_⟩
  · rw [h.size_eq, hsize, List.length_cons]
    omega
  · rcases List.mem_cons.1 hd with rfl | hd
    · exact .inl List.mem_cons_self
    · rcases List.mem_append.1 hd with hd | hd
      · exact .inl (List.mem_cons_of_mem _ (List.mem_append_left _ hd))
      · simp [indices] at hd
        exact .inr (by omega)
  · rcases h.last_new l hl with hold | hge
    · cases hold
      exact Nat.le_refl _
    · omega
  · intro l hl x hx hx'
    rcases List.mem_cons.1 hx with rfl | hx
    · exact hlast l hl
    · exact (hbehind x hx hx').trans (hlast l hl)

end Added

theorem planTasks_succeeds {previous : Option Handle} {group : Handle} {last : Option Handle}
    {s : Scheduler} (h : Preparing s previous group last) (ts : List (Build.Task ν)) :
    ∃ assigned last' t, (planTasks previous group last ts).run s = .ok ((assigned, last'), t) ∧
      Added s t previous group last last' assigned := by
  induction ts generalizing s last with
  | nil => exact ⟨[], last, s, rfl, .nil h⟩
  | cons task ts ih =>
    rw [planTasks]
    cases hparallel : task.parallel with
    | true =>
      obtain ⟨s₁, s₂, hwait, hgroup, hextended, hadds⟩ := parallelTask_succeeds h
      have hlast : ∀ l ∈ last, l.index < s₂.jobs.size := fun l hl => by
        have hlt := h.last_lt l hl
        have hsize := hextended.size_eq
        omega
      obtain ⟨assigned, last', t, hrun, hadded⟩ := ih (hextended.preparing h hlast)
      have hgrown := (planned_planTasks hrun).1.grown
      refine ⟨_, last', t, ?_, hadded.cons_parallel hextended hadds
        (hgrown.reaches (.single (grown_of_waitFor hgroup).2)) hparallel⟩
      refine run_bind_eq_ok.2 ⟨_, _, rfl, run_bind_eq_ok.2 ⟨_, _, hwait, ?_⟩⟩
      simp only [if_true]
      exact run_bind_eq_ok.2 ⟨_, _, hgroup, run_bind_eq_ok.2 ⟨_, _, hrun, rfl⟩⟩
    | false =>
      obtain ⟨s₁, s₂, s₃, hwait, hgroup, hchain, hextended, hadds⟩ := sequentialTask_succeeds h
      have hlast : ∀ l ∈ some (Handle.mk s.jobs.size), l.index < s₃.jobs.size := fun l hl => by
        cases hl
        simp [hextended.size_eq]
      obtain ⟨assigned, last', t, hrun, hadded⟩ := ih (hextended.preparing h hlast)
      have hgrown := (planned_planTasks hrun).1.grown
      obtain ⟨hgrown', hdependsLast⟩ := grown_of_waitForOption hchain
      refine ⟨_, last', t, ?_, hadded.cons_sequential hextended hadds
        ((hgrown'.trans hgrown).reaches (.single (grown_of_waitFor hgroup).2))
        (fun l hl => hgrown.reaches (.single (hdependsLast l hl))) hparallel⟩
      refine run_bind_eq_ok.2 ⟨_, _, rfl, run_bind_eq_ok.2 ⟨_, _, hwait, ?_⟩⟩
      simp only [Bool.false_eq_true, if_false]
      exact run_bind_eq_ok.2 ⟨_, _, hgroup, run_bind_eq_ok.2 ⟨_, _, hchain,
        run_bind_eq_ok.2 ⟨_, _, hrun, rfl⟩⟩⟩

/-- The jobs of a stage and of its group, before those of its tasks. -/
theorem openStage_succeeds {previous : Option Handle} {s : Scheduler} (hexact : s.Exact)
    (hprevious : ∀ l ∈ previous, l.index < s.jobs.size) :
    ∃ t u, (waitForOption ⟨s.jobs.size⟩ previous).run s.create.2.create.2 = .ok ((), t) ∧
      (waitForOption ⟨s.jobs.size + 1⟩ previous).run t = .ok ((), u) ∧
      Preparing u previous ⟨s.jobs.size + 1⟩ none ∧ u.jobs.size = s.jobs.size + 2 ∧
      (u.job s.jobs.size).phase = .created ∧ AddsOnly (indices previous) s u ∧
      Unneeded u s.jobs.size := by
  have hsize : s.create.2.create.2.jobs.size = s.jobs.size + 2 := by
    rw [Scheduler.size_create, Scheduler.size_create]
  have hcreated {j : Nat} (hj : s.jobs.size ≤ j) :
      (s.create.2.create.2.job j).phase = .created := by
    rw [Scheduler.job_create, Scheduler.job_create]
    exact created_of_size_le hj
  have hfresh {j : Nat} (hj : s.jobs.size ≤ j) : Unneeded s.create.2.create.2 j := by
    intro i hi
    rw [dependsOn_create, dependsOn_create] at hi
    exact unneeded_of_size_le hexact hj i hi
  have hnot {j : Nat} (hj : s.jobs.size ≤ j) : j ∉ indices previous := by
    rw [mem_indices]
    rintro ⟨l, hl, rfl⟩
    have hlt := hprevious l hl
    omega
  have hadds : AddsOnly (indices previous) s s.create.2.create.2 :=
    (addsOnly_create _ s).trans (addsOnly_create _ _) (by rw [Scheduler.size_create]; omega)
      fun d hd => .inl hd
  obtain ⟨t, hrun, hwaits, haddsStage⟩ := unneededWait_succeeds (i := ⟨s.jobs.size⟩)
    (d := previous) hexact.create.create (by rw [hsize]; simp) (hcreated (Nat.le_refl _))
    (hfresh (Nat.le_refl _)) fun l hl => by
      have hlt := hprevious l hl
      simp only [hsize]
      omega
  have hsize' : t.jobs.size = s.jobs.size + 2 := by rw [hwaits.size_eq, hsize]
  have hgroup : Unneeded t (s.jobs.size + 1) :=
    haddsStage.unneeded (hfresh (Nat.le_succ _)) (by omega) (hnot (Nat.le_succ _))
  obtain ⟨u, hrun', hwaits', haddsGroup⟩ := unneededWait_succeeds (i := ⟨s.jobs.size + 1⟩)
    (d := previous) hwaits.exact (by rw [hsize']; simp)
    (by rw [hwaits.phase_eq]; exact hcreated (Nat.le_succ _)) hgroup fun l hl => by
      have hlt := hprevious l hl
      simp only [hsize']
      omega
  have hsize'' : u.jobs.size = s.jobs.size + 2 := by rw [hwaits'.size_eq, hsize']
  have hphase {j : Nat} (hj : s.jobs.size ≤ j) : (u.job j).phase = .created := by
    rw [hwaits'.phase_eq, hwaits.phase_eq]
    exact hcreated hj
  have haddsBoth : AddsOnly (indices previous) s.create.2.create.2 u :=
    haddsStage.trans haddsGroup (by omega) fun d hd => .inl hd
  have hunneeded {j : Nat} (hj : s.jobs.size ≤ j) (hlt : j < s.jobs.size + 2) : Unneeded u j :=
    haddsBoth.unneeded (hfresh hj) (by omega) (hnot hj)
  refine ⟨t, u, hrun, hrun', ?_, hsize'', hphase (Nat.le_refl _),
    hadds.trans haddsBoth (by omega) fun d hd => .inl hd, hunneeded (Nat.le_refl _) (by omega)⟩
  refine ⟨hwaits'.exact, by simp only [hsize'']; omega, hphase (Nat.le_succ _), fun l hl => ?_,
    fun l hl => ?_, by simp⟩
  · have hlt := hprevious l hl
    omega
  · have hlt := hprevious l hl
    exact (hunneeded (Nat.le_succ _) (by omega)).not_reaches (by omega)

theorem planStage_succeeds {previous : Option Handle} {s : Scheduler} (hexact : s.Exact)
    (hprevious : ∀ l ∈ previous, l.index < s.jobs.size) (ts : List (Build.Task ν)) :
    ∃ stage assigned t, (planStage previous ts).run s = .ok ((stage, assigned), t) ∧
      t.jobs.size = s.jobs.size + 2 + ts.length ∧ AddsOnly (indices previous) s t ∧
      stage.index = s.jobs.size ∧ ∃ group, InOrder t group assigned := by
  obtain ⟨s₁, s₂, hrun₁, hrun₂, hpreparing, hsize₂, hcreated, hadds₂, hunneeded₂⟩ :=
    openStage_succeeds hexact hprevious
  obtain ⟨assigned, last, s₃, hrun₃, hadded⟩ := planTasks_succeeds hpreparing ts
  have hplanned := (planned_planTasks hrun₃).1
  have hgrown := hplanned.grown
  have hsize₃ : s₃.jobs.size = s₂.jobs.size + ts.length := by
    rw [hadded.size_eq, ← hplanned.tasks_eq, List.length_map]
  have hnot : s.jobs.size ∉ indices previous := by
    rw [mem_indices]
    rintro ⟨l, hl, heq⟩
    have hlt := hprevious l hl
    omega
  have hunneeded₃ : Unneeded s₃ s.jobs.size :=
    hadded.addsOnly.unneeded hunneeded₂ (by omega) (by simpa [indices] using hnot)
  have hphase₃ : (s₃.job s.jobs.size).phase = .created := by rw [hgrown.phase_eq, hcreated]
  -- The job of the stage is made to wait for its group and for the last of its sequential tasks.
  obtain ⟨s₄, hrun₄, h₄, hadds₄⟩ := unneededWait_succeeds (i := ⟨s.jobs.size⟩)
    (d := some ⟨s.jobs.size + 1⟩) (hgrown.exact hpreparing.exact) (by simp only; omega) hphase₃
    hunneeded₃ fun l hl => by
      cases hl
      simp only
      omega
  have hunneeded₄ : Unneeded s₄ s.jobs.size :=
    hadds₄.unneeded hunneeded₃ (by omega) (by simp [indices])
  have hbound (l) (hl : l ∈ last) : l.index < s₃.jobs.size ∧ s₂.jobs.size ≤ l.index :=
    ⟨hadded.last_lt l hl, (hadded.last_new l hl).resolve_left (by simp)⟩
  obtain ⟨s₅, hrun₅, h₅, hadds₅⟩ := unneededWait_succeeds (i := ⟨s.jobs.size⟩) (d := last)
    h₄.exact (by simp only [h₄.size_eq]; omega) (by rw [h₄.phase_eq]; exact hphase₃) hunneeded₄
    fun l hl => by
      have hl := hbound l hl
      simp only [h₄.size_eq]
      omega
  have hgrown' : Grown s₃ s₅ :=
    (grown_of_waitForOption hrun₄).1.trans (grown_of_waitForOption hrun₅).1
  refine ⟨⟨s.jobs.size⟩, assigned, s₅, ?_, ?_, ?_, rfl, _, hadded.inOrder.mono hgrown'⟩
  · rw [planStage]
    have hnew : newJob.run s.create.2 = .ok (⟨s.jobs.size + 1⟩, s.create.2.create.2) :=
      run_newJob_eq_ok.2 ⟨by rw [Scheduler.size_create], rfl⟩
    refine run_bind_eq_ok.2 ⟨_, _, rfl, run_bind_eq_ok.2 ⟨_, _, hnew, ?_⟩⟩
    refine run_bind_eq_ok.2 ⟨_, _, hrun₁, run_bind_eq_ok.2 ⟨_, _, hrun₂, ?_⟩⟩
    refine run_bind_eq_ok.2 ⟨_, _, hrun₃, run_bind_eq_ok.2 ⟨_, _, hrun₄, ?_⟩⟩
    exact run_bind_eq_ok.2 ⟨_, _, hrun₅, rfl⟩
  · rw [h₅.size_eq, h₄.size_eq, hsize₃, hsize₂]
  · have hsize₄ := h₄.size_eq
    refine ((hadds₂.trans hadded.addsOnly (by omega) fun d hd => ?_).trans hadds₄ (by omega)
      fun d hd => ?_).trans hadds₅ (by omega) fun d hd => ?_
    · simp only [indices, List.append_nil, Option.map_none, Option.toList_none, List.mem_cons] at hd
      exact hd.symm.imp_right fun heq => by omega
    · simp only [indices, Option.map_some, Option.toList_some, List.mem_singleton] at hd
      exact .inr (by omega)
    · obtain ⟨l, hl, rfl⟩ := mem_indices.1 hd
      have hge := (hbound l hl).2
      exact .inr (by omega)

/-- Tasks come in order: those of earlier stages before those of later ones, within a stage the
parallel ones before the sequential ones, and these in the order they are listed. -/
def Precedes (assigned : Assigned ν) (x y : Nat × Build.Task ν) : Prop :=
  x ∈ assigned ∧ y ∈ assigned ∧
    (x.2.stage.rank < y.2.stage.rank ∨ x.2.stage = y.2.stage ∧ y.2.parallel = false ∧
      (x.2.parallel = true ∨ [x, y].Sublist assigned))

/-- Within each stage, jobs come in order. -/
structure StageOrder (t : Scheduler) (assigned : Assigned ν) : Prop where
  parallel : ∀ x ∈ assigned, ∀ y ∈ assigned, x.2.stage = y.2.stage → x.2.parallel = true →
    y.2.parallel = false → Reaches t y.1 x.1
  chain : assigned.Pairwise fun x y => x.2.stage = y.2.stage →
    x.2.parallel = false → y.2.parallel = false → Reaches t y.1 x.1

theorem InOrder.stageOrder {t : Scheduler} {group : Handle} {assigned : Assigned ν}
    (h : InOrder t group assigned) : StageOrder t assigned where
  parallel x hx y hy _ hx' hy' := (h.sequential y hy hy').trans (h.parallel x hx hx')
  chain := h.chain.imp fun hxy _ hx hy => hxy hx hy

/-- Jobs of different stages are in order whatever jobs are. -/
theorem StageOrder.append {t : Scheduler} {a b : Assigned ν} (ha : StageOrder t a)
    (hb : StageOrder t b) (hne : ∀ x ∈ a, ∀ y ∈ b, x.2.stage ≠ y.2.stage) :
    StageOrder t (a ++ b) where
  parallel x hx y hy hstage hx' hy' := by
    rcases List.mem_append.1 hx with hx | hx <;> rcases List.mem_append.1 hy with hy | hy
    · exact ha.parallel x hx y hy hstage hx' hy'
    · exact absurd hstage (hne x hx y hy)
    · exact absurd hstage.symm (hne y hy x hx)
    · exact hb.parallel x hx y hy hstage hx' hy'
  chain := List.pairwise_append.2
    ⟨ha.chain, hb.chain, fun x hx y hy hstage => absurd hstage (hne x hx y hy)⟩

theorem StageOrder.mono {t u : Scheduler} {assigned : Assigned ν} (h : StageOrder t assigned)
    (hgrown : Grown t u) : StageOrder u assigned where
  parallel x hx y hy hstage hx' hy' := hgrown.reaches (h.parallel x hx y hy hstage hx' hy')
  chain := h.chain.imp fun hxy hstage hx hy => hgrown.reaches (hxy hstage hx hy)

theorem planStages_succeeds (tasks : List (Build.Task ν)) (previous : Option Handle)
    {stages : List Stage} {s : Scheduler} (hstages : stages.Pairwise fun a b => a.rank < b.rank)
    (hexact : s.Exact) (hprevious : ∀ l ∈ previous, l.index < s.jobs.size) :
    ∃ last assigned t, (planStages tasks previous stages).run s = .ok ((last, assigned), t) ∧
      t.jobs.size = s.jobs.size + 2 * stages.length +
        (stages.flatMap fun stage => tasks.filter fun t => t.stage = stage).length ∧
      AddsOnly (indices previous) s t ∧
      (∀ l ∈ last, l.index < t.jobs.size ∧ (l ∈ previous ∨ s.jobs.size ≤ l.index)) ∧
      StageOrder t assigned := by
  induction stages generalizing previous s with
  | nil =>
    exact ⟨previous, [], s, rfl, rfl, .refl _ _, fun l hl => ⟨hprevious l hl, .inl hl⟩,
      ⟨by simp, .nil⟩⟩
  | cons stage stages ih =>
    obtain ⟨hrank, hstages⟩ := List.pairwise_cons.1 hstages
    obtain ⟨job, first, s₁, hrun, hsize, hadds, hjob, group, horder⟩ :=
      planStage_succeeds hexact hprevious (tasks.filter fun t => t.stage = stage)
    obtain ⟨hplanned, -, -⟩ := planned_planStage hrun
    obtain ⟨last, rest, t, hrun', hsize', hadds', hlast, horder'⟩ := ih (some job)
      hstages (hplanned.grown.exact hexact) fun l hl => by
        cases hl
        omega
    obtain ⟨hplanned', -⟩ := planned_planStages hstages hrun'
    refine ⟨last, first ++ rest, t, ?_, ?_, ?_, ?_, ?_⟩
    · rw [planStages]
      exact run_bind_eq_ok.2 ⟨_, _, hrun, run_bind_eq_ok.2 ⟨_, _, hrun', rfl⟩⟩
    · rw [hsize', hsize, List.flatMap_cons, List.length_append, List.length_cons]
      omega
    · -- Later stages wait for the job of this one only, which is new.
      refine hadds.trans hadds' (by omega) fun d hd => ?_
      simp only [indices, Option.map_some, Option.toList_some, List.mem_singleton] at hd
      exact .inr (by omega)
    · intro l hl
      refine ⟨(hlast l hl).1, .inr ?_⟩
      rcases (hlast l hl).2 with hold | hge
      · cases hold
        omega
      · omega
    · refine (horder.stageOrder.mono hplanned'.grown).append horder' fun x hx y hy hstage => ?_
      have hlt := hrank _ (hplanned'.stage_mem hy)
      rw [← hstage, hplanned.stage_eq hx] at hlt
      exact Nat.lt_irrefl _ hlt

theorem perm_of_stages (tasks : List (Build.Task ν)) :
    (Stage.all.flatMap fun stage => tasks.filter fun t => t.stage = stage).Perm tasks := by
  induction tasks with
  | nil => simp
  | cons t ts ih =>
    simp only [Stage.all, List.flatMap_cons, List.flatMap_nil, List.append_nil] at ih ⊢
    cases hstage : t.stage <;>
      simp only [List.filter_cons, hstage, reduceCtorEq, decide_true, decide_false, if_true,
        Bool.false_eq_true, if_false]
    · exact ih.cons t
    · exact List.perm_middle.trans (ih.cons t)
    · rw [← List.append_assoc] at ih ⊢
      exact List.perm_middle.trans (ih.cons t)
    · rw [← List.append_assoc, ← List.append_assoc] at ih ⊢
      exact List.perm_middle.trans (ih.cons t)

/-- The graph of any tasks can be made, and the jobs of tasks come in order. -/
theorem plan_succeeds {s : Scheduler} (hexact : s.Exact) (tasks : List (Build.Task ν)) :
    ∃ root assigned t, (plan tasks).run s = .ok ((root, assigned), t) ∧
      t.jobs.size = s.jobs.size + 9 + tasks.length ∧
      ∀ x y, Precedes assigned x y → Reaches t y.1 x.1 := by
  obtain ⟨last, assigned, t, hrun, hsize, hadds, hlast, horder⟩ := planStages_succeeds
    tasks none (by decide : Stage.all.Pairwise _) hexact.create (by simp)
  have hgrown := (planned_planStages (by decide) hrun).1.grown
  rw [Scheduler.size_create] at hsize
  have hunneeded : Unneeded t s.jobs.size := by
    refine hadds.unneeded (fun i hi => ?_) (by simp) (by simp [indices])
    rw [dependsOn_create] at hi
    exact unneeded_of_size_le hexact (Nat.le_refl _) i hi
  obtain ⟨u, hrun', hwaits, -⟩ := unneededWait_succeeds (i := ⟨s.jobs.size⟩) (d := last)
    (hgrown.exact hexact.create) (by simp only; omega)
    (by rw [hgrown.phase_eq, Scheduler.job_create]; exact created_of_size_le (Nat.le_refl _))
    hunneeded fun l hl => by
      have hl := hlast l hl
      rw [Scheduler.size_create] at hl
      have hge := hl.2.resolve_left (by simp)
      simp only
      omega
  have hplan : (plan tasks).run s = .ok ((⟨s.jobs.size⟩, assigned), u) := by
    rw [plan]
    exact run_bind_eq_ok.2 ⟨_, _, rfl, run_bind_eq_ok.2 ⟨_, _, hrun,
      run_bind_eq_ok.2 ⟨_, _, hrun', rfl⟩⟩⟩
  obtain ⟨hplanned, -, -, hstages⟩ := planned_plan hplan
  have horder' := horder.mono (grown_of_waitForOption hrun').1
  refine ⟨_, assigned, u, hplan, ?_, ?_⟩
  · have hlength := (perm_of_stages tasks).length_eq
    have hall : Stage.all.length = 4 := rfl
    rw [hwaits.size_eq, hsize, hlength]
    omega
  · rintro x y ⟨hx, hy, hlt | ⟨hstage, hy', hx' | hsub⟩⟩
    · exact hstages x hx y hy hlt
    · exact horder'.parallel x hx y hy hstage hx' hy'
    · cases hx' : x.2.parallel with
      | true => exact horder'.parallel x hx y hy hstage hx' hy'
      | false => exact (List.pairwise_pair.1 (horder'.chain.sublist hsub)) hstage hx' hy'

end IncrementalBuild.Build
