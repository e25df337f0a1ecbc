import IncrementalBuild.Build.Stages
import IncrementalBuild.Proofs.Except
import IncrementalBuild.Proofs.Jobs.Drain

/-!
The graph of jobs that tasks are made into: the root waits for the jobs of all tasks, and the job of
a task waits for those of all tasks in earlier stages.
-/

namespace IncrementalBuild.Build

open Jobs Relation

/-- The first job waits for the second, or for one that waits for it. -/
abbrev Reaches (s : Scheduler) (i d : Nat) : Prop :=
  ReflTransGen s.DependsOn i d

/-- Jobs and dependencies have been added, and nothing else has changed. -/
structure Grown (s t : Scheduler) : Prop where
  exact : s.Exact → t.Exact
  size_le : s.jobs.size ≤ t.jobs.size
  phase_eq : ∀ j, (t.job j).phase = (s.job j).phase
  panicked_eq : ∀ j, (t.job j).panicked = (s.job j).panicked
  dependsOn : ∀ i d, s.DependsOn i d → t.DependsOn i d

namespace Grown

theorem refl (s : Scheduler) : Grown s s :=
  ⟨id, Nat.le_refl _, fun _ => rfl, fun _ => rfl, fun _ _ => id⟩

theorem trans {s t u : Scheduler} (h₁ : Grown s t) (h₂ : Grown t u) : Grown s u where
  exact hexact := h₂.exact (h₁.exact hexact)
  size_le := Nat.le_trans h₁.size_le h₂.size_le
  phase_eq j := (h₂.phase_eq j).trans (h₁.phase_eq j)
  panicked_eq j := (h₂.panicked_eq j).trans (h₁.panicked_eq j)
  dependsOn i d hd := h₂.dependsOn i d (h₁.dependsOn i d hd)

theorem reaches {s t : Scheduler} (h : Grown s t) {i d : Nat} (hpath : Reaches s i d) :
    Reaches t i d :=
  ReflTransGen.mono h.dependsOn _ _ hpath

theorem create (s : Scheduler) : Grown s s.create.2 where
  exact hexact := hexact.create
  size_le := by simp [Scheduler.create]
  phase_eq j := by rw [Scheduler.job_create]
  panicked_eq j := by rw [Scheduler.job_create]
  dependsOn i d hd := by
    simpa only [Scheduler.DependsOn, Graph.Edge, Scheduler.dependenciesOf,
      Scheduler.job_create] using hd

theorem link {s t : Scheduler} {i d : Nat} (h : s.Linking t i d) : Grown s t where
  exact := h.exact
  size_le := Nat.le_of_eq h.size_eq.symm
  phase_eq := h.phase_eq
  panicked_eq := h.panicked_eq
  dependsOn j k hd := (h.dependsOn_iff j k).2 (.inl hd)

end Grown

namespace Planning

variable {α β : Type}

theorem run_bind_eq_ok {x : Planning α} {f : α → Planning β} {s u : Scheduler} {b : β} :
    (x >>= f).run s = .ok (b, u) ↔
      ∃ a t, x.run s = .ok (a, t) ∧ (f a).run t = .ok (b, u) := by
  rw [StateT.run_bind, bind_eq_ok_iff, Prod.exists]

theorem run_pure_eq_ok {a b : α} {s t : Scheduler} :
    (pure a : Planning α).run s = .ok (b, t) ↔ a = b ∧ s = t := by
  rw [StateT.run_pure]
  simp [pure, Except.pure]

theorem run_newJob_eq_ok {h : Handle} {s t : Scheduler} :
    newJob.run s = .ok (h, t) ↔ h = ⟨s.jobs.size⟩ ∧ t = s.create.2 := by
  rw [show newJob.run s = .ok (s.create.1, s.create.2) from rfl, Except.ok.injEq, Prod.mk.injEq,
    eq_comm, @eq_comm _ s.create.2]
  rfl

theorem run_waitFor (i d : Handle) (s : Scheduler) :
    (waitFor i d).run s = s.addDependency i d >>= fun t => pure ((), t) := by
  unfold waitFor
  rw [StateT.run_bind, StateT.run_get, pure_bind, StateT.run_bind]
  cases s.addDependency i d <;> rfl

theorem grown_of_waitFor {i d : Handle} {s t : Scheduler} {u : Unit}
    (h : (waitFor i d).run s = .ok (u, t)) : Grown s t ∧ t.DependsOn i.index d.index := by
  rw [run_waitFor] at h
  obtain ⟨t', hadd, heq⟩ := bind_eq_ok_iff.1 h
  cases heq
  have hlinking := Scheduler.linking_of_addDependency hadd
  exact ⟨.link hlinking, (hlinking.dependsOn_iff _ _).2 (.inr ⟨rfl, rfl⟩)⟩

theorem grown_of_waitForOption {i : Handle} {d : Option Handle} {s t : Scheduler} {u : Unit}
    (h : (waitForOption i d).run s = .ok (u, t)) :
    Grown s t ∧ ∀ l ∈ d, t.DependsOn i.index l.index := by
  cases d with
  | none =>
    obtain ⟨-, rfl⟩ := run_pure_eq_ok.1 h
    exact ⟨.refl s, by simp⟩
  | some l =>
    obtain ⟨hgrown, hdepends⟩ := grown_of_waitFor h
    exact ⟨hgrown, by simpa using hdepends⟩

end Planning

open Planning

variable {ν : Type}

/-- The jobs of tasks have been added, each of which waits for `previous`. -/
structure Planned (previous : Option Handle) (tasks : List (Build.Task ν)) (s t : Scheduler)
    (assigned : Assigned ν) : Prop where
  grown : Grown s t
  tasks_eq : assigned.map Prod.snd = tasks
  index_ge : ∀ x ∈ assigned, s.jobs.size ≤ x.1
  index_lt : ∀ x ∈ assigned, x.1 < t.jobs.size
  nodup : (assigned.map Prod.fst).Nodup
  reaches_previous : ∀ x ∈ assigned, ∀ l ∈ previous, Reaches t x.1 l.index

namespace Planned

variable {previous : Option Handle} {s t u : Scheduler}

theorem nil (previous : Option Handle) (h : Grown s t) :
    Planned previous ([] : List (Build.Task ν)) s t [] where
  grown := h
  tasks_eq := rfl
  index_ge := by simp
  index_lt := by simp
  nodup := List.nodup_nil
  reaches_previous := by simp

theorem append {ts ts' : List (Build.Task ν)} {a a' : Assigned ν} (h : Planned previous ts s t a)
    (h' : Planned previous ts' t u a') : Planned previous (ts ++ ts') s u (a ++ a') where
  grown := h.grown.trans h'.grown
  tasks_eq := by rw [List.map_append, h.tasks_eq, h'.tasks_eq]
  index_ge x hx := by
    rcases List.mem_append.1 hx with hx | hx
    · exact h.index_ge x hx
    · exact Nat.le_trans h.grown.size_le (h'.index_ge x hx)
  index_lt x hx := by
    rcases List.mem_append.1 hx with hx | hx
    · exact Nat.lt_of_lt_of_le (h.index_lt x hx) h'.grown.size_le
    · exact h'.index_lt x hx
  nodup := by
    rw [List.map_append]
    refine List.nodup_append.2 ⟨h.nodup, h'.nodup, ?_⟩
    rintro i hi _ hi' rfl
    obtain ⟨x, hx, rfl⟩ := List.mem_map.1 hi
    obtain ⟨y, hy, heq⟩ := List.mem_map.1 hi'
    have hlt := h.index_lt x hx
    have hge := h'.index_ge y hy
    omega
  reaches_previous x hx l hl := by
    rcases List.mem_append.1 hx with hx | hx
    · exact h'.grown.reaches (h.reaches_previous x hx l hl)
    · exact h'.reaches_previous x hx l hl

/-- The job of one more task is put before the others. -/
theorem cons {task : Build.Task ν} {ts : List (Build.Task ν)} {a : Assigned ν} {i : Nat}
    (hgrown : Grown s t) (hge : s.jobs.size ≤ i) (hlt : i < t.jobs.size)
    (hprevious : ∀ l ∈ previous, Reaches t i l.index) (h : Planned previous ts t u a) :
    Planned previous (task :: ts) s u ((i, task) :: a) := by
  have hone : Planned previous [task] s t [(i, task)] := by
    refine ⟨hgrown, rfl, by simpa using hge, by simpa using hlt, by simp, ?_⟩
    rintro x hx l hl
    rw [List.mem_singleton] at hx
    subst hx
    exact hprevious l hl
  exact hone.append h

/-- What comes before may be fewer jobs, or have been made earlier. -/
theorem weaken {ts : List (Build.Task ν)} {a : Assigned ν} {earlier : Option Handle}
    (h : Planned previous ts t u a) (hgrown : Grown s t)
    (hreaches : ∀ l ∈ earlier, ∃ k ∈ previous, Reaches u k.index l.index) :
    Planned earlier ts s u a where
  grown := hgrown.trans h.grown
  tasks_eq := h.tasks_eq
  index_ge x hx := Nat.le_trans hgrown.size_le (h.index_ge x hx)
  index_lt := h.index_lt
  nodup := h.nodup
  reaches_previous x hx l hl := by
    obtain ⟨k, hk, hpath⟩ := hreaches l hl
    exact (h.reaches_previous x hx k hk).trans hpath

/-- Further jobs and dependencies change nothing about it. -/
theorem grow {ts : List (Build.Task ν)} {a : Assigned ν} (h : Planned previous ts s t a)
    (hgrown : Grown t u) : Planned previous ts s u a := by
  have happend := h.append (.nil previous hgrown)
  rwa [List.append_nil, List.append_nil] at happend

/-- Tasks of some stages have a stage that is one of them. -/
theorem stage_mem {tasks : List (Build.Task ν)} {stages : List Stage} {a : Assigned ν}
    (h : Planned previous (stages.flatMap fun stage => tasks.filter fun t => t.stage = stage) s t a)
    {x : Nat × Build.Task ν} (hx : x ∈ a) : x.2.stage ∈ stages := by
  have hmem := List.mem_map_of_mem (f := Prod.snd) hx
  rw [h.tasks_eq] at hmem
  obtain ⟨b, hb, hmem⟩ := List.mem_flatMap.1 hmem
  have hxb : x.2.stage = b := by simpa using (List.mem_filter.1 hmem).2
  rwa [hxb]

/-- Tasks of one stage have that stage. -/
theorem stage_eq {tasks : List (Build.Task ν)} {stage : Stage} {a : Assigned ν}
    (h : Planned previous (tasks.filter fun t => t.stage = stage) s t a)
    {x : Nat × Build.Task ν} (hx : x ∈ a) : x.2.stage = stage := by
  have hone : Planned previous
      ([stage].flatMap fun stage => tasks.filter fun t => t.stage = stage) s t a := by
    rwa [List.flatMap_singleton]
  exact List.mem_singleton.1 (hone.stage_mem hx)

end Planned

/-- A new job that waits for `previous`. -/
theorem newJob_grown {previous : Option Handle} {job : Handle} {s t u : Scheduler} {x : Unit}
    (hjob : newJob.run s = .ok (job, t)) (hwait : (waitForOption job previous).run t = .ok (x, u)) :
    Grown s u ∧ job.index = s.jobs.size ∧ job.index < u.jobs.size ∧
      ∀ l ∈ previous, u.DependsOn job.index l.index := by
  obtain ⟨rfl, rfl⟩ := run_newJob_eq_ok.1 hjob
  obtain ⟨hgrown, hdepends⟩ := grown_of_waitForOption hwait
  refine ⟨(Grown.create s).trans hgrown, rfl, ?_, hdepends⟩
  have hsize := hgrown.size_le
  simp only [Scheduler.create, Array.size_push] at hsize
  exact hsize

/-- A job of a stage is behind the group, or behind the last of the sequential jobs. -/
def Behind (t : Scheduler) (group : Handle) (last : Option Handle) (i : Nat) : Prop :=
  Reaches t group.index i ∨ ∃ l ∈ last, Reaches t l.index i

theorem planned_planTasks {previous : Option Handle} {group : Handle} {last last' : Option Handle}
    {ts : List (Build.Task ν)} {s t : Scheduler} {assigned : Assigned ν}
    (h : (planTasks previous group last ts).run s = .ok ((assigned, last'), t)) :
    Planned previous ts s t assigned ∧ (∀ x ∈ assigned, Behind t group last' x.1) ∧
      ∀ l ∈ last, ∃ l' ∈ last', Reaches t l'.index l.index := by
  induction ts generalizing last s assigned with
  | nil =>
    obtain ⟨heq, rfl⟩ := run_pure_eq_ok.1 h
    cases heq
    exact ⟨.nil previous (.refl s), by simp, fun l hl => ⟨l, hl, .refl⟩⟩
  | cons task ts ih =>
    rw [planTasks] at h
    obtain ⟨job, s₁, hjob, h⟩ := run_bind_eq_ok.1 h
    obtain ⟨_, s₂, hwait, h⟩ := run_bind_eq_ok.1 h
    obtain ⟨hgrown, hindex, hlt, hprevious⟩ := newJob_grown hjob hwait
    have hge : s.jobs.size ≤ job.index := Nat.le_of_eq hindex.symm
    split at h
    · obtain ⟨_, s₃, hgroup, h⟩ := run_bind_eq_ok.1 h
      obtain ⟨⟨rest, last''⟩, s₄, hrest, h⟩ := run_bind_eq_ok.1 h
      obtain ⟨heq, rfl⟩ := run_pure_eq_ok.1 h
      cases heq
      obtain ⟨hgrown', hdepends⟩ := grown_of_waitFor hgroup
      obtain ⟨hplanned, hbehind, hlast⟩ := ih hrest
      refine ⟨.cons (hgrown.trans hgrown') hge (Nat.lt_of_lt_of_le hlt hgrown'.size_le) ?_ hplanned,
        ?_, hlast⟩
      · exact fun l hl => .single (hgrown'.dependsOn _ _ (hprevious l hl))
      · intro x hx
        rcases List.mem_cons.1 hx with rfl | hx
        · exact .inl (hplanned.grown.reaches (.single hdepends))
        · exact hbehind x hx
    · obtain ⟨_, s₃, hgroup, h⟩ := run_bind_eq_ok.1 h
      obtain ⟨_, s₄, hchain, h⟩ := run_bind_eq_ok.1 h
      obtain ⟨⟨rest, last''⟩, s₅, hrest, h⟩ := run_bind_eq_ok.1 h
      obtain ⟨heq, rfl⟩ := run_pure_eq_ok.1 h
      cases heq
      obtain ⟨hgrown', -⟩ := grown_of_waitFor hgroup
      obtain ⟨hgrown'', hdepends⟩ := grown_of_waitForOption hchain
      obtain ⟨hplanned, hbehind, hlast⟩ := ih hrest
      have hall := hgrown'.trans hgrown''
      refine ⟨.cons (hgrown.trans hall) hge (Nat.lt_of_lt_of_le hlt hall.size_le) ?_ hplanned,
        ?_, ?_⟩
      · exact fun l hl => .single (hall.dependsOn _ _ (hprevious l hl))
      · intro x hx
        rcases List.mem_cons.1 hx with rfl | hx
        · obtain ⟨l', hl', hpath⟩ := hlast job rfl
          exact .inr ⟨l', hl', hpath⟩
        · exact hbehind x hx
      · intro l hl
        obtain ⟨l', hl', hpath⟩ := hlast job rfl
        exact ⟨l', hl', hpath.tail (hplanned.grown.dependsOn _ _ (hdepends l hl))⟩

theorem planned_planStage {previous : Option Handle} {ts : List (Build.Task ν)} {s t : Scheduler}
    {stage : Handle} {assigned : Assigned ν}
    (h : (planStage previous ts).run s = .ok ((stage, assigned), t)) :
    Planned previous ts s t assigned ∧ (∀ x ∈ assigned, Reaches t stage.index x.1) ∧
      ∀ l ∈ previous, Reaches t stage.index l.index := by
  rw [planStage] at h
  obtain ⟨job, s₁, hjob, h⟩ := run_bind_eq_ok.1 h
  obtain ⟨group, s₂, hgroup, h⟩ := run_bind_eq_ok.1 h
  obtain ⟨_, s₃, hjobWaits, h⟩ := run_bind_eq_ok.1 h
  obtain ⟨_, s₄, hgroupWaits, h⟩ := run_bind_eq_ok.1 h
  obtain ⟨⟨planned, last⟩, s₅, htasks, h⟩ := run_bind_eq_ok.1 h
  obtain ⟨_, s₆, hbehindGroup, h⟩ := run_bind_eq_ok.1 h
  obtain ⟨_, s₇, hbehindLast, h⟩ := run_bind_eq_ok.1 h
  obtain ⟨heq, rfl⟩ := run_pure_eq_ok.1 h
  cases heq
  obtain ⟨-, rfl⟩ := run_newJob_eq_ok.1 hjob
  obtain ⟨-, rfl⟩ := run_newJob_eq_ok.1 hgroup
  obtain ⟨h₃, hprevious⟩ := grown_of_waitForOption hjobWaits
  obtain ⟨h₄, -⟩ := grown_of_waitForOption hgroupWaits
  obtain ⟨hplanned, hbehind, -⟩ := planned_planTasks htasks
  obtain ⟨h₆, hgroupDepends⟩ := grown_of_waitFor hbehindGroup
  obtain ⟨h₇, hlastDepends⟩ := grown_of_waitForOption hbehindLast
  have hbefore : Grown s s₄ := (((Grown.create s).trans (.create _)).trans h₃).trans h₄
  have hafter : Grown s₅ s₇ := h₆.trans h₇
  refine ⟨(hplanned.weaken hbefore fun l hl => ⟨l, hl, .refl⟩).grow hafter, ?_, ?_⟩
  · intro x hx
    rcases hbehind x hx with hpath | ⟨l, hl, hpath⟩
    · exact .head (h₇.dependsOn _ _ hgroupDepends) (hafter.reaches hpath)
    · exact .head (hlastDepends l hl) (hafter.reaches hpath)
  · intro l hl
    exact (h₄.trans (hplanned.grown.trans hafter)).reaches (.single (hprevious l hl))

/-- The place of a stage among all. -/
def Stage.rank : Stage → Nat
  | preBuild => 0
  | compile => 1
  | link => 2
  | postBuild => 3

theorem planned_planStages {tasks : List (Build.Task ν)} {previous last : Option Handle}
    {stages : List Stage} {s t : Scheduler} {assigned : Assigned ν}
    (hstages : stages.Pairwise fun a b => a.rank < b.rank)
    (h : (planStages tasks previous stages).run s = .ok ((last, assigned), t)) :
    Planned previous (stages.flatMap fun stage => tasks.filter fun t => t.stage = stage) s t
        assigned ∧
      (∀ x ∈ assigned, ∃ l ∈ last, Reaches t l.index x.1) ∧
      (∀ l ∈ previous, ∃ l' ∈ last, Reaches t l'.index l.index) ∧
      ∀ x ∈ assigned, ∀ y ∈ assigned, x.2.stage.rank < y.2.stage.rank → Reaches t y.1 x.1 := by
  induction stages generalizing previous s assigned with
  | nil =>
    obtain ⟨heq, rfl⟩ := run_pure_eq_ok.1 h
    cases heq
    exact ⟨.nil _ (.refl s), by simp, fun l hl => ⟨l, hl, .refl⟩, by simp⟩
  | cons stage stages ih =>
    obtain ⟨hrank, hstages⟩ := List.pairwise_cons.1 hstages
    rw [planStages] at h
    obtain ⟨⟨job, first⟩, s₁, hfirst, h⟩ := run_bind_eq_ok.1 h
    obtain ⟨⟨last', rest⟩, s₂, hrest, h⟩ := run_bind_eq_ok.1 h
    obtain ⟨heq, rfl⟩ := run_pure_eq_ok.1 h
    cases heq
    obtain ⟨hplanned, hbehind, hprevious⟩ := planned_planStage hfirst
    obtain ⟨hplanned', hlast, hjob, horder⟩ := ih hstages hrest
    have hgrown := hplanned'.grown
    obtain ⟨k, hk, hjob⟩ := hjob job rfl
    have hweak := hplanned'.weaken (.refl s₁) fun l hl =>
      ⟨job, rfl, hgrown.reaches (hprevious l hl)⟩
    have hstage (x) (hx : x ∈ first) : x.2.stage = stage := hplanned.stage_eq hx
    have hlater (x) (hx : x ∈ rest) : stage.rank < x.2.stage.rank :=
      hrank _ (hplanned'.stage_mem hx)
    refine ⟨hplanned.append hweak, ?_, ?_, ?_⟩
    · intro x hx
      rcases List.mem_append.1 hx with hx | hx
      · exact ⟨k, hk, hjob.trans (hgrown.reaches (hbehind x hx))⟩
      · exact hlast x hx
    · exact fun l hl => ⟨k, hk, hjob.trans (hgrown.reaches (hprevious l hl))⟩
    · intro x hx y hy hlt
      rcases List.mem_append.1 hx with hx | hx <;> rcases List.mem_append.1 hy with hy | hy
      · rw [hstage x hx, hstage y hy] at hlt
        omega
      · exact (hplanned'.reaches_previous y hy job rfl).trans (hgrown.reaches (hbehind x hx))
      · rw [hstage y hy] at hlt
        have hx := hlater x hx
        omega
      · exact horder x hx y hy hlt

/-- The root waits for the jobs of all tasks, and the job of a task for those of all tasks in
earlier stages. -/
theorem planned_plan {tasks : List (Build.Task ν)} {root : Handle} {s t : Scheduler}
    {assigned : Assigned ν} (h : (plan tasks).run s = .ok ((root, assigned), t)) :
    Planned none (Stage.all.flatMap fun stage => tasks.filter fun t => t.stage = stage) s t
        assigned ∧
      root.index = s.jobs.size ∧ (∀ x ∈ assigned, Reaches t root.index x.1) ∧
      ∀ x ∈ assigned, ∀ y ∈ assigned, x.2.stage.rank < y.2.stage.rank → Reaches t y.1 x.1 := by
  rw [plan] at h
  obtain ⟨job, s₁, hjob, h⟩ := run_bind_eq_ok.1 h
  obtain ⟨⟨last, planned⟩, s₂, hstages, h⟩ := run_bind_eq_ok.1 h
  obtain ⟨_, s₃, hwait, h⟩ := run_bind_eq_ok.1 h
  obtain ⟨heq, rfl⟩ := run_pure_eq_ok.1 h
  cases heq
  obtain ⟨rfl, rfl⟩ := run_newJob_eq_ok.1 hjob
  obtain ⟨hplanned, hlast, -, horder⟩ := planned_planStages (by decide) hstages
  obtain ⟨hgrown, hdepends⟩ := grown_of_waitForOption hwait
  refine ⟨(hplanned.weaken (.create s) (by simp)).grow hgrown, rfl, ?_, ?_⟩
  · intro x hx
    obtain ⟨l, hl, hpath⟩ := hlast x hx
    exact .head (hdepends l hl) (hgrown.reaches hpath)
  · exact fun x hx y hy hlt => hgrown.reaches (horder x hx y hy hlt)

end IncrementalBuild.Build
