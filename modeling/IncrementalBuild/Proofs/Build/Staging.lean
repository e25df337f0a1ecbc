import IncrementalBuild.Proofs.Build.Plan

/-!
The jobs of stages. Besides those of its tasks, a stage has a job of its own and one of its group;
each of them waits for all jobs of the stages before.
-/

namespace IncrementalBuild.Build

open Jobs Relation Planning

variable {ν : Type}

/-- How many jobs a stage has. -/
def stageSize (tasks : List (Build.Task ν)) (stage : Stage) : Nat :=
  2 + (tasks.filter fun t => t.stage = stage).length

/-- A job is one of those that `stage` has, when the jobs of some stages are made from `start`
on. -/
def MadeFor (tasks : List (Build.Task ν)) : List Stage → Nat → Stage → Nat → Prop
  | [], _, _, _ => False
  | first :: stages, start, stage, j =>
    (stage = first ∧ start ≤ j ∧ j < start + stageSize tasks first) ∨
      MadeFor tasks stages (start + stageSize tasks first) stage j

/-- A job is one of those that a stage has, when the graph of some tasks is made from `first` on.
The root is made before those of stages. -/
def JobOf (first : Nat) (tasks : List (Build.Task ν)) (stage : Stage) (j : Nat) : Prop :=
  MadeFor tasks Stage.all (first + 1) stage j

section MadeFor

variable {tasks : List (Build.Task ν)} {stages : List Stage} {start j : Nat} {stage : Stage}

theorem MadeFor.mem (h : MadeFor tasks stages start stage j) : stage ∈ stages := by
  induction stages generalizing start with
  | nil => exact h.elim
  | cons first stages ih =>
    rcases h with ⟨rfl, -⟩ | h
    · exact List.mem_cons_self
    · exact List.mem_cons_of_mem _ (ih h)

theorem MadeFor.start_le (h : MadeFor tasks stages start stage j) : start ≤ j := by
  induction stages generalizing start with
  | nil => exact h.elim
  | cons first stages ih =>
    rcases h with ⟨-, hge, -⟩ | h
    · exact hge
    · have hge := ih h
      omega

theorem JobOf.first_lt {first : Nat} (h : JobOf first tasks stage j) : first < j :=
  MadeFor.start_le h

end MadeFor

section Plan

variable {previous : Option Handle} {group : Handle} {last last' : Option Handle}
  {s t : Scheduler} {assigned : Assigned ν}

theorem size_of_waitFor {i d : Handle} {u : Unit} (h : (waitFor i d).run s = .ok (u, t)) :
    t.jobs.size = s.jobs.size := by
  rw [run_waitFor] at h
  obtain ⟨t', hadd, heq⟩ := bind_eq_ok_iff.1 h
  cases heq
  exact (Scheduler.linking_of_addDependency hadd).size_eq

theorem size_of_waitForOption {i : Handle} {d : Option Handle} {u : Unit}
    (h : (waitForOption i d).run s = .ok (u, t)) : t.jobs.size = s.jobs.size := by
  cases d with
  | none =>
    obtain ⟨-, rfl⟩ := run_pure_eq_ok.1 h
    rfl
  | some d => exact size_of_waitFor h

/-- The jobs of tasks are made one after another. -/
theorem map_fst_planTasks {ts : List (Build.Task ν)}
    (h : (planTasks previous group last ts).run s = .ok ((assigned, last'), t)) :
    assigned.map Prod.fst = List.range' s.jobs.size ts.length ∧
      t.jobs.size = s.jobs.size + ts.length := by
  induction ts generalizing last s assigned with
  | nil =>
    obtain ⟨heq, rfl⟩ := run_pure_eq_ok.1 h
    cases heq
    exact ⟨rfl, rfl⟩
  | cons task ts ih =>
    rw [planTasks] at h
    obtain ⟨job, s₁, hjob, hrun⟩ := run_bind_eq_ok.1 h
    obtain ⟨rfl, rfl⟩ := run_newJob_eq_ok.1 hjob
    obtain ⟨_, s₂, hwait, hrun⟩ := run_bind_eq_ok.1 hrun
    have hsize := size_of_waitForOption hwait
    rw [Scheduler.size_create] at hsize
    have hstep {s' : Scheduler} {rest : Assigned ν} (hs' : s'.jobs.size = s₂.jobs.size)
        (hrest : rest.map Prod.fst = List.range' s'.jobs.size ts.length ∧
          t.jobs.size = s'.jobs.size + ts.length) :
        ((s.jobs.size, task) :: rest).map Prod.fst =
            List.range' s.jobs.size (task :: ts).length ∧
          t.jobs.size = s.jobs.size + (task :: ts).length := by
      obtain ⟨hmap, ht⟩ := hrest
      rw [hs', hsize] at hmap ht
      rw [List.map_cons, hmap, List.length_cons, List.range'_succ]
      exact ⟨rfl, by omega⟩
    split at hrun
    · obtain ⟨_, s₃, hgroup, hrun⟩ := run_bind_eq_ok.1 hrun
      obtain ⟨⟨rest, last''⟩, s₄, hrest, hrun⟩ := run_bind_eq_ok.1 hrun
      obtain ⟨heq, rfl⟩ := run_pure_eq_ok.1 hrun
      cases heq
      exact hstep (size_of_waitFor hgroup) (ih hrest)
    · obtain ⟨_, s₃, hgroup, hrun⟩ := run_bind_eq_ok.1 hrun
      obtain ⟨_, s₄, hchain, hrun⟩ := run_bind_eq_ok.1 hrun
      obtain ⟨⟨rest, last''⟩, s₅, hrest, hrun⟩ := run_bind_eq_ok.1 hrun
      obtain ⟨heq, rfl⟩ := run_pure_eq_ok.1 hrun
      cases heq
      exact hstep ((size_of_waitForOption hchain).trans (size_of_waitFor hgroup)) (ih hrest)

/-- All jobs that are made for a stage come before its own, and behind `previous`. -/
theorem planStage_jobs {ts : List (Build.Task ν)} {stage : Handle}
    (h : (planStage previous ts).run s = .ok ((stage, assigned), t)) :
    t.jobs.size = s.jobs.size + (2 + ts.length) ∧
      ∀ j, s.jobs.size ≤ j → j < t.jobs.size →
        Reaches t stage.index j ∧ ∀ l ∈ previous, Reaches t j l.index := by
  obtain ⟨hplanned, hbehind, hprevious⟩ := planned_planStage h
  rw [planStage] at h
  obtain ⟨job, s₁, hjob, hrun⟩ := run_bind_eq_ok.1 h
  obtain ⟨rfl, rfl⟩ := run_newJob_eq_ok.1 hjob
  obtain ⟨group, s₂, hgroup, hrun⟩ := run_bind_eq_ok.1 hrun
  obtain ⟨rfl, rfl⟩ := run_newJob_eq_ok.1 hgroup
  obtain ⟨_, s₃, hjobWaits, hrun⟩ := run_bind_eq_ok.1 hrun
  obtain ⟨_, s₄, hgroupWaits, hrun⟩ := run_bind_eq_ok.1 hrun
  obtain ⟨⟨planned, last⟩, s₅, htasks, hrun⟩ := run_bind_eq_ok.1 hrun
  obtain ⟨_, s₆, hbehindGroup, hrun⟩ := run_bind_eq_ok.1 hrun
  obtain ⟨_, s₇, hbehindLast, hrun⟩ := run_bind_eq_ok.1 hrun
  obtain ⟨heq, rfl⟩ := run_pure_eq_ok.1 hrun
  cases heq
  obtain ⟨-, hgroupPrevious⟩ := grown_of_waitForOption hgroupWaits
  obtain ⟨h₆, hgroupDepends⟩ := grown_of_waitFor hbehindGroup
  obtain ⟨h₇, -⟩ := grown_of_waitForOption hbehindLast
  obtain ⟨hindices, hsize₅⟩ := map_fst_planTasks htasks
  have hgrown : Grown s₄ s₇ := (planned_planTasks htasks).1.grown.trans (h₆.trans h₇)
  have hsize₄ : s₄.jobs.size = s.jobs.size + 2 := by
    rw [size_of_waitForOption hgroupWaits, size_of_waitForOption hjobWaits,
      Scheduler.size_create, Scheduler.size_create]
  have hsize₇ : s₇.jobs.size = s₅.jobs.size := by
    rw [size_of_waitForOption hbehindLast, size_of_waitFor hbehindGroup]
  refine ⟨by omega, fun j hge hlt => ?_⟩
  have hcases : j = s.jobs.size ∨ j = s.jobs.size + 1 ∨ j ∈ assigned.map Prod.fst := by
    rw [hindices, List.mem_range'_1]
    omega
  rcases hcases with rfl | rfl | htask
  · exact ⟨.refl, hprevious⟩
  · rw [Scheduler.size_create] at hgroupDepends hgroupPrevious
    exact ⟨.single (h₇.dependsOn _ _ hgroupDepends),
      fun l hl => .single (hgrown.dependsOn _ _ (hgroupPrevious l hl))⟩
  · obtain ⟨x, hx, rfl⟩ := List.mem_map.1 htask
    exact ⟨hbehind x hx, hplanned.reaches_previous x hx⟩

theorem planStages_jobs {tasks : List (Build.Task ν)} {stages : List Stage}
    (hstages : stages.Pairwise fun a b => a.rank < b.rank)
    (h : (planStages tasks previous stages).run s = .ok ((last, assigned), t)) :
    (∀ x ∈ assigned, MadeFor tasks stages s.jobs.size x.2.stage x.1) ∧
      (∀ j, s.jobs.size ≤ j → j < t.jobs.size →
        ∃ stage, MadeFor tasks stages s.jobs.size stage j) ∧
      (∀ stage j, MadeFor tasks stages s.jobs.size stage j →
        ∀ l ∈ previous, Reaches t j l.index) ∧
      ∀ a b i j, a.rank < b.rank → MadeFor tasks stages s.jobs.size a i →
        MadeFor tasks stages s.jobs.size b j → i < j ∧ Reaches t j i := by
  induction stages generalizing previous s assigned with
  | nil =>
    obtain ⟨heq, rfl⟩ := run_pure_eq_ok.1 h
    cases heq
    exact ⟨by simp, by omega, fun _ _ h => h.elim, fun _ _ _ _ _ h => h.elim⟩
  | cons stage stages ih =>
    obtain ⟨hrank, hstages'⟩ := List.pairwise_cons.1 hstages
    rw [planStages] at h
    obtain ⟨⟨job, first⟩, s₁, hfirst, h⟩ := run_bind_eq_ok.1 h
    obtain ⟨⟨last', rest⟩, s₂, hrest, h⟩ := run_bind_eq_ok.1 h
    obtain ⟨heq, rfl⟩ := run_pure_eq_ok.1 h
    cases heq
    obtain ⟨hsize, hjobs⟩ := planStage_jobs hfirst
    obtain ⟨hplanned, -, hprevious⟩ := planned_planStage hfirst
    have hgrown := (planned_planStages hstages' hrest).1.grown
    have hnext : s₁.jobs.size = s.jobs.size + stageSize tasks stage := hsize
    obtain ⟨hassigned, hall, hlater, horder⟩ := ih hstages' hrest
    rw [hnext] at hassigned hall hlater horder
    have hhere {j : Nat} (hge : s.jobs.size ≤ j) (hlt : j < s.jobs.size + stageSize tasks stage) :=
      hjobs j hge (by omega)
    refine ⟨fun x hx => ?_, fun j hge hlt => ?_, fun b j hj => ?_, fun a b i j hlt hi hj => ?_⟩
    · rcases List.mem_append.1 hx with hx | hx
      · exact .inl ⟨hplanned.stage_eq hx, hplanned.index_ge x hx, hnext ▸ hplanned.index_lt x hx⟩
      · exact .inr (hassigned x hx)
    · by_cases hj : j < s.jobs.size + stageSize tasks stage
      · exact ⟨stage, .inl ⟨rfl, hge, hj⟩⟩
      · obtain ⟨b, hb⟩ := hall j (by omega) hlt
        exact ⟨b, .inr hb⟩
    · rcases hj with ⟨-, hge, hlt⟩ | hj
      · exact fun l hl => hgrown.reaches ((hhere hge hlt).2 l hl)
      · exact fun l hl => (hlater b j hj job rfl).trans (hgrown.reaches (hprevious l hl))
    · rcases hi with ⟨rfl, hge, hlt'⟩ | hi <;> rcases hj with ⟨rfl, hj⟩ | hj
      · exact absurd hlt (Nat.lt_irrefl _)
      · have hle := hj.start_le
        exact ⟨by omega, (hlater b j hj job rfl).trans (hgrown.reaches (hhere hge hlt').1)⟩
      · have hgt := hrank a hi.mem
        omega
      · exact horder a b i j hlt hi hj

/-- Every job but the root is one of a stage, that of a task one of its stage's, and the jobs of a
stage come behind all of the stages before. -/
theorem plan_jobs {tasks : List (Build.Task ν)} {root : Handle}
    (h : (plan tasks).run s = .ok ((root, assigned), t)) :
    (∀ x ∈ assigned, JobOf s.jobs.size tasks x.2.stage x.1) ∧
      (∀ j, s.jobs.size < j → j < t.jobs.size → ∃ stage, JobOf s.jobs.size tasks stage j) ∧
      ∀ a b i j, a.rank < b.rank → JobOf s.jobs.size tasks a i → JobOf s.jobs.size tasks b j →
        i < j ∧ Reaches t j i := by
  rw [plan] at h
  obtain ⟨job, s₁, hjob, hrun⟩ := run_bind_eq_ok.1 h
  obtain ⟨rfl, rfl⟩ := run_newJob_eq_ok.1 hjob
  obtain ⟨⟨last, planned⟩, s₂, hstages, hrun⟩ := run_bind_eq_ok.1 hrun
  obtain ⟨_, s₃, hwait, hrun⟩ := run_bind_eq_ok.1 hrun
  obtain ⟨heq, rfl⟩ := run_pure_eq_ok.1 hrun
  cases heq
  obtain ⟨hassigned, hall, -, horder⟩ := planStages_jobs (by decide) hstages
  rw [Scheduler.size_create] at hassigned hall horder
  have hgrown := (grown_of_waitForOption hwait).1
  have hsize := size_of_waitForOption hwait
  refine ⟨hassigned, fun j hgt hlt => hall j hgt (by omega), fun a b i j hlt hi hj => ?_⟩
  exact (horder a b i j hlt hi hj).imp_right hgrown.reaches

end Plan

end IncrementalBuild.Build
