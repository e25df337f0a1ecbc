import IncrementalBuild.Jobs.Scheduler
import IncrementalBuild.Proofs.Graph.Visit

/-!
How the operations of a scheduler change its jobs and their dependencies, and the bookkeeping of it:
`pending` counts what a job waits for, the lists of dependents mirror those of dependencies, and the
queue holds the jobs that can run. While a job that is done tells its dependents, those it did not
tell yet wait for one more entry than is unfinished.
-/

namespace IncrementalBuild.Jobs.Scheduler

open Relation

/-- A job that was enqueued, whether it has run or not. -/
def Enqueued (s : Scheduler) (i : Nat) : Prop :=
  (s.job i).phase ≠ .created

/-- A job that a worker has taken. -/
def Started (s : Scheduler) (i : Nat) : Prop :=
  (s.job i).phase = .running ∨ (s.job i).phase = .done

/-- The job `i` directly depends on the job `d`. -/
abbrev DependsOn (s : Scheduler) (i d : Nat) : Prop :=
  Graph.Edge s.dependenciesOf i d

/-- How many entries of a job's dependencies are not done. -/
def unfinished (s : Scheduler) (i : Nat) : Nat :=
  (s.dependenciesOf i).countP fun d => (s.job d).phase ≠ .done

theorem job_update (s : Scheduler) (i j : Nat) (f : Job → Job) :
    (s.update i f).job j = if i = j ∧ j < s.jobs.size then f (s.job j) else s.job j := by
  simp only [job, update, Array.getElem?_modify]
  by_cases hij : i = j
  · subst hij
    by_cases hi : i < s.jobs.size
    · simp [hi]
    · simp [hi]
  · simp [hij]

@[simp] theorem size_update (s : Scheduler) (i : Nat) (f : Job → Job) :
    (s.update i f).jobs.size = s.jobs.size := by
  simp [update]

@[simp] theorem ready_update (s : Scheduler) (i : Nat) (f : Job → Job) :
    (s.update i f).ready = s.ready := rfl

theorem job_of_size_le {s : Scheduler} {i : Nat} (hi : s.jobs.size ≤ i) : s.job i = .fresh := by
  simp [job, Array.getElem?_eq_none hi]

theorem lt_size_of_phase_ne {s : Scheduler} {i : Nat} (hi : (s.job i).phase ≠ .created) :
    i < s.jobs.size := by
  by_contra hnot
  exact hi (by rw [job_of_size_le (Nat.le_of_not_lt hnot)]; rfl)

theorem dependsOn_congr {s t : Scheduler} (h : t.dependenciesOf = s.dependenciesOf) :
    t.DependsOn = s.DependsOn := by
  funext i d
  rw [DependsOn, DependsOn, h]

theorem lt_size_of_dependsOn {s : Scheduler} {i d : Nat} (hd : s.DependsOn i d) :
    i < s.jobs.size := by
  by_contra hnot
  simp [DependsOn, Graph.Edge, dependenciesOf, job_of_size_le (Nat.le_of_not_lt hnot),
    Job.fresh] at hd

@[simp] theorem job_create (s : Scheduler) (i : Nat) : s.create.2.job i = s.job i := by
  simp only [job, create]
  by_cases hi : i < s.jobs.size
  · rw [Array.getElem?_push_lt hi, Array.getElem?_eq_getElem hi]
  · by_cases heq : i = s.jobs.size
    · simp [heq]
    · rw [Array.getElem?_eq_none (by simp; omega), Array.getElem?_eq_none (by omega)]

@[simp] theorem dependenciesOf_create (s : Scheduler) :
    s.create.2.dependenciesOf = s.dependenciesOf := by
  funext i
  rw [dependenciesOf, dependenciesOf, job_create]

@[simp] theorem size_create (s : Scheduler) : s.create.2.jobs.size = s.jobs.size + 1 := by
  simp [create]

theorem mem_enqueued {s : Scheduler} {i : Nat} : i ∈ s.enqueued ↔ s.Enqueued i := by
  simp only [enqueued, List.mem_filter, List.mem_range, decide_eq_true_eq, Enqueued]
  exact ⟨fun h => h.2, fun h => ⟨lt_size_of_phase_ne h, h⟩⟩

/-- Scheduling a list of jobs changes their phases and nothing else. -/
theorem job_schedule (added : List Nat) (s : Scheduler) (j : Nat)
    (hbound : ∀ i ∈ added, i < s.jobs.size) :
    (added.foldl (fun s i => s.update i fun j => { j with phase := .scheduled }) s).job j =
      if j ∈ added then { s.job j with phase := .scheduled } else s.job j := by
  induction added generalizing s with
  | nil => simp
  | cons i added ih =>
    have hi : i < s.jobs.size := hbound i List.mem_cons_self
    rw [List.foldl_cons, ih _ fun i hi => by simpa using hbound i (List.mem_cons_of_mem _ hi)]
    rw [job_update]
    by_cases hij : i = j
    · subst hij
      simp [hi]
    · have hne : j ≠ i := fun h => hij h.symm
      simp [hij, hne]

theorem size_schedule (added : List Nat) (s : Scheduler) :
    (added.foldl (fun s i => s.update i fun j => { j with phase := .scheduled }) s).jobs.size =
      s.jobs.size := by
  induction added generalizing s with
  | nil => rfl
  | cons i added ih => rw [List.foldl_cons, ih, size_update]

/-- The bookkeeping holds, except that the jobs of `owed` are still to be told, once for each time
they are listed, that a dependency of theirs is done. -/
structure Owing (s : Scheduler) (owed : List Nat) : Prop where
  dependency_lt : ∀ i d, s.DependsOn i d → d < s.jobs.size
  pending_eq : ∀ i, (s.job i).pending = s.unfinished i + owed.count i
  count_dependents : ∀ i d, (s.job d).phase ≠ .done →
    (s.job d).dependents.count i = (s.dependenciesOf i).count d
  ready_nodup : s.ready.Nodup
  mem_ready : ∀ i, i ∈ s.ready ↔ (s.job i).phase = .scheduled ∧ (s.job i).pending = 0
  enqueued_closed : ∀ i d, s.Enqueued i → s.DependsOn i d → s.Enqueued d
  started_after : ∀ i d, s.Started i → s.DependsOn i d → (s.job d).phase = .done
  /-- Dependencies have a lower rank, so there are no cycles. -/
  ranked : ∃ rank : Nat → Nat, ∀ i d, s.DependsOn i d → rank d < rank i

/-- The bookkeeping holds. -/
abbrev Exact (s : Scheduler) : Prop :=
  s.Owing []

namespace Owing

variable {s : Scheduler} {owed : List Nat}

theorem unfinished_eq_zero_iff (s : Scheduler) (i : Nat) :
    s.unfinished i = 0 ↔ ∀ d, s.DependsOn i d → (s.job d).phase = .done := by
  simp [unfinished, List.countP_eq_zero, DependsOn, Graph.Edge]

/-- No job transitively depends on itself. -/
theorem acyclic (h : s.Owing owed) (i : Nat) : ¬ TransGen s.DependsOn i i := by
  obtain ⟨rank, hrank⟩ := h.ranked
  have hlt : ∀ {x y}, TransGen s.DependsOn x y → rank y < rank x := by
    intro x y hpath
    induction hpath with
    | single hxy => exact hrank _ _ hxy
    | tail _ hyz ih => exact Nat.lt_trans (hrank _ _ hyz) ih
  exact fun hcycle => Nat.lt_irrefl _ (hlt hcycle)

theorem lt_size_of_mem_ready (h : s.Owing owed) {i : Nat} (hi : i ∈ s.ready) :
    i < s.jobs.size :=
  lt_size_of_phase_ne (by simp [((h.mem_ready i).1 hi).1])

theorem mem_closure_iff (h : s.Owing owed) {i x : Nat} (hi : i < s.jobs.size) :
    x ∈ s.closure i ↔ ReflTransGen s.DependsOn i x :=
  Graph.mem_closure_iff h.dependency_lt hi

end Owing

theorem exact_empty : Exact empty where
  dependency_lt i d hd := absurd (lt_size_of_dependsOn hd) (by simp [empty])
  pending_eq i := by simp [unfinished, dependenciesOf, job, empty, Job.fresh]
  count_dependents i d _ := by simp [dependenciesOf, job, empty, Job.fresh]
  ready_nodup := List.nodup_nil
  mem_ready i := by simp [job, empty, Job.fresh]
  enqueued_closed i d hi := absurd hi (by simp [Enqueued, job, empty, Job.fresh])
  started_after i d hi := absurd hi (by simp [Started, job, empty, Job.fresh])
  ranked := ⟨fun _ => 0, fun i d hd => absurd (lt_size_of_dependsOn hd) (by simp [empty])⟩

/-- What the bookkeeping is about, apart from the number of jobs and the queue, is a function of
the jobs. -/
theorem Owing.congr {s t : Scheduler} {owed : List Nat} (h : s.Owing owed)
    (hjob : ∀ i, t.job i = s.job i) (hready : t.ready = s.ready)
    (hsize : s.jobs.size ≤ t.jobs.size) : t.Owing owed := by
  have hdeps : t.dependenciesOf = s.dependenciesOf := by
    funext i
    simp [dependenciesOf, hjob]
  refine ⟨?_, ?_, ?_, ?_, ?_, ?_, ?_, ?_⟩
  · intro i d hd
    rw [DependsOn, hdeps] at hd
    exact Nat.lt_of_lt_of_le (h.dependency_lt i d hd) hsize
  · simpa only [hjob, unfinished, hdeps] using h.pending_eq
  · simpa only [hjob, hdeps] using h.count_dependents
  · simpa only [hready] using h.ready_nodup
  · simpa only [hready, hjob] using h.mem_ready
  · simpa only [Enqueued, hjob, DependsOn, hdeps] using h.enqueued_closed
  · simpa only [Started, hjob, DependsOn, hdeps] using h.started_after
  · simpa only [DependsOn, hdeps] using h.ranked

theorem Exact.create {s : Scheduler} (h : s.Exact) : s.create.2.Exact :=
  Owing.congr h (job_create s) rfl (by simp [Scheduler.create])

end IncrementalBuild.Jobs.Scheduler
