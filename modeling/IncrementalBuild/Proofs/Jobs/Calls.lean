import IncrementalBuild.Proofs.Jobs.Bookkeeping

/-!
The calls of a client: each one that is accepted changes the jobs as it should and keeps the
bookkeeping.
-/

namespace IncrementalBuild.Jobs.Scheduler

open Relation

/-- What changes when the job `i` is made to wait for `d`. -/
structure Linking (s t : Scheduler) (i d : Nat) : Prop where
  dependent_lt : i < s.jobs.size
  dependency_lt : d < s.jobs.size
  created : (s.job i).phase = .created
  not_mem_closure : i ∉ s.closure d
  size_eq : t.jobs.size = s.jobs.size
  ready_eq : t.ready = s.ready
  phase_eq : ∀ j, (t.job j).phase = (s.job j).phase
  dependencies_eq : ∀ j, t.dependenciesOf j =
    if j = i then s.dependenciesOf i ++ [d] else s.dependenciesOf j
  pending_eq : ∀ j, (t.job j).pending =
    if j = i ∧ (s.job d).phase ≠ .done then (s.job j).pending + 1 else (s.job j).pending
  dependents_eq : ∀ j, (t.job j).dependents =
    if j = d ∧ (s.job d).phase ≠ .done then (s.job j).dependents ++ [i] else (s.job j).dependents
  panicked_eq : ∀ j, (t.job j).panicked = (s.job j).panicked

theorem linking_of_addDependency {s t : Scheduler} {dependent dependency : Handle}
    (h : s.addDependency dependent dependency = .ok t) :
    s.Linking t dependent.index dependency.index := by
  unfold addDependency at h
  split at h
  · cases h
  next hdependent =>
  split at h
  · cases h
  next hdependency =>
  split at h
  · cases h
  next hcreated =>
  split at h
  · cases h
  next hclosure =>
  have hi : dependent.index < s.jobs.size := by simpa [holds] using hdependent
  have hd : dependency.index < s.jobs.size := by simpa [holds] using hdependency
  have hphase : (s.job dependent.index).phase = .created := by simpa using hcreated
  have hnot : dependent.index ∉ s.closure dependency.index := by simpa using hclosure
  split at h
  next hdone =>
    cases h
    refine ⟨hi, hd, hphase, hnot, by simp, by simp, ?_, ?_, ?_, ?_, ?_⟩ <;> intro j <;>
      simp only [dependenciesOf, job_update] <;> grind
  next hdone =>
    cases h
    refine ⟨hi, hd, hphase, hnot, by simp, by simp, ?_, ?_, ?_, ?_, ?_⟩ <;> intro j <;>
      simp only [dependenciesOf, job_update, size_update] <;> grind

/-- A dependency of a job that was not enqueued is accepted unless it closes a cycle. -/
theorem exists_addDependency {s : Scheduler} {dependent dependency : Handle}
    (hdependent : dependent.index < s.jobs.size) (hdependency : dependency.index < s.jobs.size)
    (hcreated : (s.job dependent.index).phase = .created)
    (hclosure : dependent.index ∉ s.closure dependency.index) :
    ∃ t, s.addDependency dependent dependency = .ok t := by
  unfold addDependency
  rw [if_neg (by simp [holds, hdependent]), if_neg (by simp [holds, hdependency]),
    if_neg (by simp [hcreated]), if_neg (by simpa using hclosure)]
  dsimp only
  split
  · exact ⟨_, rfl⟩
  · exact ⟨_, rfl⟩

theorem exists_enqueue {s : Scheduler} {root : Handle} (hroot : root.index < s.jobs.size) :
    ∃ t, s.enqueue root = .ok t := by
  unfold enqueue
  rw [if_neg (by simp [holds, hroot])]
  exact ⟨_, rfl⟩

namespace Linking

variable {s t : Scheduler} {i d : Nat}

theorem dependsOn_iff (h : s.Linking t i d) (j k : Nat) :
    t.DependsOn j k ↔ s.DependsOn j k ∨ j = i ∧ k = d := by
  simp only [DependsOn, Graph.Edge, h.dependencies_eq]
  by_cases hj : j = i
  · subst hj
    simp
  · simp [hj]

theorem dependsOn_of_enqueued (h : s.Linking t i d) {j k : Nat} (hj : t.Enqueued j)
    (hk : t.DependsOn j k) : s.DependsOn j k := by
  rcases (h.dependsOn_iff j k).1 hk with hold | ⟨rfl, -⟩
  · exact hold
  · exact absurd h.created (by simpa [Enqueued, h.phase_eq] using hj)

theorem unfinished_eq (h : s.Linking t i d) (j : Nat) :
    t.unfinished j =
      if j = i ∧ (s.job d).phase ≠ .done then s.unfinished j + 1 else s.unfinished j := by
  simp only [unfinished, h.phase_eq, h.dependencies_eq]
  by_cases hj : j = i
  · subst hj
    by_cases hd : (s.job d).phase = .done <;> simp [hd]
  · simp [hj]

/-- A job that a dependency is added to gets a rank above that of the dependency, and so do the
jobs that depend on it; the dependency is not among them. -/
theorem ranked (h : s.Linking t i d) (hexact : s.Exact) :
    ∃ rank : Nat → Nat, ∀ j k, t.DependsOn j k → rank k < rank j := by
  classical
  obtain ⟨rank, hrank⟩ := hexact.ranked
  have hacyclic : ¬ ReflTransGen s.DependsOn d i := fun hpath =>
    h.not_mem_closure ((hexact.mem_closure_iff h.dependency_lt).2 hpath)
  refine ⟨fun j => if ReflTransGen s.DependsOn j i then rank j + rank d + 1 else rank j, ?_⟩
  intro j k hjk
  dsimp only
  rcases (h.dependsOn_iff j k).1 hjk with hold | ⟨rfl, rfl⟩
  · have hlt := hrank j k hold
    by_cases hk : ReflTransGen s.DependsOn k i
    · rw [if_pos hk, if_pos (.head hold hk)]
      omega
    · rw [if_neg hk]
      split <;> omega
  · rw [if_neg hacyclic, if_pos .refl]
    omega

theorem exact (h : s.Linking t i d) (hexact : s.Exact) : t.Exact where
  dependency_lt j k hjk := by
    rw [h.size_eq]
    rcases (h.dependsOn_iff j k).1 hjk with hold | ⟨-, rfl⟩
    · exact hexact.dependency_lt j k hold
    · exact h.dependency_lt
  pending_eq j := by
    rw [h.pending_eq, h.unfinished_eq, hexact.pending_eq]
    split <;> simp
  count_dependents j k hk := by
    rw [h.phase_eq] at hk
    have hcount := hexact.count_dependents j k hk
    rw [h.dependents_eq, h.dependencies_eq]
    by_cases hj : j = i
    · by_cases hkd : k = d
      · subst hj hkd
        simp [hk, hcount]
      · subst hj
        simp [hkd, hcount, Ne.symm hkd]
    · by_cases hkd : k = d
      · subst hkd
        simp [hj, hk, hcount, Ne.symm hj]
      · simp [hj, hkd, hcount]
  ready_nodup := by simpa only [h.ready_eq] using hexact.ready_nodup
  mem_ready j := by
    rw [h.ready_eq, h.phase_eq, h.pending_eq, hexact.mem_ready]
    split
    next hj => simp [hj.1, h.created]
    next => rfl
  enqueued_closed j k hj hjk := by
    have hold := hexact.enqueued_closed j k
      (by simpa only [Enqueued, h.phase_eq] using hj) (h.dependsOn_of_enqueued hj hjk)
    simpa only [Enqueued, h.phase_eq] using hold
  started_after j k hj hjk := by
    have hj' : s.Started j := by simpa only [Started, h.phase_eq] using hj
    have henqueued : t.Enqueued j := by
      rcases hj with hj | hj <;> simp [Enqueued, hj]
    rw [h.phase_eq]
    exact hexact.started_after j k hj' (h.dependsOn_of_enqueued henqueued hjk)
  ranked := h.ranked hexact

end Linking

/-- What changes when a job is enqueued: `added` are the jobs that are scheduled. -/
structure Scheduling (s t : Scheduler) (root : Nat) (added : List Nat) : Prop where
  root_lt : root < s.jobs.size
  mem_added : ∀ j, j ∈ added ↔ ¬ s.Enqueued j ∧ ReflTransGen s.DependsOn root j
  nodup : added.Nodup
  size_eq : t.jobs.size = s.jobs.size
  job_eq : ∀ j, t.job j = if j ∈ added then { s.job j with phase := .scheduled } else s.job j
  ready_eq : t.ready = s.ready ++ added.filter fun j => (s.job j).pending = 0

theorem scheduling_of_enqueue {s t : Scheduler} {root : Handle} (hexact : s.Exact)
    (h : s.enqueue root = .ok t) : ∃ added, s.Scheduling t root.index added := by
  unfold enqueue at h
  split at h
  · cases h
  next hholds =>
  have hroot : root.index < s.jobs.size := by simpa [holds] using hholds
  cases h
  refine ⟨Graph.visit s.dependenciesOf s.jobs.size [root.index] s.enqueued, ?_⟩
  refine ⟨hroot, ?_, Graph.nodup_visit _ _, size_schedule _ _, ?_, rfl⟩
  · intro j
    rw [Graph.mem_visit_iff ?_ hexact.dependency_lt (by simpa using hroot), mem_enqueued]
    · simp
    · intro y z hy hyz
      exact mem_enqueued.2 (hexact.enqueued_closed y z (mem_enqueued.1 hy) hyz)
  · intro j
    exact job_schedule _ s j fun i hi => Graph.lt_of_mem_visit hi

namespace Scheduling

variable {s t : Scheduler} {root : Nat} {added : List Nat}

theorem dependenciesOf_eq (h : s.Scheduling t root added) :
    t.dependenciesOf = s.dependenciesOf := by
  funext j
  simp only [dependenciesOf, h.job_eq]
  split <;> rfl

theorem phase_eq (h : s.Scheduling t root added) (j : Nat) :
    (t.job j).phase = if j ∈ added then .scheduled else (s.job j).phase := by
  rw [h.job_eq]
  split <;> rfl

theorem pending_eq (h : s.Scheduling t root added) (j : Nat) :
    (t.job j).pending = (s.job j).pending := by
  rw [h.job_eq]
  split <;> rfl

theorem created_of_mem (h : s.Scheduling t root added) {j : Nat} (hj : j ∈ added) :
    (s.job j).phase = .created := by
  simpa [Enqueued] using ((h.mem_added j).1 hj).1

theorem done_iff (h : s.Scheduling t root added) (j : Nat) :
    (t.job j).phase = .done ↔ (s.job j).phase = .done := by
  rw [h.phase_eq]
  split
  next hj => simp [h.created_of_mem hj]
  next => rfl

theorem started_iff (h : s.Scheduling t root added) (j : Nat) : t.Started j ↔ s.Started j := by
  rw [Started, Started, h.phase_eq]
  split
  next hj => simp [h.created_of_mem hj]
  next => rfl

/-- Enqueuing a job enqueues what it transitively depends on, and nothing else. -/
theorem enqueued_iff (h : s.Scheduling t root added) (j : Nat) :
    t.Enqueued j ↔ s.Enqueued j ∨ ReflTransGen s.DependsOn root j := by
  rw [Enqueued, h.phase_eq]
  by_cases hold : s.Enqueued j
  · have hnot : j ∉ added := fun hj => ((h.mem_added j).1 hj).1 hold
    simp only [hnot, if_false, hold, true_or, iff_true]
    exact hold
  · have hadded : j ∈ added ↔ ReflTransGen s.DependsOn root j := by simp [h.mem_added, hold]
    by_cases hj : j ∈ added
    · simp [hj, hadded.1 hj]
    · simp only [hj, if_false, hold, false_or, hadded.not.1 hj, iff_false]
      exact hold

theorem exact (h : s.Scheduling t root added) (hexact : s.Exact) : t.Exact where
  dependency_lt := by
    rw [dependsOn_congr h.dependenciesOf_eq, h.size_eq]
    exact hexact.dependency_lt
  pending_eq j := by
    rw [h.pending_eq, hexact.pending_eq, unfinished, unfinished, h.dependenciesOf_eq]
    simp only [ne_eq, h.done_iff]
  count_dependents j k hk := by
    rw [ne_eq, h.done_iff] at hk
    rw [h.dependenciesOf_eq, ← hexact.count_dependents j k hk, h.job_eq]
    split <;> rfl
  ready_nodup := by
    rw [h.ready_eq]
    refine List.nodup_append.2 ⟨hexact.ready_nodup, h.nodup.filter _, ?_⟩
    rintro j hready _ hadded rfl
    have hscheduled := ((hexact.mem_ready j).1 hready).1
    have hcreated := h.created_of_mem (List.mem_filter.1 hadded).1
    simp [hscheduled] at hcreated
  mem_ready j := by
    rw [h.ready_eq, List.mem_append, List.mem_filter, hexact.mem_ready, h.phase_eq, h.pending_eq]
    by_cases hj : j ∈ added
    · simp [hj, h.created_of_mem hj]
    · simp [hj]
  enqueued_closed j k hj hjk := by
    rw [DependsOn, h.dependenciesOf_eq] at hjk
    rw [h.enqueued_iff] at hj ⊢
    rcases hj with hold | hpath
    · exact .inl (hexact.enqueued_closed j k hold hjk)
    · exact .inr (hpath.tail hjk)
  started_after j k hj hjk := by
    rw [DependsOn, h.dependenciesOf_eq] at hjk
    rw [h.done_iff]
    exact hexact.started_after j k ((h.started_iff j).1 hj) hjk
  ranked := by
    rw [dependsOn_congr h.dependenciesOf_eq]
    exact hexact.ranked

end Scheduling

end IncrementalBuild.Jobs.Scheduler
