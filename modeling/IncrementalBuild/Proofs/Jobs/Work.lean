import IncrementalBuild.Proofs.Jobs.Calls

/-!
What workers do: taking a job from the queue and telling the dependents of one that is done keep the
bookkeeping.
-/

namespace IncrementalBuild.Jobs.Scheduler

/-- What changes when a worker takes the job `i`. -/
structure Taking (s t : Scheduler) (i : Nat) : Prop where
  size_eq : t.jobs.size = s.jobs.size
  ready_eq : s.ready = i :: t.ready
  job_eq : ∀ j, t.job j =
    if i = j ∧ j < s.jobs.size then { s.job j with phase := .running } else s.job j

theorem taking_of_start? {s t : Scheduler} {i : Nat} (h : s.start? = some (i, t)) :
    s.Taking t i := by
  unfold start? at h
  split at h
  · cases h
  next rest hready =>
    cases h
    exact ⟨by simp, by simp [hready], fun j => job_update { s with ready := rest } i j _⟩

namespace Taking

variable {s t : Scheduler} {i : Nat}

theorem dependenciesOf_eq (h : s.Taking t i) : t.dependenciesOf = s.dependenciesOf := by
  funext j
  simp only [dependenciesOf, h.job_eq]
  split <;> rfl

theorem pending_eq (h : s.Taking t i) (j : Nat) : (t.job j).pending = (s.job j).pending := by
  rw [h.job_eq]
  split <;> rfl

/-- The job was scheduled, and all it depends on is done. -/
theorem scheduled (h : s.Taking t i) (hexact : s.Exact) :
    (s.job i).phase = .scheduled ∧ ∀ d, s.DependsOn i d → (s.job d).phase = .done := by
  have hready : i ∈ s.ready := by simp [h.ready_eq]
  obtain ⟨hphase, hpending⟩ := (hexact.mem_ready i).1 hready
  refine ⟨hphase, (Owing.unfinished_eq_zero_iff s i).1 ?_⟩
  have hcount := hexact.pending_eq i
  simp only [List.count_nil] at hcount
  omega

theorem phase_eq (h : s.Taking t i) (hexact : s.Exact) (j : Nat) :
    (t.job j).phase = if j = i then .running else (s.job j).phase := by
  rw [h.job_eq]
  by_cases hj : j = i
  · subst hj
    have hlt := lt_size_of_phase_ne (s := s) (i := j) (by simp [(h.scheduled hexact).1])
    simp [hlt]
  · simp [hj, Ne.symm hj]

theorem done_iff (h : s.Taking t i) (hexact : s.Exact) (j : Nat) :
    (t.job j).phase = .done ↔ (s.job j).phase = .done := by
  rw [h.phase_eq hexact]
  split
  next hj => simp [hj, (h.scheduled hexact).1]
  next => rfl

theorem enqueued_iff (h : s.Taking t i) (hexact : s.Exact) (j : Nat) :
    t.Enqueued j ↔ s.Enqueued j := by
  rw [Enqueued, Enqueued, h.phase_eq hexact]
  split
  next hj => simp [hj, (h.scheduled hexact).1]
  next => rfl

theorem exact (h : s.Taking t i) (hexact : s.Exact) : t.Exact where
  dependency_lt := by
    rw [dependsOn_congr h.dependenciesOf_eq, h.size_eq]
    exact hexact.dependency_lt
  pending_eq j := by
    rw [h.pending_eq, hexact.pending_eq, unfinished, unfinished, h.dependenciesOf_eq]
    simp only [ne_eq, h.done_iff hexact]
  count_dependents j k hk := by
    rw [ne_eq, h.done_iff hexact] at hk
    rw [h.dependenciesOf_eq, ← hexact.count_dependents j k hk, h.job_eq]
    split <;> rfl
  ready_nodup := (List.nodup_cons.1 (h.ready_eq ▸ hexact.ready_nodup)).2
  mem_ready j := by
    have hnodup := h.ready_eq ▸ hexact.ready_nodup
    have hmem := hexact.mem_ready j
    rw [h.ready_eq, List.mem_cons] at hmem
    rw [h.phase_eq hexact, h.pending_eq]
    by_cases hj : j = i
    · subst hj
      simp [(List.nodup_cons.1 hnodup).1]
    · simpa [hj] using hmem
  enqueued_closed j k hj hjk := by
    rw [DependsOn, h.dependenciesOf_eq] at hjk
    rw [h.enqueued_iff hexact] at hj ⊢
    exact hexact.enqueued_closed j k hj hjk
  started_after j k hj hjk := by
    rw [DependsOn, h.dependenciesOf_eq] at hjk
    rw [h.done_iff hexact]
    rw [Started, h.phase_eq hexact] at hj
    by_cases hji : j = i
    · subst hji
      exact (h.scheduled hexact).2 k hjk
    · exact hexact.started_after j k (by simpa [Started, hji] using hj) hjk
  ranked := by
    rw [dependsOn_congr h.dependenciesOf_eq]
    exact hexact.ranked

end Taking

/-- What changes when a job is told that a dependency of it is done. -/
theorem job_release (s : Scheduler) (i j : Nat) :
    (s.release i).job j =
      if i = j ∧ j < s.jobs.size then { s.job j with pending := (s.job j).pending - 1 }
      else s.job j := by
  have hupdate : (s.release i).job j =
      (s.update i fun j => { j with pending := j.pending - 1 }).job j := by
    unfold release
    dsimp only
    split <;> rfl
  rw [hupdate, job_update]

theorem dependenciesOf_release (s : Scheduler) (i : Nat) :
    (s.release i).dependenciesOf = s.dependenciesOf := by
  funext j
  simp only [dependenciesOf, job_release]
  split <;> rfl

theorem phase_release (s : Scheduler) (i j : Nat) :
    ((s.release i).job j).phase = (s.job j).phase := by
  rw [job_release]
  split <;> rfl

theorem size_release (s : Scheduler) (i : Nat) : (s.release i).jobs.size = s.jobs.size := by
  unfold release
  dsimp only
  split <;> simp

theorem ready_release (s : Scheduler) (i : Nat) :
    (s.release i).ready =
      if ((s.release i).job i).pending = 0 ∧ (s.job i).phase = .scheduled then s.ready ++ [i]
      else s.ready := by
  have hjob : (s.release i).job i =
      (s.update i fun j => { j with pending := j.pending - 1 }).job i := by
    rw [job_release, job_update]
  rw [← phase_release s i i, hjob, release]
  split <;> simp

/-- Telling one job keeps the bookkeeping, with one job fewer to tell. -/
theorem Owing.release {s : Scheduler} {i : Nat} {owed : List Nat} (h : s.Owing (i :: owed)) :
    (s.release i).Owing owed := by
  have hpositive : 0 < (s.job i).pending := by
    rw [h.pending_eq i, List.count_cons_self]
    omega
  have hlt : i < s.jobs.size := by
    by_contra hnot
    simp [job_of_size_le (Nat.le_of_not_lt hnot), Job.fresh] at hpositive
  have hpending : ∀ j, ((s.release i).job j).pending =
      if j = i then (s.job j).pending - 1 else (s.job j).pending := by
    intro j
    rw [job_release]
    by_cases hj : j = i
    · subst hj
      simp [hlt]
    · simp [hj, Ne.symm hj]
  refine ⟨?_, ?_, ?_, ?_, ?_, ?_, ?_, ?_⟩
  · rw [dependsOn_congr (dependenciesOf_release s i), size_release]
    exact h.dependency_lt
  · intro j
    have hold := h.pending_eq j
    rw [hpending, unfinished, dependenciesOf_release]
    simp only [phase_release]
    rw [unfinished] at hold
    by_cases hj : j = i
    · subst hj
      rw [List.count_cons_self] at hold
      rw [if_pos rfl]
      omega
    · rw [List.count_cons_of_ne (Ne.symm hj)] at hold
      rw [if_neg hj, hold]
  · intro j k hk
    rw [phase_release] at hk
    rw [dependenciesOf_release, ← h.count_dependents j k hk, job_release]
    split <;> rfl
  · rw [ready_release]
    split
    · refine List.nodup_append.2 ⟨h.ready_nodup, by simp, ?_⟩
      rintro j hj _ hi rfl
      rw [List.mem_singleton] at hi
      subst hi
      have := ((h.mem_ready j).1 hj).2
      omega
    · exact h.ready_nodup
  · intro j
    rw [ready_release, phase_release]
    have hmem := h.mem_ready j
    have hi : i ∉ s.ready := fun hi => by
      have := ((h.mem_ready i).1 hi).2
      omega
    by_cases hj : j = i
    · subst hj
      split
      next hruns => simp [hruns]
      next hwaits => exact iff_of_false hi fun hruns => hwaits ⟨hruns.2, hruns.1⟩
    · rw [hpending j, if_neg hj]
      split <;> simpa [hj] using hmem
  · intro j k hj hjk
    rw [DependsOn, dependenciesOf_release] at hjk
    rw [Enqueued, phase_release] at hj ⊢
    exact h.enqueued_closed j k hj hjk
  · intro j k hj hjk
    rw [DependsOn, dependenciesOf_release] at hjk
    rw [phase_release]
    exact h.started_after j k (by simpa only [Started, phase_release] using hj) hjk
  · rw [dependsOn_congr (dependenciesOf_release s i)]
    exact h.ranked

/-- Telling the first of the jobs that are owed it leaves the others to be told. -/
theorem Owing.foldl_release {s : Scheduler} {told owed : List Nat} (h : s.Owing (told ++ owed)) :
    (told.foldl Scheduler.release s).Owing owed := by
  induction told generalizing s with
  | nil => exact h
  | cons i told ih => exact ih h.release

theorem foldl_release_phase (owed : List Nat) (s : Scheduler) (j : Nat) :
    ((owed.foldl Scheduler.release s).job j).phase = (s.job j).phase := by
  induction owed generalizing s with
  | nil => rfl
  | cons i owed ih => rw [List.foldl_cons, ih, phase_release]

theorem foldl_release_dependenciesOf (owed : List Nat) (s : Scheduler) :
    (owed.foldl Scheduler.release s).dependenciesOf = s.dependenciesOf := by
  induction owed generalizing s with
  | nil => rfl
  | cons i owed ih => rw [List.foldl_cons, ih, dependenciesOf_release]

/-- The scheduler in which a job is marked as done, but its dependents are not told yet. -/
def markDone (s : Scheduler) (i : Nat) (panicked : Bool) : Scheduler :=
  s.update i fun j => { j with phase := .done, panicked, dependents := [] }

theorem finish_eq (s : Scheduler) (i : Nat) (panicked : Bool) :
    s.finish i panicked = (s.job i).dependents.foldl release (s.markDone i panicked) := rfl

theorem job_markDone {s : Scheduler} {i : Nat} (hi : i < s.jobs.size) (panicked : Bool) (j : Nat) :
    (s.markDone i panicked).job j =
      if j = i then { s.job j with phase := .done, panicked, dependents := [] } else s.job j := by
  rw [markDone, job_update]
  by_cases hj : j = i
  · subst hj
    simp [hi]
  · simp [hj, Ne.symm hj]

theorem phase_markDone {s : Scheduler} {i : Nat} (hi : i < s.jobs.size) (panicked : Bool)
    (j : Nat) :
    ((s.markDone i panicked).job j).phase = if j = i then .done else (s.job j).phase := by
  rw [job_markDone hi]
  split <;> rfl

theorem dependenciesOf_markDone (s : Scheduler) (i : Nat) (panicked : Bool) :
    (s.markDone i panicked).dependenciesOf = s.dependenciesOf := by
  funext j
  rw [dependenciesOf, markDone, job_update]
  split <;> rfl

theorem phase_finish {s : Scheduler} {i : Nat} (hi : i < s.jobs.size) (panicked : Bool) (j : Nat) :
    ((s.finish i panicked).job j).phase = if j = i then .done else (s.job j).phase := by
  rw [finish_eq, foldl_release_phase, phase_markDone hi]

theorem dependenciesOf_finish (s : Scheduler) (i : Nat) (panicked : Bool) :
    (s.finish i panicked).dependenciesOf = s.dependenciesOf := by
  rw [finish_eq, foldl_release_dependenciesOf, dependenciesOf_markDone]

theorem size_finish (s : Scheduler) (i : Nat) (panicked : Bool) :
    (s.finish i panicked).jobs.size = s.jobs.size := by
  have hfold (owed : List Nat) (s : Scheduler) :
      (owed.foldl release s).jobs.size = s.jobs.size := by
    induction owed generalizing s with
    | nil => rfl
    | cons j owed ih => rw [List.foldl_cons, ih, size_release]
  rw [finish_eq, hfold, markDone, size_update]

theorem panicked_finish {s : Scheduler} {i : Nat} (hi : i < s.jobs.size) (panicked : Bool)
    (j : Nat) : ((s.finish i panicked).job j).panicked =
      if j = i then panicked else (s.job j).panicked := by
  have hfold (owed : List Nat) (s : Scheduler) :
      ((owed.foldl release s).job j).panicked = (s.job j).panicked := by
    induction owed generalizing s with
    | nil => rfl
    | cons k owed ih =>
      rw [List.foldl_cons, ih, job_release]
      split <;> rfl
  rw [finish_eq, hfold, job_markDone hi]
  split <;> rfl

/-- A job that is marked as done no longer counts for those that depend on it. -/
private theorem countP_not_done (f g : Nat → Phase) (i : Nat) (ds : List Nat)
    (hi : f i ≠ .done) (hg : ∀ j, g j = if j = i then .done else f j) :
    ds.countP (fun d => decide (f d ≠ .done)) =
      ds.countP (fun d => decide (g d ≠ .done)) + ds.count i := by
  induction ds with
  | nil => rfl
  | cons d ds ih =>
    rw [List.countP_cons, List.countP_cons, List.count_cons, ih, hg d]
    by_cases hd : d = i
    · subst hd
      simp [hi]
      omega
    · simp [hd]
      omega

/-- Once a running job is marked as done, its dependents are owed the news. -/
theorem Exact.markDone {s : Scheduler} {i : Nat} (h : s.Exact)
    (hrunning : (s.job i).phase = .running) (panicked : Bool) :
    (s.markDone i panicked).Owing (s.job i).dependents := by
  have hi : i < s.jobs.size := lt_size_of_phase_ne (by simp [hrunning])
  have hphase := phase_markDone hi panicked
  have hpending : ∀ j, ((s.markDone i panicked).job j).pending = (s.job j).pending := by
    intro j
    rw [job_markDone hi]
    split <;> rfl
  refine ⟨?_, ?_, ?_, ?_, ?_, ?_, ?_, ?_⟩
  · rw [dependsOn_congr (dependenciesOf_markDone s i panicked), Scheduler.markDone, size_update]
    exact h.dependency_lt
  · intro j
    rw [hpending, h.pending_eq, List.count_nil, h.count_dependents j i (by simp [hrunning]),
      unfinished, unfinished, dependenciesOf_markDone]
    exact countP_not_done _ _ i _ (by simp [hrunning]) hphase
  · intro j k hk
    have hki : k ≠ i := fun heq => hk (by rw [hphase, if_pos heq])
    rw [hphase, if_neg hki] at hk
    rw [dependenciesOf_markDone, job_markDone hi, if_neg hki]
    exact h.count_dependents j k hk
  · exact h.ready_nodup
  · intro j
    rw [show (s.markDone i panicked).ready = s.ready from rfl, h.mem_ready, hpending, hphase]
    split
    next hj => simp [hj, hrunning]
    next => rfl
  · intro j k hj hjk
    rw [DependsOn, dependenciesOf_markDone] at hjk
    have henqueued : ∀ x, (s.markDone i panicked).Enqueued x ↔ s.Enqueued x := by
      intro x
      rw [Enqueued, Enqueued, hphase]
      split
      next hx => simp [hx, hrunning]
      next => rfl
    rw [henqueued] at hj ⊢
    exact h.enqueued_closed j k hj hjk
  · intro j k hj hjk
    rw [DependsOn, dependenciesOf_markDone] at hjk
    have hstarted : s.Started j := by
      rw [Started, hphase] at hj
      by_cases hji : j = i
      · exact .inl (hji ▸ hrunning)
      · simpa [Started, hji] using hj
    rw [hphase, h.started_after j k hstarted hjk]
    simp
  · rw [dependsOn_congr (dependenciesOf_markDone s i panicked)]
    exact h.ranked

/-- A worker that is done with its job leaves exact bookkeeping. -/
theorem Exact.finish {s : Scheduler} {i : Nat} (h : s.Exact) (hrunning : (s.job i).phase = .running)
    (panicked : Bool) : (s.finish i panicked).Exact := by
  have howing := h.markDone hrunning panicked
  rw [← List.append_nil (s.job i).dependents] at howing
  rw [finish_eq]
  exact howing.foldl_release

end IncrementalBuild.Jobs.Scheduler
