import IncrementalBuild.Proofs.Jobs.Completion

/-!
One worker that runs jobs until none can run. It runs each job that was scheduled once, none before
what the job transitively depends on, and afterwards no job is left scheduled.
-/

namespace IncrementalBuild.Jobs.Scheduler

open Relation

/-- What changes when a job is taken and finished at once. -/
structure Turn (s t : Scheduler) (i : Nat) (panicked : Bool) : Prop where
  scheduled : (s.job i).phase = .scheduled
  dependency_done : ∀ d, s.DependsOn i d → (s.job d).phase = .done
  exact : t.Exact
  size_eq : t.jobs.size = s.jobs.size
  dependenciesOf_eq : t.dependenciesOf = s.dependenciesOf
  phase_eq : ∀ j, (t.job j).phase = if j = i then .done else (s.job j).phase
  panicked_eq : ∀ j, (t.job j).panicked = if j = i then panicked else (s.job j).panicked

theorem turn_of_start? {s running : Scheduler} {i : Nat} (hexact : s.Exact)
    (h : s.start? = some (i, running)) (panicked : Bool) :
    s.Turn (running.finish i panicked) i panicked := by
  have htaking := taking_of_start? h
  obtain ⟨hscheduled, hdone⟩ := htaking.scheduled hexact
  have hphase := htaking.phase_eq hexact
  have hrunning : (running.job i).phase = .running := by rw [hphase, if_pos rfl]
  have hi : i < running.jobs.size := lt_size_of_phase_ne (by simp [hrunning])
  refine ⟨hscheduled, hdone, (htaking.exact hexact).finish hrunning panicked, ?_, ?_, ?_, ?_⟩
  · rw [size_finish, htaking.size_eq]
  · rw [dependenciesOf_finish, htaking.dependenciesOf_eq]
  · intro j
    rw [phase_finish hi, hphase]
    split <;> rfl
  · intro j
    rw [panicked_finish hi, htaking.job_eq]
    by_cases hj : j = i
    · simp [hj]
    · simp [hj, Ne.symm hj]

/-- One worker took jobs and ran them, in this order, and the work changed the state. -/
inductive Serial {σ : Type} (work : Nat → σ → σ × Bool) :
    Scheduler → σ → List Nat → Scheduler → σ → Prop where
  | rest (s : Scheduler) (state : σ) : Serial work s state [] s state
  | take {s running t : Scheduler} {state state' : σ} {i : Nat} {order : List Nat} :
      s.start? = some (i, running) →
      Serial work (running.finish i (work i state).2) (work i state).1 order t state' →
      Serial work s state (i :: order) t state'

namespace Serial

variable {σ : Type} {work : Nat → σ → σ × Bool} {s t : Scheduler} {state state' : σ}
  {order : List Nat}

theorem exact (h : Serial work s state order t state') (hexact : s.Exact) : t.Exact := by
  induction h with
  | rest => exact hexact
  | take hstart _ ih => exact ih (turn_of_start? hexact hstart _).exact

theorem dependenciesOf_eq (h : Serial work s state order t state') (hexact : s.Exact) :
    t.dependenciesOf = s.dependenciesOf := by
  induction h with
  | rest => rfl
  | @take s running t state state' i order hstart _ ih =>
    have hturn := turn_of_start? hexact hstart (work i state).2
    rw [ih hturn.exact, hturn.dependenciesOf_eq]

theorem phase_eq (h : Serial work s state order t state') (hexact : s.Exact) (j : Nat) :
    (t.job j).phase = if j ∈ order then .done else (s.job j).phase := by
  induction h with
  | rest => simp
  | @take s running t state state' i order hstart _ ih =>
    have hturn := turn_of_start? hexact hstart (work i state).2
    rw [ih hturn.exact, hturn.phase_eq]
    by_cases hj : j ∈ order <;> by_cases hi : j = i <;> simp [hj, hi]

theorem panicked_eq (h : Serial work s state order t state') (hexact : s.Exact) {j : Nat}
    (hj : j ∉ order) : (t.job j).panicked = (s.job j).panicked := by
  induction h with
  | rest => rfl
  | @take s running t state state' i order hstart _ ih =>
    have hturn := turn_of_start? hexact hstart (work i state).2
    obtain ⟨hi, hj⟩ := List.ne_and_not_mem_of_not_mem_cons hj
    rw [ih hturn.exact hj, hturn.panicked_eq, if_neg hi]

/-- The jobs that run were scheduled. -/
theorem scheduled_of_mem (h : Serial work s state order t state') (hexact : s.Exact) {j : Nat}
    (hj : j ∈ order) : (s.job j).phase = .scheduled := by
  induction h with
  | rest => simp at hj
  | @take s running t state state' i order hstart _ ih =>
    have hturn := turn_of_start? hexact hstart (work i state).2
    rcases List.mem_cons.1 hj with rfl | hj
    · exact hturn.scheduled
    · have hphase := ih hturn.exact hj
      rw [hturn.phase_eq] at hphase
      split at hphase
      · cases hphase
      · exact hphase

/-- A job that is taken does not run again later. -/
theorem not_mem_of_turn {s running : Scheduler} {i : Nat} {panicked : Bool}
    (hturn : s.Turn running i panicked) (h : Serial work running state order t state') :
    i ∉ order := by
  intro hi
  have hphase := h.scheduled_of_mem hturn.exact hi
  rw [hturn.phase_eq, if_pos rfl] at hphase
  cases hphase

/-- No job runs twice. -/
theorem nodup (h : Serial work s state order t state') (hexact : s.Exact) : order.Nodup := by
  induction h with
  | rest => exact List.nodup_nil
  | @take s running t state state' i order hstart hrest ih =>
    have hturn := turn_of_start? hexact hstart (work i state).2
    exact List.nodup_cons.2 ⟨not_mem_of_turn hturn hrest, ih hturn.exact⟩

theorem done_of_reachable {s : Scheduler} (hexact : s.Exact) {i d : Nat}
    (hi : (s.job i).phase = .done) (hpath : ReflTransGen s.DependsOn i d) :
    (s.job d).phase = .done := by
  induction hpath with
  | refl => exact hi
  | tail _ hyz ih => exact hexact.started_after _ _ (.inr ih) hyz

/-- No job depends on one that runs later. -/
theorem pairwise (h : Serial work s state order t state') (hexact : s.Exact) :
    order.Pairwise fun x y => ¬ TransGen s.DependsOn x y := by
  induction h with
  | rest => exact List.Pairwise.nil
  | @take s running t state state' i order hstart hrest ih =>
    have hturn := turn_of_start? hexact hstart (work i state).2
    have hsame : (running.finish i (work i state).2).DependsOn = s.DependsOn := by
      unfold DependsOn
      rw [hturn.dependenciesOf_eq]
    refine List.pairwise_cons.2 ⟨fun j hj hpath => ?_, hsame ▸ ih hturn.exact⟩
    obtain ⟨d, hd, hpath⟩ := TransGen.head'_iff.1 hpath
    have hdone := done_of_reachable hexact (hturn.dependency_done d hd) hpath
    have hphase := hrest.scheduled_of_mem hturn.exact hj
    rw [hturn.phase_eq] at hphase
    split at hphase
    · cases hphase
    · rw [hdone] at hphase
      cases hphase

end Serial

/-- The jobs that are not done. -/
def unfinishedJobs (s : Scheduler) : List Nat :=
  (List.range s.jobs.size).filter fun i => (s.job i).phase ≠ .done

theorem length_unfinishedJobs_lt {s t : Scheduler} {i : Nat} {panicked : Bool}
    (h : s.Turn t i panicked) : t.unfinishedJobs.length < s.unfinishedJobs.length := by
  have hi : i ∈ s.unfinishedJobs := by
    have hlt := lt_size_of_phase_ne (s := s) (i := i) (by simp [h.scheduled])
    simp [unfinishedJobs, hlt, h.scheduled]
  have hsub : t.unfinishedJobs = s.unfinishedJobs.filter fun j => j ≠ i := by
    simp only [unfinishedJobs, h.size_eq, h.phase_eq, List.filter_filter]
    apply List.filter_congr
    intro j _
    by_cases hj : j = i <;> simp [hj]
  rw [hsub, List.length_filter_lt_length_iff_exists]
  exact ⟨i, hi, by simp⟩

/-- Jobs are taken and run one after another, whatever state the scheduler is in. -/
theorem exists_serial_drainAtMost {σ : Type} (work : Nat → σ → σ × Bool) (limit : Nat)
    (s : Scheduler) (state : σ) : ∃ order,
      Serial work s state order (s.drainAtMost work limit state).1
        (s.drainAtMost work limit state).2 := by
  induction limit generalizing s state with
  | zero => exact ⟨[], .rest s state⟩
  | succ limit ih =>
    rw [drainAtMost]
    split
    next hstart => exact ⟨[], .rest s state⟩
    next i running hstart =>
      obtain ⟨order, hserial⟩ := ih (running.finish i (work i state).2) (work i state).1
      exact ⟨i :: order, .take hstart hserial⟩

/-- With as many turns as there are jobs to be done, no job is left that can run. -/
theorem ready_drainAtMost {σ : Type} (work : Nat → σ → σ × Bool) {limit : Nat} {s : Scheduler}
    (state : σ) (hexact : s.Exact) (hlimit : s.unfinishedJobs.length ≤ limit) :
    (s.drainAtMost work limit state).1.ready = [] := by
  induction limit generalizing s state with
  | zero =>
    refine List.eq_nil_iff_forall_not_mem.2 fun i hi => ?_
    have hscheduled := ((hexact.mem_ready i).1 hi).1
    have hnil := List.length_eq_zero_iff.1 (Nat.le_zero.1 hlimit)
    have hmem : i ∈ s.unfinishedJobs := by
      simp [unfinishedJobs, hexact.lt_size_of_mem_ready hi, hscheduled]
    simp [hnil] at hmem
  | succ limit ih =>
    rw [drainAtMost]
    split
    next hstart =>
      unfold start? at hstart
      split at hstart
      next hnil => exact hnil
      · cases hstart
    next i running hstart =>
      have hturn := turn_of_start? hexact hstart (work i state).2
      have hlt := length_unfinishedJobs_lt hturn
      exact ih (work i state).1 hturn.exact (by omega)

theorem exists_serial_drain {σ : Type} (work : Nat → σ → σ × Bool) (s : Scheduler) (state : σ) :
    ∃ order, Serial work s state order (s.drain work state).1 (s.drain work state).2 :=
  exists_serial_drainAtMost work _ s state

/-- Draining a scheduler runs its jobs one after another until none can run. -/
theorem serial_drain {σ : Type} (work : Nat → σ → σ × Bool) {s : Scheduler} (state : σ)
    (hexact : s.Exact) : (s.drain work state).1.ready = [] ∧ ∃ order,
      Serial work s state order (s.drain work state).1 (s.drain work state).2 := by
  refine ⟨ready_drainAtMost work state hexact ?_, exists_serial_drain work s state⟩
  exact Nat.le_trans (List.length_filter_le _ _) (by simp)

/-- No job is at work: each is yet to be enqueued, or is done. -/
structure Settled (s : Scheduler) : Prop where
  exact : s.Exact
  created_or_done : ∀ i, (s.job i).phase = .created ∨ (s.job i).phase = .done

theorem settled_empty : Settled empty :=
  ⟨exact_empty, fun _ => .inl rfl⟩

/-- Once a worker has run all that can run, nothing is at work. -/
theorem Serial.settled {σ : Type} {work : Nat → σ → σ × Bool} {s t : Scheduler} {state state' : σ}
    {order : List Nat} (h : Serial work s state order t state') (hexact : s.Exact)
    (hrunning : ∀ i, (s.job i).phase ≠ .running) (hready : t.ready = []) : t.Settled := by
  have hidle (i : Nat) : (t.job i).phase ≠ .running := by
    rw [h.phase_eq hexact]
    split
    · simp
    · exact hrunning i
  refine ⟨h.exact hexact, fun i => ?_⟩
  cases hphase : (t.job i).phase with
  | created => exact .inl rfl
  | done => exact .inr rfl
  | running => exact absurd hphase (hidle i)
  | scheduled =>
    rcases (h.exact hexact).exists_active hphase with hnot | ⟨j, hj⟩
    · exact absurd hready hnot
    · exact absurd hj (hidle j)

end IncrementalBuild.Jobs.Scheduler
