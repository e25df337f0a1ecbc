import IncrementalBuild.Proofs.Jobs.Run

/-!
No enqueued job is lost: as long as one has not started, some worker has something to do, and once
all workers have left exactly the jobs that were required have run.
-/

namespace IncrementalBuild.Jobs

/-- A worker took the job. -/
def Ran (trace : List Event) (job : Nat) : Prop :=
  ∃ worker, Event.started worker job ∈ trace

/-- Where a job is scheduled, one can run or is running: what the job waits for has a lower rank. -/
theorem Scheduler.Owing.exists_active {s : Scheduler} (h : s.Exact) {j : Nat}
    (hj : (s.job j).phase = .scheduled) :
    s.ready ≠ [] ∨ ∃ i, (s.job i).phase = .running := by
  obtain ⟨rank, hrank⟩ := h.ranked
  induction hr : rank j using Nat.strongRecOn generalizing j with
  | _ r ih =>
    by_cases hpending : (s.job j).pending = 0
    · exact .inl (List.ne_nil_of_mem ((h.mem_ready j).2 ⟨hj, hpending⟩))
    · have hunfinished : s.unfinished j ≠ 0 := by
        have hcount := h.pending_eq j
        simp only [List.count_nil] at hcount
        omega
      obtain ⟨d, hd, hnot⟩ : ∃ d, s.DependsOn j d ∧ (s.job d).phase ≠ .done := by
        simpa using (unfinished_eq_zero_iff s j).not.1 hunfinished
      have henqueued : s.Enqueued d := h.enqueued_closed j d (by simp [Enqueued, hj]) hd
      cases hphase : (s.job d).phase with
      | created => exact absurd hphase henqueued
      | scheduled => exact ih (rank d) (hr ▸ hrank j d hd) hphase rfl
      | running => exact .inr ⟨d, hphase⟩
      | done => exact absurd hphase hnot

namespace Pool

/-- The workers of a pool: none has left before shutdown, and when the last one leaves no job is
waiting in the queue. -/
structure Staffed (n : Nat) (p : Pool) : Prop where
  length_eq : p.workers.length = n
  not_exited : p.shutdown = false → Worker.exited ∉ p.workers
  drained : (∀ w ∈ p.workers, w = Worker.exited) → p.scheduler.ready = []

theorem Staffed.exists_staying {n : Nat} {p : Pool} (h : Staffed n p) (hn : 0 < n)
    (hopen : p.shutdown = false) : ¬ ∀ w ∈ p.workers, w = Worker.exited := by
  intro hall
  have hpos : 0 < p.workers.length := h.length_eq ▸ hn
  have hmem := List.getElem_mem hpos
  exact h.not_exited hopen (hall _ hmem ▸ hmem)

/-- A worker that is given something to do has not left. -/
theorem not_all_exited_set {workers : List Worker} {w : Nat} {worker : Worker}
    (hw : w < workers.length) (hworker : worker ≠ .exited) :
    ¬ ∀ x ∈ workers.set w worker, x = Worker.exited :=
  fun hall => hworker (hall _ (List.mem_set hw worker))

theorem not_exited_set {workers : List Worker} {w : Nat} {worker : Worker}
    (h : Worker.exited ∉ workers) (hworker : worker ≠ .exited) :
    Worker.exited ∉ workers.set w worker := by
  intro hmem
  rcases List.mem_or_eq_of_mem_set hmem with hold | hnew
  · exact h hold
  · exact hworker hnew.symm

theorem Staffed.step {n : Nat} {p q : Pool} {e : Event} (h : Staffed n p) (hn : 0 < n)
    (hstep : Step p e q) : Staffed n q := by
  cases hstep with
  | create hopen _ | link hopen _ | enqueue hopen _ =>
    exact ⟨h.length_eq, h.not_exited, fun hall => absurd hall (h.exists_staying hn hopen)⟩
  | refuseLink _ _ | refuseEnqueue _ _ => exact h
  | start hidle _ =>
    have hw := (List.getElem?_eq_some_iff.1 hidle).1
    exact ⟨by simpa using h.length_eq, fun hopen => not_exited_set (h.not_exited hopen) (by simp),
      fun hall => absurd hall (not_all_exited_set hw (by simp))⟩
  | finish _ hruns =>
    have hw := (List.getElem?_eq_some_iff.1 hruns).1
    exact ⟨by simpa using h.length_eq, fun hopen => not_exited_set (h.not_exited hopen) (by simp),
      fun hall => absurd hall (not_all_exited_set hw (by simp))⟩
  | shutdown => exact ⟨h.length_eq, by simp, h.drained⟩
  | exit _ hready hshutdown =>
    exact ⟨by simpa using h.length_eq, by simp [hshutdown], fun _ => hready⟩

theorem Run.staffed {n : Nat} {trace : List Event} {p : Pool} (hrun : Run n trace p)
    (hn : 0 < n) : Staffed n p := by
  induction hrun with
  | start => exact ⟨by simp [ofCount], by simp [ofCount], fun _ => rfl⟩
  | step _ hstep ih => exact ih.step hn hstep

theorem Agrees.ran_iff {trace : List Event} {p : Pool} (h : Agrees trace p) (j : Nat) :
    Ran trace j ↔ p.scheduler.Started j := by
  have hcount : Ran trace j ↔ 0 < trace.countP (Event.starts j) := by
    rw [List.countP_pos_iff]
    constructor
    · rintro ⟨w, hw⟩
      exact ⟨_, hw, by simp [Event.starts]⟩
    · rintro ⟨e, he, hstarts⟩
      cases e <;> simp [Event.starts] at hstarts
      subst hstarts
      exact ⟨_, he⟩
  rw [hcount]
  by_cases hj : p.scheduler.Started j
  · simp [(h.starts_eq j).1 hj, hj]
  · simp [(h.starts_eq j).2 hj, hj]

/-- In every pool of at least one worker that a run leads to: where a job is scheduled that has not
started, a job can run or is running; where a job can run, a worker has not left; and once shutdown
was requested and all workers have left, the jobs that ran, and were finished, are those that were
enqueued and all that these transitively wait for. -/
theorem Run.no_job_lost {n : Nat} {trace : List Event} {p : Pool} (hn : 0 < n)
    (hrun : Run n trace p) :
    ((∃ j, (p.scheduler.job j).phase = .scheduled) →
        p.scheduler.ready ≠ [] ∨ ∃ w j, p.Runs w j) ∧
      (p.scheduler.ready ≠ [] → ∃ w ∈ p.workers, w ≠ Worker.exited) ∧
      (p.shutdown = true → (∀ w ∈ p.workers, w = Worker.exited) →
        ∀ j, (Ran trace j ↔ Required trace j) ∧ (Finished trace j ↔ Required trace j)) := by
  have hagrees := hrun.agrees
  have hstaffed := hrun.staffed hn
  have hactive : (∃ j, (p.scheduler.job j).phase = .scheduled) →
      p.scheduler.ready ≠ [] ∨ ∃ w j, p.Runs w j := by
    rintro ⟨j, hj⟩
    rcases hagrees.exact.exists_active hj with hready | ⟨i, hi⟩
    · exact .inl hready
    · obtain ⟨w, hw⟩ := (hagrees.running_iff i).2 hi
      exact .inr ⟨w, i, hw⟩
  refine ⟨hactive, ?_, ?_⟩
  · intro hready
    by_contra hnone
    exact hready (hstaffed.drained (by simpa using hnone))
  · intro _ hall j
    have hidle : ∀ w i, ¬ p.Runs w i := by
      intro w i hruns
      have := hall _ (List.mem_of_getElem? hruns)
      cases this
    have hrunning : (p.scheduler.job j).phase ≠ .running := fun hphase => by
      obtain ⟨w, hw⟩ := (hagrees.running_iff j).2 hphase
      exact hidle w j hw
    have hscheduled : (p.scheduler.job j).phase ≠ .scheduled := fun hphase => by
      rcases hactive ⟨j, hphase⟩ with hready | ⟨w, i, hw⟩
      · exact hready (hstaffed.drained hall)
      · exact hidle w i hw
    rw [hagrees.ran_iff, hagrees.finished_iff, hagrees.required_iff, Scheduler.Started,
      Scheduler.Enqueued]
    cases hphase : (p.scheduler.job j).phase <;> simp_all

/-- In the run of two jobs both have run when the workers have left. -/
theorem chain_runs_all : ∃ p, Run 2 chainTrace p ∧ 0 < 2 ∧
    (Ran chainTrace 1 ↔ Required chainTrace 1) ∧ Finished chainTrace 0 := by
  obtain ⟨p, hrun, hshutdown, hworkers⟩ := chain_run
  have hall := (hrun.no_job_lost (by decide)).2.2 hshutdown (by simp [hworkers])
  exact ⟨p, hrun, by decide, (hall 1).1, (hall 0).2.2 ⟨0, by simp [chainTrace], .refl⟩⟩

end Pool

end IncrementalBuild.Jobs
