import IncrementalBuild.Proofs.Jobs.Run

/-!
The counters and queues of every pool that can be reached, and of the moments at which a worker has
told some of the dependents of a job that is done: the next one still waits for something.
-/

namespace IncrementalBuild.Jobs

namespace Scheduler

/-- The scheduler in which a job is done and some of its dependents, in order, have been told. -/
def afterTelling (s : Scheduler) (i : Nat) (panicked : Bool) (told : List Nat) : Scheduler :=
  told.foldl release (s.markDone i panicked)

/-- While dependents are told, each waits for the entries that are not done and for those it is yet
to be told about. -/
theorem Exact.pending_afterTelling {s : Scheduler} {i : Nat} {told owed : List Nat} (h : s.Exact)
    (hrunning : (s.job i).phase = .running) (panicked : Bool)
    (hdependents : (s.job i).dependents = told ++ owed) (j : Nat) :
    ((s.afterTelling i panicked told).job j).pending =
      (s.afterTelling i panicked told).unfinished j + owed.count j := by
  have howing := h.markDone hrunning panicked
  rw [hdependents] at howing
  exact howing.foldl_release.pending_eq j

end Scheduler

namespace Pool

/-- The bookkeeping is exact in every pool that can be reached, whatever calls the client makes and
in whatever order the workers take their steps: `pending` is the number of entries of a job's
dependencies that are not done, the dependents of a job that is not done mirror the entries for it,
the queue holds exactly the scheduled jobs with nothing pending, each once, and what an enqueued job
depends on is enqueued. So a worker that finishes a job never counts below zero: it tells the
dependents one after another, and `pending` of the one that is told next is positive. -/
theorem Reachable.bookkeeping_exact {n : Nat} {p : Pool} (h : p.Reachable n) :
    (∀ i, (p.scheduler.job i).pending =
        (p.scheduler.job i).dependencies.countP fun d => (p.scheduler.job d).phase ≠ .done) ∧
      (∀ a b, (p.scheduler.job a).phase ≠ .done →
        (p.scheduler.job a).dependents.count b = (p.scheduler.job b).dependencies.count a) ∧
      p.scheduler.ready.Nodup ∧
      (∀ i, i ∈ p.scheduler.ready ↔
        (p.scheduler.job i).phase = .scheduled ∧ (p.scheduler.job i).pending = 0) ∧
      (∀ i, ∀ d ∈ (p.scheduler.job i).dependencies, (p.scheduler.job i).phase ≠ .created →
        (p.scheduler.job d).phase ≠ .created) ∧
      ∀ w i panicked q, Step p (.finished w i panicked) q →
        q.scheduler = p.scheduler.afterTelling i panicked (p.scheduler.job i).dependents ∧
        ∀ told d rest, (p.scheduler.job i).dependents = told ++ d :: rest →
          0 < ((p.scheduler.afterTelling i panicked told).job d).pending := by
  obtain ⟨trace, hrun⟩ := h
  have hagrees := hrun.agrees
  have hexact := hagrees.exact
  refine ⟨fun i => ?_, fun a b ha => hexact.count_dependents b a ha, hexact.ready_nodup,
    hexact.mem_ready, fun i d hd hi => hexact.enqueued_closed i d hi hd, ?_⟩
  · simpa [Scheduler.unfinished, Scheduler.dependenciesOf] using hexact.pending_eq i
  · intro w i panicked q hstep
    obtain ⟨hruns, hq⟩ := hstep.finishing
    refine ⟨hq, fun told d rest hdependents => ?_⟩
    have hrunning := (hagrees.lt_of_runs hruns).1
    rw [hexact.pending_afterTelling hrunning panicked hdependents, List.count_cons_self]
    omega

/-- A job is running that another waits for twice. -/
def doubled : Pool where
  scheduler := ⟨#[⟨2, [], [1, 1], .scheduled, false⟩, ⟨0, [0, 0], [], .running, false⟩], []⟩
  workers := [.running 1]
  shutdown := false

theorem reachable_doubled : doubled.Reachable 1 := by
  have hmade : Run 1 _ ⟨⟨#[.fresh, .fresh], []⟩, [.idle], false⟩ :=
    (Run.start.step (.create rfl (by decide))).step (.create rfl (by decide))
  have hlinked : Run 1 _ ⟨⟨#[⟨2, [], [1, 1], .created, false⟩, ⟨0, [0, 0], [], .created, false⟩],
      []⟩, [.idle], false⟩ := hmade.links [(0, 1), (0, 1)] (by cbv)
  have hready : Run 1 _ ⟨⟨#[⟨2, [], [1, 1], .scheduled, false⟩,
      ⟨0, [0, 0], [], .scheduled, false⟩], [1]⟩, [.idle], false⟩ := hlinked.enqueue 0 (by cbv)
  exact ⟨_, hready.step (@Step.start _ 0 1 _ rfl rfl)⟩

/-- When the job is finished, the one that waits for it is told twice, and waits before each. -/
theorem doubled_counts_down : doubled.Reachable 1 ∧
    0 < ((doubled.scheduler.afterTelling 1 true []).job 0).pending ∧
    0 < ((doubled.scheduler.afterTelling 1 true [0]).job 0).pending := by
  obtain ⟨-, -, -, -, -, hfinish⟩ := reachable_doubled.bookkeeping_exact
  have hstep : Step doubled (.finished 0 1 true) _ := .finish true rfl
  obtain ⟨-, htelling⟩ := hfinish 0 1 true _ hstep
  exact ⟨reachable_doubled, htelling [] 0 [0] rfl, htelling [0] 0 [] rfl⟩

end Pool

end IncrementalBuild.Jobs
