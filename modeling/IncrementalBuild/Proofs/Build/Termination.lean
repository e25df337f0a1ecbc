import IncrementalBuild.Proofs.Build.Interleaving
import Mathlib.Algebra.Order.BigOperators.Group.Finset

/-!
Runs of a crew come to an end: every step takes from what is left to do, and as long as the client
has not returned some step can be taken.
-/

namespace IncrementalBuild.Build

open Jobs

variable {ν : Type}

/-- How many steps the work of a job can still take. -/
def Activity.left : Activity → Nat
  | .fresh => 4
  | .cleared => 3
  | .executing _ => 2
  | .failing => 1
  | .complete _ => 0

/-- The client takes no more than some number of steps; making a job counts for all steps that can
be taken for the job, too. -/
def Client.Within : Client ν → Nat → Prop
  | .making calls, k => ∃ m, m + 3 ≤ k ∧ calls.Within 7 m
  | .waiting _, k => 2 ≤ k
  | .waited, k => 1 ≤ k
  | .returned _, _ => True

theorem Activity.left_le (a : Activity) : a.left ≤ 4 := by
  cases a <;> simp [Activity.left]

/-- How many steps can still be taken for a job, if its work has come so far. -/
def jobLeft (s : Scheduler) (activity : Nat → Activity) (j : Nat) : Nat :=
  match (s.job j).phase with
  | .created | .scheduled => 6
  | .running => (activity j).left + 1
  | .done => 0

/-- How many steps can still be taken for all jobs that have been made. -/
def jobsLeft (s : Scheduler) (activity : Nat → Activity) : Nat :=
  ∑ j ∈ Finset.range s.jobs.size, jobLeft s activity j

section JobsLeft

variable {s t : Scheduler} {activity activity' : Nat → Activity} {i j : Nat}

/-- It is enough that less is left for one job, and the same for the others. -/
theorem jobsLeft_lt (hsize : t.jobs.size = s.jobs.size) (hi : i < s.jobs.size)
    (hlt : jobLeft t activity' i < jobLeft s activity i)
    (hsame : ∀ j, j ≠ i → jobLeft t activity' j = jobLeft s activity j) :
    jobsLeft t activity' < jobsLeft s activity := by
  rw [jobsLeft, jobsLeft, hsize]
  refine Finset.sum_lt_sum (fun j _ => ?_) ⟨i, Finset.mem_range.2 hi, hlt⟩
  by_cases hj : j = i
  · rw [hj]
    exact Nat.le_of_lt hlt
  · exact Nat.le_of_eq (hsame j hj)

theorem jobsLeft_congr (hsize : t.jobs.size = s.jobs.size)
    (hsame : ∀ j, jobLeft t activity j = jobLeft s activity j) :
    jobsLeft t activity = jobsLeft s activity := by
  rw [jobsLeft, jobsLeft, hsize]
  exact Finset.sum_congr rfl fun j _ => hsame j

theorem jobsLeft_create (s : Scheduler) (activity : Nat → Activity) :
    jobsLeft s.create.2 activity = jobsLeft s activity + 6 := by
  have hnew := created_of_size_le (s := s) (Nat.le_refl _)
  simp [jobsLeft, jobLeft, Finset.sum_range_succ, hnew]

theorem jobsLeft_of_linking {d : Nat} (h : s.Linking t i d) :
    jobsLeft t activity = jobsLeft s activity :=
  jobsLeft_congr h.size_eq fun j => by rw [jobLeft, jobLeft, h.phase_eq]

theorem jobsLeft_of_scheduling {added : List Nat} (h : s.Scheduling t i added) :
    jobsLeft t activity = jobsLeft s activity := by
  refine jobsLeft_congr h.size_eq fun j => ?_
  rw [jobLeft, jobLeft, h.phase_eq]
  by_cases hj : j ∈ added
  · simp [hj, h.created_of_mem hj]
  · simp [hj]

theorem jobsLeft_of_taking (h : s.Taking t i) (hexact : s.Exact) :
    jobsLeft t activity < jobsLeft s activity := by
  have hscheduled := (h.scheduled hexact).1
  have hphase := h.phase_eq hexact
  have hi := Scheduler.lt_size_of_phase_ne (s := s) (i := i) (by simp [hscheduled])
  refine jobsLeft_lt h.size_eq hi ?_ fun j hj => ?_
  · have hle := (activity i).left_le
    simp only [jobLeft, hphase, hscheduled, if_pos]
    omega
  · rw [jobLeft, jobLeft, hphase, if_neg hj]

theorem jobsLeft_finish (hrunning : (s.job i).phase = .running) (panicked : Bool) :
    jobsLeft (s.finish i panicked) activity < jobsLeft s activity := by
  have hi := Scheduler.lt_size_of_phase_ne (s := s) (i := i) (by simp [hrunning])
  have hphase := Scheduler.phase_finish hi panicked
  refine jobsLeft_lt (Scheduler.size_finish s i panicked) hi ?_ fun j hj => ?_
  · simp [jobLeft, hphase, hrunning]
  · rw [jobLeft, jobLeft, hphase, if_neg hj]

theorem jobsLeft_update (hrunning : (s.job i).phase = .running) {b : Activity}
    (hlt : b.left < (activity i).left) :
    jobsLeft s (Function.update activity i b) < jobsLeft s activity := by
  have hi := Scheduler.lt_size_of_phase_ne (s := s) (i := i) (by simp [hrunning])
  refine jobsLeft_lt rfl hi ?_ fun j hj => ?_
  · simpa [jobLeft, hrunning] using hlt
  · rw [jobLeft, jobLeft, Function.update_of_ne hj]

end JobsLeft

namespace Crew

section Bound

variable {c c' : Crew ν} {o : Occurrence} {k : Nat} {trace : List Event}

theorem left_afterResult (result : TaskResult) : (afterResult result).left < 2 := by
  cases result <;> simp [afterResult, Activity.left]

theorem Doing.jobsLeft_lt {i : Nat} {t : Build.Task ν} {a b : Activity} (hdoing : c.Doing i t a)
    (hagrees : c.pool.Agrees trace) (hlt : b.left < a.left) :
    jobsLeft c.pool.scheduler (Function.update c.activity i b) <
      jobsLeft c.pool.scheduler c.activity := by
  apply jobsLeft_update
  · exact (hagrees.running_iff i).1 hdoing.runs
  · rwa [hdoing.activity_eq]

/-- Every step takes from what is left to do. -/
theorem Step.left_lt (h : c.Step o c') (hagrees : c.pool.Agrees trace) (hk : c.client.Within k) :
    ∃ l, c'.client.Within l ∧ l + jobsLeft c'.pool.scheduler c'.activity <
      k + jobsLeft c.pool.scheduler c.activity := by
  cases h with
  | create hclient hstep =>
    rw [hclient] at hk
    obtain ⟨m, hm, m', hm', hnext⟩ := hk
    refine ⟨m' + 3, ⟨m', Nat.le_refl _, hnext _⟩, ?_⟩
    cases hstep with
    | create =>
      dsimp only
      rw [jobsLeft_create]
      omega
  | link hclient hstep =>
    rw [hclient] at hk
    obtain ⟨m, hm, m', hm', hnext⟩ := hk
    refine ⟨m' + 3, ⟨m', Nat.le_refl _, hnext⟩, ?_⟩
    dsimp only
    rw [jobsLeft_of_linking hstep.linking]
    omega
  | refuseLink hclient _ | refuseEnqueue hclient _ =>
    rw [hclient] at hk
    obtain ⟨m, hm, -⟩ := hk
    refine ⟨0, trivial, ?_⟩
    dsimp only
    omega
  | enqueue hclient hstep =>
    rw [hclient] at hk
    obtain ⟨m, hm, -⟩ := hk
    obtain ⟨added, hscheduling⟩ := hstep.scheduling hagrees.exact
    refine ⟨2, Nat.le_refl 2, ?_⟩
    dsimp only
    rw [jobsLeft_of_scheduling hscheduling]
    omega
  | start hstep =>
    exact ⟨k, hk, Nat.add_lt_add_left (jobsLeft_of_taking hstep.taking hagrees.exact) k⟩
  | finish hstep _ =>
    obtain ⟨hruns, hq⟩ := hstep.finishing
    have hrunning := (hagrees.lt_of_runs hruns).1
    refine ⟨k, hk, Nat.add_lt_add_left ?_ k⟩
    dsimp only
    rw [hq]
    exact jobsLeft_finish hrunning _
  | skip hdoing _ | clear hdoing _ | begin hdoing | raise hdoing =>
    exact ⟨k, hk, Nat.add_lt_add_left (hdoing.jobsLeft_lt hagrees (by simp [Activity.left])) k⟩
  | execute w hdoing =>
    exact ⟨k, hk, Nat.add_lt_add_left (hdoing.jobsLeft_lt hagrees (left_afterResult _)) k⟩
  | @wait _ result hclient _ =>
    rw [hclient] at hk
    cases result <;> exact ⟨1, by simp [afterWait, Client.Within], Nat.add_lt_add_right hk _⟩
  | answer hclient =>
    rw [hclient] at hk
    exact ⟨0, trivial, Nat.add_lt_add_right hk _⟩

end Bound

section OfTasks

variable {n : Nat} {before : List Event} {p : Pool} {tasks : List (Build.Task ν)} {root : Handle}
  {assigned : Assigned ν} {t : Scheduler} {c c' : Crew ν} {trace : List Occurrence}

/-- No run goes on for ever: there is a bound on how many steps can be taken. -/
theorem Run.exists_bound (hp : Prepared n before p tasks root assigned t) :
    ∃ bound, ∀ trace c, (ofTasks p tasks).Run trace c → trace.length ≤ bound := by
  obtain ⟨m, hm⟩ := Calls.within_plan 7 tasks
  have hstart : (ofTasks p tasks).client.Within (m + 3) := ⟨m, Nat.le_refl _, hm⟩
  -- What has been done and what is left to do never add up to more than there was at the start.
  suffices hall : ∀ trace c, (ofTasks p tasks).Run trace c → ∃ k, c.client.Within k ∧
      trace.length + k + jobsLeft c.pool.scheduler c.activity ≤
        m + 3 + jobsLeft p.scheduler fun _ => .fresh by
    refine ⟨m + 3 + jobsLeft p.scheduler fun _ => .fresh, fun trace c h => ?_⟩
    obtain ⟨k, -, hle⟩ := hall trace c h
    omega
  intro trace c h
  induction h with
  | start => exact ⟨m + 3, hstart, by simp [ofTasks]⟩
  | step hrun hstep ih =>
    obtain ⟨k, hk, hle⟩ := ih
    obtain ⟨l, hl, hlt⟩ := hstep.left_lt (hrun.agrees hp) hk
    refine ⟨l, hl, ?_⟩
    rw [List.length_append, List.length_singleton]
    omega

/-- The work of a job that runs goes on, or the job can be finished. -/
theorem exists_step_of_runs [Nonempty (World ν)] {w j : Nat} (hruns : c.pool.Runs w j) :
    ∃ o c', c.Step o c' := by
  cases hlookup : c.assigned.lookup j with
  | none =>
    have hcan : c.CanFinish j false := by simp [CanFinish, hlookup]
    exact ⟨_, _, .finish (.finish false hruns) hcan⟩
  | some task =>
    have hdoing {a : Activity} (ha : c.activity j = a) : c.Doing j task a :=
      ⟨⟨w, hruns⟩, hlookup, ha⟩
    cases hactivity : c.activity j with
    | fresh =>
      cases hfailed : c.failed with
      | true => exact ⟨_, _, .skip (hdoing hactivity) hfailed⟩
      | false => exact ⟨_, _, .clear (hdoing hactivity) hfailed⟩
    | cleared => exact ⟨_, _, .begin (hdoing hactivity)⟩
    | executing position =>
      exact ⟨_, _, .execute (Classical.arbitrary (World ν)) (hdoing hactivity)⟩
    | failing => exact ⟨_, _, .raise (hdoing hactivity)⟩
    | complete panicked =>
      have hcan : c.CanFinish j panicked := by simp [CanFinish, hlookup, hactivity]
      exact ⟨_, _, .finish (.finish panicked hruns) hcan⟩

/-- Where a job can run, a worker takes it, or is at work. -/
theorem exists_step_of_ready [Nonempty (World ν)] (hn : 0 < n) (hstaffed : c.pool.Staffed n)
    (hopen : c.pool.shutdown = false) (hready : c.pool.scheduler.ready ≠ []) :
    ∃ o c', c.Step o c' := by
  have hpos : 0 < c.pool.workers.length := hstaffed.length_eq ▸ hn
  have hworker := List.getElem?_eq_getElem hpos
  cases hstate : c.pool.workers[0] with
  | idle =>
    obtain ⟨i, rest, hready⟩ := List.exists_cons_of_ne_nil hready
    rw [hstate] at hworker
    have htake : ∃ s, c.pool.scheduler.start? = some (i, s) := by
      rw [Scheduler.start?, hready]
      exact ⟨_, rfl⟩
    obtain ⟨s, htake⟩ := htake
    exact ⟨_, _, .start (.start hworker htake)⟩
  | running j =>
    rw [hstate] at hworker
    exact exists_step_of_runs hworker
  | exited =>
    have hmem := List.getElem_mem hpos
    rw [hstate] at hmem
    exact absurd hmem (hstaffed.not_exited hopen)

/-- As long as the client has not returned, something can happen. -/
theorem Run.exists_step [Nonempty (World ν)] (hn : 0 < n)
    (hp : Prepared n before p tasks root assigned t)
    (hroom : p.scheduler.jobs.size + 9 + tasks.length ≤ Handle.invalid.index)
    (h : (ofTasks p tasks).Run trace c) (hnot : ∀ result, c.client ≠ .returned result) :
    ∃ o c', c.Step o c' := by
  have hfollows := (h.follows hp).1
  have hagrees := h.agrees hp
  have hstaffed := (h.pool_run hp).staffed hn
  have hopen := h.takes_calls hp
  cases hclient : c.client with
  | making calls =>
    obtain ⟨o, c', hstep, -⟩ := h.exists_call hp hroom hclient
    exact ⟨o, c', hstep⟩
  | waiting r =>
    obtain rfl := hfollows.waiting r hclient
    obtain ⟨-, hsize, -, henqueued⟩ := hfollows.made (by simp [hclient])
    have hlt := hp.blueprint.root_lt.2
    rw [← hsize] at hlt
    cases hphase : (c.pool.scheduler.job r.index).phase with
    | created => exact absurd hphase henqueued
    | scheduled =>
      rcases hagrees.exact.exists_active hphase with hready | ⟨i, hi⟩
      · exact exists_step_of_ready hn hstaffed hopen hready
      · obtain ⟨w, hruns⟩ := (hagrees.running_iff i).2 hi
        exact exists_step_of_runs hruns
    | running =>
      obtain ⟨w, hruns⟩ := (hagrees.running_iff _).2 hphase
      exact exists_step_of_runs hruns
    | done =>
      have hwait : ∃ result, c.pool.scheduler.waitResult r = some result := by
        simp [Scheduler.waitResult, Scheduler.holds, hlt, hphase]
      obtain ⟨result, hwait⟩ := hwait
      exact ⟨_, _, .wait hclient hwait⟩
  | waited => exact ⟨_, _, .answer hclient⟩
  | returned result => exact absurd hclient (hnot result)

theorem Run.completes [Nonempty (World ν)] (hn : 0 < n)
    (hp : Prepared n before p tasks root assigned t)
    (hroom : p.scheduler.jobs.size + 9 + tasks.length ≤ Handle.invalid.index)
    (h : (ofTasks p tasks).Run trace c) :
    ∃ more c' result, (ofTasks p tasks).Run (trace ++ more) c' ∧ c'.client = .returned result := by
  obtain ⟨bound, hbound⟩ := exists_bound hp
  -- On the steps that the bound still allows.
  induction hleft : bound - trace.length using Nat.strongRecOn generalizing trace c with
  | _ left ih =>
    by_cases hnot : ∀ result, c.client ≠ .returned result
    · obtain ⟨o, c', hstep⟩ := h.exists_step hn hp hroom hnot
      have hlonger := hbound _ _ (h.step hstep)
      rw [List.length_append, List.length_singleton] at hlonger
      obtain ⟨more, d, result, hrun, hreturned⟩ := ih (bound - (trace ++ [o]).length)
        (by rw [List.length_append, List.length_singleton]; omega) (h.step hstep) rfl
      exact ⟨o :: more, d, result, by simpa using hrun, hreturned⟩
    · obtain ⟨result, hreturned⟩ := not_forall_not.1 hnot
      exact ⟨[], c, result, by simpa using h, hreturned⟩

instance : Nonempty (World Unit) :=
  ⟨⟨default, default, default, default, default, default⟩⟩

/-- A pool that was just made can run any tasks that there are handles for. -/
theorem exists_returned [Nonempty (World ν)] {n : Nat} (hn : 0 < n) (tasks : List (Build.Task ν))
    (hroom : 9 + tasks.length ≤ Handle.invalid.index) : ∃ root assigned t trace c result,
      Prepared n [] (.ofCount n) tasks root assigned t ∧
        (ofTasks (.ofCount n) tasks).Run trace c ∧ c.client = .returned result := by
  obtain ⟨root, assigned, t, hp⟩ := exists_prepared (.start : Pool.Run n [] (.ofCount n)) rfl tasks
  have hstart : (ofTasks (.ofCount n) tasks).Run [] (ofTasks (.ofCount n) tasks) := .start
  obtain ⟨trace, c, result, h, hreturned⟩ := hstart.completes hn hp
    (by simpa [Pool.ofCount, Scheduler.empty] using hroom)
  exact ⟨root, assigned, t, _, c, result, hp, h, hreturned⟩

end OfTasks

end Crew

end IncrementalBuild.Build
