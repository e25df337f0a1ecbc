import IncrementalBuild.Proofs.Build.Calls
import IncrementalBuild.Proofs.Jobs.Completion

/-!
Tasks run by any number of workers. `Crew.Step` is one step of the client that makes the graph of
jobs and waits for it, of a worker that takes or finishes a job, or of the work of a task; so the
runs of a crew are all interleavings of these. What a task does is left open: it ends as it can end
in some world.
-/

namespace IncrementalBuild.Build

open Jobs

variable {ν : Type}

/-- What the client of a run is at. -/
inductive Client (ν : Type) where
  /-- It makes these calls, and enqueues the root when there are none left. -/
  | making (calls : Calls ν)
  | waiting (root : Handle)
  /-- The root is done, and no job panicked. -/
  | waited
  | returned (result : Except Failure Unit)

/-- How far the work of a job has come. -/
inductive Activity where
  | fresh
  /-- No task had failed when it looked. -/
  | cleared
  | executing (position : Option Position)
  /-- The task has failed, which the others do not know yet. -/
  | failing
  | complete (panicked : Bool)

/-- What happens in one step of a crew. -/
inductive Occurrence where
  | pool (e : Event)
  /-- The work of a job saw that a task had failed. -/
  | skipped (job : Nat)
  | cleared (job : Nat)
  | begun (job : Nat) (position : Option Position)
  | ended (job : Nat) (result : TaskResult)
  /-- The failure of a task was made known. -/
  | raised (job : Nat)
  | waited (result : Except Jobs.Error Unit)
  | returned (result : Except Failure Unit)

/-- A pool with its client and the work of its jobs. -/
structure Crew (ν : Type) where
  pool : Pool
  client : Client ν
  assigned : Assigned ν
  /-- A task has failed. -/
  failed : Bool
  /-- How many positions have been given. -/
  positions : Nat
  activity : Nat → Activity
  /-- The jobs before this one are not those of the client. -/
  first : Nat
  /-- How many tasks want a position. -/
  total : Nat

namespace Crew

/-- The crew that is to run some tasks. -/
def ofTasks (p : Pool) (tasks : List (Build.Task ν)) : Crew ν where
  pool := p
  client := .making (Calls.plan tasks)
  assigned := []
  failed := false
  positions := 0
  activity := fun _ => .fresh
  first := p.scheduler.jobs.size
  total := positionCount tasks

/-- A worker runs the job of a task, and its work has come this far. -/
structure Doing (c : Crew ν) (job : Nat) (t : Build.Task ν) (a : Activity) : Prop where
  runs : ∃ worker, c.pool.Runs worker job
  task_eq : c.assigned.lookup job = some t
  activity_eq : c.activity job = a

/-- The work of a job comes further. -/
def advance (c : Crew ν) (job : Nat) (a : Activity) : Crew ν :=
  { c with activity := Function.update c.activity job a }

/-- The position that is given to a task. -/
def position (c : Crew ν) (t : Build.Task ν) : Option Position :=
  if t.wantsPosition then some ⟨c.positions + 1, c.total⟩ else none

/-- What is left to do when a task has ended. -/
def afterResult : TaskResult → Activity
  | .done => .complete false
  | .failed _ => .failing
  | .panicked => .complete true

/-- Whether a job can be finished, panicking or not: that of a task when its work is over, one
without work at once. What jobs of others do is left open. -/
def CanFinish (c : Crew ν) (job : Nat) (panicked : Bool) : Prop :=
  match c.assigned.lookup job with
  | some _ => c.activity job = .complete panicked
  | none => c.first ≤ job → panicked = false

/-- What the client does when waiting has ended. -/
def afterWait : Except Jobs.Error Unit → Client ν
  | .ok () => .waited
  | .error e => .returned (.error (.taskPanicked e))

/-- What the client returns when no job panicked. -/
def verdict (c : Crew ν) : Except Failure Unit :=
  if c.failed then .error .tasksFailed else .ok ()

inductive Step : Crew ν → Occurrence → Crew ν → Prop where
  | create {c : Crew ν} {task : Option (Build.Task ν)} {next : Handle → Calls ν} {job : Nat}
      {q : Pool} :
      c.client = .making (.create task next) → c.pool.Step (.created job) q →
      Step c (.pool (.created job)) { c with
        pool := q
        client := .making (next ⟨job⟩)
        assigned := c.assigned ++ Calls.assign task job }
  | link {c : Crew ν} {dependent dependency : Handle} {next : Calls ν} {q : Pool} :
      c.client = .making (.link dependent dependency next) →
      c.pool.Step (.linked dependent.index dependency.index) q →
      Step c (.pool (.linked dependent.index dependency.index))
        { c with pool := q, client := .making next }
  | refuseLink {c : Crew ν} {dependent dependency : Handle} {next : Calls ν} {cause : Jobs.Error} :
      c.client = .making (.link dependent dependency next) →
      c.pool.scheduler.addDependency dependent dependency = .error cause →
      Step c (.pool (.refused cause)) { c with client := .returned (.error (.jobs cause)) }
  | enqueue {c : Crew ν} {root : Handle} {q : Pool} :
      c.client = .making (.done root) → c.pool.Step (.enqueued root.index) q →
      Step c (.pool (.enqueued root.index)) { c with pool := q, client := .waiting root }
  | refuseEnqueue {c : Crew ν} {root : Handle} {cause : Jobs.Error} :
      c.client = .making (.done root) → c.pool.scheduler.enqueue root = .error cause →
      Step c (.pool (.refused cause)) { c with client := .returned (.error (.jobs cause)) }
  | start {c : Crew ν} {worker job : Nat} {q : Pool} :
      c.pool.Step (.started worker job) q →
      Step c (.pool (.started worker job)) { c with pool := q }
  | skip {c : Crew ν} {job : Nat} {t : Build.Task ν} :
      c.Doing job t .fresh → c.failed = true →
      Step c (.skipped job) (c.advance job (.complete false))
  | clear {c : Crew ν} {job : Nat} {t : Build.Task ν} :
      c.Doing job t .fresh → c.failed = false → Step c (.cleared job) (c.advance job .cleared)
  | begin {c : Crew ν} {job : Nat} {t : Build.Task ν} :
      c.Doing job t .cleared →
      Step c (.begun job (c.position t)) { c.advance job (.executing (c.position t)) with
        positions := if t.wantsPosition then c.positions + 1 else c.positions }
  | execute {c : Crew ν} {job : Nat} {t : Build.Task ν} {position : Option Position}
      (w : World ν) :
      c.Doing job t (.executing position) →
      Step c (.ended job (t.execute position w).1)
        (c.advance job (afterResult (t.execute position w).1))
  | raise {c : Crew ν} {job : Nat} {t : Build.Task ν} :
      c.Doing job t .failing →
      Step c (.raised job) { c.advance job (.complete false) with failed := true }
  | finish {c : Crew ν} {worker job : Nat} {panicked : Bool} {q : Pool} :
      c.pool.Step (.finished worker job panicked) q → c.CanFinish job panicked →
      Step c (.pool (.finished worker job panicked)) { c with pool := q }
  | wait {c : Crew ν} {root : Handle} {result : Except Jobs.Error Unit} :
      c.client = .waiting root → c.pool.scheduler.waitResult root = some result →
      Step c (.waited result) { c with client := afterWait result }
  | answer {c : Crew ν} :
      c.client = .waited → Step c (.returned c.verdict) { c with client := .returned c.verdict }

/-- The runs of a crew: what happened, in order, and the crew after it. -/
inductive Run (start : Crew ν) : List Occurrence → Crew ν → Prop where
  | start : Run start [] start
  | step {trace : List Occurrence} {o : Occurrence} {c c' : Crew ν} :
      Run start trace c → Step c o c' → Run start (trace ++ [o]) c'

end Crew

/-- What happened in the pool. -/
def poolEvents (trace : List Occurrence) : List Event :=
  trace.filterMap fun
    | .pool e => some e
    | _ => none

@[simp] theorem poolEvents_append (trace more : List Occurrence) :
    poolEvents (trace ++ more) = poolEvents trace ++ poolEvents more :=
  List.filterMap_append

@[simp] theorem mem_poolEvents {trace : List Occurrence} {e : Event} :
    e ∈ poolEvents trace ↔ .pool e ∈ trace := by
  simp only [poolEvents, List.mem_filterMap]
  constructor
  · rintro ⟨o, ho, heq⟩
    cases o <;> cases heq
    exact ho
  · exact fun he => ⟨_, he, rfl⟩

namespace Crew

variable {c c' start : Crew ν} {o : Occurrence} {trace : List Occurrence}

/-- A step of a crew is a step of its pool, or leaves the pool as it is. -/
theorem Step.pool_cases (h : Step c o c') :
    (∃ e, o = .pool e ∧ (c.pool.shutdown = false → c.pool.Step e c'.pool)) ∨
      (∀ e, o ≠ .pool e) ∧ c'.pool = c.pool := by
  cases h with
  | create _ hstep | link _ hstep | enqueue _ hstep | start hstep | finish hstep _ =>
    exact .inl ⟨_, rfl, fun _ => hstep⟩
  | refuseLink _ hrefused => exact .inl ⟨_, rfl, fun hopen => .refuseLink hopen hrefused⟩
  | refuseEnqueue _ hrefused => exact .inl ⟨_, rfl, fun hopen => .refuseEnqueue hopen hrefused⟩
  | skip | clear | begin | execute | raise | wait | answer => exact .inr ⟨by simp, rfl⟩

/-- The client never requests shutdown during a run. -/
theorem Step.shutdown_eq (h : Step c o c') : c'.pool.shutdown = c.pool.shutdown := by
  cases h with
  | create _ hstep | link _ hstep | enqueue _ hstep | start hstep | finish hstep _ =>
    exact hstep.shutdown_eq (by simp)
  | refuseLink | refuseEnqueue | skip | clear | begin | execute | raise | wait | answer => rfl

theorem Run.shutdown_eq (h : Run start trace c) : c.pool.shutdown = start.pool.shutdown := by
  induction h with
  | start => rfl
  | step _ hstep ih => rw [hstep.shutdown_eq, ih]

/-- A run of a crew is a run of its pool. -/
theorem Run.pool (h : Run start trace c) {n : Nat} {before : List Event}
    (hpool : Pool.Run n before start.pool) (hopen : start.pool.shutdown = false) :
    Pool.Run n (before ++ poolEvents trace) c.pool := by
  induction h with
  | start => simpa [poolEvents] using hpool
  | @step trace o c c' hrun hstep ih =>
    rw [poolEvents_append, ← List.append_assoc]
    rcases hstep.pool_cases with ⟨e, rfl, hpoolStep⟩ | ⟨hnot, hsame⟩
    · exact ih.step (hpoolStep (by rw [hrun.shutdown_eq, hopen]))
    · have hnone : poolEvents [o] = [] := by
        cases o with
        | pool e => exact absurd rfl (hnot e)
        | _ => rfl
      rwa [hnone, List.append_nil, hsame]

/-- A run goes through a crew before each thing that happens. -/
theorem Run.split (h : Run start trace c) {before after : List Occurrence}
    (htrace : trace = before ++ o :: after) :
    ∃ d d', Run start before d ∧ Step d o d' ∧ Run d' after c := by
  induction h generalizing after with
  | start => simp at htrace
  | @step trace last d d' hrun hstep ih =>
    rcases List.eq_nil_or_concat after with rfl | ⟨after, x, rfl⟩
    · obtain ⟨rfl, heq⟩ := List.append_inj' htrace rfl
      cases heq
      exact ⟨d, d', hrun, hstep, .start⟩
    · have hinit : trace ++ [last] = (before ++ o :: after) ++ [x] := by simpa using htrace
      obtain ⟨rfl, heq⟩ := List.append_inj' hinit rfl
      cases heq
      obtain ⟨e, e', hbefore, ho, hafter⟩ := ih rfl
      exact ⟨e, e', hbefore, ho, by simpa using hafter.step hstep⟩

end Crew

end IncrementalBuild.Build
