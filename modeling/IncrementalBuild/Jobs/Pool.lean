import IncrementalBuild.Jobs.Scheduler

/-!
Workers that run the jobs of a scheduler. `Pool.Step` is one step of any of the workers, or of the
client that makes and enqueues jobs, so the runs of a pool are the sequences of its steps. `drain`
is the run of one worker that takes jobs in the order they became able to run.
-/

namespace IncrementalBuild.Jobs

/-- What a worker does. -/
inductive Worker where
  /-- It looks for a job, or waits until there is one. -/
  | idle
  | running (job : Nat)
  /-- It found no job after shutdown was requested. -/
  | exited
  deriving DecidableEq, Repr, Inhabited

/-- A scheduler with its workers. -/
structure Pool where
  scheduler : Scheduler
  workers : List Worker
  shutdown : Bool
  deriving DecidableEq, Repr, Inhabited

/-- What happens in one step of a pool. -/
inductive Event where
  | created (job : Nat)
  /-- `dependent` was made to wait for `dependency`. -/
  | linked (dependent dependency : Nat)
  | enqueued (root : Nat)
  /-- A call of the client was refused. -/
  | refused (cause : Error)
  | started (worker job : Nat)
  | finished (worker job : Nat) (panicked : Bool)
  | shutdown
  | exited (worker : Nat)
  deriving DecidableEq, Repr

namespace Pool

/-- A pool of `n` idle workers. -/
def ofCount (n : Nat) : Pool := ⟨.empty, List.replicate n .idle, false⟩

/-- One step of the client or of a worker. The client makes calls, with any handles, as long as it
did not request shutdown; jobs can be made as long as there are handles for them. -/
inductive Step : Pool → Event → Pool → Prop where
  | create {p : Pool} :
      p.shutdown = false → p.scheduler.jobs.size < Handle.invalid.index →
      Step p (.created p.scheduler.create.1.index) { p with scheduler := p.scheduler.create.2 }
  | link {p : Pool} {dependent dependency : Handle} {s : Scheduler} :
      p.shutdown = false → p.scheduler.addDependency dependent dependency = .ok s →
      Step p (.linked dependent.index dependency.index) { p with scheduler := s }
  | refuseLink {p : Pool} {dependent dependency : Handle} {cause : Error} :
      p.shutdown = false → p.scheduler.addDependency dependent dependency = .error cause →
      Step p (.refused cause) p
  | enqueue {p : Pool} {root : Handle} {s : Scheduler} :
      p.shutdown = false → p.scheduler.enqueue root = .ok s →
      Step p (.enqueued root.index) { p with scheduler := s }
  | refuseEnqueue {p : Pool} {root : Handle} {cause : Error} :
      p.shutdown = false → p.scheduler.enqueue root = .error cause →
      Step p (.refused cause) p
  | start {p : Pool} {worker job : Nat} {s : Scheduler} :
      p.workers[worker]? = some .idle → p.scheduler.start? = some (job, s) →
      Step p (.started worker job)
        { p with scheduler := s, workers := p.workers.set worker (.running job) }
  | finish {p : Pool} {worker job : Nat} (panicked : Bool) :
      p.workers[worker]? = some (.running job) →
      Step p (.finished worker job panicked) { p with
        scheduler := p.scheduler.finish job panicked
        workers := p.workers.set worker .idle }
  | shutdown (p : Pool) : Step p .shutdown { p with shutdown := true }
  | exit {p : Pool} {worker : Nat} :
      p.workers[worker]? = some .idle → p.scheduler.ready = [] → p.shutdown = true →
      Step p (.exited worker) { p with workers := p.workers.set worker .exited }

/-- The runs of a pool of `n` workers: what happened, in order, and the pool after it. -/
inductive Run (n : Nat) : List Event → Pool → Prop where
  | start : Run n [] (ofCount n)
  | step {trace : List Event} {e : Event} {p q : Pool} :
      Run n trace p → Step p e q → Run n (trace ++ [e]) q

/-- The pools that can be reached from `n` idle workers. -/
def Reachable (n : Nat) (p : Pool) : Prop :=
  ∃ trace, Run n trace p

end Pool

/-- Runs jobs one after another, in the order they become able to, at most `limit` of them. The
work of a job changes the state `σ` and says whether it panicked. -/
def Scheduler.drainAtMost {σ : Type} (work : Nat → σ → σ × Bool) :
    (limit : Nat) → Scheduler → σ → Scheduler × σ
  | 0, s, state => (s, state)
  | limit + 1, s, state =>
    match s.start? with
    | none => (s, state)
    | some (i, running) =>
      let (state', panicked) := work i state
      drainAtMost work limit (running.finish i panicked) state'

/-- Runs jobs one after another until none can run. A job runs at most once, so there is no need to
look for more of them than there are. -/
def Scheduler.drain {σ : Type} (work : Nat → σ → σ × Bool) (s : Scheduler) (state : σ) :
    Scheduler × σ :=
  s.drainAtMost work s.jobs.size state

end IncrementalBuild.Jobs
