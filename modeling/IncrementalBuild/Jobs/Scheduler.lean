import IncrementalBuild.Graph.Visit

/-!
A graph of jobs and the queue of those that can run. A job runs once all jobs it depends on are
done; `pending` counts those that are not, and each job keeps the list of jobs to tell when it is
done. Every operation is a function on the whole state, and one that is refused leaves it as it was.
-/

namespace IncrementalBuild.Jobs

/-- Refers to a job by its place among all jobs made. -/
structure Handle where
  index : Nat
  deriving DecidableEq, Repr, Hashable

namespace Handle

/-- A handle that refers to no job. -/
def invalid : Handle := ⟨UInt32.size - 1⟩

instance : Inhabited Handle := ⟨invalid⟩

/-- Whether a handle could refer to a job. -/
def isValid (h : Handle) : Bool :=
  h != invalid

/-- A handle as messages show it. -/
def text (h : Handle) : String :=
  if h.isValid then "job#" ++ toString h.index else "job#invalid"

end Handle

/-- Why an operation on the graph is refused, or a job's end is not a success. -/
inductive Error where
  /-- The handle refers to no job of this scheduler. -/
  | invalidHandle (h : Handle)
  /-- The dependency would close a cycle. -/
  | cycle (dependent dependency : Handle)
  /-- The job has been enqueued, so it takes no more dependencies. -/
  | alreadyScheduled (h : Handle)
  /-- The job to wait for was never enqueued. -/
  | notEnqueued (h : Handle)
  /-- So many of the jobs waited for panicked. -/
  | panicked (count : Nat)
  deriving DecidableEq, Repr

/-- The wording of an error. -/
def Error.message : Error → String
  | invalidHandle h => h.text ++ " does not refer to a job"
  | cycle dependent dependency =>
    dependent.text ++ " cannot depend on " ++ dependency.text ++ ": dependency cycle"
  | alreadyScheduled h => h.text ++ " is already scheduled"
  | notEnqueued h => h.text ++ " was never enqueued"
  | panicked count => toString count ++ " job(s) panicked"

/-- How far a job has come. -/
inductive Phase where
  /-- Dependencies can still be added. -/
  | created
  /-- Enqueued; it runs once nothing is pending. -/
  | scheduled
  | running
  | done
  deriving DecidableEq, Repr, Inhabited

/-- A job of the graph. -/
structure Job where
  /-- How many entries of `dependencies` are not done. -/
  pending : Nat
  /-- The jobs to tell when this one is done. -/
  dependents : List Nat
  dependencies : List Nat
  phase : Phase
  panicked : Bool
  deriving DecidableEq, Repr, Inhabited

/-- A job as it is made. -/
def Job.fresh : Job := ⟨0, [], [], .created, false⟩

/-- All jobs made, and those that can run, in the order they became able to. -/
structure Scheduler where
  jobs : Array Job
  ready : List Nat
  deriving DecidableEq, Repr, Inhabited

namespace Scheduler

/-- The scheduler without jobs. -/
def empty : Scheduler := ⟨#[], []⟩

/-- The job at an index; where there is none, a fresh one. -/
def job (s : Scheduler) (i : Nat) : Job :=
  s.jobs[i]?.getD .fresh

/-- Changes the job at an index. -/
def update (s : Scheduler) (i : Nat) (f : Job → Job) : Scheduler :=
  { s with jobs := s.jobs.modify i f }

/-- What a job depends on. -/
def dependenciesOf (s : Scheduler) (i : Nat) : List Nat :=
  (s.job i).dependencies

/-- A job and all it transitively depends on. -/
def closure (s : Scheduler) (i : Nat) : List Nat :=
  Graph.closure s.dependenciesOf s.jobs.size i

/-- Makes a job. -/
def create (s : Scheduler) : Handle × Scheduler :=
  (⟨s.jobs.size⟩, { s with jobs := s.jobs.push .fresh })

/-- Whether a handle refers to a job of this scheduler. -/
def holds (s : Scheduler) (h : Handle) : Bool :=
  h.index < s.jobs.size

/-- Lets `dependent` start only once `dependency` is done. A dependency that is done already is
recorded, but there is nothing to wait for. -/
def addDependency (s : Scheduler) (dependent dependency : Handle) : Except Error Scheduler :=
  if !s.holds dependent then .error (.invalidHandle dependent)
  else if !s.holds dependency then .error (.invalidHandle dependency)
  else if (s.job dependent.index).phase ≠ .created then .error (.alreadyScheduled dependent)
  else if (s.closure dependency.index).contains dependent.index then
    .error (.cycle dependent dependency)
  else
    let s' := s.update dependent.index fun j =>
      { j with dependencies := j.dependencies ++ [dependency.index] }
    if (s.job dependency.index).phase = .done then .ok s'
    else .ok <|
      (s'.update dependency.index fun j =>
        { j with dependents := j.dependents ++ [dependent.index] }).update dependent.index fun j =>
          { j with pending := j.pending + 1 }

/-- The jobs that have been enqueued. -/
def enqueued (s : Scheduler) : List Nat :=
  (List.range s.jobs.size).filter fun i => (s.job i).phase ≠ .created

/-- Schedules a job and all it transitively depends on, as far as they are not scheduled yet; those
with nothing pending can run. -/
def enqueue (s : Scheduler) (root : Handle) : Except Error Scheduler :=
  if !s.holds root then .error (.invalidHandle root)
  else
    let added := Graph.visit s.dependenciesOf s.jobs.size [root.index] s.enqueued
    let scheduled := added.foldl (fun s i => s.update i fun j => { j with phase := .scheduled }) s
    .ok { scheduled with ready := s.ready ++ added.filter fun i => (s.job i).pending = 0 }

/-- Takes the job that has been able to run for longest. -/
def start? (s : Scheduler) : Option (Nat × Scheduler) :=
  match s.ready with
  | [] => none
  | i :: rest => some (i, ({ s with ready := rest }).update i fun j => { j with phase := .running })

/-- Tells a job that one of its dependencies is done. -/
def release (s : Scheduler) (i : Nat) : Scheduler :=
  let s' := s.update i fun j => { j with pending := j.pending - 1 }
  let j := s'.job i
  if j.pending = 0 ∧ j.phase = .scheduled then { s' with ready := s'.ready ++ [i] } else s'

/-- Marks a running job as done, and tells the jobs that depend on it. -/
def finish (s : Scheduler) (i : Nat) (panicked : Bool) : Scheduler :=
  let s' := s.update i fun j => { j with phase := .done, panicked, dependents := [] }
  (s.job i).dependents.foldl release s'

/-- How many of a job and all it transitively depends on panicked. -/
def panickedIn (s : Scheduler) (i : Nat) : Nat :=
  (s.closure i).countP fun j => (s.job j).panicked

/-- What waiting for a job reports once it can return: `none` as long as the job is not done. -/
def waitResult (s : Scheduler) (root : Handle) : Option (Except Error Unit) :=
  if !s.holds root then some (.error (.invalidHandle root))
  else match (s.job root.index).phase with
    | .created => some (.error (.notEnqueued root))
    | .done =>
      let count := s.panickedIn root.index
      some (if count > 0 then .error (.panicked count) else .ok ())
    | _ => none

end Scheduler

end IncrementalBuild.Jobs
