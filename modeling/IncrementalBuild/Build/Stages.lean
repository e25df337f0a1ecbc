import IncrementalBuild.Build.Task
import IncrementalBuild.Jobs.Pool

/-!
Running tasks as a graph of jobs. Each stage has a job that is done when the stage is, and a group
for its parallel tasks; every job of a stage waits for the one before it. Sequential tasks wait for
the group and for one another, in the order they are listed.
-/

namespace IncrementalBuild.Build

open Jobs

/-- Something that adds to a graph of jobs, and may be refused. -/
abbrev Planning (α : Type) := StateT Scheduler (Except Jobs.Error) α

namespace Planning

/-- Makes a job. -/
def newJob : Planning Handle := do
  let (h, s) := (← get).create
  set s
  return h

/-- Lets a job wait for another. -/
def waitFor (dependent dependency : Handle) : Planning Unit := do
  set (← (← get).addDependency dependent dependency)

/-- Lets a job wait for another, if there is one. -/
def waitForOption (dependent : Handle) : Option Handle → Planning Unit
  | some dependency => waitFor dependent dependency
  | none => pure ()

end Planning

open Planning

/-- The jobs of tasks, by their indices. -/
abbrev Assigned (ν : Type) := List (Nat × Build.Task ν)

/-- Makes jobs for the tasks of one stage. The result is the jobs of the tasks, and the last of the
sequential ones. -/
def planTasks {ν : Type} (previous : Option Handle) (group : Handle) :
    (last : Option Handle) → List (Build.Task ν) → Planning (Assigned ν × Option Handle)
  | last, [] => return ([], last)
  | last, t :: ts => do
    let job ← newJob
    waitForOption job previous
    if t.parallel then
      waitFor group job
      let (assigned, last) ← planTasks previous group last ts
      return ((job.index, t) :: assigned, last)
    else
      waitFor job group
      waitForOption job last
      let (assigned, last) ← planTasks previous group (some job) ts
      return ((job.index, t) :: assigned, last)

/-- Makes the jobs of one stage: that of the stage, and those of its tasks. -/
def planStage {ν : Type} (previous : Option Handle) (tasks : List (Build.Task ν)) :
    Planning (Handle × Assigned ν) := do
  let stage ← newJob
  let group ← newJob
  waitForOption stage previous
  waitForOption group previous
  let (assigned, last) ← planTasks previous group none tasks
  waitFor stage group
  waitForOption stage last
  return (stage, assigned)

/-- Makes the jobs of some stages, the first of which waits for `previous`. The result is the job of
the last stage, and those of the tasks. -/
def planStages {ν : Type} (tasks : List (Build.Task ν)) :
    (previous : Option Handle) → List Stage → Planning (Option Handle × Assigned ν)
  | previous, [] => return (previous, [])
  | previous, stage :: stages => do
    let (job, assigned) ← planStage previous (tasks.filter fun t => t.stage = stage)
    let (last, rest) ← planStages tasks (some job) stages
    return (last, assigned ++ rest)

/-- Makes the graph of all tasks: the job that is done when all of them are, and their jobs. -/
def plan {ν : Type} (tasks : List (Build.Task ν)) : Planning (Handle × Assigned ν) := do
  let root ← newJob
  let (last, assigned) ← planStages tasks none Stage.all
  waitForOption root last
  return (root, assigned)

/-- How far the tasks of a build have come. -/
structure Progress (ν : Type) where
  world : World ν
  /-- A task has failed, so no further one is executed. -/
  failed : Bool
  /-- How many positions have been given. -/
  positions : Nat

/-- Executes a task unless one has failed before, and says whether it panicked. A failure is
reported at once. -/
def Task.step {ν : Type} (t : Build.Task ν) (total : Nat) (p : Progress ν) : Progress ν × Bool :=
  if p.failed then (p, false)
  else
    let position := if t.wantsPosition then some ⟨p.positions + 1, total⟩ else none
    let positions := if t.wantsPosition then p.positions + 1 else p.positions
    match t.execute position p.world with
    | (.done, world) => (⟨world, false, positions⟩, false)
    | (.panicked, world) => (⟨world, false, positions⟩, true)
    | (.failed cause, world) =>
      let console := world.console.error (t.description ++ ": " ++ cause.message)
      (⟨{ world with console }, true, positions⟩, false)

/-- What the job at an index does. -/
def jobStep {ν : Type} (assigned : Assigned ν) (total job : Nat) (p : Progress ν) :
    Progress ν × Bool :=
  match assigned.lookup job with
  | some t => t.step total p
  | none => (p, false)

/-- How many tasks want a position. -/
def positionCount {ν : Type} (tasks : List (Build.Task ν)) : Nat :=
  tasks.countP fun t => t.wantsPosition

/-- Runs tasks stage by stage and waits for all of them. -/
def runTasks {ν : Type} (tasks : List (Build.Task ν)) : Action ν Unit := do
  let w ← get
  match (plan tasks).run w.scheduler with
  | .error e => throw (.jobs e)
  | .ok ((root, assigned), planned) =>
    match planned.enqueue root with
    | .error e => throw (.jobs e)
    | .ok enqueued =>
      let (scheduler, p) :=
        enqueued.drain (jobStep assigned (positionCount tasks)) ⟨w, false, 0⟩
      set { p.world with scheduler }
      match scheduler.waitResult root with
      | some (.error e) => throw (.taskPanicked e)
      | _ => if p.failed then throw .tasksFailed

end IncrementalBuild.Build
