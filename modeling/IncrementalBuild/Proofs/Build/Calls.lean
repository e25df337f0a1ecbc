import IncrementalBuild.Proofs.Build.Plan

/-!
The graph of tasks as the calls that make it, one after another, so that something else can happen
between two of them. Made without interruption they are `plan`.
-/

namespace IncrementalBuild.Build

open Jobs Planning

/-- The calls that make a graph of jobs. What comes after the making of a job is told its handle;
the job of a task is made with its task. -/
inductive Calls (ν : Type) where
  | done (root : Handle)
  | create (task : Option (Build.Task ν)) (next : Handle → Calls ν)
  | link (dependent dependency : Handle) (next : Calls ν)

namespace Calls

variable {ν : Type}

/-- Makes a job wait for another, if there is one. -/
def linkOption (dependent : Handle) : Option Handle → Calls ν → Calls ν
  | some dependency, next => .link dependent dependency next
  | none, next => next

def assign (task : Option (Build.Task ν)) (job : Nat) : Assigned ν :=
  (task.map (job, ·)).toList

/-- Makes all calls at once. -/
def run : Calls ν → Planning (Handle × Assigned ν)
  | .done root => return (root, [])
  | .create task next => do
    let job ← newJob
    let (root, assigned) ← (next job).run
    return (root, assign task job.index ++ assigned)
  | .link dependent dependency next => do
    waitFor dependent dependency
    next.run

/-- The calls for the tasks of one stage, with those that come behind them. -/
def ofTasks (previous : Option Handle) (group : Handle) :
    (last : Option Handle) → List (Build.Task ν) → (Option Handle → Calls ν) → Calls ν
  | last, [], next => next last
  | last, t :: ts, next => .create (some t) fun job =>
    .linkOption job previous <|
      if t.parallel then .link group job <| ofTasks previous group last ts next
      else .link job group <| .linkOption job last <| ofTasks previous group (some job) ts next

def ofStage (previous : Option Handle) (tasks : List (Build.Task ν)) (next : Handle → Calls ν) :
    Calls ν :=
  .create none fun stage => .create none fun group =>
    .linkOption stage previous <| .linkOption group previous <|
      ofTasks previous group none tasks fun last =>
        .link stage group <| .linkOption stage last <| next stage

def ofStages (tasks : List (Build.Task ν)) :
    (previous : Option Handle) → List Stage → (Option Handle → Calls ν) → Calls ν
  | previous, [], next => next previous
  | previous, stage :: stages, next =>
    ofStage previous (tasks.filter fun t => t.stage = stage) fun job =>
      ofStages tasks (some job) stages next

/-- The calls that make the graph of all tasks. -/
def plan (tasks : List (Build.Task ν)) : Calls ν :=
  .create none fun root => ofStages tasks none Stage.all fun last =>
    .linkOption root last <| .done root

theorem run_linkOption (i : Handle) (d : Option Handle) (next : Calls ν) :
    (linkOption i d next).run = (do waitForOption i d; next.run) := by
  cases d with
  | none => rw [linkOption, waitForOption, pure_bind]
  | some d => rw [linkOption, waitForOption, run]

theorem run_ofTasks (previous : Option Handle) (group : Handle) (last : Option Handle)
    (ts : List (Build.Task ν)) (next : Option Handle → Calls ν) :
    (ofTasks previous group last ts next).run = (do
      let (assigned, last) ← planTasks previous group last ts
      let (root, more) ← (next last).run
      return (root, assigned ++ more)) := by
  induction ts generalizing last with
  | nil => simp [ofTasks, planTasks]
  | cons t ts ih =>
    rw [ofTasks, planTasks, run, bind_assoc]
    refine bind_congr fun job => ?_
    rw [run_linkOption]
    cases t.parallel with
    | true => simp [run, ih, assign]
    | false => simp [run, run_linkOption, ih, assign]

theorem run_ofStage (previous : Option Handle) (tasks : List (Build.Task ν))
    (next : Handle → Calls ν) :
    (ofStage previous tasks next).run = (do
      let (stage, assigned) ← planStage previous tasks
      let (root, more) ← (next stage).run
      return (root, assigned ++ more)) := by
  simp [ofStage, planStage, run, run_linkOption, run_ofTasks, assign]

theorem run_ofStages (tasks : List (Build.Task ν)) (previous : Option Handle)
    (stages : List Stage) (next : Option Handle → Calls ν) :
    (ofStages tasks previous stages next).run = (do
      let (last, assigned) ← planStages tasks previous stages
      let (root, more) ← (next last).run
      return (root, assigned ++ more)) := by
  induction stages generalizing previous with
  | nil => simp [ofStages, planStages]
  | cons stage stages ih => simp [ofStages, planStages, run_ofStage, ih]

/-- Without interruption, the calls are the plan. -/
theorem run_plan (tasks : List (Build.Task ν)) : (plan tasks).run = Build.plan tasks := by
  simp [plan, Build.plan, run, run_ofStages, run_linkOption, assign]

/-- All jobs that are linked, and the root, are among those from `first` on, if the handles that are
given are. -/
def Above (first : Nat) : Calls ν → Prop
  | .done root => first ≤ root.index
  | .create _ next => ∀ job, first ≤ job.index → (next job).Above first
  | .link dependent dependency next =>
    first ≤ dependent.index ∧ first ≤ dependency.index ∧ next.Above first

section Above

variable {first : Nat}

theorem above_linkOption {i : Handle} {d : Option Handle} {next : Calls ν}
    (hi : first ≤ i.index) (hd : ∀ l ∈ d, first ≤ l.index) (hnext : next.Above first) :
    (linkOption i d next).Above first := by
  cases d with
  | none => exact hnext
  | some d => exact ⟨hi, hd d rfl, hnext⟩

theorem above_ofTasks {previous : Option Handle} {group : Handle} {last : Option Handle}
    {ts : List (Build.Task ν)} {next : Option Handle → Calls ν}
    (hprevious : ∀ l ∈ previous, first ≤ l.index) (hgroup : first ≤ group.index)
    (hlast : ∀ l ∈ last, first ≤ l.index)
    (hnext : ∀ last : Option Handle, (∀ l ∈ last, first ≤ l.index) → (next last).Above first) :
    (ofTasks previous group last ts next).Above first := by
  induction ts generalizing last with
  | nil => exact hnext last hlast
  | cons t ts ih =>
    intro job hjob
    apply above_linkOption hjob hprevious
    split
    · exact ⟨hgroup, hjob, ih hlast⟩
    · exact ⟨hjob, hgroup, above_linkOption hjob hlast (ih (by simpa using hjob))⟩

theorem above_ofStages {tasks : List (Build.Task ν)} {previous : Option Handle}
    {stages : List Stage} {next : Option Handle → Calls ν}
    (hprevious : ∀ l ∈ previous, first ≤ l.index)
    (hnext : ∀ last : Option Handle, (∀ l ∈ last, first ≤ l.index) → (next last).Above first) :
    (ofStages tasks previous stages next).Above first := by
  induction stages generalizing previous with
  | nil => exact hnext previous hprevious
  | cons stage stages ih =>
    intro job hjob group hgroup
    apply above_linkOption hjob hprevious
    apply above_linkOption hgroup hprevious
    refine above_ofTasks hprevious hgroup (by simp) fun last hlast => ⟨hjob, hgroup, ?_⟩
    exact above_linkOption hjob hlast (ih (by simpa using hjob))

theorem above_plan (first : Nat) (tasks : List (Build.Task ν)) : (plan tasks).Above first := by
  intro root hroot
  exact above_ofStages (by simp) fun last hlast => above_linkOption hroot hlast hroot

end Above

/-- The calls are no more than some number, where making a job counts for `cost`. -/
def Within (cost : Nat) : Calls ν → Nat → Prop
  | .done _, _ => True
  | .create _ next, k => ∃ m, m + cost ≤ k ∧ ∀ job, (next job).Within cost m
  | .link _ _ next, k => ∃ m, m + 1 ≤ k ∧ next.Within cost m

section Within

variable {cost k : Nat}

theorem Within.mono {calls : Calls ν} {l : Nat} (h : calls.Within cost k) (hle : k ≤ l) :
    calls.Within cost l := by
  cases calls with
  | done root => trivial
  | create task next =>
    obtain ⟨m, hm, hnext⟩ := h
    exact ⟨m, Nat.le_trans hm hle, hnext⟩
  | link i d next =>
    obtain ⟨m, hm, hnext⟩ := h
    exact ⟨m, Nat.le_trans hm hle, hnext⟩

theorem within_create {task : Option (Build.Task ν)} {next : Handle → Calls ν}
    (hnext : ∀ job, (next job).Within cost k) : (create task next).Within cost (k + cost) :=
  ⟨k, Nat.le_refl _, hnext⟩

theorem within_link {i d : Handle} {next : Calls ν} (hnext : next.Within cost k) :
    (link i d next).Within cost (k + 1) :=
  ⟨k, Nat.le_refl _, hnext⟩

theorem within_linkOption {i : Handle} {d : Option Handle} {next : Calls ν}
    (hnext : next.Within cost k) : (linkOption i d next).Within cost (k + 1) := by
  cases d with
  | none => exact hnext.mono (Nat.le_succ k)
  | some d => exact within_link hnext

theorem within_ofTasks {next : Option Handle → Calls ν} (hnext : ∀ last, (next last).Within cost k)
    (previous : Option Handle) (group : Handle) (last : Option Handle)
    (ts : List (Build.Task ν)) :
    (ofTasks previous group last ts next).Within cost (k + ts.length * (cost + 3)) := by
  induction ts generalizing last with
  | nil => simpa [ofTasks] using hnext last
  | cons t ts ih =>
    have hle : k + ts.length * (cost + 3) + 3 + cost = k + (t :: ts).length * (cost + 3) := by
      rw [List.length_cons, Nat.succ_mul]
      omega
    rw [← hle]
    refine within_create fun job => within_linkOption ?_
    split
    · exact (within_link (ih last)).mono (Nat.le_succ _)
    · exact within_link (within_linkOption (ih _))

theorem within_ofStage {next : Handle → Calls ν} (hnext : ∀ stage, (next stage).Within cost k)
    (previous : Option Handle) (ts : List (Build.Task ν)) :
    (ofStage previous ts next).Within cost
      (k + 1 + 1 + ts.length * (cost + 3) + 1 + 1 + cost + cost) := by
  refine within_create fun stage => within_create fun group => ?_
  refine within_linkOption (within_linkOption (within_ofTasks (fun last => ?_) _ _ _ _))
  exact within_link (within_linkOption (hnext stage))

theorem within_ofStages (cost k : Nat) (tasks : List (Build.Task ν)) (stages : List Stage) :
    ∃ l, ∀ next : Option Handle → Calls ν, (∀ last, (next last).Within cost k) →
      ∀ previous, (ofStages tasks previous stages next).Within cost l := by
  induction stages with
  | nil => exact ⟨k, fun next hnext => hnext⟩
  | cons stage stages ih =>
    obtain ⟨l, hl⟩ := ih
    exact ⟨_, fun next hnext previous =>
      within_ofStage (fun job => hl next hnext (some job)) previous _⟩

theorem within_plan (cost : Nat) (tasks : List (Build.Task ν)) :
    ∃ k, (plan tasks).Within cost k := by
  obtain ⟨l, hl⟩ := within_ofStages cost 1 tasks Stage.all
  refine ⟨_, within_create fun root => hl _ (fun last => ?_) none⟩
  have hdone : (done root : Calls ν).Within cost 0 := trivial
  exact within_linkOption hdone

end Within

theorem size_le_of_run {calls : Calls ν} {s t : Scheduler} {result : Handle × Assigned ν}
    (h : calls.run.run s = .ok (result, t)) : s.jobs.size ≤ t.jobs.size := by
  induction calls generalizing s result with
  | done root =>
    obtain ⟨-, rfl⟩ := run_pure_eq_ok.1 h
    exact Nat.le_refl _
  | create task next ih =>
    obtain ⟨job, u, hjob, h⟩ := run_bind_eq_ok.1 h
    obtain ⟨⟨root, more⟩, v, hrun, h⟩ := run_bind_eq_ok.1 h
    obtain ⟨-, rfl⟩ := run_pure_eq_ok.1 h
    obtain ⟨rfl, rfl⟩ := run_newJob_eq_ok.1 hjob
    exact Nat.le_trans (Grown.create s).size_le (ih _ hrun)
  | link i d next ih =>
    obtain ⟨_, u, hwait, h⟩ := run_bind_eq_ok.1 h
    exact Nat.le_trans (grown_of_waitFor hwait).1.size_le (ih h)

end Calls

end IncrementalBuild.Build
