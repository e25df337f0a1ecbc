import IncrementalBuild.Proofs.Build.Ordering
import IncrementalBuild.Proofs.Jobs.Waiting

/-!
The work of tasks in a run of a crew: how far each has come says all that happened in it. Once
waiting has ended the work of all tasks is over, and how they ended decides what the client returns.
-/

namespace IncrementalBuild.Build

open Jobs Relation

variable {ν : Type}

/-- Whether something happened in the work of a job. -/
def Occurrence.about (job : Nat) : Occurrence → Bool
  | .skipped i | .cleared i | .begun i _ | .ended i _ | .raised i => i = job
  | .pool _ | .waited _ | .returned _ => false

/-- All that has happened in the work of a job when it has come so far. -/
inductive Told (job : Nat) : Activity → List Occurrence → Prop where
  | fresh : Told job .fresh []
  | cleared : Told job .cleared [.cleared job]
  | executing (position : Option Position) :
      Told job (.executing position) [.cleared job, .begun job position]
  | failing (position : Option Position) (cause : Failure) :
      Told job .failing [.cleared job, .begun job position, .ended job (.failed cause)]
  | skipped : Told job (.complete false) [.skipped job]
  | done (position : Option Position) :
      Told job (.complete false) [.cleared job, .begun job position, .ended job .done]
  | panicked (position : Option Position) :
      Told job (.complete true) [.cleared job, .begun job position, .ended job .panicked]
  | raised (position : Option Position) (cause : Failure) : Told job (.complete false)
      [.cleared job, .begun job position, .ended job (.failed cause), .raised job]

section Told

variable {history : List Occurrence} {j : Nat} {a : Activity} {panicked : Bool}

theorem Told.panicked_iff (h : Told j a history) (ha : a = .complete panicked) :
    .ended j .panicked ∈ history ↔ panicked = true := by
  cases h <;> simp_all

theorem Told.raised_of_failed (h : Told j a history) (ha : a = .complete panicked)
    {cause : Failure} (hfailed : .ended j (.failed cause) ∈ history) : .raised j ∈ history := by
  cases h <;> simp_all

theorem Told.failed_of_raised (h : Told j a history) (hraised : .raised j ∈ history) :
    ∃ cause, .ended j (.failed cause) ∈ history := by
  cases h <;> simp_all

end Told

/-- The jobs of the tasks that panicked. -/
def PanickedTasks (trace : List Occurrence) : Set Nat :=
  {j | .ended j .panicked ∈ trace}

/-- What the client returns, by how the tasks have ended: panics come before failures. -/
inductive Outcome (trace : List Occurrence) : Except Failure Unit → Prop where
  | panicked : (PanickedTasks trace).Nonempty →
      Outcome trace (.error (.taskPanicked (.panicked (PanickedTasks trace).ncard)))
  | failed {job : Nat} {cause : Failure} : PanickedTasks trace = ∅ →
      .ended job (.failed cause) ∈ trace → Outcome trace (.error .tasksFailed)
  | ok : PanickedTasks trace = ∅ → (∀ job cause, .ended job (.failed cause) ∉ trace) →
      Outcome trace (.ok ())

theorem panickedTasks_append {trace : List Occurrence} {o : Occurrence}
    (ho : ∀ job r, .ended job r ≠ o) : PanickedTasks (trace ++ [o]) = PanickedTasks trace := by
  ext j
  simp [PanickedTasks, ho]

/-- Only the end of a task counts. -/
theorem Outcome.append {trace : List Occurrence} {result : Except Failure Unit} {o : Occurrence}
    (h : Outcome trace result) (ho : ∀ job r, .ended job r ≠ o) :
    Outcome (trace ++ [o]) result := by
  have hsame : PanickedTasks (trace ++ [o]) = PanickedTasks trace := panickedTasks_append ho
  cases h with
  | panicked hpanicked =>
    rw [← hsame] at hpanicked ⊢
    exact .panicked hpanicked
  | failed hnone hended => exact .failed (hsame.trans hnone) (List.mem_append_left _ hended)
  | ok hnone hfailed => exact .ok (hsame.trans hnone) (by simp [hfailed, ho])

namespace Crew

variable {start c c' : Crew ν} {o : Occurrence} {trace : List Occurrence} {j : Nat}

/-- What happens in the work of a job happens while a worker runs it. -/
theorem Step.doing (h : c.Step o c') (ho : o.about j = true) : ∃ t a, c.Doing j t a := by
  cases h with
  | skip hdoing | clear hdoing | begin hdoing | execute _ hdoing | raise hdoing =>
    obtain rfl := of_decide_eq_true ho
    exact ⟨_, _, hdoing⟩
  | create | link | refuseLink | enqueue | refuseEnqueue | start | finish | wait | answer =>
    cases ho

/-- Nothing else changes how far the work of a job has come. -/
theorem Step.activity_eq (h : c.Step o c') (ho : o.about j = false) :
    c'.activity j = c.activity j := by
  cases h with
  | skip | clear | begin | execute | raise =>
    exact Function.update_of_ne (fun heq => of_decide_eq_false ho heq.symm) _ _
  | create | link | refuseLink | enqueue | refuseEnqueue | start | finish | wait | answer => rfl

theorem Step.told (h : c.Step o c') (ho : o.about j = true) {history : List Occurrence}
    (htold : Told j (c.activity j) history) : Told j (c'.activity j) (history ++ [o]) := by
  cases h with
  | skip hdoing _ =>
    obtain rfl := of_decide_eq_true ho
    rw [hdoing.activity_eq] at htold
    cases htold
    simpa [advance] using Told.skipped
  | clear hdoing _ =>
    obtain rfl := of_decide_eq_true ho
    rw [hdoing.activity_eq] at htold
    cases htold
    simpa [advance] using Told.cleared
  | begin hdoing =>
    obtain rfl := of_decide_eq_true ho
    rw [hdoing.activity_eq] at htold
    cases htold
    simpa [advance] using Told.executing _
  | @execute _ t position w hdoing =>
    obtain rfl := of_decide_eq_true ho
    rw [hdoing.activity_eq] at htold
    cases htold
    generalize (t.execute position w).1 = result
    cases result with
    | done => simpa [advance, afterResult] using Told.done position
    | failed cause => simpa [advance, afterResult] using Told.failing position cause
    | panicked => simpa [advance, afterResult] using Told.panicked position
  | raise hdoing =>
    obtain rfl := of_decide_eq_true ho
    rw [hdoing.activity_eq] at htold
    cases htold with
    | failing position cause => simpa [advance] using Told.raised position cause
  | create | link | refuseLink | enqueue | refuseEnqueue | start | finish | wait | answer =>
    cases ho

theorem Run.told (h : start.Run trace c) (hstart : start.activity j = .fresh) :
    Told j (c.activity j) (trace.filter (Occurrence.about j)) := by
  induction h with
  | start =>
    rw [hstart]
    exact .fresh
  | @step trace o c c' hrun hstep ih =>
    rw [List.filter_append]
    cases ho : o.about j with
    | true => simpa [ho] using hstep.told ho ih
    | false => simpa [ho, hstep.activity_eq ho] using ih

theorem Step.failed_mono (h : c.Step o c') (hfailed : c.failed = true) : c'.failed = true := by
  cases h <;> first | exact hfailed | rfl

/-- Only the work of a job that failed makes a failure known. -/
theorem Step.failed_iff (h : c.Step o c') :
    c'.failed = true ↔ c.failed = true ∨ ∃ j, o = .raised j := by
  cases h with
  | raise => exact iff_of_true rfl (.inr ⟨_, rfl⟩)
  | _ => simp [advance]

theorem Run.failed_iff (h : start.Run trace c) (hstart : start.failed = false) :
    c.failed = true ↔ ∃ j, .raised j ∈ trace := by
  induction h with
  | start => simp [hstart]
  | step _ hstep ih =>
    rw [hstep.failed_iff, ih]
    simp [exists_or, eq_comm]

theorem Run.failed_of_skipped (h : start.Run trace c) (hmem : .skipped j ∈ trace) :
    c.failed = true := by
  induction h with
  | start => simp at hmem
  | step _ hstep ih =>
    rcases List.mem_append.1 hmem with hmem | hmem
    · exact hstep.failed_mono (ih hmem)
    · obtain rfl := List.mem_singleton.1 hmem
      cases hstep with
      | skip _ hfailed => exact hfailed

theorem Step.lookup_mono (h : c.Step o c') {task : Build.Task ν}
    (hlookup : c.assigned.lookup j = some task) : c'.assigned.lookup j = some task := by
  cases h with
  | create => rw [List.lookup_append, hlookup, Option.some_or]
  | _ => exact hlookup

theorem Run.lookup_mono (h : start.Run trace c) {task : Build.Task ν}
    (hlookup : start.assigned.lookup j = some task) : c.assigned.lookup j = some task := by
  induction h with
  | start => exact hlookup
  | step _ hstep ih => exact hstep.lookup_mono ih

/-- A task ends as it can end in some world. -/
theorem Run.exists_execute (h : start.Run trace c) {result : TaskResult}
    (hmem : .ended j result ∈ trace) : ∃ task, c.assigned.lookup j = some task ∧
      ∃ position w, (task.execute position w).1 = result := by
  obtain ⟨earlier, later, htrace⟩ := List.append_of_mem hmem
  obtain ⟨d, d', -, hstep, hlater⟩ := h.split htrace
  cases hstep with
  | execute w hdoing => exact ⟨_, hlater.lookup_mono hdoing.task_eq, _, w, rfl⟩

section OfTasks

variable {n : Nat} {before : List Event} {p : Pool} {tasks : List (Build.Task ν)} {root : Handle}
  {assigned : Assigned ν} {t : Scheduler} {x : Nat × Build.Task ν}

theorem Run.started_mono (hp : Prepared n before p tasks root assigned t)
    (h : (ofTasks p tasks).Run trace c) (hstep : c.Step o c')
    (hstarted : c.pool.scheduler.Started j) : c'.pool.scheduler.Started j := by
  obtain ⟨w, hmem⟩ := ((h.agrees hp).ran_iff j).2 hstarted
  refine (((h.step hstep).agrees hp).ran_iff j).1 ⟨w, ?_⟩
  rw [poolEvents_append, ← List.append_assoc]
  exact List.mem_append_left _ hmem

theorem Doing.running (hp : Prepared n before p tasks root assigned t)
    (h : (ofTasks p tasks).Run trace c) {task : Build.Task ν} {a : Activity}
    (hdoing : c.Doing j task a) : (c.pool.scheduler.job j).phase = .running :=
  ((h.agrees hp).running_iff j).1 hdoing.runs

theorem Run.fresh_of_not_started (hp : Prepared n before p tasks root assigned t)
    (h : (ofTasks p tasks).Run trace c) (hj : ¬ c.pool.scheduler.Started j) :
    c.activity j = .fresh := by
  induction h with
  | start => rfl
  | @step trace o c c' hrun hstep ih =>
    have hnot : ¬ c.pool.scheduler.Started j := fun hstarted =>
      hj (hrun.started_mono hp hstep hstarted)
    rw [hstep.activity_eq, ih hnot]
    rw [Bool.eq_false_iff]
    intro ho
    obtain ⟨task, a, hdoing⟩ := hstep.doing ho
    exact hnot (.inl (hdoing.running hp hrun))

theorem Doing.mem (hp : Prepared n before p tasks root assigned t)
    (h : (ofTasks p tasks).Run trace c) {task : Build.Task ν} {a : Activity}
    (hdoing : c.Doing j task a) : (j, task) ∈ assigned :=
  (h.follows hp).1.sublist.subset (mem_of_lookup hdoing.task_eq)

theorem Run.exists_task (hp : Prepared n before p tasks root assigned t)
    (h : (ofTasks p tasks).Run trace c) (hmem : o ∈ trace) (ho : o.about j = true) :
    ∃ task, (j, task) ∈ assigned := by
  obtain ⟨earlier, later, htrace⟩ := List.append_of_mem hmem
  obtain ⟨d, d', hearlier, hstep, -⟩ := h.split htrace
  obtain ⟨task, a, hdoing⟩ := hstep.doing ho
  exact ⟨task, hdoing.mem hp hearlier⟩

/-- A task does not end as none of the tasks can end. -/
theorem Run.not_ended (hp : Prepared n before p tasks root assigned t) {result : TaskResult}
    (hnone : ∀ task ∈ tasks, ∀ position w, (task.execute position w).1 ≠ result)
    (h : (ofTasks p tasks).Run trace c) : .ended j result ∉ trace := by
  intro hmem
  obtain ⟨task, hlookup, position, w, hresult⟩ := h.exists_execute hmem
  have hassigned := (h.follows hp).1.sublist.subset (mem_of_lookup hlookup)
  have htask := (hp.blueprint.planned.mem_iff task).1
    (List.mem_map_of_mem (f := Prod.snd) hassigned)
  exact hnone task htask position w hresult

/-- A job of a task that is scheduled or further was made by a client that has made all others. -/
theorem Run.assigned_of_enqueued (hp : Prepared n before p tasks root assigned t)
    (h : (ofTasks p tasks).Run trace c) (hx : x ∈ assigned)
    (henqueued : c.pool.scheduler.Enqueued x.1) :
    (∀ calls, c.client ≠ .making calls) ∧ c.assigned = assigned := by
  have hfollows := (h.follows hp).1
  have hmade : ∀ calls, c.client ≠ .making calls := by
    intro calls hcalls
    obtain ⟨-, u, rest, -, -, hshadow⟩ := hfollows.making calls hcalls
    exact henqueued (hshadow.created x.1 (hp.blueprint.planned.index_ge x hx))
  exact ⟨hmade, (hfollows.made hmade).1⟩

/-- Whether a job is done, and whether it panicked, only changes when it is finished. -/
theorem Step.finish_cases {events : List Event} (h : c.Step o c') (hagrees : c.pool.Agrees events)
    (hopen : c.pool.shutdown = false) (j : Nat) :
    (((c'.pool.scheduler.job j).phase = .done ↔ (c.pool.scheduler.job j).phase = .done) ∧
        (c'.pool.scheduler.job j).panicked = (c.pool.scheduler.job j).panicked) ∨
      ∃ panicked, (c.pool.scheduler.job j).phase = .running ∧ c.CanFinish j panicked ∧
        (c'.pool.scheduler.job j).panicked = panicked ∧ c'.activity = c.activity := by
  rcases h.pool_cases with ⟨e, rfl, hpoolStep⟩ | ⟨-, hsame⟩
  · rcases hagrees.finish_cases (hpoolStep hopen) j with
      ⟨-, hsame⟩ | ⟨w, panicked, rfl, hrunning, -, hpanicked⟩
    · exact .inl hsame
    · cases h with
      | finish _ hcan => exact .inr ⟨panicked, hrunning, hcan, hpanicked, rfl⟩
  · rw [hsame]
    exact .inl ⟨Iff.rfl, rfl⟩

/-- The work of a job that is done is over, and panicked exactly if the job is marked so. -/
theorem Run.complete_of_done (hp : Prepared n before p tasks root assigned t)
    (h : (ofTasks p tasks).Run trace c) (hx : x ∈ assigned)
    (hdone : (c.pool.scheduler.job x.1).phase = .done) :
    c.activity x.1 = .complete (c.pool.scheduler.job x.1).panicked := by
  have hplanned := hp.blueprint.planned
  induction h with
  | start =>
    have hcreated := created_of_size_le (hplanned.index_ge x hx)
    simp only [ofTasks] at hdone
    rw [hcreated] at hdone
    cases hdone
  | @step trace o c c' hrun hstep ih =>
    rcases hstep.finish_cases (hrun.agrees hp) (hrun.takes_calls hp) x.1 with
      ⟨hiff, hmark⟩ | ⟨panicked, hrunning, hcan, hmark, hactivity⟩
    · -- The job was done before, so nobody works on it.
      have hold := hiff.1 hdone
      rw [hstep.activity_eq, hmark]
      · exact ih hold
      · rw [Bool.eq_false_iff]
        intro ho
        obtain ⟨task, a, hdoing⟩ := hstep.doing ho
        rw [hdoing.running hp hrun] at hold
        cases hold
    · have henqueued : c.pool.scheduler.Enqueued x.1 := by simp [Scheduler.Enqueued, hrunning]
      rw [CanFinish, (hrun.assigned_of_enqueued hp hx henqueued).2,
        lookup_of_mem hplanned.nodup hx] at hcan
      rwa [hactivity, hmark]

theorem Step.first_eq (h : c.Step o c') : c'.first = c.first := by
  cases h <;> rfl

theorem Run.first_eq (h : start.Run trace c) : c.first = start.first := by
  induction h with
  | start => rfl
  | step _ hstep ih => rw [hstep.first_eq, ih]

theorem Run.panicked_iff (h : start.Run trace c) (hfresh : start.activity j = .fresh)
    {panicked : Bool} (hcomplete : c.activity j = .complete panicked) :
    .ended j .panicked ∈ trace ↔ panicked = true := by
  have habout : (Occurrence.ended j .panicked).about j = true := decide_eq_true rfl
  rw [← (h.told hfresh).panicked_iff hcomplete, List.mem_filter, and_iff_left habout]

/-- A job of the client that is marked as panicked is that of a task that did. -/
theorem Run.ended_of_marked (hp : Prepared n before p tasks root assigned t)
    (h : (ofTasks p tasks).Run trace c) (hj : p.scheduler.jobs.size ≤ j)
    (hmarked : (c.pool.scheduler.job j).panicked = true) : .ended j .panicked ∈ trace := by
  induction h with
  | start =>
    simp only [ofTasks] at hmarked
    rw [Scheduler.job_of_size_le hj] at hmarked
    cases hmarked
  | @step trace o c c' hrun hstep ih =>
    apply List.mem_append_left
    rcases hstep.finish_cases (hrun.agrees hp) (hrun.takes_calls hp) j with
      ⟨-, hsame⟩ | ⟨panicked, -, hcan, hpanicked, -⟩
    · exact ih (by rwa [← hsame])
    · obtain rfl : panicked = true := by rw [← hpanicked, hmarked]
      unfold CanFinish at hcan
      split at hcan
      · exact (hrun.panicked_iff rfl hcan).2 rfl
      · cases hcan (by rw [hrun.first_eq]; exact hj)

/-- The jobs of the client wait for no jobs of others. -/
theorem Run.dependsOn_ge (hp : Prepared n before p tasks root assigned t)
    (h : (ofTasks p tasks).Run trace c) {i d : Nat} (hi : p.scheduler.jobs.size ≤ i)
    (hd : c.pool.scheduler.DependsOn i d) : p.scheduler.jobs.size ≤ d := by
  induction h generalizing i d with
  | start =>
    have hlt := Scheduler.lt_size_of_dependsOn hd
    simp only [ofTasks] at hlt
    omega
  | @step trace o c c' hrun hstep ih =>
    have hsame (hdepends : c'.pool.scheduler.dependenciesOf = c.pool.scheduler.dependenciesOf) :
        p.scheduler.jobs.size ≤ d := ih hi (by rwa [← Scheduler.dependsOn_congr hdepends])
    cases hstep with
    | create _ hevent =>
      cases hevent with
      | create => exact hsame (Scheduler.dependenciesOf_create _)
    | link hclient hevent =>
      obtain ⟨⟨-, hdependency, -⟩, -⟩ :=
        (hrun.follows hp).1.making _ hclient
      rcases (hevent.linking.dependsOn_iff i d).1 hd with hold | ⟨-, rfl⟩
      · exact ih hi hold
      · exact hdependency
    | enqueue _ hevent =>
      obtain ⟨added, hscheduling⟩ := hevent.scheduling (hrun.agrees hp).exact
      exact hsame hscheduling.dependenciesOf_eq
    | start hevent => exact hsame hevent.taking.dependenciesOf_eq
    | finish hevent _ =>
      refine hsame ?_
      rw [hevent.finishing.2, Scheduler.dependenciesOf_finish]
    | refuseLink | refuseEnqueue | skip | clear | begin | execute | raise | wait | answer =>
      exact hsame rfl

theorem Run.reaches_ge (hp : Prepared n before p tasks root assigned t)
    (h : (ofTasks p tasks).Run trace c) {i d : Nat} (hi : p.scheduler.jobs.size ≤ i)
    (hpath : ReflTransGen c.pool.scheduler.DependsOn i d) : p.scheduler.jobs.size ≤ d := by
  induction hpath with
  | refl => exact hi
  | tail _ hd ih => exact h.dependsOn_ge hp ih hd

/-- When waiting ends, the jobs behind the root that are marked as panicked are those of the tasks
that did. -/
theorem Run.marked_eq (hp : Prepared n before p tasks root assigned t)
    (h : (ofTasks p tasks).Run trace c) (hmade : ∀ calls, c.client ≠ .making calls)
    (hdone : ∀ x ∈ assigned, (c.pool.scheduler.job x.1).phase = .done) :
    {j | ReflTransGen c.pool.scheduler.DependsOn root.index j ∧
      (c.pool.scheduler.job j).panicked = true} = PanickedTasks trace := by
  obtain ⟨-, -, hdepends, -⟩ := (h.follows hp).1.made hmade
  ext j
  constructor
  · rintro ⟨hpath, hmarked⟩
    exact h.ended_of_marked hp (h.reaches_ge hp hp.blueprint.root_lt.1 hpath) hmarked
  · intro hended
    obtain ⟨task, htask⟩ := h.exists_task hp hended (decide_eq_true rfl)
    have hcomplete := h.complete_of_done hp htask (hdone _ htask)
    refine ⟨?_, (h.panicked_iff rfl hcomplete).1 hended⟩
    rw [Scheduler.dependsOn_congr hdepends]
    exact (planned_plan hp.blueprint.run_eq).2.2.1 _ htask

/-- Waiting reports how many tasks panicked. -/
theorem Run.waited_eq (hp : Prepared n before p tasks root assigned t)
    (h : (ofTasks p tasks).Run trace c) {result : Except Jobs.Error Unit}
    (hstep : c.Step (.waited result) c') :
    (PanickedTasks trace).Finite ∧ result = if (PanickedTasks trace).ncard > 0 then
      .error (.panicked (PanickedTasks trace).ncard) else .ok () := by
  obtain ⟨-, -, hdone, hresult⟩ := h.done_of_waited hp hstep
  have hmade : ∀ calls, c.client ≠ .making calls := by
    cases hstep with
    | wait hclient _ => simp [hclient]
  obtain ⟨-, hsize, -, -⟩ := (h.follows hp).1.made hmade
  obtain ⟨hfinite, hcount⟩ := (h.agrees hp).exact.panickedIn_eq_ncard
    (hsize.symm ▸ hp.blueprint.root_lt.2)
  rw [h.marked_eq hp hmade hdone] at hfinite hcount
  exact ⟨hfinite, by rw [hresult, hcount]⟩

theorem Run.done_of_answered (hp : Prepared n before p tasks root assigned t)
    (h : (ofTasks p tasks).Run trace c) (hanswered : c.Answered) (hx : x ∈ assigned) :
    (c.pool.scheduler.job x.1).phase = .done := by
  obtain ⟨result, hmem⟩ := h.exists_waited (h.follows hp).2 hanswered
  obtain ⟨earlier, later, rfl⟩ := List.append_of_mem hmem
  obtain ⟨honce, -⟩ := (h.finished_once hp).2 x hx
  by_contra hnot
  have hcount := h.countP_finishes hp hx
  rw [if_neg hnot, poolEvents_append, List.countP_append] at hcount
  omega

/-- Nobody works on a task once waiting has ended. -/
theorem Doing.not_answered (hp : Prepared n before p tasks root assigned t)
    (h : (ofTasks p tasks).Run trace c) {task : Build.Task ν} {a : Activity}
    (hdoing : c.Doing j task a) : ¬ c.Answered := by
  intro hanswered
  have hdone := h.done_of_answered hp hanswered (hdoing.mem hp h)
  rw [hdoing.running hp h] at hdone
  cases hdone

/-- A task that failed has made it known by the time its job is done. -/
theorem Run.failed_of_ended (hp : Prepared n before p tasks root assigned t)
    (h : (ofTasks p tasks).Run trace c) {cause : Failure}
    (hended : .ended j (.failed cause) ∈ trace) (hdone : (c.pool.scheduler.job j).phase = .done) :
    c.failed = true := by
  obtain ⟨task, htask⟩ := h.exists_task hp hended (decide_eq_true rfl)
  have hcomplete := h.complete_of_done hp htask hdone
  have hfailed : .ended j (.failed cause) ∈ trace.filter (Occurrence.about j) :=
    List.mem_filter.2 ⟨hended, decide_eq_true rfl⟩
  have hraised := (h.told (j := j) rfl).raised_of_failed hcomplete hfailed
  exact (h.failed_iff rfl).2 ⟨j, (List.mem_filter.1 hraised).1⟩

theorem Run.exists_ended_of_failed (h : (ofTasks p tasks).Run trace c)
    (hfailed : c.failed = true) : ∃ j cause, .ended j (.failed cause) ∈ trace := by
  obtain ⟨j, hraised⟩ := (h.failed_iff rfl).1 hfailed
  obtain ⟨cause, hended⟩ := (h.told (j := j) rfl).failed_of_raised
    (List.mem_filter.2 ⟨hraised, decide_eq_true rfl⟩)
  exact ⟨j, cause, (List.mem_filter.1 hended).1⟩

theorem Run.failed_iff_ended (hp : Prepared n before p tasks root assigned t)
    (h : (ofTasks p tasks).Run trace c) (hanswered : c.Answered) :
    c.failed = true ↔ ∃ j cause, .ended j (.failed cause) ∈ trace := by
  refine ⟨h.exists_ended_of_failed, ?_⟩
  rintro ⟨j, cause, hended⟩
  obtain ⟨task, htask⟩ := h.exists_task hp hended (decide_eq_true rfl)
  exact h.failed_of_ended hp hended (h.done_of_answered hp hanswered htask)

/-- How the tasks have ended decides what the client returns. -/
theorem Run.outcome (hp : Prepared n before p tasks root assigned t)
    (h : (ofTasks p tasks).Run trace c) :
    (c.client = .waited → PanickedTasks trace = ∅) ∧
      ∀ result, c.client = .returned result → Outcome trace result := by
  induction h with
  | start => simp [ofTasks]
  | @step trace o c c' hrun hstep ih =>
    obtain ⟨hwaited, hreturned⟩ := ih
    have hnone := ((hrun.step hstep).follows hp).2
    cases hstep with
    | create | link | enqueue => simp
    | refuseLink | refuseEnqueue => exact absurd List.mem_concat_self (hnone _)
    | start | finish =>
      exact ⟨fun hclient => by rw [panickedTasks_append (by simp), hwaited hclient],
        fun result hclient => (hreturned result hclient).append (by simp)⟩
    | skip hdoing | clear hdoing | begin hdoing | execute _ hdoing | raise hdoing =>
      have hbusy := hdoing.not_answered hp hrun
      exact ⟨fun hclient => absurd (.inl hclient) hbusy,
        fun result hclient => absurd (.inr ⟨result, hclient⟩) hbusy⟩
    | wait hclient hwait =>
      obtain ⟨hfinite, rfl⟩ := hrun.waited_eq hp (.wait hclient hwait)
      rw [panickedTasks_append (by simp)]
      split
      next hpos =>
        refine ⟨by simp [afterWait], fun result hresult => ?_⟩
        cases hresult
        exact (Outcome.panicked (Set.nonempty_of_ncard_ne_zero (by omega))).append (by simp)
      next hzero =>
        exact ⟨fun _ => (Set.ncard_eq_zero hfinite).1 (by omega), by simp [afterWait]⟩
    | answer hclient =>
      refine ⟨by simp, fun result hresult => ?_⟩
      cases hresult
      refine Outcome.append ?_ (by simp)
      have hiff := hrun.failed_iff_ended hp (.inl hclient)
      unfold verdict
      split
      next hfailed =>
        obtain ⟨j, cause, hended⟩ := hiff.1 hfailed
        exact .failed (hwaited hclient) hended
      next hfailed =>
        exact .ok (hwaited hclient) fun j cause hended => hfailed (hiff.2 ⟨j, cause, hended⟩)

/-- Once waiting has ended, the jobs of all tasks are done, and what the client returns is what the
flag says. -/
structure Settled (assigned : Assigned ν) (c : Crew ν) : Prop where
  done : ∀ x ∈ assigned, (c.pool.scheduler.job x.1).phase = .done
  verdict_eq : ∀ result, c.client = .returned result → result = c.verdict

theorem Run.settled (hp : Prepared n before p tasks root assigned t)
    (hcalm : ∀ task ∈ tasks, ∀ position w, (task.execute position w).1 ≠ .panicked)
    (h : (ofTasks p tasks).Run trace c) (hanswered : c.Answered) : c.Settled assigned := by
  refine ⟨fun x => h.done_of_answered hp hanswered, fun result hclient => ?_⟩
  have hiff := h.failed_iff_ended hp hanswered
  cases (h.outcome hp).2 result hclient with
  | panicked hpanicked =>
    obtain ⟨j, hended⟩ := hpanicked
    exact absurd hended (h.not_ended hp hcalm)
  | failed _ hended => rw [verdict, if_pos (hiff.2 ⟨_, _, hended⟩)]
  | ok _ hnone =>
    rw [verdict, if_neg]
    intro hfailed
    obtain ⟨j, cause, hended⟩ := hiff.1 hfailed
    exact hnone j cause hended

end OfTasks

end Crew

end IncrementalBuild.Build
