import IncrementalBuild.Proofs.Build.Staging
import IncrementalBuild.Proofs.Build.Termination

/-!
The order in which a crew runs its jobs: none before those of earlier stages, and within a stage none
before those of the tasks that come first. All have been run when waiting ends.
-/

namespace IncrementalBuild.Build

open Jobs Relation

variable {ν : Type} {n : Nat} {before : List Event} {p : Pool} {tasks : List (Build.Task ν)}
  {root : Handle} {assigned : Assigned ν} {t : Scheduler} {c : Crew ν} {trace : List Occurrence}

theorem Follows.sublist {s : Scheduler} (h : Follows s tasks root assigned t c) :
    c.assigned.Sublist assigned := by
  by_cases hmaking : ∃ calls, c.client = .making calls
  · obtain ⟨calls, hcalls⟩ := hmaking
    obtain ⟨-, u, rest, -, hrest, -⟩ := h.making calls hcalls
    rw [← hrest]
    exact List.sublist_append_left _ _
  · obtain ⟨rfl, -⟩ := h.made (by simpa using hmaking)
    exact .refl _

theorem Precedes.mono {more : Assigned ν} {x y : Nat × Build.Task ν} (h : Precedes assigned x y)
    (hsub : assigned.Sublist more) : Precedes more x y := by
  obtain ⟨hx, hy, horder⟩ := h
  refine ⟨hsub.subset hx, hsub.subset hy, horder.imp_right ?_⟩
  rintro ⟨hstage, hy', hx'⟩
  exact ⟨hstage, hy', hx'.imp_right fun hpair => hpair.trans hsub⟩

theorem Precedes.ne {x y : Nat × Build.Task ν} (h : Precedes assigned x y)
    (hnodup : (assigned.map Prod.fst).Nodup) : x.1 ≠ y.1 := by
  intro heq
  obtain ⟨hx, hy, horder⟩ := h
  obtain rfl : x = y := by
    have hlookup := lookup_of_mem hnodup hx
    rw [heq, lookup_of_mem hnodup hy, Option.some.injEq] at hlookup
    exact Prod.ext heq hlookup.symm
  rcases horder with hlt | ⟨-, hy', hx' | hpair⟩
  · exact Nat.lt_irrefl _ hlt
  · rw [hy'] at hx'
    cases hx'
  · have hdistinct : assigned.Nodup :=
      List.Pairwise.of_map Prod.fst (fun _ _ hne heq => hne (congrArg Prod.fst heq)) hnodup
    have htwice := hpair.nodup hdistinct
    simp at htwice

theorem finished_append_iff {before after : List Event} {j : Nat} :
    Finished (before ++ after) j ↔ Finished before j ∨ Finished after j := by
  simp only [Finished, List.mem_append, exists_or]

theorem not_finished_before (hp : Prepared n before p tasks root assigned t) {j : Nat}
    (hj : p.scheduler.jobs.size ≤ j) : ¬ Finished before j := by
  intro hfinished
  have hdone := (hp.pool.agrees.finished_iff j).1 hfinished
  have hlt := Scheduler.lt_size_of_phase_ne (s := p.scheduler) (i := j) (by simp [hdone])
  omega

/-- A job is not started before all others that it comes behind are finished. -/
theorem Crew.Run.finished_of_reaches (hp : Prepared n before p tasks root assigned t)
    (h : (Crew.ofTasks p tasks).Run trace c) {i j : Nat} (hi : p.scheduler.jobs.size ≤ i)
    (hj : p.scheduler.jobs.size ≤ j) (hne : i ≠ j) (hpath : Reaches t j i) {w : Nat}
    {earlier later : List Occurrence} (htrace : trace = earlier ++ .pool (.started w j) :: later) :
    Finished (poolEvents earlier) i := by
  obtain ⟨d, d', hearlier, hstep, -⟩ := h.split htrace
  have hagrees := hearlier.agrees hp
  have hfollows := (hearlier.follows hp).1
  have htaking : d.pool.scheduler.Taking d'.pool.scheduler j := by
    cases hstep with
    | start hpool => exact hpool.taking
  obtain ⟨hscheduled, hdone⟩ := htaking.scheduled hagrees.exact
  -- A job of the client is only started once the root has been enqueued, so all dependencies are
  -- made.
  have hmade : ∀ calls, d.client ≠ .making calls := by
    intro calls hcalls
    obtain ⟨-, u, rest, -, -, hshadow⟩ := hfollows.making calls hcalls
    have hcreated := hshadow.created j hj
    rw [hscheduled] at hcreated
    cases hcreated
  obtain ⟨-, -, hdepends, -⟩ := hfollows.made hmade
  rw [Reaches, ← Scheduler.dependsOn_congr hdepends] at hpath
  rcases ReflTransGen.cases_head hpath with heq | ⟨k, hk, hpath⟩
  · exact absurd heq.symm hne
  · have hi' := Scheduler.Serial.done_of_reachable hagrees.exact (hdone k hk) hpath
    rcases finished_append_iff.1 ((hagrees.finished_iff i).2 hi') with hold | hnew
    · exact absurd hold (not_finished_before hp hi)
    · exact hnew

theorem Crew.Run.finished_of_precedes (hp : Prepared n before p tasks root assigned t)
    (h : (Crew.ofTasks p tasks).Run trace c) {x y : Nat × Build.Task ν}
    (hprecedes : Precedes c.assigned x y) {w : Nat} {earlier later : List Occurrence}
    (htrace : trace = earlier ++ .pool (.started w y.1) :: later) :
    Finished (poolEvents earlier) x.1 := by
  have hprecedes := hprecedes.mono (h.follows hp).1.sublist
  have hplanned := hp.blueprint.planned
  exact h.finished_of_reaches hp (hplanned.index_ge x hprecedes.1)
    (hplanned.index_ge y hprecedes.2.1) (hprecedes.ne hplanned.nodup)
    (hp.blueprint.reaches x y hprecedes) htrace

/-- The client makes no more jobs than the blueprint says. -/
theorem Follows.size_le {s : Scheduler} (h : Follows s tasks root assigned t c) :
    c.pool.scheduler.jobs.size ≤ t.jobs.size := by
  by_cases hmaking : ∃ calls, c.client = .making calls
  · obtain ⟨calls, hcalls⟩ := hmaking
    obtain ⟨-, u, rest, hrun, -, hshadow⟩ := h.making calls hcalls
    rw [hshadow.size_eq]
    exact Calls.size_le_of_run hrun
  · obtain ⟨-, hsize, -⟩ := h.made (by simpa using hmaking)
    exact Nat.le_of_eq hsize

theorem Crew.Step.not_making {o : Occurrence} {c' : Crew ν} (h : c.Step o c')
    (hnot : ∀ calls, c.client ≠ .making calls) : ∀ calls, c'.client ≠ .making calls := by
  cases h with
  | create hclient _ | link hclient _ | refuseLink hclient _ | enqueue hclient _
    | refuseEnqueue hclient _ => exact absurd hclient (hnot _)
  | start | finish | skip | clear | begin | execute | raise => exact hnot
  | @wait _ result => cases result <;> simp [Crew.afterWait]
  | answer => simp

theorem Crew.Run.not_making {start : Crew ν} (h : start.Run trace c)
    (hnot : ∀ calls, start.client ≠ .making calls) : ∀ calls, c.client ≠ .making calls := by
  induction h with
  | start => exact hnot
  | step _ hstep ih => exact hstep.not_making ih

/-- Waiting for a job that was enqueued can only end once it is done, and fails only if jobs
panicked. -/
theorem done_of_waitResult {s : Scheduler} {root : Handle} {result : Except Jobs.Error Unit}
    (hlt : root.index < s.jobs.size) (henqueued : s.Enqueued root.index)
    (h : s.waitResult root = some result) : (s.job root.index).phase = .done ∧
      result = if s.panickedIn root.index > 0 then .error (.panicked (s.panickedIn root.index))
        else .ok () := by
  unfold Scheduler.waitResult at h
  rw [if_neg (by simp [Scheduler.holds, hlt])] at h
  split at h
  next hcreated => exact absurd hcreated henqueued
  next hdone =>
    cases h
    exact ⟨hdone, rfl⟩
  next => cases h

/-- When waiting ends, the root is done, and so are the jobs of all tasks. -/
theorem Crew.Run.done_of_waited (hp : Prepared n before p tasks root assigned t)
    (h : (Crew.ofTasks p tasks).Run trace c) {c' : Crew ν} {result : Except Jobs.Error Unit}
    (hstep : c.Step (.waited result) c') :
    c'.client = Crew.afterWait result ∧ c.assigned = assigned ∧
      (∀ x ∈ assigned, (c.pool.scheduler.job x.1).phase = .done) ∧
      result = if c.pool.scheduler.panickedIn root.index > 0 then
        .error (.panicked (c.pool.scheduler.panickedIn root.index)) else .ok () := by
  cases hstep with
  | wait hclient hwait =>
    have hfollows := (h.follows hp).1
    obtain rfl := hfollows.waiting _ hclient
    obtain ⟨hassigned, hsize, hdepends, henqueued⟩ := hfollows.made (by simp [hclient])
    have hlt := hp.blueprint.root_lt.2
    rw [← hsize] at hlt
    obtain ⟨hdone, hresult⟩ := done_of_waitResult hlt henqueued hwait
    refine ⟨rfl, hassigned, fun x hx => ?_, hresult⟩
    have hpath := (planned_plan hp.blueprint.run_eq).2.2.1 x hx
    rw [Reaches, ← Scheduler.dependsOn_congr hdepends] at hpath
    exact Scheduler.Serial.done_of_reachable (h.agrees hp).exact hdone hpath

/-- The job of a task is finished once if it is done, and else it is not. -/
theorem Crew.Run.countP_finishes (hp : Prepared n before p tasks root assigned t)
    (h : (Crew.ofTasks p tasks).Run trace c) {x : Nat × Build.Task ν} (hx : x ∈ assigned) :
    (poolEvents trace).countP (Event.finishes x.1) =
      if (c.pool.scheduler.job x.1).phase = .done then 1 else 0 := by
  have hpast : ¬ (p.scheduler.job x.1).phase = .done := fun hdone =>
    not_finished_before hp (hp.blueprint.planned.index_ge x hx)
      ((hp.pool.agrees.finished_iff x.1).2 hdone)
  have hcount := (h.pool_run hp).countP_finishes x.1
  rwa [List.countP_append, hp.pool.countP_finishes, if_neg hpast, Nat.zero_add] at hcount

/-- The client has ceased to wait. -/
def Crew.Answered (c : Crew ν) : Prop :=
  c.client = .waited ∨ ∃ result, c.client = .returned result

theorem Crew.Run.exists_waited (h : (Crew.ofTasks p tasks).Run trace c)
    (hnone : ∀ cause, .pool (.refused cause) ∉ trace) (hanswered : c.Answered) :
    ∃ result, .waited result ∈ trace := by
  induction h with
  | start => simp [Crew.Answered, Crew.ofTasks] at hanswered
  | @step trace o c c' hrun hstep ih =>
    have hold (hanswered : c.Answered) : ∃ result, .waited result ∈ trace ++ [o] := by
      obtain ⟨result, hmem⟩ := ih (fun cause hmem => hnone cause (by simp [hmem])) hanswered
      exact ⟨result, by simp [hmem]⟩
    cases hstep with
    | create | link | enqueue => simp [Crew.Answered] at hanswered
    | refuseLink | refuseEnqueue => exact absurd List.mem_concat_self (hnone _)
    | start | finish | skip | clear | begin | execute | raise => exact hold hanswered
    | wait => exact ⟨_, List.mem_concat_self⟩
    | answer hclient => exact hold (.inl hclient)

/-- In a run, the stages of a build come one after another. -/
structure Crew.InStages (p : Pool) (tasks : List (Build.Task ν)) (trace : List Occurrence)
    (c : Crew ν) : Prop where
  /-- None of the calls that make and run the graph of jobs is refused. -/
  none_refused : ∀ cause, .pool (.refused cause) ∉ trace
  /-- As long as there are handles, the client can make all its calls. -/
  reaches_waiting : p.scheduler.jobs.size + 9 + tasks.length ≤ Handle.invalid.index →
    ∀ calls, c.client = .making calls → ∃ more c' root,
      (Crew.ofTasks p tasks).Run (trace ++ more) c' ∧ c'.client = .waiting root
  waited_of_returned : ∀ result, c.client = .returned result → ∃ waited, .waited waited ∈ trace
  panicked_of_error : ∀ cause, .waited (.error cause) ∈ trace → ∃ count, cause = .panicked count
  /-- Every job of the client but the root is one of a stage. -/
  exists_stage : ∀ j, p.scheduler.jobs.size < j → j < c.pool.scheduler.jobs.size →
    ∃ stage, JobOf p.scheduler.jobs.size tasks stage j
  stage_eq : ∀ x ∈ c.assigned, JobOf p.scheduler.jobs.size tasks x.2.stage x.1
  /-- No job is started before all jobs of earlier stages are finished. -/
  stages : ∀ a b i j, a.rank < b.rank → JobOf p.scheduler.jobs.size tasks a i →
    JobOf p.scheduler.jobs.size tasks b j → ∀ earlier later w,
      trace = earlier ++ .pool (.started w j) :: later → Finished (poolEvents earlier) i
  /-- Nor is the job of a task before those of all tasks that precede it. -/
  precedes : ∀ x y, Precedes c.assigned x y → ∀ earlier later w,
    trace = earlier ++ .pool (.started w y.1) :: later → Finished (poolEvents earlier) x.1
  /-- When waiting ends, the job of every task has been finished, once. -/
  finished_once : ∀ earlier later result, trace = earlier ++ .waited result :: later →
    c.assigned.map Prod.snd =
        (Stage.all.flatMap fun stage => tasks.filter fun t => t.stage = stage) ∧
      (c.assigned.map Prod.fst).Nodup ∧
      ∀ x ∈ c.assigned, (poolEvents earlier).countP (Event.finishes x.1) = 1 ∧
        (poolEvents later).countP (Event.finishes x.1) = 0

theorem Crew.Run.finished_once (hp : Prepared n before p tasks root assigned t)
    {earlier later : List Occurrence} {result : Except Jobs.Error Unit}
    (h : (Crew.ofTasks p tasks).Run (earlier ++ .waited result :: later) c) :
    c.assigned = assigned ∧ ∀ x ∈ assigned,
      (poolEvents earlier).countP (Event.finishes x.1) = 1 ∧
        (poolEvents later).countP (Event.finishes x.1) = 0 := by
  obtain ⟨d, d', hearlier, hstep, hlater⟩ := h.split rfl
  obtain ⟨hclient, -, hdone, -⟩ := hearlier.done_of_waited hp hstep
  have hwas : ∀ calls, d'.client ≠ .making calls := by
    rw [hclient]
    cases result <;> simp [Crew.afterWait]
  refine ⟨((h.follows hp).1.made (hlater.not_making hwas)).1, fun x hx => ?_⟩
  have hcount := hearlier.countP_finishes hp hx
  rw [if_pos (hdone x hx)] at hcount
  have hall := h.countP_finishes hp hx
  -- Once before waiting ended and at most once in all, so never after it.
  have hle : (if (c.pool.scheduler.job x.1).phase = .done then 1 else 0) ≤ 1 := by
    split <;> omega
  have hevents : poolEvents (earlier ++ .waited result :: later) =
      poolEvents earlier ++ poolEvents later := by
    rw [poolEvents_append]
    congr 1
  rw [hevents, List.countP_append] at hall
  exact ⟨hcount, by omega⟩

/-- The stages of a build come one after another, in whatever order the client and any number of
workers take their steps. -/
theorem Crew.Run.stages_in_order (hpool : Pool.Run n before p) (hopen : p.shutdown = false)
    (h : (Crew.ofTasks p tasks).Run trace c) : Crew.InStages p tasks trace c := by
  obtain ⟨root, assigned, t, hp⟩ := exists_prepared hpool hopen tasks
  obtain ⟨hfollows, hnone⟩ := h.follows hp
  obtain ⟨hjobOf, hall, horder⟩ := plan_jobs hp.blueprint.run_eq
  constructor
  case none_refused => exact hnone
  case reaches_waiting => exact fun hroom calls hclient => h.reaches_waiting hp hroom hclient
  case waited_of_returned =>
    exact fun result hreturned => h.exists_waited hnone (.inr ⟨result, hreturned⟩)
  case panicked_of_error =>
    intro cause hmem
    obtain ⟨earlier, later, htrace⟩ := List.append_of_mem hmem
    obtain ⟨d, d', hearlier, hstep, -⟩ := h.split htrace
    obtain ⟨-, -, -, hresult⟩ := hearlier.done_of_waited hp hstep
    split at hresult
    · cases hresult
      exact ⟨_, rfl⟩
    · cases hresult
  case exists_stage =>
    exact fun j hgt hlt => hall j hgt (Nat.lt_of_lt_of_le hlt hfollows.size_le)
  case stage_eq => exact fun x hx => hjobOf x (hfollows.sublist.subset hx)
  case stages =>
    intro a b i j hlt hi hj earlier later w htrace
    obtain ⟨hne, hpath⟩ := horder a b i j hlt hi hj
    exact h.finished_of_reaches hp (Nat.le_of_lt hi.first_lt) (Nat.le_of_lt hj.first_lt)
      (Nat.ne_of_lt hne) hpath htrace
  case precedes =>
    exact fun x y hprecedes earlier later w htrace => h.finished_of_precedes hp hprecedes htrace
  case finished_once =>
    rintro earlier later result rfl
    obtain ⟨rfl, honce⟩ := h.finished_once hp
    exact ⟨hp.blueprint.planned.tasks_eq, hp.blueprint.planned.nodup, honce⟩

/-- A task that does nothing, and always ends the same way. -/
def Task.constant (stage : Stage) (parallel : Bool) (result : TaskResult) : Build.Task ν where
  description := stage.text
  stage
  parallel
  wantsPosition := true
  execute := fun _ w => (result, w)

/-- Two tasks, the first of which belongs to a later stage. -/
def twoStages : List (Build.Task Unit) :=
  [.constant .link false .done, .constant .compile true .done]

/-- In some run of two workers, the jobs of these tasks are finished when waiting ends. -/
theorem twoStages_in_order : ∃ trace c earlier later result,
    (Crew.ofTasks (.ofCount 2) twoStages).Run trace c ∧ trace = earlier ++ .waited result :: later ∧
      c.assigned.map Prod.snd = [.constant .compile true .done, .constant .link false .done] ∧
      ∀ x ∈ c.assigned, (poolEvents earlier).countP (Event.finishes x.1) = 1 := by
  have hworld : Nonempty (World Unit) := ⟨⟨default, default, default, default, default, default⟩⟩
  have hpool : Pool.Run 2 [] (.ofCount 2) := .start
  obtain ⟨root, assigned, t, hp⟩ := exists_prepared hpool rfl twoStages
  have hstart : (Crew.ofTasks (.ofCount 2) twoStages).Run [] (.ofTasks (.ofCount 2) twoStages) :=
    .start
  obtain ⟨trace, c, result, h, hreturned⟩ := hstart.completes (by decide) hp (by decide)
  have hstages := h.stages_in_order hpool rfl
  obtain ⟨waited, hmem⟩ := hstages.waited_of_returned result hreturned
  obtain ⟨earlier, later, htrace⟩ := List.append_of_mem hmem
  obtain ⟨htasks, -, honce⟩ := hstages.finished_once earlier later waited htrace
  exact ⟨_, c, earlier, later, waited, h, htrace, htasks, fun x hx => (honce x hx).1⟩

end IncrementalBuild.Build
