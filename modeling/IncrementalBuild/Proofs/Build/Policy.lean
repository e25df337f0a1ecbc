import IncrementalBuild.Proofs.Build.Termination
import IncrementalBuild.Proofs.Build.Work

/-!
How failures end a build: a run succeeds if all tasks were executed and succeeded, and no task is
executed whose job starts after that of a failed one was finished.
-/

namespace IncrementalBuild.Build

open Jobs Relation

variable {ν : Type}

def Occurrence.begins (job : Nat) : Occurrence → Bool
  | .begun i _ => i = job
  | _ => false

def Occurrence.ends (job : Nat) : Occurrence → Bool
  | .ended i _ => i = job
  | _ => false

/-- The task of a job was executed, once, and returned without an error. -/
structure Succeeded (trace : List Occurrence) (job : Nat) : Prop where
  begun_once : trace.countP (Occurrence.begins job) = 1
  ended_once : trace.countP (Occurrence.ends job) = 1
  done : .ended job .done ∈ trace

section Told

variable {trace history : List Occurrence} {j : Nat} {a : Activity}

theorem countP_filter_about (trace : List Occurrence) (j : Nat) {q : Occurrence → Bool}
    (hq : ∀ o, q o = true → o.about j = true) :
    (trace.filter (Occurrence.about j)).countP q = trace.countP q := by
  rw [List.countP_filter]
  refine List.countP_congr fun o _ => ?_
  simpa using hq o

theorem Occurrence.about_of_begins {o : Occurrence} (h : o.begins j = true) : o.about j = true := by
  cases o <;> first | exact h | cases h

theorem Occurrence.about_of_ends {o : Occurrence} (h : o.ends j = true) : o.about j = true := by
  cases o <;> first | exact h | cases h

/-- What happened in the work of a job is all that counts for whether its task was executed. -/
theorem succeeded_filter_iff :
    Succeeded (trace.filter (Occurrence.about j)) j ↔ Succeeded trace j := by
  have hbegins := countP_filter_about trace j fun _ => Occurrence.about_of_begins
  have hends := countP_filter_about trace j fun _ => Occurrence.about_of_ends
  constructor
  · rintro ⟨hbegun, hended, hdone⟩
    exact ⟨hbegins ▸ hbegun, hends ▸ hended, (List.mem_filter.1 hdone).1⟩
  · rintro ⟨hbegun, hended, hdone⟩
    have habout : (Occurrence.ended j .done).about j = true := decide_eq_true rfl
    exact ⟨hbegins.symm ▸ hbegun, hends.symm ▸ hended, List.mem_filter.2 ⟨hdone, habout⟩⟩

/-- Work that is over and neither was skipped nor failed nor panicked has succeeded. -/
theorem Told.succeeded (h : Told j a history) {panicked : Bool} (ha : a = .complete panicked)
    (hskipped : .skipped j ∉ history) (hraised : .raised j ∉ history)
    (hpanicked : .ended j .panicked ∉ history) : Succeeded history j := by
  cases h with
  | fresh | cleared | executing | failing => cases ha
  | skipped => simp at hskipped
  | panicked => simp at hpanicked
  | raised => simp at hraised
  | done position => exact ⟨by simp [Occurrence.begins], by simp [Occurrence.ends], by simp⟩

theorem Told.not_raised (h : Told j a history) (hdone : .ended j .done ∈ history) :
    .raised j ∉ history := by
  cases h <;> simp_all

theorem Told.cleared_of_begun (h : Told j a history) {position : Option Position}
    (hbegun : .begun j position ∈ history) : .cleared j ∈ history := by
  cases h <;> simp_all

end Told

namespace Crew

variable {c c' start : Crew ν} {o : Occurrence} {trace : List Occurrence} {j : Nat}
  {n : Nat} {before : List Event} {p : Pool} {tasks : List (Build.Task ν)} {root : Handle}
  {assigned : Assigned ν} {t : Scheduler} {x : Nat × Build.Task ν}

/-- Where no task panics, a run returns without an error exactly if all tasks succeeded. -/
theorem Run.ok_iff (hp : Prepared n before p tasks root assigned t)
    (hcalm : ∀ task ∈ tasks, ∀ position w, (task.execute position w).1 ≠ .panicked)
    (h : (ofTasks p tasks).Run trace c) {result : Except Failure Unit}
    (hreturned : c.client = .returned result) :
    result = .ok () ↔ ∀ x ∈ assigned, Succeeded trace x.1 := by
  have hsettled := h.settled hp hcalm (.inr ⟨result, hreturned⟩)
  have hflag : result = .ok () ↔ c.failed = false := by
    rw [hsettled.verdict_eq result hreturned, verdict]
    cases c.failed <;> simp
  rw [hflag]
  constructor
  · intro hfailed x hx
    have hcomplete := h.complete_of_done hp hx (hsettled.done x hx)
    refine succeeded_filter_iff.1 ((h.told (j := x.1) rfl).succeeded hcomplete ?_ ?_ ?_) <;>
      intro hmem <;> have hmem := (List.mem_filter.1 hmem).1
    · rw [h.failed_of_skipped hmem] at hfailed
      cases hfailed
    · rw [(h.failed_iff rfl).2 ⟨x.1, hmem⟩] at hfailed
      cases hfailed
    · exact h.not_ended hp hcalm hmem
  · intro hall
    rw [Bool.eq_false_iff]
    intro hfailed
    obtain ⟨i, hraised⟩ := (h.failed_iff rfl).1 hfailed
    obtain ⟨task, htask⟩ :=
      h.exists_task hp hraised (decide_eq_true rfl)
    have hdone := (succeeded_filter_iff.2 (hall _ htask)).done
    exact (h.told (j := i) rfl).not_raised hdone
      (List.mem_filter.2 ⟨hraised, decide_eq_true rfl⟩)

theorem Run.failed_mono (h : start.Run trace c) (hfailed : start.failed = true) :
    c.failed = true := by
  induction h with
  | start => exact hfailed
  | step _ hstep ih => exact hstep.failed_mono ih

theorem Run.not_cleared (h : start.Run trace c) (hfailed : start.failed = true) :
    .cleared j ∉ trace := by
  induction h with
  | start => simp
  | step hrun hstep ih =>
    intro hmem
    rcases List.mem_append.1 hmem with hmem | hmem
    · exact ih hmem
    · obtain rfl := List.mem_singleton.1 hmem
      cases hstep with
      | clear _ hnot =>
        rw [hrun.failed_mono hfailed] at hnot
        cases hnot

/-- Once a failure is known, no task is begun whose work was fresh then. -/
theorem Run.not_begun (h : start.Run trace c) (hfailed : start.failed = true)
    (hfresh : start.activity j = .fresh) (position : Option Position) :
    .begun j position ∉ trace := by
  intro hmem
  have hbegun : .begun j position ∈ trace.filter (Occurrence.about j) :=
    List.mem_filter.2 ⟨hmem, decide_eq_true rfl⟩
  have hcleared := (h.told hfresh).cleared_of_begun hbegun
  exact h.not_cleared hfailed (List.mem_filter.1 hcleared).1

/-- A job that starts when a failed task's job has been finished does not execute its task. -/
theorem Run.not_begun_of_failed (hp : Prepared n before p tasks root assigned t)
    (h : (ofTasks p tasks).Run trace c) {w i : Nat} {cause : Failure}
    {earlier later : List Occurrence} (htrace : trace = earlier ++ .pool (.started w j) :: later)
    (hended : .ended i (.failed cause) ∈ earlier) (hfinished : Finished (poolEvents earlier) i)
    (position : Option Position) : .begun j position ∉ trace := by
  obtain ⟨d, d', hearlier, hstep, hlater⟩ := h.split htrace
  have hdone := ((hearlier.agrees hp).finished_iff i).1 (finished_append_iff.2 (.inr hfinished))
  have hfailed := hearlier.failed_of_ended hp hended hdone
  have hscheduled : (d.pool.scheduler.job j).phase = .scheduled := by
    cases hstep with
    | start hevent => exact (hevent.taking.scheduled (hearlier.agrees hp).exact).1
  have hfresh := hearlier.fresh_of_not_started hp (j := j)
    (by simp [Scheduler.Started, hscheduled])
  rw [htrace, List.mem_append, List.mem_cons, not_or, not_or]
  refine ⟨fun hmem => ?_, by simp, ?_⟩
  · have htold := hearlier.told (j := j) rfl
    rw [hfresh] at htold
    generalize hhistory : earlier.filter (Occurrence.about j) = history at htold
    cases htold
    exact absurd (decide_eq_true rfl) (List.filter_eq_nil_iff.1 hhistory _ hmem)
  · exact hlater.not_begun (hstep.failed_mono hfailed) (by rw [hstep.activity_eq rfl, hfresh])
      position

theorem Run.not_about_of_finished (hp : Prepared n before p tasks root assigned t)
    {earlier later : List Occurrence} (h : (ofTasks p tasks).Run (earlier ++ later) c)
    (hfinished : Finished (poolEvents earlier) j) (ho : o ∈ later) : o.about j = false := by
  obtain ⟨mid, rest, rfl⟩ := List.append_of_mem ho
  obtain ⟨d, d', hmid, hstep, -⟩ := h.split (List.append_assoc earlier mid (o :: rest)).symm
  rw [Bool.eq_false_iff]
  intro habout
  obtain ⟨task, a, hdoing⟩ := hstep.doing habout
  have hrunning := hdoing.running hp hmid
  have hdone := ((hmid.agrees hp).finished_iff j).1 (by
    rw [poolEvents_append, finished_append_iff, finished_append_iff]
    exact .inr (.inl hfinished))
  rw [hrunning] at hdone
  cases hdone

/-- What happens in the work of a job happens before it is finished. -/
theorem Run.mem_of_finished (hp : Prepared n before p tasks root assigned t)
    {earlier later : List Occurrence} (h : (ofTasks p tasks).Run (earlier ++ later) c)
    (hfinished : Finished (poolEvents earlier) j) (hmem : o ∈ earlier ++ later)
    (ho : o.about j = true) : o ∈ earlier := by
  refine (List.mem_append.1 hmem).resolve_right fun hlater => ?_
  rw [h.not_about_of_finished hp hfinished hlater] at ho
  cases ho

/-- The job of a task was started before the task is executed. -/
theorem Run.started_of_begun (hp : Prepared n before p tasks root assigned t)
    (h : (ofTasks p tasks).Run trace c) {position : Option Position}
    {earlier later : List Occurrence} (htrace : trace = earlier ++ .begun j position :: later) :
    ∃ w, .pool (.started w j) ∈ earlier := by
  obtain ⟨d, d', hearlier, hstep, -⟩ := h.split htrace
  obtain ⟨task, a, hdoing⟩ := hstep.doing (j := j) (decide_eq_true rfl)
  obtain ⟨w, hstarted⟩ := ((hearlier.agrees hp).ran_iff j).2 (.inl (hdoing.running hp hearlier))
  refine ⟨w, mem_poolEvents.1 ((List.mem_append.1 hstarted).resolve_left fun hold => ?_)⟩
  have hphase := (hp.pool.agrees.ran_iff j).1 ⟨w, hold⟩
  have hge := hp.blueprint.planned.index_ge _ (hdoing.mem hp hearlier)
  simp [Scheduler.Started, created_of_size_le hge] at hphase

/-- A task that comes after a failed one is not executed. -/
theorem Run.not_begun_of_precedes (hp : Prepared n before p tasks root assigned t)
    (h : (ofTasks p tasks).Run trace c) {x y : Nat × Build.Task ν}
    (hprecedes : Precedes c.assigned x y) {cause : Failure}
    (hended : .ended x.1 (.failed cause) ∈ trace) (position : Option Position) :
    .begun y.1 position ∉ trace := by
  intro hbegun
  -- The job of the second task was started, so that of the first was finished before.
  obtain ⟨earlier, later, htrace⟩ := List.append_of_mem hbegun
  obtain ⟨w, hstarted⟩ := h.started_of_begun hp htrace
  obtain ⟨first, rest, rfl⟩ := List.append_of_mem hstarted
  have htrace' : trace =
      first ++ .pool (.started w y.1) :: (rest ++ .begun y.1 position :: later) := by
    rw [htrace]
    simp
  have hfinished := h.finished_of_precedes hp hprecedes htrace'
  have hearly : .ended x.1 (.failed cause) ∈ first := by
    rw [htrace'] at hended h
    exact h.mem_of_finished hp hfinished hended (decide_eq_true rfl)
  exact h.not_begun_of_failed hp htrace' hearly hfinished position hbegun

/-- How failures end the runs of tasks none of which panics, in whatever order the client and any
number of workers take their steps. Every run comes to an end, and it only ends when the client has
returned. It returns without an error exactly if every task was executed, once, and succeeded. Once
the job of a task that failed is finished, no task is executed whose job starts afterwards; in
particular, none is that comes after the failed one. -/
theorem failures_stop_tasks [Nonempty (World ν)] (hpool : Pool.Run n before p)
    (hopen : p.shutdown = false)
    (hcalm : ∀ task ∈ tasks, ∀ position w, (task.execute position w).1 ≠ .panicked) :
    (∃ bound, ∀ trace c, (ofTasks p tasks).Run trace c → trace.length ≤ bound) ∧
      ∀ trace c, (ofTasks p tasks).Run trace c →
        (0 < n → p.scheduler.jobs.size + 9 + tasks.length ≤ Handle.invalid.index →
          (∀ o c', ¬ c.Step o c') → ∃ result, c.client = .returned result) ∧
        (∀ result, c.client = .returned result →
          c.assigned.map Prod.snd =
              (Stage.all.flatMap fun stage => tasks.filter fun t => t.stage = stage) ∧
            (c.assigned.map Prod.fst).Nodup ∧
            (result = .ok () ↔ ∀ x ∈ c.assigned, Succeeded trace x.1)) ∧
        (∀ earlier later w i j cause, trace = earlier ++ .pool (.started w j) :: later →
          .ended i (.failed cause) ∈ earlier → Finished (poolEvents earlier) i →
            ∀ position, .begun j position ∉ trace) ∧
        ∀ x y cause, Precedes c.assigned x y → .ended x.1 (.failed cause) ∈ trace →
          ∀ position, .begun y.1 position ∉ trace := by
  obtain ⟨root, assigned, t, hp⟩ := exists_prepared hpool hopen tasks
  refine ⟨Run.exists_bound hp, fun trace c h => ⟨?_, ?_, ?_, ?_⟩⟩
  · intro hn hroom hstuck
    by_contra hnot
    obtain ⟨o, c', hstep⟩ := h.exists_step hn hp hroom (by simpa using hnot)
    exact hstuck o c' hstep
  · intro result hreturned
    have hplanned := hp.blueprint.planned
    obtain ⟨rfl, -⟩ := (h.follows hp).1.made (by simp [hreturned])
    exact ⟨hplanned.tasks_eq, hplanned.nodup, h.ok_iff hp hcalm hreturned⟩
  · intro earlier later w i j cause htrace hended hfinished position
    exact h.not_begun_of_failed hp htrace hended hfinished position
  · intro x y cause hprecedes hended position
    exact h.not_begun_of_precedes hp hprecedes hended position

/-- A task that fails when it compiles, and one that would link. -/
def failingStage : List (Build.Task Unit) :=
  [.constant .link false .done, .constant .compile true (.failed .tasksFailed)]

/-- Two workers that are given these tasks can run them, and never return without an error. -/
theorem failingStage_stops :
    (∀ task ∈ failingStage, ∀ position w, (task.execute position w).1 ≠ .panicked) ∧
      (∃ trace c result, (ofTasks (.ofCount 2) failingStage).Run trace c ∧
        c.client = .returned result) ∧
      ∀ trace c, (ofTasks (.ofCount 2) failingStage).Run trace c →
        c.client ≠ .returned (.ok ()) := by
  have hworld : Nonempty (World Unit) := ⟨⟨default, default, default, default, default, default⟩⟩
  have hpool : Pool.Run 2 [] (.ofCount 2) := .start
  have hcalm : ∀ task ∈ failingStage, ∀ position w, (task.execute position w).1 ≠ .panicked := by
    simp [failingStage, Task.constant]
  refine ⟨hcalm, ?_, fun trace c h hreturned => ?_⟩
  · obtain ⟨root, assigned, t, hp⟩ := exists_prepared hpool rfl failingStage
    have hstart : (ofTasks (.ofCount 2) failingStage).Run [] (ofTasks (.ofCount 2) failingStage) :=
      .start
    obtain ⟨trace, c, result, h, hreturned⟩ := hstart.completes (by decide) hp (by decide)
    exact ⟨_, c, result, h, hreturned⟩
  · obtain ⟨-, hruns⟩ := failures_stop_tasks hpool rfl hcalm
    obtain ⟨-, hresult, -⟩ := hruns trace c h
    obtain ⟨htasks, -, hok⟩ := hresult _ hreturned
    -- The first job is that of the task that fails, so it cannot have ended well.
    obtain ⟨x, rest, hassigned, hx, -⟩ := List.map_eq_cons_iff.1 htasks
    have hdone := (hok.1 rfl x (by simp [hassigned])).done
    obtain ⟨task, hlookup, position, w, hexecute⟩ := h.exists_execute hdone
    rw [hassigned, List.lookup_cons_self, hx] at hlookup
    cases hlookup
    cases hexecute

end Crew

end IncrementalBuild.Build
