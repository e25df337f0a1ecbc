import IncrementalBuild.Proofs.Build.Policy

/-!
What becomes of a build in which tasks panic. The pool contains a panic and takes the job for
finished like any other, so the tasks that come after it are executed; only a task that fails stops
others. When all is over, the client is told how many panicked.
-/

namespace IncrementalBuild.Build

open Jobs

variable {ν : Type}

/-- The task of a job was executed, once, however it ended. -/
structure ExecutedOnce (trace : List Occurrence) (job : Nat) : Prop where
  begun_once : trace.countP (Occurrence.begins job) = 1
  ended_once : trace.countP (Occurrence.ends job) = 1

/-- The task of a job was not executed, because one had failed before. -/
def SkippedForFailure (trace : List Occurrence) (job : Nat) : Prop :=
  ∃ earlier later i cause, trace = earlier ++ .skipped job :: later ∧
    .ended i (.failed cause) ∈ earlier

theorem executedOnce_filter_iff {trace : List Occurrence} {j : Nat} :
    ExecutedOnce (trace.filter (Occurrence.about j)) j ↔ ExecutedOnce trace j := by
  have hbegins := countP_filter_about trace j fun _ => Occurrence.about_of_begins
  have hends := countP_filter_about trace j fun _ => Occurrence.about_of_ends
  exact ⟨fun ⟨hbegun, hended⟩ => ⟨hbegins ▸ hbegun, hends ▸ hended⟩,
    fun ⟨hbegun, hended⟩ => ⟨hbegins.symm ▸ hbegun, hends.symm ▸ hended⟩⟩

theorem Told.executedOnce_or_skipped {j : Nat} {a : Activity} {history : List Occurrence}
    {panicked : Bool} (h : Told j a history) (ha : a = .complete panicked) :
    ExecutedOnce history j ∨ .skipped j ∈ history := by
  cases h with
  | fresh | cleared | executing | failing => cases ha
  | skipped => exact .inr List.mem_cons_self
  | done | panicked | raised =>
    exact .inl ⟨by simp [Occurrence.begins], by simp [Occurrence.ends]⟩

theorem ExecutedOnce.exists_begun {trace : List Occurrence} {j : Nat} (h : ExecutedOnce trace j) :
    ∃ position, .begun j position ∈ trace := by
  obtain ⟨o, hmem, ho⟩ := List.countP_pos_iff.1 (h.begun_once ▸ Nat.one_pos)
  cases o with
  | begun i position =>
    obtain rfl := of_decide_eq_true ho
    exact ⟨position, hmem⟩
  | _ => cases ho

theorem ExecutedOnce.exists_ended {trace : List Occurrence} {j : Nat} (h : ExecutedOnce trace j) :
    ∃ result, .ended j result ∈ trace := by
  obtain ⟨o, hmem, ho⟩ := List.countP_pos_iff.1 (h.ended_once ▸ Nat.one_pos)
  cases o with
  | ended i result =>
    obtain rfl := of_decide_eq_true ho
    exact ⟨result, hmem⟩
  | _ => cases ho

namespace Crew

variable {c : Crew ν} {trace : List Occurrence} {j : Nat} {n : Nat} {before : List Event} {p : Pool}
  {tasks : List (Build.Task ν)} {root : Handle} {assigned : Assigned ν} {t : Scheduler}
  {x y : Nat × Build.Task ν}

theorem Run.skippedForFailure (h : (ofTasks p tasks).Run trace c) (hskipped : .skipped j ∈ trace) :
    SkippedForFailure trace j := by
  obtain ⟨earlier, later, rfl⟩ := List.append_of_mem hskipped
  obtain ⟨d, d', hearlier, hstep, -⟩ := h.split rfl
  cases hstep with
  | skip _ hfailed =>
    obtain ⟨i, cause, hended⟩ := hearlier.exists_ended_of_failed hfailed
    exact ⟨earlier, later, i, cause, rfl, hended⟩

/-- Whatever panics, a finished task was executed, unless one had failed. -/
theorem Run.executedOnce_or_skipped (hp : Prepared n before p tasks root assigned t)
    (h : (ofTasks p tasks).Run trace c) (hx : x ∈ assigned)
    (hdone : (c.pool.scheduler.job x.1).phase = .done) :
    ExecutedOnce trace x.1 ∨ SkippedForFailure trace x.1 := by
  have htold := h.told (j := x.1) rfl
  rcases htold.executedOnce_or_skipped (h.complete_of_done hp hx hdone) with honce | hskipped
  · exact .inl (executedOnce_filter_iff.1 honce)
  · exact .inr (h.skippedForFailure (List.mem_filter.1 hskipped).1)

/-- Where none fails, all tasks have been executed when the client returns. -/
theorem Run.executedOnce (hp : Prepared n before p tasks root assigned t)
    (h : (ofTasks p tasks).Run trace c) (hanswered : c.Answered)
    (hnone : ∀ i cause, .ended i (.failed cause) ∉ trace) (hx : x ∈ assigned) :
    ExecutedOnce trace x.1 := by
  refine (h.executedOnce_or_skipped hp hx (h.done_of_answered hp hanswered hx)).resolve_right ?_
  rintro ⟨earlier, later, i, cause, rfl, hended⟩
  exact hnone i cause (List.mem_append_left _ hended)

/-- A task is only begun when the jobs of all that come before it are finished. -/
theorem Run.finished_before_begun (hp : Prepared n before p tasks root assigned t)
    (h : (ofTasks p tasks).Run trace c) (hprecedes : Precedes c.assigned x y)
    {earlier later : List Occurrence} {position : Option Position}
    (htrace : trace = earlier ++ .begun y.1 position :: later) :
    Finished (poolEvents earlier) x.1 := by
  obtain ⟨w, hstarted⟩ := h.started_of_begun hp htrace
  obtain ⟨first, rest, rfl⟩ := List.append_of_mem hstarted
  rw [List.append_assoc, List.cons_append] at htrace
  rw [poolEvents_append, finished_append_iff]
  exact .inl (h.finished_of_precedes hp hprecedes htrace)

/-- How panics end the runs of tasks, in whatever order the client and any number of workers take
their steps. They stop no tasks: whenever a job is finished its task was executed, once, unless
another had failed before. That also goes for the tasks that come after one that panicked, which
wait until its job is finished; none is executed that comes after one that failed. Every run comes to
an end, it only ends when the client has returned, and then all jobs are finished. If tasks have
panicked, the client returns how many. -/
theorem panics_stop_no_tasks [Nonempty (World ν)] (hpool : Pool.Run n before p)
    (hopen : p.shutdown = false) (tasks : List (Build.Task ν)) :
    (∃ bound, ∀ trace c, (ofTasks p tasks).Run trace c → trace.length ≤ bound) ∧
      ∀ trace c, (ofTasks p tasks).Run trace c →
        (0 < n → p.scheduler.jobs.size + 9 + tasks.length ≤ Handle.invalid.index →
          (∀ o c', ¬ c.Step o c') → ∃ result, c.client = .returned result) ∧
        (∀ x ∈ c.assigned, Finished (poolEvents trace) x.1 →
          ExecutedOnce trace x.1 ∨ SkippedForFailure trace x.1) ∧
        (∀ x y, Precedes c.assigned x y →
          (∀ earlier later position, trace = earlier ++ .begun y.1 position :: later →
            Finished (poolEvents earlier) x.1) ∧
          ∀ cause, .ended x.1 (.failed cause) ∈ trace → ∀ position, .begun y.1 position ∉ trace) ∧
        ∀ result, c.client = .returned result →
          c.assigned.map Prod.snd =
              (Stage.all.flatMap fun stage => tasks.filter fun t => t.stage = stage) ∧
            (∀ x ∈ c.assigned, Finished (poolEvents trace) x.1) ∧ Outcome trace result := by
  obtain ⟨root, assigned, t, hp⟩ := exists_prepared hpool hopen tasks
  refine ⟨Run.exists_bound hp, fun trace c h => ⟨?_, ?_, ?_, ?_⟩⟩
  · intro hn hroom hstuck
    by_contra hnot
    obtain ⟨o, c', hstep⟩ := h.exists_step hn hp hroom (by simpa using hnot)
    exact hstuck o c' hstep
  · intro x hx hfinished
    exact h.executedOnce_or_skipped hp ((h.follows hp).1.sublist.subset hx)
      (((h.agrees hp).finished_iff x.1).1 (finished_append_iff.2 (.inr hfinished)))
  · intro x y hprecedes
    exact ⟨fun earlier later position => h.finished_before_begun hp hprecedes,
      fun cause hended => h.not_begun_of_precedes hp hprecedes hended⟩
  · intro result hreturned
    obtain ⟨rfl, -⟩ := (h.follows hp).1.made (by simp [hreturned])
    refine ⟨hp.blueprint.planned.tasks_eq, fun x hx => ?_, (h.outcome hp).2 result hreturned⟩
    have hdone := h.done_of_answered hp (.inr ⟨result, hreturned⟩) hx
    exact (finished_append_iff.1 (((h.agrees hp).finished_iff x.1).2 hdone)).resolve_left
      (not_finished_before hp (hp.blueprint.planned.index_ge x hx))

/-- A task that panics when it compiles, and one that would link. -/
def panickingStage : List (Build.Task Unit) :=
  [.constant .link false .done, .constant .compile true .panicked]

/-- Two workers that are given these tasks can run them. The one that links comes second, the first
one is all that panics, and none fails. -/
theorem panickingStage_runs : ∃ root assigned t trace c result x y,
    Prepared 2 [] (.ofCount 2) panickingStage root assigned t ∧
      (ofTasks (.ofCount 2) panickingStage).Run trace c ∧ c.client = .returned result ∧
      Precedes c.assigned x y ∧ PanickedTasks trace = {x.1} ∧
      ∀ i cause, .ended i (.failed cause) ∉ trace := by
  obtain ⟨root, assigned, t, trace, c, result, hp, h, hreturned⟩ :=
    exists_returned (n := 2) (by decide) panickingStage (by decide)
  obtain ⟨rfl, -⟩ := (h.follows hp).1.made (by simp [hreturned])
  obtain ⟨x, rest, hassigned, hx, hrest⟩ := List.map_eq_cons_iff.1 hp.blueprint.planned.tasks_eq
  obtain ⟨y, rest, rfl, hy, hnil⟩ := List.map_eq_cons_iff.1 hrest
  obtain rfl := List.map_eq_nil_iff.1 hnil
  -- A task ends as it always does.
  have hends {i : Nat} {r : TaskResult} (hended : .ended i r ∈ trace) :
      i = x.1 ∧ r = .panicked ∨ i = y.1 ∧ r = .done := by
    obtain ⟨task, hlookup, position, w, rfl⟩ := h.exists_execute hended
    have hmem := mem_of_lookup hlookup
    rw [hassigned, List.mem_pair] at hmem
    rcases hmem with rfl | rfl
    · obtain rfl : task = _ := hx
      exact .inl ⟨rfl, rfl⟩
    · obtain rfl : task = _ := hy
      exact .inr ⟨rfl, rfl⟩
  have hnone (i : Nat) (cause : Failure) : .ended i (.failed cause) ∉ trace := by
    intro hended
    rcases hends hended with ⟨-, hr⟩ | ⟨-, hr⟩ <;> cases hr
  have hprecedes : Precedes c.assigned x y := by
    refine ⟨by simp [hassigned], by simp [hassigned], .inl ?_⟩
    rw [hx, hy]
    decide
  refine ⟨root, _, t, trace, c, result, x, y, hp, h, hreturned, hprecedes, ?_, hnone⟩
  ext i
  constructor
  · intro hended
    rcases hends hended with ⟨hi, -⟩ | ⟨-, hr⟩
    · exact hi
    · cases hr
  · rintro rfl
    have honce := h.executedOnce hp (.inr ⟨result, hreturned⟩) hnone hprecedes.1
    obtain ⟨r, hended⟩ := honce.exists_ended
    rcases hends hended with ⟨-, rfl⟩ | ⟨hi, -⟩
    · exact hended
    · exact absurd hi (hprecedes.ne hp.blueprint.planned.nodup)

/-- The task that links is executed although the other one panicked, and the client returns that one
task did. -/
theorem panickingStage_goes_on : ∃ trace c x y,
    (ofTasks (.ofCount 2) panickingStage).Run trace c ∧ Precedes c.assigned x y ∧
      .ended x.1 .panicked ∈ trace ∧ ExecutedOnce trace y.1 ∧
      c.client = .returned (.error (.taskPanicked (.panicked 1))) := by
  obtain ⟨root, assigned, t, trace, c, result, x, y, hp, h, hreturned, hprecedes, hpanicked,
    hnone⟩ := panickingStage_runs
  obtain ⟨-, hruns⟩ := panics_stop_no_tasks hp.pool hp.takes_calls panickingStage
  obtain ⟨-, hexecuted, -, hresult⟩ := hruns trace c h
  obtain ⟨-, hfinished, houtcome⟩ := hresult result hreturned
  have hx : .ended x.1 .panicked ∈ trace := hpanicked.symm.subset rfl
  refine ⟨trace, c, x, y, h, hprecedes, hx, ?_, ?_⟩
  · refine (hexecuted y hprecedes.2.1 (hfinished y hprecedes.2.1)).resolve_right ?_
    rintro ⟨earlier, later, i, cause, rfl, hended⟩
    exact hnone i cause (List.mem_append_left _ hended)
  · cases houtcome with
    | panicked => rw [hreturned, hpanicked, Set.ncard_singleton]
    | failed hempty _ | ok hempty _ => simp [hempty] at hpanicked

/-- A task may be executed that comes after one that panicked and whose job was finished. -/
theorem executed_after_panic : ∃ trace c x y earlier later position,
    (ofTasks (.ofCount 2) panickingStage).Run trace c ∧ Precedes c.assigned x y ∧
      trace = earlier ++ .begun y.1 position :: later ∧ .ended x.1 .panicked ∈ earlier ∧
      Finished (poolEvents earlier) x.1 := by
  obtain ⟨root, assigned, t, trace, c, result, x, y, hp, h, hreturned, hprecedes, hpanicked,
    hnone⟩ := panickingStage_runs
  have hy := (hprecedes.mono (h.follows hp).1.sublist).2.1
  have honce := h.executedOnce hp (.inr ⟨result, hreturned⟩) hnone hy
  obtain ⟨position, hbegun⟩ := honce.exists_begun
  obtain ⟨earlier, later, rfl⟩ := List.append_of_mem hbegun
  have hfinished := h.finished_before_begun hp hprecedes rfl
  have hended : .ended x.1 .panicked ∈ earlier ++ .begun y.1 position :: later :=
    hpanicked.symm.subset rfl
  exact ⟨_, c, x, y, earlier, later, position, h, hprecedes, rfl,
    h.mem_of_finished hp hfinished hended (decide_eq_true rfl), hfinished⟩

end Crew

end IncrementalBuild.Build
