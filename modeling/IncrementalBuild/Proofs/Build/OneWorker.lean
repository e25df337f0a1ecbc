import IncrementalBuild.Proofs.Build.Crew
import IncrementalBuild.Proofs.Build.Tasks

/-!
Running tasks one after another is one of the runs of a crew: that of a single worker, whose client
does all it can before the worker begins, and then waits.
-/

namespace IncrementalBuild.Build

open Jobs Planning

variable {ν : Type}

/-- A scheduler with one worker that is idle. -/
def Crew.alone (s : Scheduler) : Pool := ⟨s, [.idle], false⟩

/-- A scheduler whose one worker runs a job. -/
def Crew.engaged (s : Scheduler) (job : Nat) : Pool := ⟨s, [.running job], false⟩

namespace Crew

variable {start mid c : Crew ν} {trace more : List Occurrence}

theorem Run.trans (h : start.Run trace mid) (hmore : mid.Run more c) :
    start.Run (trace ++ more) c := by
  induction hmore with
  | start => simpa using h
  | step _ hstep ih => simpa using ih.step hstep

/-- The client makes all its calls. -/
theorem exists_run_of_calls (c : Crew ν) {calls : Calls ν} {s t : Scheduler} {root : Handle}
    (made : Assigned ν) {rest : Assigned ν} (hrun : calls.run.run s = .ok ((root, rest), t))
    (hroom : t.jobs.size ≤ Handle.invalid.index) :
    ∃ trace, ({ c with pool := alone s, client := .making calls, assigned := made } : Crew ν).Run
      trace { c with
        pool := alone t
        client := .making (.done root)
        assigned := made ++ rest } := by
  induction calls generalizing s made rest with
  | done r =>
    obtain ⟨heq, rfl⟩ := run_pure_eq_ok.1 hrun
    cases heq
    rw [List.append_nil]
    exact ⟨[], .start⟩
  | create task next ih =>
    obtain ⟨job, v, hjob, hrun⟩ := run_bind_eq_ok.1 hrun
    obtain ⟨⟨root', more⟩, w, hnext, hrun⟩ := run_bind_eq_ok.1 hrun
    obtain ⟨heq, rfl⟩ := run_pure_eq_ok.1 hrun
    cases heq
    obtain ⟨rfl, rfl⟩ := run_newJob_eq_ok.1 hjob
    have hle := Calls.size_le_of_run hnext
    rw [Scheduler.size_create] at hle
    obtain ⟨trace, hmore⟩ := ih _ (made ++ Calls.assign task s.jobs.size) hnext
    rw [List.append_assoc] at hmore
    have hstep := Step.create (c := { c with
      pool := alone s, client := .making (.create task next), assigned := made }) rfl
      (.create rfl (by simp only [alone]; omega))
    exact ⟨_, (Run.start.step hstep).trans hmore⟩
  | link dependent dependency next ih =>
    obtain ⟨_, v, hwait, hrun⟩ := run_bind_eq_ok.1 hrun
    rw [run_waitFor] at hwait
    obtain ⟨u, hadd, heq⟩ := bind_eq_ok_iff.1 hwait
    cases heq
    obtain ⟨trace, hmore⟩ := ih made hrun
    have hstep := Step.link (c := { c with
      pool := alone s, client := .making (.link dependent dependency next), assigned := made }) rfl
      (.link rfl hadd)
    exact ⟨_, (Run.start.step hstep).trans hmore⟩

/-- The crew in which one worker has come so far with its tasks. -/
def withProgress (c : Crew ν) (pool : Pool) (p : Progress ν) (activity : Nat → Activity) : Crew ν :=
  { c with pool, failed := p.failed, positions := p.positions, activity }

section Work

variable {s : Scheduler} {i : Nat} {p : Progress ν} {activity : Nat → Activity}
  {task : Build.Task ν}

theorem step_finish (c : Crew ν) (panicked : Bool)
    (hcan : (c.withProgress (engaged s i) p activity).CanFinish i panicked) :
    (c.withProgress (engaged s i) p activity).Step (.pool (.finished 0 i panicked))
      (c.withProgress (alone (s.finish i panicked)) p activity) := by
  have hruns : (engaged s i).workers[0]? = some (.running i) := rfl
  exact .finish (.finish panicked hruns) hcan

theorem doing_withProgress (c : Crew ν) (hlookup : c.assigned.lookup i = some task)
    {a : Activity} (ha : activity i = a) :
    (c.withProgress (engaged s i) p activity).Doing i task a :=
  ⟨⟨0, rfl⟩, hlookup, ha⟩

/-- The worker does what a task does, and what is left to do is to finish its job. -/
theorem exists_run_of_step (c : Crew ν) (s : Scheduler) (p : Progress ν)
    (hlookup : c.assigned.lookup i = some task) (hfresh : activity i = .fresh) :
    ∃ trace activity', (c.withProgress (engaged s i) p activity).Run trace
        (c.withProgress (engaged s i) (task.step c.total p).1 activity') ∧
      activity' i = .complete (task.step c.total p).2 ∧ ∀ j, j ≠ i → activity' j = activity j := by
  obtain ⟨world, failed, positions⟩ := p
  have hdoing := doing_withProgress (s := s) (p := ⟨world, failed, positions⟩) c hlookup hfresh
  cases failed with
  | true =>
    rw [step_failed rfl]
    exact ⟨_, _, Run.start.step (.skip hdoing rfl), Function.update_self _ _ _,
      fun j hj => Function.update_of_ne hj _ _⟩
  | false =>
    have hcleared := doing_withProgress (s := s) (p := ⟨world, false, positions⟩) c hlookup
      (Function.update_self i .cleared activity)
    rw [Task.step, if_neg (by simp)]
    dsimp only
    generalize hposition : (if task.wantsPosition then some (Position.mk (positions + 1) c.total)
      else none) = position
    generalize hgiven : (if task.wantsPosition then positions + 1 else positions) = given
    generalize hactivity : Function.update (Function.update activity i .cleared) i
      (.executing position) = begun
    have hbegun : (c.withProgress (engaged s i) ⟨world, false, positions⟩ activity).Run
        [.cleared i, .begun i position]
        (c.withProgress (engaged s i) ⟨world, false, given⟩ begun) := by
      rw [← hactivity, ← hposition, ← hgiven]
      exact (Run.start.step (.clear hdoing rfl)).step (.begin hcleared)
    have hexecuting : (c.withProgress (engaged s i) ⟨world, false, given⟩ begun).Doing i task
        (.executing position) :=
      doing_withProgress c hlookup (by rw [← hactivity, Function.update_self])
    have hended := hbegun.step (.execute world hexecuting)
    have hother (a : Activity) (j : Nat) (hj : j ≠ i) :
        Function.update begun i a j = activity j := by
      simp only [← hactivity, Function.update_of_ne hj]
    generalize task.execute position world = outcome at hended
    obtain ⟨result, world'⟩ := outcome
    cases result with
    | done => exact ⟨_, _, hended, Function.update_self _ _ _, hother _⟩
    | panicked => exact ⟨_, _, hended, Function.update_self _ _ _, hother _⟩
    | failed cause =>
      have hfailing := doing_withProgress (s := s) (p := ⟨world, false, given⟩) c hlookup
        (Function.update_self i .failing begun)
      exact ⟨_, _, hended.step (.raise hfailing), Function.update_self _ _ _,
        fun j hj => (Function.update_of_ne hj _ _).trans (hother .failing j hj)⟩

/-- The worker does what a job does, and finishes it. -/
theorem exists_run_of_jobStep (c : Crew ν) (s : Scheduler) (p : Progress ν)
    (hfresh : activity i = .fresh) :
    ∃ trace activity', (c.withProgress (engaged s i) p activity).Run trace
        (c.withProgress (alone (s.finish i (jobStep c.assigned c.total i p).2))
          (jobStep c.assigned c.total i p).1 activity') ∧
      ∀ j, j ≠ i → activity' j = activity j := by
  unfold jobStep
  cases hlookup : c.assigned.lookup i with
  | none =>
    have hcan : (c.withProgress (engaged s i) p activity).CanFinish i false := by
      simp [CanFinish, withProgress, hlookup]
    exact ⟨_, activity, Run.start.step (step_finish c false hcan), fun _ _ => rfl⟩
  | some task =>
    obtain ⟨trace, activity', hrun, hcomplete, hother⟩ := exists_run_of_step c s p hlookup hfresh
    have hcan : (c.withProgress (engaged s i) (task.step c.total p).1 activity').CanFinish i
        (task.step c.total p).2 := by
      simpa [CanFinish, withProgress, hlookup] using hcomplete
    exact ⟨_, activity', hrun.step (step_finish c _ hcan), hother⟩

/-- The worker runs jobs one after another. -/
theorem exists_run_of_serial (c : Crew ν) (activity : Nat → Activity) {t : Scheduler}
    {q : Progress ν} {order : List Nat}
    (h : Scheduler.Serial (jobStep c.assigned c.total) s p order t q) (hexact : s.Exact)
    (hfresh : ∀ j, (s.job j).phase ≠ .done → activity j = .fresh) :
    ∃ trace activity', (c.withProgress (alone s) p activity).Run trace
      (c.withProgress (alone t) q activity') := by
  induction h generalizing activity with
  | rest => exact ⟨[], activity, .start⟩
  | @take s running t p q i order hstart hrest ih =>
    have hturn := Scheduler.turn_of_start? hexact hstart (jobStep c.assigned c.total i p).2
    have hidle : (alone s).workers[0]? = some .idle := rfl
    have htake : (c.withProgress (alone s) p activity).Step (.pool (.started 0 i))
        (c.withProgress (engaged running i) p activity) := .start (.start hidle hstart)
    obtain ⟨trace, activity', hwork, hother⟩ :=
      exists_run_of_jobStep c running p (hfresh i (by simp [hturn.scheduled]))
    -- The work on the first job leaves that of the others fresh.
    obtain ⟨more, activity'', hmore⟩ := ih activity' hturn.exact fun j hj => by
      rw [hturn.phase_eq] at hj
      split at hj
      · exact absurd rfl hj
      next hne => rw [hother j hne, hfresh j hj]
    exact ⟨_, activity'', ((Run.start.step htake).trans hwork).trans hmore⟩

end Work

/-- What running tasks returns is what a crew of one worker returns in one of its runs, and it
leaves the same jobs behind. -/
theorem exists_run_of_runTasks {tasks : List (Build.Task ν)} {w v : World ν}
    {result : Except Failure Unit} (hsettled : w.scheduler.Settled)
    (hroom : w.scheduler.jobs.size + 9 + tasks.length ≤ Handle.invalid.index)
    (h : (runTasks tasks).runIn w = (result, v)) :
    ∃ trace c, (ofTasks (alone w.scheduler) tasks).Run trace c ∧ c.client = .returned result ∧
      c.pool.scheduler = v.scheduler := by
  obtain ⟨root, assigned, planned, started, done, order, p, hran⟩ :=
    ran_of_runTasks hsettled.exact h
  have hsize : planned.jobs.size ≤ Handle.invalid.index := by
    obtain ⟨_, _, _, hplan, hsize, -⟩ := plan_succeeds hsettled.exact tasks
    rw [hran.plan_eq] at hplan
    cases hplan
    omega
  have hcalls : (Calls.plan tasks).run.run w.scheduler = .ok ((root, assigned), planned) := by
    rw [Calls.run_plan, hran.plan_eq]
  obtain ⟨trace, hmade⟩ :=
    exists_run_of_calls (ofTasks (alone w.scheduler) tasks) [] hcalls hsize
  rw [List.nil_append] at hmade
  have hwaiting := hmade.step (.enqueue rfl (.enqueue rfl hran.enqueue_eq))
  -- Nothing has been done yet for any job that the worker will run.
  obtain ⟨more, activity, hdone⟩ := exists_run_of_serial
    { ofTasks (alone w.scheduler) tasks with client := .waiting root, assigned }
    (fun _ => .fresh) hran.serial (hran.exact hsettled) fun _ _ => rfl
  have hrun := hwaiting.trans hdone
  have hphase := hran.root_done hsettled
  have hlt := Scheduler.lt_size_of_phase_ne (s := done) (i := root.index) (by simp [hphase])
  have hresult := hran.result_eq
  have hjobs : v.scheduler = done := by rw [hran.world_eq]
  have hreturns : ∃ r, done.waitResult root = some r := by
    simp [Scheduler.waitResult, Scheduler.holds, hlt, hphase]
  obtain ⟨r, hwait⟩ := hreturns
  rw [hwait] at hresult
  have hwaited := hrun.step (.wait rfl hwait)
  cases r with
  | error e => exact ⟨_, _, hwaited, by rw [hresult]; rfl, hjobs.symm⟩
  | ok u => exact ⟨_, _, hwaited.step (.answer rfl), by rw [hresult]; rfl, hjobs.symm⟩

end Crew

end IncrementalBuild.Build
