import IncrementalBuild.Jobs.Pool
import IncrementalBuild.Proofs.Jobs.Work

/-!
What a pool's state says of its history: which jobs were started and finished, what they were made
to wait for, and what was enqueued.
-/

namespace IncrementalBuild.Jobs

open Relation

namespace Event

/-- Whether a worker took the job. -/
def starts (job : Nat) : Event → Bool
  | .started _ i => i = job
  | _ => false

/-- Whether a worker finished the job. -/
def finishes (job : Nat) : Event → Bool
  | .finished _ i _ => i = job
  | _ => false

end Event

/-- The job was finished, normally or by panicking. -/
def Finished (trace : List Event) (job : Nat) : Prop :=
  ∃ worker panicked, Event.finished worker job panicked ∈ trace

/-- The first job was made to wait for the second. -/
def Linked (trace : List Event) (dependent dependency : Nat) : Prop :=
  Event.linked dependent dependency ∈ trace

/-- The job was enqueued, or one that was enqueued transitively waits for it. -/
def Required (trace : List Event) (job : Nat) : Prop :=
  ∃ root, Event.enqueued root ∈ trace ∧ ReflTransGen (Linked trace) root job

/-- The worker is running the job. -/
def Pool.Runs (p : Pool) (worker job : Nat) : Prop :=
  p.workers[worker]? = some (Worker.running job)

/-- The state of a pool is the one its history led to. -/
structure Pool.Agrees (trace : List Event) (p : Pool) : Prop where
  exact : p.scheduler.Exact
  starts_eq : ∀ j, (p.scheduler.Started j → trace.countP (Event.starts j) = 1) ∧
    (¬ p.scheduler.Started j → trace.countP (Event.starts j) = 0)
  finished_iff : ∀ j, Finished trace j ↔ (p.scheduler.job j).phase = .done
  linked_iff : ∀ i d, Linked trace i d ↔ p.scheduler.DependsOn i d
  required_iff : ∀ j, Required trace j ↔ p.scheduler.Enqueued j
  running_iff : ∀ j, (∃ w, p.Runs w j) ↔ (p.scheduler.job j).phase = .running
  running_unique : ∀ w w' j, p.Runs w j → p.Runs w' j → w = w'

namespace Pool

theorem countP_starts_append (trace : List Event) (e : Event) (j : Nat) :
    (trace ++ [e]).countP (Event.starts j) =
      trace.countP (Event.starts j) + if e.starts j then 1 else 0 := by
  simp [List.countP_append, List.countP_cons]

theorem finished_append (trace : List Event) (e : Event) (j : Nat) :
    Finished (trace ++ [e]) j ↔ Finished trace j ∨ ∃ w panicked, e = .finished w j panicked := by
  simp only [Finished, List.mem_append, List.mem_singleton, exists_or, eq_comm]

theorem linked_append (trace : List Event) (e : Event) (i d : Nat) :
    Linked (trace ++ [e]) i d ↔ Linked trace i d ∨ e = .linked i d := by
  simp only [Linked, List.mem_append, List.mem_singleton, eq_comm]

/-- An event that adds no dependency leaves the jobs required, but for those it enqueues. -/
theorem required_append {trace : List Event} {e : Event} (hlink : ∀ i d, e ≠ .linked i d)
    (j : Nat) :
    Required (trace ++ [e]) j ↔
      Required trace j ∨ ∃ root, e = .enqueued root ∧ ReflTransGen (Linked trace) root j := by
  have hsame : Linked (trace ++ [e]) = Linked trace := by
    funext i d
    simp [linked_append, hlink i d]
  simp only [Required, hsame, List.mem_append, List.mem_singleton, or_and_right, exists_or, eq_comm]

/-- A step that makes no dependency, schedules nothing and starts or finishes no job. -/
structure Quiet (p : Pool) (e : Event) (q : Pool) : Prop where
  not_starts : ∀ j, e.starts j = false
  not_finished : ∀ w j panicked, e ≠ .finished w j panicked
  not_linked : ∀ i d, e ≠ .linked i d
  not_enqueued : ∀ root, e ≠ .enqueued root
  job_eq : ∀ j, q.scheduler.job j = p.scheduler.job j
  runs_iff : ∀ w j, q.Runs w j ↔ p.Runs w j

theorem Agrees.quiet {trace : List Event} {p q : Pool} {e : Event} (h : Agrees trace p)
    (hquiet : Quiet p e q) (hexact : q.scheduler.Exact) : Agrees (trace ++ [e]) q where
  exact := hexact
  starts_eq j := by
    have hstarted : q.scheduler.Started j ↔ p.scheduler.Started j := by
      simp only [Scheduler.Started, hquiet.job_eq]
    rw [countP_starts_append, hquiet.not_starts, hstarted]
    exact h.starts_eq j
  finished_iff j := by
    rw [finished_append, hquiet.job_eq, ← h.finished_iff]
    simp [hquiet.not_finished]
  linked_iff i d := by
    have hdepends : q.scheduler.DependsOn i d ↔ p.scheduler.DependsOn i d := by
      simp only [Scheduler.DependsOn, Graph.Edge, Scheduler.dependenciesOf, hquiet.job_eq]
    rw [linked_append, hdepends, ← h.linked_iff]
    simp [hquiet.not_linked]
  required_iff j := by
    have henqueued : q.scheduler.Enqueued j ↔ p.scheduler.Enqueued j := by
      simp only [Scheduler.Enqueued, hquiet.job_eq]
    rw [required_append hquiet.not_linked, henqueued, ← h.required_iff]
    simp [hquiet.not_enqueued]
  running_iff j := by
    simp only [hquiet.runs_iff, hquiet.job_eq]
    exact h.running_iff j
  running_unique w w' j hw hw' :=
    h.running_unique w w' j ((hquiet.runs_iff w j).1 hw) ((hquiet.runs_iff w' j).1 hw')

theorem agrees_ofCount (n : Nat) : Agrees [] (ofCount n) where
  exact := Scheduler.exact_empty
  starts_eq j := by simp [Scheduler.Started, ofCount, Scheduler.job, Scheduler.empty, Job.fresh]
  finished_iff j := by simp [Finished, ofCount, Scheduler.job, Scheduler.empty, Job.fresh]
  linked_iff i d := by
    simp [Linked, Scheduler.DependsOn, Graph.Edge, Scheduler.dependenciesOf, ofCount,
      Scheduler.job, Scheduler.empty, Job.fresh]
  required_iff j := by
    simp [Required, Scheduler.Enqueued, ofCount, Scheduler.job, Scheduler.empty, Job.fresh]
  running_iff j := by
    simp [Runs, ofCount, List.getElem?_replicate, Scheduler.job, Scheduler.empty, Job.fresh]
  running_unique w w' j hw := by simp [Runs, ofCount, List.getElem?_replicate] at hw

/-- A worker that is given something else to do runs what it is given, and the others go on. -/
theorem runs_set {p : Pool} {w v : Nat} {worker : Worker} {s : Scheduler} {j : Nat}
    (hw : w < p.workers.length) :
    Runs { p with scheduler := s, workers := p.workers.set w worker } v j ↔
      if v = w then worker = .running j else p.Runs v j := by
  simp only [Runs]
  by_cases hv : v = w
  · subst hv
    simp [hw]
  · simp [hv, List.getElem?_set_ne (Ne.symm hv)]

theorem Agrees.link {trace : List Event} {p : Pool} {s : Scheduler} {i d : Nat}
    (h : Agrees trace p) (hlinking : p.scheduler.Linking s i d) :
    Agrees (trace ++ [.linked i d]) { p with scheduler := s } where
  exact := hlinking.exact h.exact
  starts_eq j := by
    have hstarted : s.Started j ↔ p.scheduler.Started j := by
      simp only [Scheduler.Started, hlinking.phase_eq]
    simp only [countP_starts_append, hstarted]
    exact h.starts_eq j
  finished_iff j := by
    rw [finished_append, hlinking.phase_eq, ← h.finished_iff]
    simp
  linked_iff j k := by
    rw [linked_append, h.linked_iff, hlinking.dependsOn_iff]
    simp [eq_comm]
  required_iff j := by
    -- No new path leads out of what is enqueued: the new dependency is one of a job that is not.
    have henqueued : ∀ x, s.Enqueued x ↔ p.scheduler.Enqueued x := by
      intro x
      rw [Scheduler.Enqueued, Scheduler.Enqueued, hlinking.phase_eq]
    have hmono : ∀ x y, Linked trace x y → Linked (trace ++ [.linked i d]) x y :=
      fun x y hxy => (linked_append _ _ _ _).2 (.inl hxy)
    rw [henqueued, ← h.required_iff]
    constructor
    · rintro ⟨root, hroot, hpath⟩
      have hroot' : Event.enqueued root ∈ trace := by simpa using hroot
      refine ⟨root, hroot', ?_⟩
      induction hpath with
      | refl => exact .refl
      | @tail x y _ hxy ih =>
        apply ih.tail
        have hx : p.scheduler.Enqueued x := (h.required_iff x).1 ⟨root, hroot', ih⟩
        rcases (linked_append _ _ _ _).1 hxy with hold | hnew
        · exact hold
        · cases hnew
          exact absurd hlinking.created hx
    · rintro ⟨root, hroot, hpath⟩
      exact ⟨root, List.mem_append_left _ hroot, ReflTransGen.mono hmono _ _ hpath⟩
  running_iff j := by
    rw [hlinking.phase_eq]
    exact h.running_iff j
  running_unique := h.running_unique

theorem Agrees.enqueue {trace : List Event} {p : Pool} {s : Scheduler} {root : Nat}
    {added : List Nat} (h : Agrees trace p) (hscheduling : p.scheduler.Scheduling s root added) :
    Agrees (trace ++ [.enqueued root]) { p with scheduler := s } where
  exact := hscheduling.exact h.exact
  starts_eq j := by
    simp only [countP_starts_append, hscheduling.started_iff]
    exact h.starts_eq j
  finished_iff j := by
    rw [finished_append, hscheduling.done_iff, ← h.finished_iff]
    simp
  linked_iff i d := by
    rw [linked_append, h.linked_iff, Scheduler.DependsOn, Scheduler.DependsOn,
      hscheduling.dependenciesOf_eq]
    simp
  required_iff j := by
    have hsame : Linked trace = p.scheduler.DependsOn := by
      funext i d
      exact propext (h.linked_iff i d)
    rw [required_append (by simp), hscheduling.enqueued_iff, h.required_iff, hsame]
    simp
  running_iff j := by
    have hrunning : (s.job j).phase = .running ↔ (p.scheduler.job j).phase = .running := by
      rw [hscheduling.phase_eq]
      split
      next hj => simp [hscheduling.created_of_mem hj]
      next => rfl
    rw [hrunning]
    exact h.running_iff j
  running_unique := h.running_unique

theorem Agrees.start {trace : List Event} {p : Pool} {s : Scheduler} {w i : Nat}
    (h : Agrees trace p) (hidle : p.workers[w]? = some Worker.idle)
    (htaking : p.scheduler.Taking s i) :
    Agrees (trace ++ [.started w i])
      { p with scheduler := s, workers := p.workers.set w (.running i) } := by
  have hw : w < p.workers.length := (List.getElem?_eq_some_iff.1 hidle).1
  have hfree : ∀ j, ¬ p.Runs w j := by
    intro j hrun
    rw [Runs, hidle] at hrun
    cases hrun
  have hscheduled := (htaking.scheduled h.exact).1
  have hphase := htaking.phase_eq h.exact
  refine ⟨htaking.exact h.exact, ?_, ?_, ?_, ?_, ?_, ?_⟩
  · intro j
    have hold := h.starts_eq j
    rw [countP_starts_append]
    by_cases hj : j = i
    · subst hj
      have hnew : ¬ p.scheduler.Started j := by simp [Scheduler.Started, hscheduled]
      have hstarted : s.Started j := .inl (by rw [hphase, if_pos rfl])
      simp [hstarted, hold.2 hnew, Event.starts]
    · have hstarted : s.Started j ↔ p.scheduler.Started j := by
        simp [Scheduler.Started, hphase, hj]
      simpa [hstarted, Event.starts, Ne.symm hj] using hold
  · intro j
    rw [finished_append, htaking.done_iff h.exact, ← h.finished_iff]
    simp
  · intro j d
    rw [linked_append, h.linked_iff, Scheduler.DependsOn, Scheduler.DependsOn,
      htaking.dependenciesOf_eq]
    simp
  · intro j
    rw [required_append (by simp), htaking.enqueued_iff h.exact, ← h.required_iff]
    simp
  · intro j
    simp only [runs_set hw, hphase]
    by_cases hj : j = i
    · subst hj
      exact iff_of_true ⟨w, by simp⟩ (by simp)
    · rw [if_neg hj, ← h.running_iff j]
      constructor
      · rintro ⟨v, hv⟩
        by_cases hvw : v = w
        · simp [hvw, Ne.symm hj] at hv
        · exact ⟨v, by simpa [hvw] using hv⟩
      · rintro ⟨v, hv⟩
        have hvw : v ≠ w := fun heq => hfree j (heq ▸ hv)
        exact ⟨v, by simpa [hvw] using hv⟩
  · intro v v' j hv hv'
    have hnone : ∀ x, ¬ p.Runs x i := fun x hx => by
      have := (h.running_iff i).1 ⟨x, hx⟩
      simp [hscheduled] at this
    rw [runs_set hw] at hv hv'
    by_cases hvw : v = w <;> by_cases hvw' : v' = w
    · rw [hvw, hvw']
    · simp only [hvw, hvw', if_true, if_false, Worker.running.injEq] at hv hv'
      exact absurd (hv ▸ hv') (hnone v')
    · simp only [hvw, hvw', if_true, if_false, Worker.running.injEq] at hv hv'
      exact absurd (hv' ▸ hv) (hnone v)
    · simp only [hvw, hvw', if_false] at hv hv'
      exact h.running_unique v v' j hv hv'

theorem Agrees.finish {trace : List Event} {p : Pool} {w i : Nat} (h : Agrees trace p)
    (hruns : p.Runs w i) (panicked : Bool) :
    Agrees (trace ++ [.finished w i panicked]) { p with
      scheduler := p.scheduler.finish i panicked, workers := p.workers.set w .idle } := by
  have hw : w < p.workers.length := (List.getElem?_eq_some_iff.1 hruns).1
  have hrunning : (p.scheduler.job i).phase = .running := (h.running_iff i).1 ⟨w, hruns⟩
  have hi := Scheduler.lt_size_of_phase_ne (s := p.scheduler) (i := i) (by simp [hrunning])
  have hphase := Scheduler.phase_finish hi panicked
  have hothers : ∀ v j, Runs { p with
      scheduler := p.scheduler.finish i panicked, workers := p.workers.set w .idle } v j ↔
      v ≠ w ∧ p.Runs v j := by
    intro v j
    rw [runs_set hw]
    by_cases hv : v = w <;> simp [hv]
  refine ⟨h.exact.finish hrunning panicked, ?_, ?_, ?_, ?_, ?_, ?_⟩
  · intro j
    have hstarted : (p.scheduler.finish i panicked).Started j ↔ p.scheduler.Started j := by
      rw [Scheduler.Started, Scheduler.Started, hphase]
      split
      next hj => simp [hj, hrunning]
      next => rfl
    simp only [countP_starts_append, hstarted]
    exact h.starts_eq j
  · intro j
    rw [finished_append, hphase, h.finished_iff]
    by_cases hj : j = i
    · subst hj
      simp
    · simp [hj, Ne.symm hj]
  · intro j d
    rw [linked_append, h.linked_iff, Scheduler.DependsOn, Scheduler.DependsOn,
      Scheduler.dependenciesOf_finish]
    simp
  · intro j
    have henqueued : (p.scheduler.finish i panicked).Enqueued j ↔ p.scheduler.Enqueued j := by
      rw [Scheduler.Enqueued, Scheduler.Enqueued, hphase]
      split
      next hj => simp [hj, hrunning]
      next => rfl
    rw [required_append (by simp), henqueued, ← h.required_iff]
    simp
  · intro j
    simp only [hothers, hphase]
    by_cases hj : j = i
    · subst hj
      simp only [if_true, reduceCtorEq, iff_false]
      rintro ⟨v, hv, hrun⟩
      exact hv (h.running_unique v w j hrun hruns)
    · rw [if_neg hj, ← h.running_iff j]
      constructor
      · rintro ⟨v, -, hrun⟩
        exact ⟨v, hrun⟩
      · rintro ⟨v, hrun⟩
        refine ⟨v, fun hv => ?_, hrun⟩
        subst hv
        rw [Runs] at hrun hruns
        rw [hrun] at hruns
        cases hruns
        exact hj rfl
  · intro v v' j hv hv'
    exact h.running_unique v v' j ((hothers v j).1 hv).2 ((hothers v' j).1 hv').2

end Pool

end IncrementalBuild.Jobs
