import IncrementalBuild.Proofs.Build.Crew
import IncrementalBuild.Proofs.Build.Precedence
import IncrementalBuild.Proofs.Build.Tasks

/-!
What every run of a crew keeps to: none of the calls of its client is refused, whatever workers do
between them, and jobs start in the order of their tasks.
-/

namespace IncrementalBuild.Build

open Jobs Relation Planning

variable {ν : Type}

/-- What the client is to make of some tasks, if nothing comes between its calls. -/
structure Blueprint (s : Scheduler) (tasks : List (Build.Task ν)) (root : Handle)
    (assigned : Assigned ν) (t : Scheduler) : Prop where
  run_eq : (plan tasks).run s = .ok ((root, assigned), t)
  size_eq : t.jobs.size = s.jobs.size + 9 + tasks.length
  reaches : ∀ x y, Precedes assigned x y → Reaches t y.1 x.1

theorem exists_blueprint {s : Scheduler} (hexact : s.Exact) (tasks : List (Build.Task ν)) :
    ∃ root assigned t, Blueprint s tasks root assigned t := by
  obtain ⟨root, assigned, t, hrun, hsize, hreaches⟩ := plan_succeeds hexact tasks
  exact ⟨root, assigned, t, hrun, hsize, hreaches⟩

theorem Blueprint.planned {s t : Scheduler} {tasks : List (Build.Task ν)} {root : Handle}
    {assigned : Assigned ν} (h : Blueprint s tasks root assigned t) :
    Planned none (Stage.all.flatMap fun stage => tasks.filter fun t => t.stage = stage) s t
      assigned :=
  (planned_plan h.run_eq).1

/-- Tasks are to be run in a pool that takes calls, and this is what its client will make of
them. -/
structure Prepared (n : Nat) (before : List Event) (p : Pool) (tasks : List (Build.Task ν))
    (root : Handle) (assigned : Assigned ν) (t : Scheduler) : Prop where
  pool : Pool.Run n before p
  takes_calls : p.shutdown = false
  blueprint : Blueprint p.scheduler tasks root assigned t

theorem exists_prepared {n : Nat} {before : List Event} {p : Pool} (hpool : Pool.Run n before p)
    (hopen : p.shutdown = false) (tasks : List (Build.Task ν)) :
    ∃ root assigned t, Prepared n before p tasks root assigned t := by
  obtain ⟨root, assigned, t, hblueprint⟩ := exists_blueprint hpool.agrees.exact tasks
  exact ⟨root, assigned, t, hpool, hopen, hblueprint⟩

/-- Two schedulers have the same jobs with the same dependencies, and none of those from `first` on
has been enqueued in the second. -/
structure Shadows (first : Nat) (u s : Scheduler) : Prop where
  first_le : first ≤ s.jobs.size
  size_eq : s.jobs.size = u.jobs.size
  dependenciesOf_eq : s.dependenciesOf = u.dependenciesOf
  created : ∀ j, first ≤ j → (s.job j).phase = .created

namespace Shadows

variable {first : Nat} {u v s t : Scheduler}

theorem refl (s : Scheduler) : Shadows s.jobs.size s s :=
  ⟨Nat.le_refl _, rfl, rfl, fun _ => created_of_size_le⟩

theorem create (h : Shadows first u s) : Shadows first u.create.2 s.create.2 where
  first_le := by
    have hle := h.first_le
    rw [Scheduler.size_create]
    omega
  size_eq := by rw [Scheduler.size_create, Scheduler.size_create, h.size_eq]
  dependenciesOf_eq := by
    rw [Scheduler.dependenciesOf_create, Scheduler.dependenciesOf_create, h.dependenciesOf_eq]
  created j hj := by
    rw [Scheduler.job_create]
    exact h.created j hj

theorem link {i d : Nat} (h : Shadows first u s) (hu : u.Linking v i d) (hs : s.Linking t i d) :
    Shadows first v t where
  first_le := by rw [hs.size_eq]; exact h.first_le
  size_eq := by rw [hs.size_eq, hu.size_eq, h.size_eq]
  dependenciesOf_eq := by
    funext j
    rw [hs.dependencies_eq, hu.dependencies_eq, h.dependenciesOf_eq]
  created j hj := by
    rw [hs.phase_eq]
    exact h.created j hj

theorem take {i : Nat} (h : Shadows first u s) (hexact : s.Exact) (htaking : s.Taking t i) :
    Shadows first u t where
  first_le := by rw [htaking.size_eq]; exact h.first_le
  size_eq := by rw [htaking.size_eq, h.size_eq]
  dependenciesOf_eq := by rw [htaking.dependenciesOf_eq, h.dependenciesOf_eq]
  created j hj := by
    have hne : j ≠ i := by
      rintro rfl
      have hscheduled := (htaking.scheduled hexact).1
      rw [h.created j hj] at hscheduled
      cases hscheduled
    rw [htaking.phase_eq hexact, if_neg hne]
    exact h.created j hj

theorem finish {i : Nat} (h : Shadows first u s) (hrunning : (s.job i).phase = .running)
    (panicked : Bool) : Shadows first u (s.finish i panicked) where
  first_le := by rw [Scheduler.size_finish]; exact h.first_le
  size_eq := by rw [Scheduler.size_finish, h.size_eq]
  dependenciesOf_eq := by rw [Scheduler.dependenciesOf_finish, h.dependenciesOf_eq]
  created j hj := by
    have hi := Scheduler.lt_size_of_phase_ne (s := s) (i := i) (by simp [hrunning])
    have hne : j ≠ i := by
      rintro rfl
      rw [h.created j hj] at hrunning
      cases hrunning
    rw [Scheduler.phase_finish hi, if_neg hne]
    exact h.created j hj

theorem exists_addDependency {i d : Handle} (h : Shadows first u s) (hi : first ≤ i.index)
    (hu : u.Linking v i.index d.index) : ∃ t, s.addDependency i d = .ok t := by
  apply Scheduler.exists_addDependency
  · rw [h.size_eq]
    exact hu.dependent_lt
  · rw [h.size_eq]
    exact hu.dependency_lt
  · exact h.created _ hi
  · rw [Scheduler.closure, h.dependenciesOf_eq, h.size_eq]
    exact hu.not_mem_closure

end Shadows

/-- The client is on its way to make what the blueprint says, or has made and enqueued it. -/
structure Follows (s : Scheduler) (tasks : List (Build.Task ν)) (root : Handle)
    (assigned : Assigned ν) (t : Scheduler) (c : Crew ν) : Prop where
  making : ∀ calls, c.client = .making calls → calls.Above s.jobs.size ∧ ∃ u rest,
    calls.run.run u = .ok ((root, rest), t) ∧ c.assigned ++ rest = assigned ∧
      Shadows s.jobs.size u c.pool.scheduler
  made : (∀ calls, c.client ≠ .making calls) → c.assigned = assigned ∧
    c.pool.scheduler.jobs.size = t.jobs.size ∧
      c.pool.scheduler.dependenciesOf = t.dependenciesOf ∧ c.pool.scheduler.Enqueued root.index
  waiting : ∀ r, c.client = .waiting r → r = root

section Follows

variable {s t : Scheduler} {tasks : List (Build.Task ν)} {root : Handle} {assigned : Assigned ν}
  {c c' : Crew ν} {o : Occurrence}

theorem Blueprint.follows {p : Pool} (h : Blueprint p.scheduler tasks root assigned t) :
    Follows p.scheduler tasks root assigned t (.ofTasks p tasks) where
  making calls hcalls := by
    cases hcalls
    refine ⟨Calls.above_plan _ _, p.scheduler, assigned, ?_, rfl, .refl _⟩
    rw [Calls.run_plan, h.run_eq]
  made hnot := absurd rfl (hnot _)
  waiting r hr := by cases hr

theorem Blueprint.root_lt (h : Blueprint s tasks root assigned t) :
    s.jobs.size ≤ root.index ∧ root.index < t.jobs.size := by
  have hroot := (planned_plan h.run_eq).2.1
  have hsize := h.size_eq
  omega

namespace Follows

/-- Whatever keeps what the client and its scheduler have come to is followed too. -/
theorem congr (h : Follows s tasks root assigned t c) (hclient : c'.client = c.client)
    (hassigned : c'.assigned = c.assigned)
    (hshadows : ∀ u, Shadows s.jobs.size u c.pool.scheduler →
      Shadows s.jobs.size u c'.pool.scheduler)
    (hsize : c'.pool.scheduler.jobs.size = c.pool.scheduler.jobs.size)
    (hdepends : c'.pool.scheduler.dependenciesOf = c.pool.scheduler.dependenciesOf)
    (henqueued : c.pool.scheduler.Enqueued root.index → c'.pool.scheduler.Enqueued root.index) :
    Follows s tasks root assigned t c' where
  making calls hcalls := by
    obtain ⟨habove, u, rest, hrun, hrest, hshadow⟩ := h.making calls (by rw [← hclient, hcalls])
    exact ⟨habove, u, rest, hrun, by rw [hassigned, hrest], hshadows u hshadow⟩
  made hnot := by
    rw [hclient] at hnot
    obtain ⟨heq, hsize', hdepends', hroot⟩ := h.made hnot
    exact ⟨by rw [hassigned, heq], by rw [hsize, hsize'], by rw [hdepends, hdepends'],
      henqueued hroot⟩
  waiting r hr := h.waiting r (by rw [← hclient, hr])

/-- What happens outside of the pool is followed as long as the client makes no call. -/
theorem congr_pool (h : Follows s tasks root assigned t c) (hclient : c'.client = c.client)
    (hassigned : c'.assigned = c.assigned) (hpool : c'.pool = c.pool) :
    Follows s tasks root assigned t c' :=
  h.congr hclient hassigned (fun u hu => by rwa [hpool]) (by rw [hpool]) (by rw [hpool])
    (fun hroot => by rwa [hpool])

theorem create {task : Option (Build.Task ν)} {next : Handle → Calls ν} {job : Nat} {q : Pool}
    (h : Follows s tasks root assigned t c) (hclient : c.client = .making (.create task next))
    (hstep : c.pool.Step (.created job) q) :
    Follows s tasks root assigned t { c with
      pool := q
      client := .making (next ⟨job⟩)
      assigned := c.assigned ++ Calls.assign task job } where
  making calls hcalls := by
    cases hcalls
    obtain ⟨habove, u, rest, hrun, hrest, hshadow⟩ := h.making _ hclient
    obtain ⟨job', v, hjob, hrun⟩ := run_bind_eq_ok.1 hrun
    obtain ⟨⟨root', more⟩, w, hnext, hrun⟩ := run_bind_eq_ok.1 hrun
    obtain ⟨heq, rfl⟩ := run_pure_eq_ok.1 hrun
    cases heq
    obtain ⟨rfl, rfl⟩ := run_newJob_eq_ok.1 hjob
    cases hstep with
    | create hopen hroom =>
      -- Both schedulers have as many jobs, so the handle given is that of the blueprint.
      have hsize : (⟨c.pool.scheduler.create.1.index⟩ : Handle) = ⟨u.jobs.size⟩ := by
        rw [Scheduler.create, hshadow.size_eq]
      refine ⟨habove _ hshadow.first_le, u.create.2, more, ?_, ?_, hshadow.create⟩
      · rw [hsize]
        exact hnext
      · rw [← hrest, List.append_assoc]
        congr 3
        exact congrArg Handle.index hsize
  made hnot := absurd rfl (hnot _)
  waiting r hr := by cases hr

/-- Making a job wait for another: what the blueprint accepts is accepted. -/
theorem link {dependent dependency : Handle} {next : Calls ν}
    (h : Follows s tasks root assigned t c)
    (hclient : c.client = .making (.link dependent dependency next)) :
    (∃ v, c.pool.scheduler.addDependency dependent dependency = .ok v) ∧
      ∀ q, c.pool.Step (.linked dependent.index dependency.index) q →
        Follows s tasks root assigned t { c with pool := q, client := .making next } := by
  obtain ⟨⟨hdependent, -, habove⟩, u, rest, hrun, hrest, hshadow⟩ := h.making _ hclient
  obtain ⟨_, v, hwait, hrun⟩ := run_bind_eq_ok.1 hrun
  rw [run_waitFor] at hwait
  obtain ⟨v', hadd, heq⟩ := bind_eq_ok_iff.1 hwait
  cases heq
  have hlinking := Scheduler.linking_of_addDependency hadd
  refine ⟨hshadow.exists_addDependency hdependent hlinking, fun q hstep => ⟨?_, ?_, ?_⟩⟩
  · rintro calls hcalls
    cases hcalls
    exact ⟨habove, v, rest, hrun, hrest, hshadow.link hlinking hstep.linking⟩
  · exact fun hnot => absurd rfl (hnot _)
  · rintro r hr
    cases hr

theorem enqueue {r : Handle} (h : Follows s tasks root assigned t c)
    (hblueprint : Blueprint s tasks root assigned t) (hexact : c.pool.scheduler.Exact)
    (hclient : c.client = .making (.done r)) :
    (∃ v, c.pool.scheduler.enqueue r = .ok v) ∧
      ∀ q, c.pool.Step (.enqueued r.index) q →
        Follows s tasks root assigned t { c with pool := q, client := .waiting r } := by
  obtain ⟨-, u, rest, hrun, hrest, hshadow⟩ := h.making _ hclient
  obtain ⟨heq, rfl⟩ := run_pure_eq_ok.1 hrun
  cases heq
  have hlt : root.index < c.pool.scheduler.jobs.size := by
    rw [hshadow.size_eq]
    exact hblueprint.root_lt.2
  refine ⟨Scheduler.exists_enqueue hlt, fun q hstep => ⟨?_, ?_, ?_⟩⟩
  · rintro calls hcalls
    cases hcalls
  · obtain ⟨added, hscheduling⟩ := hstep.scheduling hexact
    refine fun _ => ⟨by simpa using hrest, ?_, ?_, ?_⟩
    · rw [hscheduling.size_eq, hshadow.size_eq]
    · rw [hscheduling.dependenciesOf_eq, hshadow.dependenciesOf_eq]
    · exact (hscheduling.enqueued_iff _).2 (.inr .refl)
  · rintro r' hr
    cases hr
    rfl

theorem start {w j : Nat} {q : Pool} (h : Follows s tasks root assigned t c)
    (hexact : c.pool.scheduler.Exact) (hstep : c.pool.Step (.started w j) q) :
    Follows s tasks root assigned t { c with pool := q } :=
  h.congr rfl rfl (fun _ hu => hu.take hexact hstep.taking) hstep.taking.size_eq
    hstep.taking.dependenciesOf_eq ((hstep.taking.enqueued_iff hexact _).2)

theorem finish {trace : List Event} {w j : Nat} {panicked : Bool} {q : Pool}
    (h : Follows s tasks root assigned t c) (hagrees : c.pool.Agrees trace)
    (hstep : c.pool.Step (.finished w j panicked) q) :
    Follows s tasks root assigned t { c with pool := q } := by
  obtain ⟨hruns, hq⟩ := hstep.finishing
  obtain ⟨hrunning, hj⟩ := hagrees.lt_of_runs hruns
  refine h.congr rfl rfl (fun u hu => ?_) ?_ ?_ ?_ <;> dsimp only <;> rw [hq]
  · exact hu.finish hrunning panicked
  · exact Scheduler.size_finish _ _ _
  · exact Scheduler.dependenciesOf_finish _ _ _
  · intro hroot
    rw [Scheduler.Enqueued, Scheduler.phase_finish hj]
    split
    · simp
    · exact hroot

theorem move (h : Follows s tasks root assigned t c) {client : Client ν}
    (hwas : ∀ calls, c.client ≠ .making calls) (hnot : ∀ calls, client ≠ .making calls)
    (hwaiting : ∀ r, client ≠ .waiting r) :
    Follows s tasks root assigned t { c with client } where
  making calls hcalls := absurd hcalls (hnot calls)
  made _ := h.made hwas
  waiting r hr := absurd hr (hwaiting r)

/-- Whatever step is taken, the client follows the blueprint, and no call of it is refused. -/
theorem step {trace : List Event} (h : Follows s tasks root assigned t c)
    (hblueprint : Blueprint s tasks root assigned t) (hagrees : c.pool.Agrees trace)
    (hstep : c.Step o c') :
    Follows s tasks root assigned t c' ∧ ∀ cause, o ≠ .pool (.refused cause) := by
  cases hstep with
  | create hclient hpool => exact ⟨h.create hclient hpool, by simp⟩
  | link hclient hpool => exact ⟨(h.link hclient).2 _ hpool, by simp⟩
  | refuseLink hclient hrefused =>
    obtain ⟨v, haccepted⟩ := (h.link hclient).1
    rw [hrefused] at haccepted
    cases haccepted
  | enqueue hclient hpool =>
    exact ⟨(h.enqueue hblueprint hagrees.exact hclient).2 _ hpool, by simp⟩
  | refuseEnqueue hclient hrefused =>
    obtain ⟨v, haccepted⟩ := (h.enqueue hblueprint hagrees.exact hclient).1
    rw [hrefused] at haccepted
    cases haccepted
  | start hpool => exact ⟨h.start hagrees.exact hpool, by simp⟩
  | finish hpool _ => exact ⟨h.finish hagrees hpool, by simp⟩
  | skip | clear | begin | execute | raise => exact ⟨h.congr_pool rfl rfl rfl, by simp⟩
  | @wait _ result hclient _ =>
    refine ⟨h.move (by simp [hclient]) ?_ ?_, by simp⟩ <;> cases result <;>
      simp [Crew.afterWait]
  | answer hclient => exact ⟨h.move (by simp [hclient]) (by simp) (by simp), by simp⟩

end Follows

end Follows

/-- What the client can be at after the first of its calls. -/
inductive Calls.Next : Calls ν → Client ν → Prop where
  | done (root : Handle) : Next (.done root) (.waiting root)
  | create (task : Option (Build.Task ν)) (next : Handle → Calls ν) (job : Handle) :
      Next (.create task next) (.making (next job))
  | link (dependent dependency : Handle) (next : Calls ν) :
      Next (.link dependent dependency next) (.making next)

section Run

variable {n : Nat} {before : List Event} {p : Pool} {tasks : List (Build.Task ν)} {root : Handle}
  {assigned : Assigned ν} {t : Scheduler} {c : Crew ν} {trace : List Occurrence}

theorem Crew.Run.takes_calls (hp : Prepared n before p tasks root assigned t)
    (h : (Crew.ofTasks p tasks).Run trace c) : c.pool.shutdown = false := by
  rw [h.shutdown_eq]
  exact hp.takes_calls

theorem Crew.Run.pool_run (hp : Prepared n before p tasks root assigned t)
    (h : (Crew.ofTasks p tasks).Run trace c) : Pool.Run n (before ++ poolEvents trace) c.pool :=
  h.pool hp.pool hp.takes_calls

theorem Crew.Run.agrees (hp : Prepared n before p tasks root assigned t)
    (h : (Crew.ofTasks p tasks).Run trace c) : c.pool.Agrees (before ++ poolEvents trace) :=
  (h.pool_run hp).agrees

theorem Crew.Run.follows (hp : Prepared n before p tasks root assigned t)
    (h : (Crew.ofTasks p tasks).Run trace c) :
    Follows p.scheduler tasks root assigned t c ∧ ∀ cause, .pool (.refused cause) ∉ trace := by
  induction h with
  | start => exact ⟨hp.blueprint.follows, by simp⟩
  | step hrun hstep ih =>
    obtain ⟨hfollows, hnone⟩ := ih
    obtain ⟨hfollows', hnot⟩ := hfollows.step hp.blueprint (hrun.agrees hp) hstep
    refine ⟨hfollows', fun cause hmem => ?_⟩
    rcases List.mem_append.1 hmem with hmem | hmem
    · exact hnone cause hmem
    · exact hnot cause (List.mem_singleton.1 hmem).symm

theorem Crew.Run.exists_call (hp : Prepared n before p tasks root assigned t)
    (hroom : p.scheduler.jobs.size + 9 + tasks.length ≤ Handle.invalid.index)
    (h : (Crew.ofTasks p tasks).Run trace c) {calls : Calls ν}
    (hclient : c.client = .making calls) :
    ∃ o c', c.Step o c' ∧ calls.Next c'.client := by
  have hfollows := (h.follows hp).1
  have hexact := (h.agrees hp).exact
  have hopen := h.takes_calls hp
  cases calls with
  | done r =>
    obtain ⟨v, haccepted⟩ := (hfollows.enqueue hp.blueprint hexact hclient).1
    exact ⟨_, _, .enqueue hclient (.enqueue hopen haccepted), .done r⟩
  | create task next =>
    obtain ⟨-, u, rest, hrun, -, hshadow⟩ := hfollows.making _ hclient
    obtain ⟨job, v, hjob, hrun⟩ := run_bind_eq_ok.1 hrun
    obtain ⟨⟨root', more⟩, w, hnext, hrun⟩ := run_bind_eq_ok.1 hrun
    obtain ⟨-, rfl⟩ := run_pure_eq_ok.1 hrun
    obtain ⟨rfl, rfl⟩ := run_newJob_eq_ok.1 hjob
    have hle := Calls.size_le_of_run hnext
    have hsize := hp.blueprint.size_eq
    rw [Scheduler.size_create, ← hshadow.size_eq] at hle
    exact ⟨_, _, .create hclient (.create hopen (by omega)), .create task next _⟩
  | link dependent dependency next =>
    obtain ⟨v, haccepted⟩ := (hfollows.link hclient).1
    exact ⟨_, _, .link hclient (.link hopen haccepted), .link dependent dependency next⟩

/-- Whatever has happened, the client can go on to make its graph and enqueue it. -/
theorem Crew.Run.reaches_waiting (hp : Prepared n before p tasks root assigned t)
    (hroom : p.scheduler.jobs.size + 9 + tasks.length ≤ Handle.invalid.index)
    (h : (Crew.ofTasks p tasks).Run trace c) {calls : Calls ν}
    (hclient : c.client = .making calls) :
    ∃ more c' root, (Crew.ofTasks p tasks).Run (trace ++ more) c' ∧ c'.client = .waiting root := by
  -- On the calls that are left: workers may have taken steps, but none that add to them.
  induction calls generalizing trace c with
  | done root =>
    obtain ⟨o, c', hstep, hnext⟩ := h.exists_call hp hroom hclient
    generalize hclient' : c'.client = client at hnext
    cases hnext
    exact ⟨[o], c', root, h.step hstep, hclient'⟩
  | create task next ih =>
    obtain ⟨o, c', hstep, hnext⟩ := h.exists_call hp hroom hclient
    generalize hclient' : c'.client = client at hnext
    cases hnext with
    | create _ _ job =>
      obtain ⟨more, d, root, hrun, hwaiting⟩ := ih job (h.step hstep) hclient'
      exact ⟨o :: more, d, root, by simpa using hrun, hwaiting⟩
  | link dependent dependency next ih =>
    obtain ⟨o, c', hstep, hnext⟩ := h.exists_call hp hroom hclient
    generalize hclient' : c'.client = client at hnext
    cases hnext
    obtain ⟨more, d, root, hrun, hwaiting⟩ := ih (h.step hstep) hclient'
    exact ⟨o :: more, d, root, by simpa using hrun, hwaiting⟩

end Run

end IncrementalBuild.Build
