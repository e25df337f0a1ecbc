import IncrementalBuild.Proofs.Build.Precedence
import IncrementalBuild.Proofs.World

/-!
What running tasks does to the world: if it succeeds, all tasks were executed, in the order of their
stages, and each of them succeeded; if it fails, some of them were.
-/

namespace IncrementalBuild.Build

open Jobs Relation

variable {ν : Type}

theorem Task.snd_ofAction (a : Option Position → Action ν Unit) (position : Option Position)
    (w : World ν) : (Task.ofAction a position w).2 = ((a position).runIn w).2 := by
  unfold Task.ofAction
  split
  next h => rw [h]
  next h => rw [h]

/-- The tasks were executed in this order, and all of them succeeded. -/
inductive Executed : List (Build.Task ν) → World ν → World ν → Prop where
  | nil (w : World ν) : Executed [] w w
  | cons {t : Build.Task ν} {ts : List (Build.Task ν)} {position : Option Position}
      {w v u : World ν} :
      t.execute position w = (.done, v) → Executed ts v u → Executed (t :: ts) w u

/-- A relation between worlds that tasks keep, and whose reach ends at the disk. -/
structure KeptBy (R : Disk → Disk → Prop) (tasks : List (Build.Task ν)) : Prop where
  refl : ∀ d, R d d
  trans : ∀ {d₁ d₂ d₃}, R d₁ d₂ → R d₂ d₃ → R d₁ d₃
  execute : ∀ t ∈ tasks, ∀ position w, R w.disk (t.execute position w).2.disk

theorem Executed.kept {R : Disk → Disk → Prop} {tasks : List (Build.Task ν)} {w v : World ν}
    (h : Executed tasks w v) (hkept : KeptBy R tasks) : R w.disk v.disk := by
  induction h with
  | nil => exact hkept.refl _
  | @cons t ts position w v u hexecute _ ih =>
    have hfirst := hkept.execute t List.mem_cons_self position w
    rw [hexecute] at hfirst
    exact hkept.trans hfirst (ih ⟨hkept.refl, hkept.trans,
      fun t ht => hkept.execute t (List.mem_cons_of_mem _ ht)⟩)

section Keeping

variable {R : World ν → World ν → Prop} {tasks : List (Build.Task ν)} {assigned : Assigned ν}

/-- What every task keeps, whether or not it succeeds, is kept where a failure is reported, too. -/
theorem step_kept (hR : World.Frame R)
    (hexecute : ∀ t ∈ tasks, ∀ position w, R w (t.execute position w).2) {t : Build.Task ν}
    (ht : t ∈ tasks) (total : Nat) (p : Progress ν) : R p.world (t.step total p).1.world := by
  unfold Task.step
  split
  · exact hR.refl _
  · dsimp only
    have hkept := hexecute t ht
      (if t.wantsPosition then some ⟨p.positions + 1, total⟩ else none) p.world
    split
    next hrun => rwa [hrun] at hkept
    next hrun => rwa [hrun] at hkept
    next hrun =>
      rw [hrun] at hkept
      exact hR.trans hkept (hR.told _ _ _)

theorem jobStep_kept (hR : World.Frame R)
    (hexecute : ∀ t ∈ tasks, ∀ position w, R w (t.execute position w).2)
    (hassigned : ∀ x ∈ assigned, x.2 ∈ tasks) (total job : Nat) (p : Progress ν) :
    R p.world (jobStep assigned total job p).1.world := by
  unfold jobStep
  split
  next t hlookup =>
    obtain ⟨l₁, l₂, rfl, -⟩ := List.lookup_eq_some_iff.1 hlookup
    exact step_kept hR hexecute (hassigned (job, t) (by simp)) total p
  next => exact hR.refl _

theorem serial_kept (hR : World.Frame R)
    (hexecute : ∀ t ∈ tasks, ∀ position w, R w (t.execute position w).2)
    (hassigned : ∀ x ∈ assigned, x.2 ∈ tasks) {total : Nat} {s t : Scheduler} {p q : Progress ν}
    {order : List Nat} (h : Scheduler.Serial (jobStep assigned total) s p order t q) :
    R p.world q.world := by
  induction h with
  | rest => exact hR.refl _
  | take _ _ ih => exact hR.trans (jobStep_kept hR hexecute hassigned _ _ _) ih

end Keeping

/-- Once a task has failed, none is executed any more. -/
theorem step_failed {t : Build.Task ν} {total : Nat} {p : Progress ν} (hp : p.failed = true) :
    t.step total p = (p, false) := by
  rw [Task.step, if_pos hp]

theorem jobStep_failed {assigned : Assigned ν} {total job : Nat} {p : Progress ν}
    (hp : p.failed = true) : jobStep assigned total job p = (p, false) := by
  unfold jobStep
  split
  · exact step_failed hp
  · rfl

theorem serial_failed {assigned : Assigned ν} {total : Nat} {s t : Scheduler} {p q : Progress ν}
    {order : List Nat} (h : Scheduler.Serial (jobStep assigned total) s p order t q)
    (hp : p.failed = true) : q.failed = true := by
  induction h with
  | rest => exact hp
  | take _ _ ih =>
    apply ih
    rw [jobStep_failed hp]
    exact hp

/-- A step after which no task has failed, and which did not panic, executed its task. -/
theorem step_done {t : Build.Task ν} {total : Nat} {p : Progress ν}
    (hfailed : (t.step total p).1.failed = false) (hpanicked : (t.step total p).2 = false) :
    ∃ position, t.execute position p.world = (.done, (t.step total p).1.world) := by
  unfold Task.step at hfailed hpanicked ⊢
  split at hfailed
  next hp => rw [hp] at hfailed; cases hfailed
  next hp =>
    rw [if_neg hp] at hpanicked ⊢
    dsimp only at hfailed hpanicked ⊢
    refine ⟨if t.wantsPosition then some ⟨p.positions + 1, total⟩ else none, ?_⟩
    generalize t.execute _ p.world = r at hfailed hpanicked ⊢
    obtain ⟨result, w⟩ := r
    cases result with
    | done => rfl
    | failed cause => simp at hfailed
    | panicked => simp at hpanicked

/-- Where no job panicked and no task failed, the tasks of the jobs were executed in the order in
which the jobs ran. -/
theorem executed_of_serial {assigned : Assigned ν} {total : Nat} {s t : Scheduler}
    {p q : Progress ν} {order : List Nat}
    (h : Scheduler.Serial (jobStep assigned total) s p order t q) (hexact : s.Exact)
    (hcalm : ∀ j ∈ order, (t.job j).panicked = false) (hfailed : q.failed = false) :
    Executed (order.filterMap fun j => assigned.lookup j) p.world q.world := by
  induction h with
  | rest => exact .nil _
  | @take s running t p q i order hstart hrest ih =>
    have hturn := Scheduler.turn_of_start? hexact hstart (jobStep assigned total i p).2
    have hpanicked : (jobStep assigned total i p).2 = false := by
      have hi := hrest.panicked_eq hturn.exact (Scheduler.Serial.not_mem_of_turn hturn hrest)
      rw [hturn.panicked_eq, if_pos rfl] at hi
      rw [← hi]
      exact hcalm i List.mem_cons_self
    have hok : (jobStep assigned total i p).1.failed = false := by
      rw [Bool.eq_false_iff]
      intro hnot
      rw [serial_failed hrest hnot] at hfailed
      cases hfailed
    have htail := ih hturn.exact (fun j hj => hcalm j (List.mem_cons_of_mem _ hj)) hfailed
    rw [List.filterMap_cons]
    unfold jobStep at hpanicked hok htail
    split
    next hlookup => simpa only [hlookup] using htail
    next task hlookup =>
      simp only [hlookup] at hpanicked hok htail
      obtain ⟨position, hexecute⟩ := step_done hok hpanicked
      exact .cons hexecute htail

/-- How running tasks went. -/
structure Ran (tasks : List (Build.Task ν)) (w : World ν) (result : Except Failure Unit)
    (v : World ν) (root : Handle) (assigned : Assigned ν) (planned started done : Scheduler)
    (order : List Nat) (p : Progress ν) : Prop where
  plan_eq : (plan tasks).run w.scheduler = .ok ((root, assigned), planned)
  enqueue_eq : planned.enqueue root = .ok started
  serial : Scheduler.Serial (jobStep assigned (positionCount tasks)) started ⟨w, false, 0⟩ order
    done p
  ready_eq : done.ready = []
  world_eq : v = { p.world with scheduler := done }
  result_eq : result = match done.waitResult root with
    | some (.error e) => .error (.taskPanicked e)
    | _ => if p.failed then .error .tasksFailed else .ok ()

theorem exact_of_planned {tasks : List (Build.Task ν)} {w : World ν} {root : Handle}
    {assigned : Assigned ν} {planned started : Scheduler} (hexact : w.scheduler.Exact)
    (hplan : (plan tasks).run w.scheduler = .ok ((root, assigned), planned))
    (henqueue : planned.enqueue root = .ok started) :
    planned.Exact ∧ ∃ added, planned.Scheduling started root.index added := by
  have hplanned := (planned_plan hplan).1.grown.exact hexact
  exact ⟨hplanned, Scheduler.scheduling_of_enqueue hplanned henqueue⟩

theorem ran_of_runTasks {tasks : List (Build.Task ν)} {w v : World ν}
    {result : Except Failure Unit} (hexact : w.scheduler.Exact)
    (h : (runTasks tasks).runIn w = (result, v)) : ∃ root assigned planned started done order p,
      Ran tasks w result v root assigned planned started done order p := by
  obtain ⟨root, assigned, planned, hplan, hsize, -⟩ := plan_succeeds hexact tasks
  have hroot := (planned_plan hplan).2.1
  have hlt : root.index < planned.jobs.size := by omega
  obtain ⟨started, henqueue⟩ := Scheduler.exists_enqueue hlt
  obtain ⟨hplanned, added, hscheduling⟩ := exact_of_planned hexact hplan henqueue
  obtain ⟨hready, order, hserial⟩ := Scheduler.serial_drain
    (jobStep assigned (positionCount tasks)) (⟨w, false, 0⟩ : Progress ν)
    (hscheduling.exact hplanned)
  rw [runTasks, Action.runIn_bind, Action.runIn_get] at h
  simp only [hplan, henqueue] at h
  generalize started.drain (jobStep assigned (positionCount tasks)) ⟨w, false, 0⟩ = r at *
  obtain ⟨done, p⟩ := r
  dsimp only at h hready hserial
  rw [Action.runIn_bind, Action.runIn_set] at h
  dsimp only at h
  refine ⟨root, assigned, planned, started, done, order, p,
    hplan, henqueue, hserial, hready, ?_, ?_⟩
  · split at h
    · cases h
      rfl
    · split at h <;> cases h <;> rfl
  · rcases hwait : done.waitResult root with _ | ⟨e⟩ | _ <;> rw [hwait] at h
    · cases hfailed : p.failed <;> rw [hfailed] at h <;> cases h <;> rfl
    · cases h
      rfl
    · cases hfailed : p.failed <;> rw [hfailed] at h <;> cases h <;> rfl

namespace Ran

variable {tasks : List (Build.Task ν)} {w v : World ν} {result : Except Failure Unit}
  {root : Handle} {assigned : Assigned ν} {planned started done : Scheduler} {order : List Nat}
  {p : Progress ν}

/-- The jobs that are scheduled when the worker begins are those that the root waits for, and the
root itself; they were made for these tasks. -/
theorem scheduled_iff (h : Ran tasks w result v root assigned planned started done order p)
    (hsettled : w.scheduler.Settled) (j : Nat) :
    (started.job j).phase = .scheduled ↔
      (planned.job j).phase = .created ∧ Reaches planned root.index j := by
  obtain ⟨hexact, added, hscheduling⟩ := exact_of_planned hsettled.exact h.plan_eq h.enqueue_eq
  rw [hscheduling.phase_eq]
  split
  next hj =>
    obtain ⟨hnot, hpath⟩ := (hscheduling.mem_added j).1 hj
    exact iff_of_true rfl ⟨hscheduling.created_of_mem hj, hpath⟩
  next hj =>
    have hphase := (planned_plan h.plan_eq).1.grown.phase_eq j
    have hold : (planned.job j).phase ≠ .scheduled := by
      rcases hsettled.created_or_done j with hcreated | hdone
      · simp [hphase, hcreated]
      · simp [hphase, hdone]
    refine iff_of_false hold fun ⟨hcreated, hpath⟩ => hj ?_
    exact (hscheduling.mem_added j).2 ⟨by simp [Scheduler.Enqueued, hcreated], hpath⟩

theorem not_panicked (h : Ran tasks w (.ok ()) v root assigned planned started done order p)
    (e : Jobs.Error) : done.waitResult root ≠ some (.error e) := by
  intro hwait
  have hresult := h.result_eq
  rw [hwait] at hresult
  cases hresult

theorem not_failed (h : Ran tasks w (.ok ()) v root assigned planned started done order p) :
    p.failed = false := by
  rw [Bool.eq_false_iff]
  intro hfailed
  have hresult := h.result_eq
  rw [hfailed] at hresult
  split at hresult <;> cases hresult

theorem exact (h : Ran tasks w result v root assigned planned started done order p)
    (hsettled : w.scheduler.Settled) : started.Exact := by
  obtain ⟨hexact, added, hscheduling⟩ := exact_of_planned hsettled.exact h.plan_eq h.enqueue_eq
  exact hscheduling.exact hexact

theorem dependsOn_eq (h : Ran tasks w result v root assigned planned started done order p)
    (hsettled : w.scheduler.Settled) :
    started.DependsOn = planned.DependsOn ∧ done.DependsOn = planned.DependsOn := by
  obtain ⟨-, added, hscheduling⟩ := exact_of_planned hsettled.exact h.plan_eq h.enqueue_eq
  have hdone := h.serial.dependenciesOf_eq (h.exact hsettled)
  unfold Scheduler.DependsOn
  rw [hdone, hscheduling.dependenciesOf_eq]
  exact ⟨rfl, rfl⟩

theorem settled (h : Ran tasks w result v root assigned planned started done order p)
    (hsettled : w.scheduler.Settled) : done.Settled := by
  obtain ⟨-, added, hscheduling⟩ := exact_of_planned hsettled.exact h.plan_eq h.enqueue_eq
  refine h.serial.settled (h.exact hsettled) (fun j => ?_) h.ready_eq
  rw [hscheduling.phase_eq]
  split
  · simp
  · rw [(planned_plan h.plan_eq).1.grown.phase_eq]
    rcases hsettled.created_or_done j with hcreated | hdone
    · simp [hcreated]
    · simp [hdone]

/-- Exactly the jobs that are scheduled run. -/
theorem mem_order_iff (h : Ran tasks w result v root assigned planned started done order p)
    (hsettled : w.scheduler.Settled) (j : Nat) :
    j ∈ order ↔ (planned.job j).phase = .created ∧ Reaches planned root.index j := by
  rw [← h.scheduled_iff hsettled]
  refine ⟨h.serial.scheduled_of_mem (h.exact hsettled), fun hscheduled => ?_⟩
  by_contra hnot
  have hphase := h.serial.phase_eq (h.exact hsettled) j
  rw [if_neg hnot, hscheduled] at hphase
  rcases (h.settled hsettled).created_or_done j with hj | hj <;> rw [hphase] at hj <;> cases hj

theorem created_of_size_le (h : Ran tasks w result v root assigned planned started done order p)
    {j : Nat} (hj : w.scheduler.jobs.size ≤ j) : (planned.job j).phase = .created := by
  rw [(planned_plan h.plan_eq).1.grown.phase_eq, Scheduler.job_of_size_le hj]
  rfl

theorem mem_order_of_mem (h : Ran tasks w result v root assigned planned started done order p)
    (hsettled : w.scheduler.Settled) {x : Nat × Build.Task ν} (hx : x ∈ assigned) :
    x.1 ∈ order := by
  obtain ⟨hplanned, -, hroot, -⟩ := planned_plan h.plan_eq
  exact (h.mem_order_iff hsettled _).2 ⟨h.created_of_size_le (hplanned.index_ge x hx), hroot x hx⟩

/-- The root is done when the worker has nothing left to do. -/
theorem root_done (h : Ran tasks w result v root assigned planned started done order p)
    (hsettled : w.scheduler.Settled) : (done.job root.index).phase = .done := by
  have hroot := (planned_plan h.plan_eq).2.1
  have hmem : root.index ∈ order :=
    (h.mem_order_iff hsettled _).2 ⟨h.created_of_size_le (Nat.le_of_eq hroot.symm), .refl⟩
  rw [h.serial.phase_eq (h.exact hsettled), if_pos hmem]

/-- If waiting for the root reports no panic, none of the jobs panicked. -/
theorem calm (h : Ran tasks w (.ok ()) v root assigned planned started done order p)
    (hsettled : w.scheduler.Settled) : ∀ j ∈ order, (done.job j).panicked = false := by
  intro j hj
  have hexact := (h.settled hsettled).exact
  have hphase := h.root_done hsettled
  have hlt : root.index < done.jobs.size := Scheduler.lt_size_of_phase_ne (by simp [hphase])
  have hclosure : j ∈ done.closure root.index := by
    rw [hexact.mem_closure_iff hlt, (h.dependsOn_eq hsettled).2]
    exact ((h.mem_order_iff hsettled j).1 hj).2
  by_contra hpanicked
  have hcount : 0 < done.panickedIn root.index :=
    List.countP_pos_iff.2 ⟨j, hclosure, by simpa using hpanicked⟩
  apply h.not_panicked (.panicked (done.panickedIn root.index))
  simp [Scheduler.waitResult, Scheduler.holds, hlt, hphase, hcount]

end Ran

/-- The task of a job is the one it was made for. -/
theorem lookup_of_mem {assigned : Assigned ν} (hnodup : (assigned.map Prod.fst).Nodup)
    {x : Nat × Build.Task ν} (hx : x ∈ assigned) : assigned.lookup x.1 = some x.2 := by
  obtain ⟨l₁, l₂, rfl⟩ := List.append_of_mem hx
  refine List.lookup_eq_some_iff.2 ⟨l₁, l₂, rfl, fun y hy => ?_⟩
  rw [List.map_append, List.map_cons] at hnodup
  have hne := (List.nodup_append.1 hnodup).2.2 y.1 (List.mem_map_of_mem hy) x.1
    List.mem_cons_self
  simpa [bne_iff_ne] using Ne.symm hne

theorem mem_of_lookup {assigned : Assigned ν} {j : Nat} {t : Build.Task ν}
    (h : assigned.lookup j = some t) : (j, t) ∈ assigned := by
  obtain ⟨l₁, l₂, rfl, -⟩ := List.lookup_eq_some_iff.1 h
  simp

theorem Planned.mem_iff {tasks : List (Build.Task ν)} {s t : Scheduler} {assigned : Assigned ν}
    (h : Planned none (Stage.all.flatMap fun stage => tasks.filter fun t => t.stage = stage) s t
      assigned) (task : Build.Task ν) : task ∈ assigned.map Prod.snd ↔ task ∈ tasks := by
  have hall : task.stage ∈ Stage.all := by
    cases task.stage <;> decide
  rw [h.tasks_eq]
  constructor
  · intro hmem
    obtain ⟨stage, -, hmem⟩ := List.mem_flatMap.1 hmem
    exact (List.mem_filter.1 hmem).1
  · intro hmem
    exact List.mem_flatMap.2 ⟨task.stage, hall, List.mem_filter.2 ⟨hmem, by simp⟩⟩

theorem mem_of_plan {tasks : List (Build.Task ν)} {s t : Scheduler} {root : Handle}
    {assigned : Assigned ν} (h : (plan tasks).run s = .ok ((root, assigned), t)) :
    ∀ x ∈ assigned, x.2 ∈ tasks :=
  fun x hx => ((planned_plan h).1.mem_iff x.2).1 (List.mem_map_of_mem hx)

/-- Whether or not all tasks succeed, and whatever jobs there are beside theirs, running them keeps
what every task keeps, and adds nothing to that but jobs. -/
theorem runTasks_keeps {R : World ν → World ν → Prop} (hR : World.Frame R)
    {tasks : List (Build.Task ν)}
    (hexecute : ∀ t ∈ tasks, ∀ position w, R w (t.execute position w).2) {w v : World ν}
    {result : Except Failure Unit} (h : (runTasks tasks).runIn w = (result, v)) :
    ∃ u, R w u ∧ v = { u with scheduler := v.scheduler } := by
  rw [runTasks, Action.runIn_bind, Action.runIn_get] at h
  dsimp only at h
  split at h
  · cases h
    exact ⟨w, hR.refl w, rfl⟩
  next root assigned planned hplan =>
  split at h
  · cases h
    exact ⟨w, hR.refl w, rfl⟩
  next enqueued henqueue =>
  obtain ⟨order, hserial⟩ := Scheduler.exists_serial_drain
    (jobStep assigned (positionCount tasks)) enqueued (⟨w, false, 0⟩ : Progress ν)
  have hkept := serial_kept hR hexecute (mem_of_plan hplan) hserial
  generalize enqueued.drain (jobStep assigned (positionCount tasks)) ⟨w, false, 0⟩ = r at h hkept
  obtain ⟨done, p⟩ := r
  rw [Action.runIn_bind, Action.runIn_set] at h
  dsimp only at h
  refine ⟨p.world, hkept, ?_⟩
  split at h
  · cases h
    rfl
  · split at h <;> cases h <;> rfl

/-- What tasks keep of the disk, they keep in the world. -/
theorem KeptBy.frame {R : Disk → Disk → Prop} {tasks : List (Build.Task ν)}
    (h : KeptBy R tasks) : World.Frame fun w v : World ν => R w.disk v.disk :=
  ⟨fun _ _ _ => h.refl _, h.trans⟩

/-- Whether or not all tasks succeed, the disk changes only as tasks change it, and no job is left
at work. -/
theorem runTasks_kept {R : Disk → Disk → Prop} {tasks : List (Build.Task ν)} {w v : World ν}
    {result : Except Failure Unit} (hkept : KeptBy R tasks) (hsettled : w.scheduler.Settled)
    (h : (runTasks tasks).runIn w = (result, v)) : R w.disk v.disk ∧ v.scheduler.Settled := by
  obtain ⟨u, hu, hv⟩ := runTasks_keeps hkept.frame hkept.execute h
  obtain ⟨root, assigned, planned, started, done, order, p, hran⟩ :=
    ran_of_runTasks hsettled.exact h
  refine ⟨by rwa [hv], ?_⟩
  rw [hran.world_eq]
  exact hran.settled hsettled

/-- If running tasks succeeds, all of them were executed and succeeded, and none before one of an
earlier stage. -/
theorem executed_of_runTasks {tasks : List (Build.Task ν)} {w v : World ν}
    (hsettled : w.scheduler.Settled) (h : (runTasks tasks).runIn w = (.ok (), v)) :
    ∃ executed u, Executed executed w u ∧ v = { u with scheduler := v.scheduler } ∧
      (∀ t, t ∈ executed ↔ t ∈ tasks) ∧
        executed.Pairwise fun a b => a.stage.rank ≤ b.stage.rank := by
  obtain ⟨root, assigned, planned, started, done, order, p, hran⟩ :=
    ran_of_runTasks hsettled.exact h
  obtain ⟨hplanned, -, hroot, hearlier⟩ := planned_plan hran.plan_eq
  have hexecuted := executed_of_serial hran.serial (hran.exact hsettled) (hran.calm hsettled)
    hran.not_failed
  refine ⟨_, p.world, hexecuted, by rw [hran.world_eq], fun t => ?_, ?_⟩
  · rw [List.mem_filterMap, ← hplanned.mem_iff]
    constructor
    · rintro ⟨j, -, hlookup⟩
      exact List.mem_map.2 ⟨(j, t), mem_of_lookup hlookup, rfl⟩
    · intro hmem
      obtain ⟨x, hx, rfl⟩ := List.mem_map.1 hmem
      exact ⟨x.1, hran.mem_order_of_mem hsettled hx, lookup_of_mem hplanned.nodup hx⟩
  · -- A task that is executed before one of an earlier stage would run before what it waits for.
    have hpairwise := hran.serial.pairwise (hran.exact hsettled)
    rw [(hran.dependsOn_eq hsettled).1] at hpairwise
    have hnodup := hran.serial.nodup (hran.exact hsettled)
    refine List.pairwise_filterMap.2 ((hpairwise.and hnodup).imp ?_)
    rintro i j ⟨hnot, hne⟩ a ha b hb
    by_contra hlt
    have hpath := hearlier _ (mem_of_lookup hb) _ (mem_of_lookup ha) (Nat.lt_of_not_le hlt)
    rcases reflTransGen_iff_eq_or_transGen.1 hpath with heq | hpath
    · exact hne heq.symm
    · exact hnot hpath

end IncrementalBuild.Build
