import IncrementalBuild.Proofs.Build.Panics

/-!
The positions that tasks are given. Whoever is given one first, they count up from one, and none is
given twice. Where no task fails, all tasks that want one have one in the end.
-/

namespace IncrementalBuild.Build

open Jobs

variable {ν : Type}

/-- The positions that were given, in order, with the jobs of the tasks they were given to. -/
def given (trace : List Occurrence) : List (Nat × Position) :=
  trace.filterMap fun
    | .begun job position => position.map (job, ·)
    | _ => none

@[simp] theorem given_append (trace more : List Occurrence) :
    given (trace ++ more) = given trace ++ given more :=
  List.filterMap_append

@[simp] theorem mem_given {trace : List Occurrence} {x : Nat × Position} :
    x ∈ given trace ↔ .begun x.1 (some x.2) ∈ trace := by
  simp only [given, List.mem_filterMap]
  constructor
  · rintro ⟨o, hmem, ho⟩
    cases o with
    | begun job position =>
      obtain ⟨place, rfl, rfl⟩ := Option.map_eq_some_iff.1 ho
      exact hmem
    | _ => cases ho
  · exact fun hmem => ⟨_, hmem, rfl⟩

/-- A task that is begun once is not given more than one position. -/
theorem count_given_le (trace : List Occurrence) (j : Nat) :
    ((given trace).map Prod.fst).count j ≤ trace.countP (Occurrence.begins j) := by
  rw [List.count, List.countP_map, given, List.countP_filterMap]
  refine List.countP_mono_left fun o _ ho => ?_
  cases o with
  | begun i position => cases position <;> simp_all [Occurrence.begins]
  | _ => simp at ho

theorem Told.begun_le_one {j : Nat} {a : Activity} {history : List Occurrence}
    (h : Told j a history) : history.countP (Occurrence.begins j) ≤ 1 := by
  cases h <;> simp [Occurrence.begins]

/-- The jobs of the tasks that want a position. -/
def wanting (assigned : Assigned ν) : List Nat :=
  (assigned.filter fun x => x.2.wantsPosition).map Prod.fst

theorem mem_wanting {assigned : Assigned ν} {j : Nat} :
    j ∈ wanting assigned ↔ ∃ task, (j, task) ∈ assigned ∧ task.wantsPosition = true := by
  simp [wanting]

theorem Planned.length_wanting {tasks : List (Build.Task ν)} {s t : Scheduler}
    {assigned : Assigned ν} (h : Planned none
      (Stage.all.flatMap fun stage => tasks.filter fun t => t.stage = stage) s t assigned) :
    (wanting assigned).length = positionCount tasks := by
  have hcount : (assigned.map Prod.snd).countP (fun t => t.wantsPosition) =
      positionCount tasks := by
    rw [h.tasks_eq]
    exact (perm_of_stages tasks).countP_eq _
  rwa [List.countP_map, List.countP_eq_length_filter, ← List.length_map Prod.fst] at hcount

namespace Crew

variable {start c c' : Crew ν} {o : Occurrence} {trace : List Occurrence} {j n : Nat}
  {before : List Event} {p : Pool} {tasks : List (Build.Task ν)} {root : Handle}
  {assigned : Assigned ν} {t : Scheduler}

/-- A step gives no position, or the one after those that were given. -/
theorem Step.gives (h : c.Step o c') : given [o] = [] ∧ c'.positions = c.positions ∨
    ∃ j, given [o] = [(j, ⟨c.positions + 1, c.total⟩)] ∧ c'.positions = c.positions + 1 := by
  cases h with
  | @begin job task hdoing =>
    cases hwants : task.wantsPosition with
    | false => exact .inl (by simp [given, position, hwants])
    | true => exact .inr ⟨job, by simp [given, position, hwants]⟩
  | _ => exact .inl ⟨rfl, rfl⟩

theorem Step.total_eq (h : c.Step o c') : c'.total = c.total := by
  cases h <;> rfl

theorem Run.total_eq (h : start.Run trace c) : c.total = start.total := by
  induction h with
  | start => rfl
  | step _ hstep ih => rw [hstep.total_eq, ih]

/-- Positions are counted up from one. -/
theorem Run.given_eq (h : (ofTasks p tasks).Run trace c) : (given trace).map Prod.snd =
    (List.range' 1 c.positions).map fun i => ⟨i, positionCount tasks⟩ := by
  induction h with
  | start => rfl
  | @step trace o c c' hrun hstep ih =>
    rw [given_append, List.map_append, ih]
    rcases hstep.gives with ⟨hnone, heq⟩ | ⟨j, hgiven, heq⟩
    · rw [hnone, heq, List.map_nil, List.append_nil]
    · rw [hgiven, heq, hrun.total_eq, List.range'_1_concat, List.map_append, Nat.add_comm 1]
      rfl

theorem Run.nodup_given (h : (ofTasks p tasks).Run trace c) :
    ((given trace).map Prod.fst).Nodup := by
  refine List.nodup_iff_count_le_one.2 fun j => (count_given_le trace j).trans ?_
  rw [← countP_filter_about trace j fun _ => Occurrence.about_of_begins]
  exact (h.told rfl).begun_le_one

/-- A task is given a position exactly if it wants one. -/
theorem Run.wants_of_begun (h : start.Run trace c) {position : Option Position}
    (hbegun : .begun j position ∈ trace) : ∃ task, c.assigned.lookup j = some task ∧
      position.isSome = task.wantsPosition := by
  obtain ⟨earlier, later, htrace⟩ := List.append_of_mem hbegun
  obtain ⟨d, d', -, hstep, hlater⟩ := h.split htrace
  cases hstep with
  | @begin _ task hdoing =>
    refine ⟨task, hlater.lookup_mono hdoing.task_eq, ?_⟩
    cases hwants : task.wantsPosition <;> simp [Crew.position, hwants]

theorem Run.given_subset (h : start.Run trace c) :
    (given trace).map Prod.fst ⊆ wanting c.assigned := by
  intro j hj
  obtain ⟨y, hy, rfl⟩ := List.mem_map.1 hj
  obtain ⟨task, hlookup, hwants⟩ := h.wants_of_begun (mem_given.1 hy)
  exact mem_wanting.2 ⟨task, mem_of_lookup hlookup, by simpa using hwants.symm⟩

theorem Run.indices_eq (h : (ofTasks p tasks).Run trace c) :
    (given trace).map (fun x => x.2.index) = List.range' 1 c.positions := by
  have hindices := congrArg (List.map Position.index) h.given_eq
  simpa [Function.comp_def] using hindices

/-- No more positions are given than tasks want. -/
theorem Run.positions_le (hp : Prepared n before p tasks root assigned t)
    (h : (ofTasks p tasks).Run trace c) : c.positions ≤ positionCount tasks := by
  have hsub : wanting c.assigned ⊆ wanting assigned :=
    (((h.follows hp).1.sublist.filter _).map _).subset
  have hlength := congrArg List.length h.indices_eq
  rw [List.length_map, List.length_range'] at hlength
  calc c.positions = ((given trace).map Prod.fst).length := by rw [List.length_map, hlength]
    _ ≤ (wanting assigned).length :=
      (List.subperm_of_subset h.nodup_given (List.Subset.trans h.given_subset hsub)).length_le
    _ = positionCount tasks := hp.blueprint.planned.length_wanting

/-- Where no task has failed, every task that wants a position is given one in the end. -/
theorem Run.wanting_subset (hp : Prepared n before p tasks root assigned t)
    (h : (ofTasks p tasks).Run trace c) (hanswered : c.Answered)
    (hnone : ∀ i cause, .ended i (.failed cause) ∉ trace) (hassigned : c.assigned = assigned) :
    wanting assigned ⊆ (given trace).map Prod.fst := by
  intro j hj
  obtain ⟨task, htask, hwants⟩ := mem_wanting.1 hj
  obtain ⟨position, hbegun⟩ := (h.executedOnce hp hanswered hnone htask).exists_begun
  obtain ⟨task', hlookup, hiff⟩ := h.wants_of_begun hbegun
  rw [hassigned, lookup_of_mem hp.blueprint.planned.nodup htask] at hlookup
  cases hlookup
  obtain ⟨place, rfl⟩ := Option.isSome_iff_exists.1 (hiff.trans hwants)
  exact List.mem_map.2 ⟨(j, place), mem_given.2 hbegun, rfl⟩

/-- The positions that tasks are given are exact, in whatever order the client and any number of
workers take their steps. At every moment they are those from 1 to some number, in this order; so no
two are the same. Each says how many tasks want a position, and does not exceed this. They are given
to tasks that want one, to none twice. Once the client has returned they are all there are, and
every task that wants one has one, unless a task has failed; panics do not matter. -/
theorem positions_exact (hpool : Pool.Run n before p) (hopen : p.shutdown = false)
    (h : (ofTasks p tasks).Run trace c) :
    (∃ k ≤ positionCount tasks, (given trace).map (fun x => x.2.index) = List.range' 1 k) ∧
      ((given trace).map fun x => x.2.index).Nodup ∧
      (∀ x ∈ given trace, 1 ≤ x.2.index ∧ x.2.index ≤ x.2.total ∧
        x.2.total = positionCount tasks) ∧
      ((given trace).map Prod.fst).Nodup ∧ (given trace).map Prod.fst ⊆ wanting c.assigned ∧
      ∀ result, c.client = .returned result → (∀ i cause, .ended i (.failed cause) ∉ trace) →
        (c.assigned.map Prod.snd).Perm tasks ∧ (c.assigned.map Prod.fst).Nodup ∧
          ((given trace).map Prod.fst).Perm (wanting c.assigned) ∧
          (given trace).map (fun x => x.2.index) = List.range' 1 (positionCount tasks) := by
  obtain ⟨root, assigned, t, hp⟩ := exists_prepared hpool hopen tasks
  have hindices := h.indices_eq
  have hle := h.positions_le hp
  refine ⟨⟨c.positions, hle, hindices⟩, ?_, ?_, h.nodup_given, h.given_subset, ?_⟩
  · rw [hindices]
    exact List.nodup_range'
  · intro x hx
    have hmem := List.mem_map_of_mem (f := Prod.snd) hx
    rw [h.given_eq] at hmem
    obtain ⟨i, hi, hplace⟩ := List.mem_map.1 hmem
    rw [List.mem_range'_1] at hi
    rw [← hplace]
    exact ⟨hi.1, by dsimp only; omega, rfl⟩
  · intro result hreturned hnone
    have hplanned := hp.blueprint.planned
    obtain ⟨rfl, -⟩ := (h.follows hp).1.made (by simp [hreturned])
    have hperm : ((given trace).map Prod.fst).Perm (wanting c.assigned) :=
      (List.perm_ext_iff_of_nodup h.nodup_given
        (hplanned.nodup.sublist (List.filter_sublist.map _))).2 fun j =>
          ⟨fun hj => h.given_subset hj,
            fun hj => h.wanting_subset hp (.inr ⟨result, hreturned⟩) hnone rfl hj⟩
    have hlength := hperm.length_eq
    rw [List.length_map, hplanned.length_wanting, ← List.length_map (fun x => x.2.index), hindices,
      List.length_range'] at hlength
    exact ⟨hplanned.tasks_eq ▸ perm_of_stages tasks, hplanned.nodup, hperm, hlength ▸ hindices⟩

/-- Two tasks that want a position, and between them one that does not. -/
def numberedTasks : List (Build.Task Unit) :=
  [.constant .link false .done, { Task.constant .compile true .done with wantsPosition := false },
    .constant .compile true .done]

/-- Two workers that are given these tasks can run them, and give the positions 1 and 2. -/
theorem numberedTasks_counted : ∃ trace c result,
    (ofTasks (.ofCount 2) numberedTasks).Run trace c ∧ c.client = .returned result ∧
      (given trace).map (fun x => x.2.index) = [1, 2] := by
  obtain ⟨root, assigned, t, trace, c, result, hp, h, hreturned⟩ :=
    exists_returned (n := 2) (by decide) numberedTasks (by decide)
  have hnone (i : Nat) (cause : Failure) : .ended i (.failed cause) ∉ trace := by
    refine h.not_ended hp fun task htask position w => ?_
    simp only [numberedTasks, List.mem_cons, List.not_mem_nil, or_false] at htask
    rcases htask with rfl | rfl | rfl <;> simp [Task.constant]
  obtain ⟨-, -, -, -, -, hall⟩ := positions_exact hp.pool hp.takes_calls h
  obtain ⟨-, -, -, hindices⟩ := hall result hreturned hnone
  exact ⟨trace, c, result, h, hreturned, hindices⟩

end Crew

end IncrementalBuild.Build
