import IncrementalBuild.Proofs.Jobs.Drain

/-!
What waiting for a job reports, in terms of the history of its pool: how many jobs panicked of those
that the job was transitively made to wait for, however they are linked and whenever they were
finished.
-/

namespace IncrementalBuild.Jobs

open Relation

/-- The job was finished by panicking. -/
def Panicked (trace : List Event) (job : Nat) : Prop :=
  ∃ worker, Event.finished worker job true ∈ trace

/-- The jobs that panicked among a job and all that it transitively waits for. -/
def PanickedUnder (trace : List Event) (root : Nat) : Set Nat :=
  {j | ReflTransGen (Linked trace) root j ∧ Panicked trace j}

namespace Scheduler

theorem waitResult_of_done {s : Scheduler} {root : Handle}
    (hdone : (s.job root.index).phase = .done) :
    s.waitResult root = some (if s.panickedIn root.index > 0 then
      .error (.panicked (s.panickedIn root.index)) else .ok ()) := by
  have hlt := lt_size_of_phase_ne (s := s) (i := root.index) (by simp [hdone])
  unfold waitResult
  rw [if_neg (by simp [holds, hlt])]
  simp only [hdone]

/-- Each job is counted once, whatever ways lead to it. -/
theorem Owing.panickedIn_eq_ncard {s : Scheduler} (h : s.Exact) {i : Nat} (hi : i < s.jobs.size) :
    {j | ReflTransGen s.DependsOn i j ∧ (s.job j).panicked = true}.Finite ∧
      s.panickedIn i =
        {j | ReflTransGen s.DependsOn i j ∧ (s.job j).panicked = true}.ncard := by
  have hset : {j | ReflTransGen s.DependsOn i j ∧ (s.job j).panicked = true} =
      ↑((s.closure i).filter fun j => (s.job j).panicked).toFinset := by
    ext j
    simp [h.mem_closure_iff hi]
  have hnodup : ((s.closure i).filter fun j => (s.job j).panicked).Nodup :=
    (Graph.nodup_visit _ _).filter _
  rw [hset, Set.ncard_coe_finset, List.toFinset_card_of_nodup hnodup, panickedIn,
    List.countP_eq_length_filter]
  exact ⟨Finset.finite_toSet _, rfl⟩

end Scheduler

namespace Pool

variable {n m : Nat} {trace trace' more : List Event} {p q : Pool}

theorem panicked_append (trace more : List Event) (j : Nat) :
    Panicked (trace ++ more) j ↔ Panicked trace j ∨ Panicked more j := by
  simp only [Panicked, List.mem_append, exists_or]

/-- A job is marked as panicked exactly if its work panicked. -/
theorem Run.panicked_iff (hrun : Run n trace p) (j : Nat) :
    Panicked trace j ↔ (p.scheduler.job j).panicked = true := by
  induction hrun with
  | start => simp [Panicked, ofCount, Scheduler.job, Scheduler.empty, Job.fresh]
  | @step trace e p q hrun hstep ih =>
    rw [panicked_append, ih]
    rcases hrun.agrees.finish_cases hstep j with
      ⟨he, -, hsame⟩ | ⟨w, panicked, rfl, hrunning, -, hmarked⟩
    · have hnone : ¬ Panicked [e] j := by
        rintro ⟨w, hmem⟩
        rw [← List.mem_singleton.1 hmem] at he
        simp [Event.finishes] at he
      simp [hsame, hnone]
    · -- The job is still running, so it is not marked yet.
      have hunmarked : ¬ (p.scheduler.job j).panicked = true := by
        intro hmarked
        obtain ⟨v, hmem⟩ := ih.2 hmarked
        have hdone := (hrun.agrees.finished_iff j).1 ⟨v, true, hmem⟩
        rw [hrunning] at hdone
        cases hdone
      simp [hmarked, hunmarked, Panicked, eq_comm]

theorem Run.reaches_iff (hrun : Run n trace p) (i j : Nat) :
    ReflTransGen (Linked trace) i j ↔ ReflTransGen p.scheduler.DependsOn i j := by
  have hsame : Linked trace = p.scheduler.DependsOn := by
    funext i d
    exact propext (hrun.agrees.linked_iff i d)
  rw [hsame]

section Root

variable {root : Handle} (hrun : Run n trace p)
  (hdone : (p.scheduler.job root.index).phase = .done)

include hrun hdone

/-- When a job is done, so is all that it transitively waits for. -/
theorem Run.done_of_reaches {j : Nat} (hpath : ReflTransGen (Linked trace) root.index j) :
    (p.scheduler.job j).phase = .done :=
  Scheduler.Serial.done_of_reachable hrun.agrees.exact hdone ((hrun.reaches_iff _ _).1 hpath)

theorem Run.waitResult_eq :
    (PanickedUnder trace root.index).Finite ∧
      p.scheduler.waitResult root = some (if (PanickedUnder trace root.index).ncard > 0 then
        .error (.panicked (PanickedUnder trace root.index).ncard) else .ok ()) := by
  have hlt := Scheduler.lt_size_of_phase_ne (s := p.scheduler) (i := root.index) (by simp [hdone])
  have hset : PanickedUnder trace root.index =
      {j | ReflTransGen p.scheduler.DependsOn root.index j ∧
        (p.scheduler.job j).panicked = true} := by
    ext j
    simp only [PanickedUnder, Set.mem_ofPred_eq, hrun.reaches_iff, hrun.panicked_iff]
  obtain ⟨hfinite, hcount⟩ := hrun.agrees.exact.panickedIn_eq_ncard hlt
  rw [hset, Scheduler.waitResult_of_done hdone, hcount]
  exact ⟨hfinite, rfl⟩

/-- Nothing counts for the report but what the jobs behind `root` were made to wait for, and which
of them panicked. -/
theorem Run.waitResult_congr (hrun' : Run m trace' q)
    (hdone' : (q.scheduler.job root.index).phase = .done)
    (hsame : ∀ i, ReflTransGen (Linked trace) root.index i →
      (∀ d, Linked trace i d ↔ Linked trace' i d) ∧ (Panicked trace i ↔ Panicked trace' i)) :
    q.scheduler.waitResult root = p.scheduler.waitResult root := by
  have hreaches (j : Nat) : ReflTransGen (Linked trace) root.index j ↔
      ReflTransGen (Linked trace') root.index j := by
    constructor
    · intro hpath
      induction hpath with
      | refl => exact .refl
      | @tail i j hpath hlinked ih => exact ih.tail (((hsame i hpath).1 j).1 hlinked)
    · intro hpath
      induction hpath with
      | refl => exact .refl
      | @tail i j _ hlinked ih => exact ih.tail (((hsame i ih).1 j).2 hlinked)
  have hset : PanickedUnder trace' root.index = PanickedUnder trace root.index := by
    ext j
    simp only [PanickedUnder, Set.mem_ofPred_eq, ← hreaches]
    exact and_congr_right fun hpath => (hsame j hpath).2.symm
  rw [(hrun'.waitResult_eq hdone').2, (hrun.waitResult_eq hdone).2, hset]

/-- Whatever happens after a job is done, waiting for it reports the same. -/
theorem Run.waitResult_append (hmore : Run n (trace ++ more) q) :
    q.scheduler.waitResult root = p.scheduler.waitResult root := by
  have hkept {j : Nat} (hj : (p.scheduler.job j).phase = .done) :
      (q.scheduler.job j).phase = .done := by
    obtain ⟨w, panicked, hmem⟩ := (hrun.agrees.finished_iff j).2 hj
    exact (hmore.agrees.finished_iff j).1 ⟨w, panicked, List.mem_append_left _ hmem⟩
  refine hrun.waitResult_congr hdone hmore (hkept hdone) fun i hpath => ⟨fun d => ?_, ?_⟩
  · -- The job was started, so nothing is added to what it waits for.
    obtain ⟨w, hstarted⟩ := (hrun.agrees.ran_iff i).2 (.inr (hrun.done_of_reaches hdone hpath))
    obtain ⟨earlier, later, rfl⟩ := List.append_of_mem hstarted
    rw [List.append_assoc, List.cons_append] at hmore
    have hnone : Event.linked i d ∉ more := fun hmem =>
      hmore.not_linked_after_start (List.mem_append_right later hmem)
    simp [Linked, hnone]
  · -- It was finished once before, so it is not finished again.
    have hi := hrun.done_of_reaches hdone hpath
    have hcount := hmore.countP_finishes i
    rw [List.countP_append, hrun.countP_finishes i, if_pos hi, if_pos (hkept hi)] at hcount
    have hnone : ¬ Panicked more i := by
      rintro ⟨w, hmem⟩
      have hzero := List.countP_eq_zero.1 (by omega : more.countP (Event.finishes i) = 0) _ hmem
      simp [Event.finishes] at hzero
    rw [panicked_append, or_iff_left hnone]

end Root

/-- What waiting for a job reports, in every pool that a run leads to and in which the job is done.
All that it was transitively made to wait for is done, too. Waiting reports success exactly if none
of these jobs panicked, and else how many different ones did. The rest has no part in it: another
run with the same links from these jobs, in which the same ones of them panicked, reports the same,
and so does every continuation of this one. -/
theorem Run.wait_exact (hrun : Run n trace p) {root : Handle}
    (hdone : (p.scheduler.job root.index).phase = .done) :
    (∀ j, ReflTransGen (Linked trace) root.index j → (p.scheduler.job j).phase = .done) ∧
      (p.scheduler.waitResult root = some (.ok ()) ↔
        ∀ j, ReflTransGen (Linked trace) root.index j → ¬ Panicked trace j) ∧
      (p.scheduler.waitResult root ≠ some (.ok ()) → p.scheduler.waitResult root =
        some (.error (.panicked (PanickedUnder trace root.index).ncard))) ∧
      (∀ m trace' q, Run m trace' q → (q.scheduler.job root.index).phase = .done →
        (∀ i, ReflTransGen (Linked trace) root.index i →
          (∀ d, Linked trace i d ↔ Linked trace' i d) ∧ (Panicked trace i ↔ Panicked trace' i)) →
        q.scheduler.waitResult root = p.scheduler.waitResult root) ∧
      ∀ more q, Run n (trace ++ more) q →
        q.scheduler.waitResult root = p.scheduler.waitResult root := by
  obtain ⟨hfinite, hresult⟩ := hrun.waitResult_eq hdone
  have hnone : (∀ j, ReflTransGen (Linked trace) root.index j → ¬ Panicked trace j) ↔
      ¬ (PanickedUnder trace root.index).ncard > 0 := by
    rw [gt_iff_lt, Set.ncard_pos hfinite, Set.not_nonempty_iff_eq_empty,
      Set.eq_empty_iff_forall_notMem]
    simp [PanickedUnder]
  refine ⟨fun j => hrun.done_of_reaches hdone, ?_, ?_,
    fun m trace' q => hrun.waitResult_congr hdone, fun more q => hrun.waitResult_append hdone⟩
  · rw [hnone, hresult]
    split <;> simp_all
  · rw [hresult]
    split <;> simp

/-- A job waits for another and both panic. Then a third is made to wait for the first of them, and
a fourth for the third and twice for the first. -/
def sharedTrace : List Event :=
  [.created 0, .created 1, .linked 1 0, .enqueued 1, .started 0 0, .finished 0 0 true,
    .started 0 1, .finished 0 1 true, .created 2, .created 3, .linked 2 0, .linked 3 2,
    .linked 3 0, .linked 3 0, .enqueued 3, .started 0 2, .finished 0 2 false, .started 0 3,
    .finished 0 3 false]

/-- The pool after it. -/
def shared : Pool where
  scheduler := ⟨#[⟨0, [], [], .done, true⟩, ⟨0, [], [0], .done, true⟩, ⟨0, [], [0], .done, false⟩,
    ⟨0, [], [2, 0, 0], .done, false⟩], []⟩
  workers := [.idle]
  shutdown := false

theorem shared_run : Run 1 sharedTrace shared := by
  have hmade : Run 1 _ ⟨⟨#[.fresh, .fresh], []⟩, [.idle], false⟩ :=
    (Run.start.step (.create rfl (by decide))).step (.create rfl (by decide))
  have hwaiting : Run 1 _ ⟨⟨#[⟨0, [1], [], .created, false⟩, ⟨1, [], [0], .created, false⟩], []⟩,
      [.idle], false⟩ := hmade.links [(1, 0)] (by cbv)
  have hfirst : Run 1 _ ⟨⟨#[⟨0, [1], [], .scheduled, false⟩, ⟨1, [], [0], .scheduled, false⟩],
      [0]⟩, [.idle], false⟩ := hwaiting.enqueue 1 (by cbv)
  have hone : Run 1 _ ⟨⟨#[⟨0, [], [], .done, true⟩, ⟨0, [], [0], .scheduled, false⟩], [1]⟩,
      [.idle], false⟩ := hfirst.turn 0 true ⟨_, rfl, by cbv⟩
  have htwo : Run 1 _ ⟨⟨#[⟨0, [], [], .done, true⟩, ⟨0, [], [0], .done, true⟩], []⟩,
      [.idle], false⟩ := hone.turn 1 true ⟨_, rfl, by cbv⟩
  -- Both have panicked before anything else is made to wait for them.
  have hmore : Run 1 _ ⟨⟨#[⟨0, [], [], .done, true⟩, ⟨0, [], [0], .done, true⟩, .fresh, .fresh],
      []⟩, [.idle], false⟩ := (htwo.step (.create rfl (by decide))).step (.create rfl (by decide))
  have hlinked : Run 1 _ ⟨⟨#[⟨0, [], [], .done, true⟩, ⟨0, [], [0], .done, true⟩,
      ⟨0, [3], [0], .created, false⟩, ⟨1, [], [2, 0, 0], .created, false⟩], []⟩, [.idle], false⟩ :=
    hmore.links [(2, 0), (3, 2), (3, 0), (3, 0)] (by cbv)
  have hsecond : Run 1 _ ⟨⟨#[⟨0, [], [], .done, true⟩, ⟨0, [], [0], .done, true⟩,
      ⟨0, [3], [0], .scheduled, false⟩, ⟨1, [], [2, 0, 0], .scheduled, false⟩], [2]⟩,
      [.idle], false⟩ := hlinked.enqueue 3 (by cbv)
  have hthree : Run 1 _ ⟨⟨#[⟨0, [], [], .done, true⟩, ⟨0, [], [0], .done, true⟩,
      ⟨0, [], [0], .done, false⟩, ⟨0, [], [2, 0, 0], .scheduled, false⟩], [3]⟩, [.idle], false⟩ :=
    hsecond.turn 2 false ⟨_, rfl, by cbv⟩
  exact hthree.turn 3 false ⟨_, rfl, by cbv⟩

/-- The job that panicked before the fourth was made to wait for it counts once, though three ways
lead to it; the other that panicked does not count. -/
theorem shared_counted_once : Run 1 sharedTrace shared ∧
    (shared.scheduler.job 3).phase = .done ∧ (PanickedUnder sharedTrace 3).ncard = 1 := by
  have hwait : shared.scheduler.waitResult ⟨3⟩ = some (.error (.panicked 1)) := by cbv
  have hdone : (shared.scheduler.job (⟨3⟩ : Handle).index).phase = .done := rfl
  obtain ⟨-, -, hpanicked, -⟩ := shared_run.wait_exact hdone
  have hreport := hpanicked (by simp [hwait])
  rw [hwait] at hreport
  exact ⟨shared_run, rfl, by simpa using hreport.symm⟩

end Pool

end IncrementalBuild.Jobs
