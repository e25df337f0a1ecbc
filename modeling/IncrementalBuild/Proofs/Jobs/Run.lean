import IncrementalBuild.Proofs.Except
import IncrementalBuild.Proofs.Jobs.History
import Mathlib

/-!
What holds of every run of a pool, in whatever order its client and its workers take their steps: no
job starts before all it waits for is finished, and no enqueued job is lost.
-/

namespace IncrementalBuild.Jobs

open Relation

namespace Pool

theorem Agrees.step {trace : List Event} {p q : Pool} {e : Event} (h : Agrees trace p)
    (hstep : Step p e q) : Agrees (trace ++ [e]) q := by
  cases hstep with
  | create =>
    refine h.quiet ⟨?_, ?_, ?_, ?_, Scheduler.job_create _, fun _ _ => Iff.rfl⟩ h.exact.create <;>
      simp [Event.starts]
  | link _ hlink => exact h.link (Scheduler.linking_of_addDependency hlink)
  | refuseLink _ _ =>
    refine h.quiet ⟨?_, ?_, ?_, ?_, fun _ => rfl, fun _ _ => Iff.rfl⟩ h.exact <;>
      simp [Event.starts]
  | enqueue _ henqueue =>
    obtain ⟨added, hscheduling⟩ := Scheduler.scheduling_of_enqueue h.exact henqueue
    exact h.enqueue hscheduling
  | refuseEnqueue _ _ =>
    refine h.quiet ⟨?_, ?_, ?_, ?_, fun _ => rfl, fun _ _ => Iff.rfl⟩ h.exact <;>
      simp [Event.starts]
  | start hidle hstart => exact h.start hidle (Scheduler.taking_of_start? hstart)
  | finish panicked hruns => exact h.finish hruns panicked
  | shutdown =>
    refine h.quiet ⟨?_, ?_, ?_, ?_, fun _ => rfl, fun _ _ => Iff.rfl⟩ h.exact <;>
      simp [Event.starts]
  | @exit w hidle _ _ =>
    have hw : w < p.workers.length := (List.getElem?_eq_some_iff.1 hidle).1
    refine h.quiet ⟨?_, ?_, ?_, ?_, fun _ => rfl, fun v j => ?_⟩ h.exact <;>
      try simp [Event.starts]
    apply (runs_set hw).trans
    by_cases hv : v = w
    · simp [hv, Runs, hidle]
    · simp [hv]

/-- The state of a pool is the one its history led to, after every run. -/
theorem Run.agrees {n : Nat} {trace : List Event} {p : Pool} (hrun : Run n trace p) :
    Agrees trace p := by
  induction hrun with
  | start => exact agrees_ofCount n
  | step _ hstep ih => exact ih.step hstep

section Step

variable {p q : Pool}

theorem Step.linking {i d : Nat} (h : Step p (.linked i d) q) :
    p.scheduler.Linking q.scheduler i d := by
  generalize hevent : Event.linked i d = e at h
  cases h with
  | link _ hlink =>
    cases hevent
    exact Scheduler.linking_of_addDependency hlink
  | _ => cases hevent

theorem Step.scheduling {root : Nat} (hexact : p.scheduler.Exact)
    (h : Step p (.enqueued root) q) : ∃ added, p.scheduler.Scheduling q.scheduler root added := by
  generalize hevent : Event.enqueued root = e at h
  cases h with
  | enqueue _ henqueue =>
    cases hevent
    exact Scheduler.scheduling_of_enqueue hexact henqueue
  | _ => cases hevent

theorem Step.taking {w j : Nat} (h : Step p (.started w j) q) :
    p.scheduler.Taking q.scheduler j := by
  cases h with
  | start _ hstart => exact Scheduler.taking_of_start? hstart

theorem Step.finishing {w j : Nat} {panicked : Bool} (h : Step p (.finished w j panicked) q) :
    p.Runs w j ∧ q.scheduler = p.scheduler.finish j panicked := by
  cases h with
  | finish _ hruns => exact ⟨hruns, rfl⟩

end Step

theorem Step.shutdown_eq {p q : Pool} {e : Event} (h : Step p e q) (he : e ≠ .shutdown) :
    q.shutdown = p.shutdown := by
  cases h with
  | shutdown => exact absurd rfl he
  | _ => rfl

theorem Agrees.lt_of_runs {trace : List Event} {p : Pool} {w j : Nat} (h : Agrees trace p)
    (hruns : p.Runs w j) : (p.scheduler.job j).phase = .running ∧ j < p.scheduler.jobs.size := by
  have hrunning := (h.running_iff j).1 ⟨w, hruns⟩
  exact ⟨hrunning, Scheduler.lt_size_of_phase_ne (by simp [hrunning])⟩

/-- Whether a job is done, and whether it panicked, is decided when it is finished and at no other
time. -/
theorem Agrees.finish_cases {trace : List Event} {p q : Pool} {e : Event} (h : Agrees trace p)
    (hstep : Step p e q) (j : Nat) :
    (e.finishes j = false ∧
        ((q.scheduler.job j).phase = .done ↔ (p.scheduler.job j).phase = .done) ∧
        (q.scheduler.job j).panicked = (p.scheduler.job j).panicked) ∨
      ∃ w panicked, e = .finished w j panicked ∧ (p.scheduler.job j).phase = .running ∧
        (q.scheduler.job j).phase = .done ∧ (q.scheduler.job j).panicked = panicked := by
  cases hstep with
  | create => exact .inl ⟨rfl, by rw [Scheduler.job_create], by rw [Scheduler.job_create]⟩
  | link _ hlink =>
    have hlinking := Scheduler.linking_of_addDependency hlink
    exact .inl ⟨rfl, by rw [hlinking.phase_eq], hlinking.panicked_eq j⟩
  | enqueue _ henqueue =>
    obtain ⟨added, hscheduling⟩ := Scheduler.scheduling_of_enqueue h.exact henqueue
    refine .inl ⟨rfl, hscheduling.done_iff j, ?_⟩
    rw [hscheduling.job_eq]
    split <;> rfl
  | start _ hstart =>
    have htaking := Scheduler.taking_of_start? hstart
    refine .inl ⟨rfl, htaking.done_iff h.exact j, ?_⟩
    rw [htaking.job_eq]
    split <;> rfl
  | @finish w i panicked hruns =>
    obtain ⟨hrunning, hlt⟩ := h.lt_of_runs hruns
    rw [Scheduler.phase_finish hlt, Scheduler.panicked_finish hlt]
    by_cases hj : j = i
    · subst hj
      exact .inr ⟨w, panicked, rfl, hrunning, if_pos rfl, if_pos rfl⟩
    · rw [if_neg hj, if_neg hj]
      exact .inl ⟨decide_eq_false (Ne.symm hj), Iff.rfl, rfl⟩
  | refuseLink | refuseEnqueue | shutdown | exit => exact .inl ⟨rfl, Iff.rfl, rfl⟩

/-- A job that is done was finished once, any other never. -/
theorem Run.countP_finishes {n : Nat} {trace : List Event} {p : Pool} (hrun : Run n trace p)
    (j : Nat) : trace.countP (Event.finishes j) =
      if (p.scheduler.job j).phase = .done then 1 else 0 := by
  induction hrun with
  | start => simp [ofCount, Scheduler.job, Scheduler.empty, Job.fresh]
  | @step trace e p q hrun hstep ih =>
    rw [List.countP_append, ih, List.countP_singleton]
    rcases hrun.agrees.finish_cases hstep j with
      ⟨he, hdone, -⟩ | ⟨w, panicked, rfl, hrunning, hdone, -⟩
    · simp [he, hdone]
    · simp [hrunning, hdone, Event.finishes]

/-- A run goes through a pool after each part of its history. -/
theorem Run.split {n : Nat} {trace : List Event} {p : Pool} (hrun : Run n trace p)
    {before after : List Event} {e : Event} (htrace : trace = before ++ e :: after) :
    ∃ q r, Run n before q ∧ Step q e r := by
  induction hrun generalizing after with
  | start => simp at htrace
  | @step trace last q r hrun hstep ih =>
    rcases List.eq_nil_or_concat after with rfl | ⟨after, x, rfl⟩
    · obtain ⟨rfl, heq⟩ := List.append_inj' htrace rfl
      cases heq
      exact ⟨q, r, hrun, hstep⟩
    · have hinit : trace ++ [last] = (before ++ e :: after) ++ [x] := by simpa using htrace
      obtain ⟨rfl, -⟩ := List.append_inj' hinit rfl
      exact ih rfl

/-- A job that was started is not made to wait for anything afterwards. -/
theorem Run.not_linked_after_start {n : Nat} {before after : List Event} {w j d : Nat} {p : Pool}
    (hrun : Run n (before ++ .started w j :: after) p) : Event.linked j d ∉ after := by
  intro hmem
  obtain ⟨mid, rest, rfl⟩ := List.append_of_mem hmem
  have htrace : before ++ .started w j :: (mid ++ .linked j d :: rest) =
      (before ++ .started w j :: mid) ++ .linked j d :: rest := by simp
  obtain ⟨q, r, hmid, hstep⟩ := hrun.split htrace
  have hstarted : q.scheduler.Started j := by
    by_contra hnot
    have hcount := (hmid.agrees.starts_eq j).2 hnot
    simp [Event.starts] at hcount
  have hcreated := hstep.linking.created
  simp [Scheduler.Started, hcreated] at hstarted

/-- What a job waits for when it is started is finished. -/
theorem Agrees.finished_of_start {trace : List Event} {p q : Pool} {w j d : Nat}
    (h : Agrees trace p) (hstep : Step p (.started w j) q) (hlinked : Linked trace j d) :
    Finished trace d := by
  have hdone := (hstep.taking.scheduled h.exact).2 d ((h.linked_iff j d).1 hlinked)
  exact (h.finished_iff d).2 hdone

/-- No job is started twice, and when a job is started all it was ever made to wait for is finished:
whatever calls the client makes, and in whatever order the workers take and finish jobs. -/
theorem Run.starts_once_after_dependencies {n : Nat} {trace : List Event} {p : Pool}
    (hrun : Run n trace p) :
    (∀ j, trace.countP (Event.starts j) ≤ 1) ∧
      ∀ before after w j, trace = before ++ .started w j :: after →
        ∀ d, Linked trace j d → Finished before d := by
  refine ⟨?_, ?_⟩
  · intro j
    have hstarts := hrun.agrees.starts_eq j
    by_cases hj : p.scheduler.Started j
    · exact Nat.le_of_eq (hstarts.1 hj)
    · simp [hstarts.2 hj]
  · rintro before after w j rfl d hlinked
    obtain ⟨q, r, hbefore, hstep⟩ := hrun.split rfl
    apply hbefore.agrees.finished_of_start hstep
    rcases List.mem_append.1 hlinked with hmem | hmem
    · exact hmem
    · rcases List.mem_cons.1 hmem with heq | hmem
      · cases heq
      · exact absurd hmem hrun.not_linked_after_start

section Known

variable {n : Nat} {trace : List Event} {s t : Scheduler} {workers : List Worker}

/-- The client makes jobs wait for others, one after another. -/
theorem Run.links (hrun : Run n trace ⟨s, workers, false⟩) (links : List (Nat × Nat))
    (h : links.foldlM (fun s x => s.addDependency ⟨x.1⟩ ⟨x.2⟩) s = .ok t) :
    Run n (trace ++ links.map fun x => .linked x.1 x.2) ⟨t, workers, false⟩ := by
  induction links generalizing trace s with
  | nil =>
    cases h
    simpa using hrun
  | cons x links ih =>
    rw [List.foldlM_cons] at h
    obtain ⟨u, hlink, hrest⟩ := bind_eq_ok_iff.1 h
    simpa using ih (hrun.step (.link rfl hlink)) hrest

/-- The client enqueues a job. -/
theorem Run.enqueue (hrun : Run n trace ⟨s, workers, false⟩) (root : Nat)
    (h : s.enqueue ⟨root⟩ = .ok t) : Run n (trace ++ [.enqueued root]) ⟨t, workers, false⟩ :=
  hrun.step (.enqueue rfl h)

/-- A lone worker takes a job and finishes it. -/
theorem Run.turn (hrun : Run n trace ⟨s, [.idle], false⟩) (j : Nat) (panicked : Bool)
    (h : ∃ taken, s.start? = some (j, taken) ∧ taken.finish j panicked = t) :
    Run n (trace ++ [.started 0 j, .finished 0 j panicked]) ⟨t, [.idle], false⟩ := by
  obtain ⟨taken, hstart, rfl⟩ := h
  have htaken : Run n (trace ++ [.started 0 j]) ⟨taken, [.running j], false⟩ :=
    hrun.step (@Step.start _ 0 j taken rfl hstart)
  simpa using htaken.step (@Step.finish _ 0 j panicked rfl)

end Known

/-- Two jobs, the first of which waits for the second, run by two workers. One worker leaves after
shutdown while the other is still at work. -/
def chainTrace : List Event :=
  [.created 0, .created 1, .linked 0 1, .enqueued 0, .started 0 1, .finished 0 1 true, .started 1 0,
    .shutdown, .exited 0, .finished 1 0 false, .exited 1]

theorem chain_run :
    ∃ p, Run 2 chainTrace p ∧ p.shutdown = true ∧ p.workers = [.exited, .exited] := by
  have hlink : Scheduler.empty.create.2.create.2.addDependency ⟨0⟩ ⟨1⟩ =
      .ok ⟨#[⟨1, [], [1], .created, false⟩, ⟨0, [0], [], .created, false⟩], []⟩ := by cbv
  have henqueue : Scheduler.enqueue
      ⟨#[⟨1, [], [1], .created, false⟩, ⟨0, [0], [], .created, false⟩], []⟩ ⟨0⟩ =
      .ok ⟨#[⟨1, [], [1], .scheduled, false⟩, ⟨0, [0], [], .scheduled, false⟩], [1]⟩ := by cbv
  have hmade : Run 2 [.created 0, .created 1]
      ⟨Scheduler.empty.create.2.create.2, [.idle, .idle], false⟩ :=
    (Run.start.step (.create rfl (by decide))).step (.create rfl (by decide))
  have hstarted := ((hmade.step (.link rfl hlink)).step (.enqueue rfl henqueue)).step
    (@Step.start _ 0 1 _ rfl rfl)
  have hsecond := (hstarted.step (@Step.finish _ 0 1 true rfl)).step (@Step.start _ 1 0 _ rfl rfl)
  have hleft := (hsecond.step (.shutdown _)).step (@Step.exit _ 0 rfl rfl rfl)
  have hdone := (hleft.step (@Step.finish _ 1 0 false rfl)).step (@Step.exit _ 1 rfl rfl rfl)
  exact ⟨_, hdone, rfl, rfl⟩

/-- In the run of two jobs, the one that waits starts when the other is finished. -/
theorem chain_starts_in_order : ∃ p, Run 2 chainTrace p ∧
    chainTrace.countP (Event.starts 0) ≤ 1 ∧ Finished (chainTrace.take 6) 1 := by
  obtain ⟨p, hrun, -⟩ := chain_run
  obtain ⟨honce, hafter⟩ := hrun.starts_once_after_dependencies
  exact ⟨p, hrun, honce 0, hafter _ (chainTrace.drop 7) 1 0 rfl 1 (by simp [Linked, chainTrace])⟩

end Pool

end IncrementalBuild.Jobs
