import IncrementalBuild.Proofs.Jobs.Run

/-!
Which dependencies are accepted. The dependencies of every pool that can be reached form no cycle,
and a new one is refused for the first reason that applies: a handle that refers to no job, a job
that was enqueued already, or a cycle that it would close.
-/

namespace IncrementalBuild.Jobs

open Relation

namespace Scheduler

/-- Why `a` cannot be made to wait for `b`. The reasons exclude each other. -/
inductive Refuses (s : Scheduler) (a b : Handle) : Error → Prop where
  | dependent : ¬ a.index < s.jobs.size → Refuses s a b (.invalidHandle a)
  | dependency : a.index < s.jobs.size → ¬ b.index < s.jobs.size →
      Refuses s a b (.invalidHandle b)
  | scheduled : a.index < s.jobs.size → b.index < s.jobs.size → s.Enqueued a.index →
      Refuses s a b (.alreadyScheduled a)
  | cycle : a.index < s.jobs.size → b.index < s.jobs.size → ¬ s.Enqueued a.index →
      a = b ∨ TransGen s.DependsOn b.index a.index → Refuses s a b (.cycle a b)

section Links

variable {s : Scheduler} {a b : Handle}

/-- A job is among those that `b` brings with it if it is `b` or `b` transitively waits for it. -/
theorem Owing.mem_closure_handle_iff (hexact : s.Exact) (hb : b.index < s.jobs.size) :
    a.index ∈ s.closure b.index ↔ a = b ∨ TransGen s.DependsOn b.index a.index := by
  have hindex : a.index = b.index ↔ a = b := by
    cases a
    cases b
    simp
  rw [hexact.mem_closure_iff hb, reflTransGen_iff_eq_or_transGen, hindex]

theorem Refuses.addDependency_eq {cause : Error} (h : s.Refuses a b cause) (hexact : s.Exact) :
    s.addDependency a b = .error cause := by
  unfold addDependency
  cases h with
  | dependent ha => rw [if_pos (by simpa [holds] using ha)]
  | dependency ha hb =>
    rw [if_neg (by simp [holds, ha]), if_pos (by simpa [holds] using hb)]
  | scheduled ha hb henqueued =>
    rw [Enqueued] at henqueued
    rw [if_neg (by simp [holds, ha]), if_neg (by simp [holds, hb]), if_pos henqueued]
  | cycle ha hb hnew hcycle =>
    have hclosure := (hexact.mem_closure_handle_iff hb).2 hcycle
    rw [Enqueued] at hnew
    rw [if_neg (by simp [holds, ha]), if_neg (by simp [holds, hb]), if_neg hnew,
      if_pos (List.contains_iff_mem.2 hclosure)]

/-- What is refused for no reason is accepted. -/
theorem exists_addDependency_of_not_refuses (hexact : s.Exact)
    (h : ∀ cause, ¬ s.Refuses a b cause) : ∃ t, s.addDependency a b = .ok t := by
  have ha : a.index < s.jobs.size := by
    by_contra hnot
    exact h _ (.dependent hnot)
  have hb : b.index < s.jobs.size := by
    by_contra hnot
    exact h _ (.dependency ha hnot)
  have hnew : ¬ s.Enqueued a.index := fun henqueued => h _ (.scheduled ha hb henqueued)
  have hclosure : a.index ∉ s.closure b.index := fun hmem =>
    h _ (.cycle ha hb hnew ((hexact.mem_closure_handle_iff hb).1 hmem))
  exact exists_addDependency ha hb (not_not.1 hnew) hclosure

theorem addDependency_eq_error_iff (hexact : s.Exact) {cause : Error} :
    s.addDependency a b = .error cause ↔ s.Refuses a b cause := by
  constructor
  · intro h
    by_contra hnot
    have hnone : ∀ other, ¬ s.Refuses a b other := by
      intro other hother
      rw [hother.addDependency_eq hexact] at h
      cases h
      exact hnot hother
    obtain ⟨t, ht⟩ := exists_addDependency_of_not_refuses hexact hnone
    rw [ht] at h
    cases h
  · exact fun h => h.addDependency_eq hexact

end Links

end Scheduler

namespace Pool

/-- In every pool that can be reached, no job transitively waits for itself, and making one job wait
for another is refused exactly for the reasons of `Refuses`: as a cycle only if the first is the
second or the second transitively waits for it. Where there is no reason, the dependency is added
and nothing else changes about what waits for what. A call that is refused changes nothing. -/
theorem Reachable.addDependency_exact {n : Nat} {p : Pool} (h : p.Reachable n) :
    (∀ i, ¬ TransGen p.scheduler.DependsOn i i) ∧
      (∀ a b cause,
        p.scheduler.addDependency a b = .error cause ↔ p.scheduler.Refuses a b cause) ∧
      (∀ a b, (∀ cause, ¬ p.scheduler.Refuses a b cause) →
        ∃ t, p.scheduler.addDependency a b = .ok t ∧
          p.scheduler.Linking t a.index b.index ∧
          ∀ i d, t.DependsOn i d ↔ p.scheduler.DependsOn i d ∨ i = a.index ∧ d = b.index) ∧
      ∀ cause q, Step p (.refused cause) q → q = p := by
  obtain ⟨trace, hrun⟩ := h
  have hexact := hrun.agrees.exact
  refine ⟨hexact.acyclic, fun a b cause => Scheduler.addDependency_eq_error_iff hexact, ?_, ?_⟩
  · intro a b hnone
    obtain ⟨t, ht⟩ := Scheduler.exists_addDependency_of_not_refuses hexact hnone
    have hlinking := Scheduler.linking_of_addDependency ht
    exact ⟨t, ht, hlinking, hlinking.dependsOn_iff⟩
  · intro cause q hstep
    cases hstep <;> rfl

/-- Two jobs of which the first waits for the second. -/
def chain : Pool where
  scheduler := ⟨#[⟨1, [], [1], .created, false⟩, ⟨0, [0], [], .created, false⟩], []⟩
  workers := [.idle, .idle]
  shutdown := false

theorem reachable_chain : chain.Reachable 2 := by
  have hmade : Run 2 [.created 0, .created 1]
      ⟨Scheduler.empty.create.2.create.2, [.idle, .idle], false⟩ :=
    (Run.start.step (.create rfl (by decide))).step (.create rfl (by decide))
  have hlink : Scheduler.empty.create.2.create.2.addDependency ⟨0⟩ ⟨1⟩ = .ok chain.scheduler := by
    cbv
  exact ⟨_, hmade.step (.link rfl hlink)⟩

/-- The second of two jobs cannot be made to wait for the first, which waits for it. -/
theorem chain_refuses_cycle : chain.Reachable 2 ∧
    chain.scheduler.addDependency ⟨1⟩ ⟨0⟩ = .error (.cycle ⟨1⟩ ⟨0⟩) := by
  obtain ⟨-, hrefused, -⟩ := reachable_chain.addDependency_exact
  refine ⟨reachable_chain, (hrefused ⟨1⟩ ⟨0⟩ _).2 ?_⟩
  have hwaits : chain.scheduler.DependsOn 0 1 := List.mem_singleton_self 1
  exact .cycle (by decide) (by decide) (not_not.2 rfl) (.inr (.single hwaits))

end Pool

end IncrementalBuild.Jobs
