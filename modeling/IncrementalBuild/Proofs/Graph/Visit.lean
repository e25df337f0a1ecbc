import IncrementalBuild.Graph.Visit
import Mathlib.Logic.Relation
import Mathlib.Tactic.Common

/-!
What a walk of a graph finds: each node that can be reached from the stack and was not seen before,
once.
-/

namespace IncrementalBuild.Graph

open Relation

/-- There is an edge from the first node to the second. -/
def Edge (next : Nat → List Nat) (x y : Nat) : Prop :=
  y ∈ next x

variable {next : Nat → List Nat} {bound : Nat}

theorem lt_of_mem_visit {stack seen : List Nat} {x : Nat}
    (hx : x ∈ visit next bound stack seen) : x < bound := by
  fun_induction visit next bound stack seen with
  | case1 => simp at hx
  | case2 y stack seen hnew ih =>
    rcases List.mem_cons.1 hx with rfl | hx
    · exact hnew.1
    · exact ih hx
  | case3 y stack seen hold ih => exact ih hx

theorem not_mem_seen_of_mem_visit {stack seen : List Nat} {x : Nat}
    (hx : x ∈ visit next bound stack seen) : x ∉ seen := by
  fun_induction visit next bound stack seen with
  | case1 => simp at hx
  | case2 y stack seen hnew ih =>
    rcases List.mem_cons.1 hx with rfl | hx
    · simpa using hnew.2
    · exact fun hseen => ih hx (List.mem_cons_of_mem _ hseen)
  | case3 y stack seen hold ih => exact ih hx

theorem nodup_visit (stack seen : List Nat) : (visit next bound stack seen).Nodup := by
  fun_induction visit next bound stack seen with
  | case1 => exact List.nodup_nil
  | case2 y stack seen hnew ih =>
    exact List.nodup_cons.2 ⟨fun hy => not_mem_seen_of_mem_visit hy List.mem_cons_self, ih⟩
  | case3 y stack seen hold ih => exact ih

theorem reachable_of_mem_visit {stack seen : List Nat} {x : Nat}
    (hx : x ∈ visit next bound stack seen) :
    ∃ root ∈ stack, ReflTransGen (Edge next) root x := by
  fun_induction visit next bound stack seen with
  | case1 => simp at hx
  | case2 y stack seen hnew ih =>
    rcases List.mem_cons.1 hx with rfl | hx
    · exact ⟨x, List.mem_cons_self, .refl⟩
    · obtain ⟨root, hroot, hpath⟩ := ih hx
      rcases List.mem_append.1 hroot with hroot | hroot
      · exact ⟨y, List.mem_cons_self, .head (List.mem_reverse.1 hroot) hpath⟩
      · exact ⟨root, List.mem_cons_of_mem _ hroot, hpath⟩
  | case3 y stack seen hold ih =>
    obtain ⟨root, hroot, hpath⟩ := ih hx
    exact ⟨root, List.mem_cons_of_mem _ hroot, hpath⟩

/-- Nothing on the stack is passed over unless it was seen before. -/
theorem mem_visit_of_mem_stack {stack seen : List Nat} {x : Nat} (hx : x ∈ stack)
    (hbound : x < bound) : x ∈ seen ∨ x ∈ visit next bound stack seen := by
  fun_induction visit next bound stack seen with
  | case1 => simp at hx
  | case2 y stack seen hnew ih =>
    rcases List.mem_cons.1 hx with rfl | hx
    · exact .inr List.mem_cons_self
    · rcases ih (List.mem_append_right _ hx) with hseen | hfound
      · rcases List.mem_cons.1 hseen with rfl | hseen
        · exact .inr List.mem_cons_self
        · exact .inl hseen
      · exact .inr (List.mem_cons_of_mem _ hfound)
  | case3 y stack seen hold ih =>
    rcases List.mem_cons.1 hx with rfl | hx
    · exact .inl (by simpa [hbound] using hold)
    · exact ih hx

/-- The successors of what is found are found, unless they were seen before. -/
theorem mem_visit_of_edge {stack seen : List Nat} {x y : Nat}
    (hx : x ∈ visit next bound stack seen) (hedge : Edge next x y) (hbound : y < bound) :
    y ∈ seen ∨ y ∈ visit next bound stack seen := by
  fun_induction visit next bound stack seen with
  | case1 => simp at hx
  | case2 z stack seen hnew ih =>
    have hcases : y ∈ z :: seen ∨
        y ∈ visit next bound ((next z).reverse ++ stack) (z :: seen) := by
      rcases List.mem_cons.1 hx with rfl | hx
      · exact mem_visit_of_mem_stack (List.mem_append_left _ (List.mem_reverse.2 hedge)) hbound
      · exact ih hx
    rcases hcases with hseen | hfound
    · rcases List.mem_cons.1 hseen with rfl | hseen
      · exact .inr List.mem_cons_self
      · exact .inl hseen
    · exact .inr (List.mem_cons_of_mem _ hfound)
  | case3 z stack seen hold ih => exact ih hx

/-- Where no edge leads out of what was seen, or beyond the bound, a walk finds exactly the nodes
that can be reached and were not seen before. -/
theorem mem_visit_iff {stack seen : List Nat} {x : Nat}
    (hseen : ∀ y z, y ∈ seen → Edge next y z → z ∈ seen)
    (hedge : ∀ y z, Edge next y z → z < bound) (hstack : ∀ y ∈ stack, y < bound) :
    x ∈ visit next bound stack seen ↔
      x ∉ seen ∧ ∃ root ∈ stack, ReflTransGen (Edge next) root x := by
  constructor
  · exact fun hx => ⟨not_mem_seen_of_mem_visit hx, reachable_of_mem_visit hx⟩
  · rintro ⟨hnew, root, hroot, hpath⟩
    have hfound : x ∈ seen ∨ x ∈ visit next bound stack seen := by
      induction hpath with
      | refl => exact mem_visit_of_mem_stack hroot (hstack root hroot)
      | @tail y z _ hyz ih =>
        by_cases hy : y ∈ seen
        · exact .inl (hseen y z hy hyz)
        · exact mem_visit_of_edge ((ih hy).resolve_left hy) hyz (hedge y z hyz)
    exact hfound.resolve_left hnew

theorem mem_closure_iff {root x : Nat} (hedge : ∀ y z, Edge next y z → z < bound)
    (hroot : root < bound) :
    x ∈ closure next bound root ↔ ReflTransGen (Edge next) root x := by
  rw [closure, mem_visit_iff (by simp) hedge (by simpa using hroot)]
  simp

end IncrementalBuild.Graph
