/-!
Walking a graph of numbered nodes. `visit` lists the nodes below a bound that can be reached from a
stack of nodes without passing one that was seen before, each once and in the order a stack gives
them: the last successor put on the stack is followed first.
-/

namespace IncrementalBuild.Graph

/-- The nodes below `bound` that are not in `seen`. -/
def unseen (bound : Nat) (seen : List Nat) : List Nat :=
  (List.range bound).filter fun x => !seen.contains x

/-- A node that is seen brings its successors, and is not met again. -/
theorem length_unseen_cons (next : Nat → List Nat) {bound x : Nat} {seen : List Nat}
    (hx : x < bound) (hseen : seen.contains x = false) :
    (next x).length + ((unseen bound (x :: seen)).flatMap next).length =
      ((unseen bound seen).flatMap next).length := by
  have member : x ∈ unseen bound seen := by
    simp [unseen, hx] at hseen ⊢
    exact hseen
  have nodup : (unseen bound seen).Nodup := List.nodup_range.filter _
  have smaller : unseen bound (x :: seen) = (unseen bound seen).erase x := by
    rw [nodup.erase_eq_filter]
    simp only [unseen, List.filter_filter]
    refine List.filter_congr fun y _ => ?_
    simp only [List.contains_cons]
    cases h : y == x <;> simp_all [bne]
  have same := ((List.perm_cons_erase member).flatMap_right next).length_eq
  rw [smaller, same, List.flatMap_cons, List.length_append]

/-- The nodes reached from a stack, in the order they are reached. -/
def visit (next : Nat → List Nat) (bound : Nat) : (stack seen : List Nat) → List Nat
  | [], _ => []
  | x :: stack, seen =>
    if _h : x < bound ∧ seen.contains x = false then
      x :: visit next bound ((next x).reverse ++ stack) (x :: seen)
    else visit next bound stack seen
termination_by stack seen => stack.length + ((unseen bound seen).flatMap next).length
decreasing_by
  · have := length_unseen_cons next _h.1 _h.2
    simp only [List.length_append, List.length_reverse, List.length_cons]
    omega
  · simp

/-- The nodes below `bound` that can be reached from `x`, which is one of them. -/
def closure (next : Nat → List Nat) (bound x : Nat) : List Nat :=
  visit next bound [x] []

end IncrementalBuild.Graph
