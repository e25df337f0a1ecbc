import IncrementalBuild.Path
import IncrementalBuild.Proofs.SortedMap

/-!
The order of paths is that of their lists of components: it is linear, and two spellings compare as
equal when their components agree.
-/

namespace IncrementalBuild

namespace Component

attribute [local simp] order rank

theorem order_eq_iff {a b : Component} : a.order b = .eq ↔ a = b := by
  cases a <;> cases b <;> simp

theorem order_lt_trans {a b c : Component} (hab : a.order b = .lt) (hbc : b.order c = .lt) :
    a.order c = .lt := by
  cases a <;> cases b <;> cases c <;> simp only [order, rank] at hab hbc ⊢ <;>
    first
      | rfl
      | exact absurd hab (by decide)
      | exact absurd hbc (by decide)
      | exact Std.TransCmp.lt_trans hab hbc

theorem order_eq_swap (a b : Component) : a.order b = (b.order a).swap := by
  cases a <;> cases b <;> simp only [order] <;> first | rfl | exact Std.OrientedCmp.eq_swap

theorem order_linear : SortedMap.Linear order where
  lt_trans _ _ _ := order_lt_trans
  eq_swap := order_eq_swap
  refl _ := order_eq_iff.2 rfl

end Component

namespace Path

theorem orderComponents_eq_iff {as bs : List Component} :
    orderComponents as bs = .eq ↔ as = bs := by
  induction as generalizing bs with
  | nil => cases bs <;> simp [orderComponents]
  | cons a as ih =>
    cases bs <;> simp [orderComponents, Ordering.then_eq_eq, Component.order_eq_iff, ih]

theorem order_eq_iff {p q : Path} : p.order q = .eq ↔ p.components = q.components :=
  orderComponents_eq_iff

theorem order_eq_iff_beq {p q : Path} : p.order q = .eq ↔ (p == q) = true := by
  rw [order_eq_iff]
  exact (decide_eq_true_iff).symm

theorem beq_self (p : Path) : (p == p) = true :=
  decide_eq_true rfl

instance : ReflBEq Path where
  rfl := beq_self _

theorem beq_comm (p q : Path) : (p == q) = (q == p) :=
  decide_eq_decide.2 eq_comm

/-- Paths are in a linear order of their components. -/
theorem order_linear : SortedMap.Linear order :=
  have hlists : SortedMap.Linear orderComponents :=
    Component.order_linear.lists (fun _ _ => Component.order_eq_iff.1) rfl (fun _ _ => rfl)
      (fun _ _ => rfl) fun _ _ _ _ => rfl
  ⟨fun _ _ _ => hlists.lt_trans _ _ _, fun _ _ => hlists.eq_swap _ _, fun _ => hlists.refl _⟩

end Path

end IncrementalBuild
