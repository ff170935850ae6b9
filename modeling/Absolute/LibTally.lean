import Mathlib.Algebra.BigOperators.Group.Finset.Piecewise
import Mathlib.Algebra.BigOperators.Group.Multiset.Basic
import Mathlib.Algebra.Order.BigOperators.Group.Finset

/-!
# Tallies over a family

A total over a family of states (workers, lanes, tasks) when one member of the
family changes: the new total with the member's old share is the old total with
its new share. Nothing is subtracted, so the rule serves multisets and natural
numbers alike.
-/

namespace Absolute

namespace Tally

open Function

variable {ι α M : Type*} [DecidableEq ι] [AddCommMonoid M]

theorem sum_update (s : Finset ι) {i : ι} (hi : i ∈ s) (g : α → M) (f : ι → α) (a : α) :
    ∑ j ∈ s, g (update f i a j) + g (f i) = ∑ j ∈ s, g (f j) + g a := by
  rw [← Finset.add_sum_erase s (fun j => g (update f i a j)) hi,
    ← Finset.add_sum_erase s (fun j => g (f j)) hi, update_self]
  have hrest : ∑ j ∈ s.erase i, g (update f i a j) = ∑ j ∈ s.erase i, g (f j) :=
    Finset.sum_congr rfl fun j hj => by rw [update_of_ne (Finset.ne_of_mem_erase hj)]
  rw [hrest]
  ac_rfl

/-- A member that keeps its share keeps the total. -/
theorem sum_update_of_eq (s : Finset ι) {i : ι} {g : α → M} {f : ι → α} {a : α}
    (ha : g a = g (f i)) : ∑ j ∈ s, g (update f i a j) = ∑ j ∈ s, g (f j) := by
  refine Finset.sum_congr rfl fun j _ => ?_
  by_cases hj : j = i
  · subst hj
    rw [update_self, ha]
  · rw [update_of_ne hj]

end Tally

end Absolute
