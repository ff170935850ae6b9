import Mathlib.Data.Multiset.Filter
import Mathlib.Data.Multiset.Replicate
import Mathlib.Tactic.Common

/-!
# Headcounts

How many of a family, each counted as often as a weight says, where the family
may be infinite and only finitely many count. When one member changes, the total
changes by its share (`Total.update`).
-/

namespace Headcount

open Function

variable {τ α : Type*} [DecidableEq τ]

/-- The weights add up to `n`. -/
def Total (weight : τ → ℕ) (n : ℕ) : Prop :=
  ∃ all : Multiset τ, (∀ t, all.count t = weight t) ∧ all.card = n

variable {weight : τ → ℕ} {n : ℕ}

theorem Total.zero : Total (fun _ : τ => 0) 0 :=
  ⟨0, fun t => Multiset.count_zero t, rfl⟩

theorem Total.congr {weight' : τ → ℕ} (h : Total weight n) (heq : ∀ t, weight' t = weight t) :
    Total weight' n := by
  rwa [show weight' = weight from funext heq]

theorem Total.unique {m : ℕ} (h : Total weight n) (h' : Total weight m) : n = m := by
  rcases h with ⟨all, hcount, rfl⟩
  rcases h' with ⟨all', hcount', rfl⟩
  have heq : all = all' := Multiset.ext.mpr fun t => by rw [hcount, hcount']
  rw [heq]

theorem Total.le (h : Total weight n) (t : τ) : weight t ≤ n := by
  rcases h with ⟨all, hcount, rfl⟩
  rw [← hcount]
  exact Multiset.count_le_card t all

theorem Total.exists_pos (h : Total weight n) (hn : 0 < n) : ∃ t, 0 < weight t := by
  rcases h with ⟨all, hcount, rfl⟩
  rcases Multiset.card_pos_iff_exists_mem.mp hn with ⟨t, ht⟩
  exact ⟨t, by rw [← hcount]; exact Multiset.count_pos.mpr ht⟩

theorem Total.replace {weight' : τ → ℕ} {m : ℕ} (h : Total weight n) (t : τ)
    (hother : ∀ u, u ≠ t → weight' u = weight u) (hm : m + weight t = n + weight' t) :
    Total weight' m := by
  rcases h with ⟨all, hcount, rfl⟩
  refine ⟨all.filter (· ≠ t) + Multiset.replicate (weight' t) t, fun u => ?_, ?_⟩
  · rw [Multiset.count_add, Multiset.count_replicate]
    by_cases hu : u = t
    · subst hu
      rw [Multiset.count_filter_of_neg (by simp), if_pos rfl, Nat.zero_add]
    · rw [Multiset.count_filter_of_pos (p := fun u => u ≠ t) hu, if_neg (Ne.symm hu), Nat.add_zero,
        hcount, hother u hu]
  · have hsplit := congrArg Multiset.card (Multiset.filter_add_not (p := fun u => u ≠ t) all)
    have hself : (all.filter fun u => ¬u ≠ t).card = weight t := by
      rw [← hcount t, Multiset.count_eq_card_filter_eq]
      refine congrArg Multiset.card (Multiset.filter_congr fun u _ => ?_)
      exact ⟨fun h => (not_not.mp h).symm, fun h => not_not.mpr h.symm⟩
    rw [Multiset.card_add] at hsplit ⊢
    rw [hself] at hsplit
    rw [Multiset.card_replicate]
    omega

/-- One member changes: the total changes by its share. -/
theorem Total.update (share : τ → α → ℕ) {f : τ → α} {m : ℕ}
    (h : Total (fun t => share t (f t)) n) (t : τ) (a : α)
    (hm : m + share t (f t) = n + share t a) :
    Total (fun u => share u (Function.update f t a u)) m := by
  refine h.replace t (fun u hu => ?_) ?_
  · rw [update_of_ne hu]
  · rw [update_self]
    exact hm

/-- Weights that differ at finitely many members add up too. -/
theorem Total.exists_of_agree {weight' : τ → ℕ} (h : Total weight n) (l : List τ)
    (hagree : ∀ t, t ∉ l → weight' t = weight t) : ∃ m, Total weight' m := by
  induction l generalizing weight n with
  | nil => exact ⟨n, h.congr fun t => hagree t List.not_mem_nil⟩
  | cons t l ih =>
      have hle := h.le t
      have hnext : Total (Function.update weight t (weight' t)) (n + weight' t - weight t) :=
        h.replace t (fun u hu => update_of_ne hu _ _) (by rw [update_self]; omega)
      refine ih hnext fun u hu => ?_
      by_cases hut : u = t
      · rw [hut, update_self]
      · rw [update_of_ne hut]
        refine hagree u fun hmem => ?_
        rcases List.mem_cons.mp hmem with heq | hmem
        · exact hut heq
        · exact hu hmem

end Headcount
