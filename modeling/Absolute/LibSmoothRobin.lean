import Mathlib.Algebra.BigOperators.Group.Finset.Piecewise
import Mathlib.Algebra.BigOperators.Ring.Finset
import Mathlib.Algebra.Order.BigOperators.Group.Finset
import Mathlib.Data.Fintype.Card
import Mathlib.Tactic.Linarith
import Mathlib.Tactic.Ring

/-!
# Smooth weighted round robin with members that come and go

In a round every active member earns its weight, the one with the most credit is
selected, and pays what all earned. A member that is not active loses its credit, and
its debt with it, so credits do not add up to zero.

They are bounded all the same (`Bounded`). As long as the selected member can pay, the
credits above zero do not grow in sum; where it cannot, no credit exceeds the sum of
the weights. The debts are bounded for all sets of members at once, the more the
fewer are left out of the set: either the selected member is near to paying, or all
that were active and are not in the set are in debt themselves. A member that is active
and not selected earns in every round, so it is selected before long (`selected_soon`).
-/

namespace SmoothRobin

open Finset

variable {ι : Type*} [Fintype ι] [DecidableEq ι]

structure Round (w : ι → ℤ) (active : Finset ι) (selected : ι) (c c' : ι → ℤ) : Prop where
  mem : selected ∈ active
  best : ∀ i ∈ active, c i + w i ≤ c selected + w selected
  loser : ∀ i ∈ active, i ≠ selected → c' i = c i + w i
  winner : c' selected = c selected + w selected - ∑ i ∈ active, w i
  idle : ∀ i, i ∉ active → c' i = 0

/-- As many times the sum of the weights as there are members. -/
def limit (w : ι → ℤ) : ℤ := Fintype.card ι * ∑ i, w i

/-- What `k` members may owe together. -/
def debt (w : ι → ℤ) : ℕ → ℤ
  | 0 => 0
  | k + 1 => debt w k + (Fintype.card ι - k) * ∑ i, w i

structure Bounded (w c : ι → ℤ) : Prop where
  credit : ∑ i, max (c i) 0 ≤ limit w
  debt : ∀ T : Finset ι, -debt w T.card ≤ ∑ i ∈ T, c i

variable {w c c' : ι → ℤ} {active T : Finset ι} {selected : ι}

omit [DecidableEq ι] in
theorem debt_le_add {k m : ℕ} (hw : 0 ≤ ∑ i, w i) (hkm : k + m ≤ Fintype.card ι) :
    debt w k ≤ debt w (k + m)
      ∧ debt w (k + m) ≤ debt w k + m * ((Fintype.card ι - k) * ∑ i, w i) := by
  induction m with
  | zero => simp
  | succ m ih =>
      rcases ih (by omega) with ⟨hmono, hgrow⟩
      have hcard : ((k + m : ℕ) : ℤ) ≤ Fintype.card ι := by exact_mod_cast (by omega)
      have hstep : debt w (k + (m + 1))
          = debt w (k + m) + (Fintype.card ι - (k + m : ℕ)) * ∑ i, w i := rfl
      have hpart : 0 ≤ ((Fintype.card ι : ℤ) - (k + m : ℕ)) * ∑ i, w i :=
        mul_nonneg (by linarith) hw
      have hless : ((Fintype.card ι : ℤ) - (k + m : ℕ)) * ∑ i, w i
          ≤ (Fintype.card ι - k) * ∑ i, w i :=
        mul_le_mul_of_nonneg_right (by push_cast; omega) hw
      rw [hstep]
      push_cast at hpart hless ⊢
      constructor
      · linarith
      · linarith

omit [DecidableEq ι] in
theorem Bounded.zero (hw : ∀ i, 0 ≤ w i) : Bounded w (fun _ => 0) where
  credit := by
    have hsum : 0 ≤ ∑ i, w i := sum_nonneg fun i _ => hw i
    have hcard : (0 : ℤ) ≤ Fintype.card ι := Int.natCast_nonneg _
    rw [limit]
    simpa using mul_nonneg hcard hsum
  debt T := by
    have hsum : 0 ≤ ∑ i, w i := sum_nonneg fun i _ => hw i
    have hle := (debt_le_add (k := 0) (m := T.card) hsum (by simpa using card_le_univ T)).1
    rw [Nat.zero_add] at hle
    simpa [SmoothRobin.debt] using hle

/-! ## One round -/

omit [Fintype ι] in
/-- What a set of active members has after a round. -/
theorem Round.sum_eq (h : Round w active selected c c') (hT : T ⊆ active) :
    ∑ i ∈ T, c' i = ∑ i ∈ T, (c i + w i) - if selected ∈ T then ∑ i ∈ active, w i else 0 := by
  have hmember : ∀ i ∈ T, c' i
      = c i + w i - if i = selected then ∑ i ∈ active, w i else 0 := by
    intro i hi
    by_cases heq : i = selected
    · rw [if_pos heq, heq, h.winner]
    · rw [if_neg heq, sub_zero, h.loser i (hT hi) heq]
  rw [sum_congr rfl hmember, sum_sub_distrib, sum_ite_eq']

omit [Fintype ι] in
/-- The members that are not active have neither credit nor debt. -/
theorem Round.sum_inter (h : Round w active selected c c') (T : Finset ι) :
    ∑ i ∈ T, c' i = ∑ i ∈ T ∩ active, c' i := by
  rw [← sum_filter_add_sum_filter_not T (· ∈ active), filter_mem_eq_inter,
    sum_eq_zero (s := T.filter (· ∉ active)), add_zero]
  intro i hi
  exact h.idle i (mem_filter.mp hi).2

theorem Round.credit (h : Round w active selected c c') (hw : ∀ i, 0 ≤ w i)
    (hcredit : ∑ i, max (c i) 0 ≤ limit w) : ∑ i, max (c' i) 0 ≤ limit w := by
  by_cases hpays : ∑ i ∈ active, w i ≤ c selected + w selected
  · -- the selected member can pay
    have hmember : ∀ i, max (c' i) 0 ≤ max (c i) 0 + (if i ∈ active then w i else 0)
        - if i = selected then ∑ i ∈ active, w i else 0 := by
      intro i
      have hi := hw i
      by_cases heq : i = selected
      · subst heq
        rw [if_pos h.mem, if_pos rfl, h.winner]
        omega
      · rw [if_neg heq]
        by_cases hactive : i ∈ active
        · rw [if_pos hactive, h.loser i hactive heq]
          omega
        · rw [if_neg hactive, h.idle i hactive]
          omega
    calc ∑ i, max (c' i) 0
        ≤ ∑ i, (max (c i) 0 + (if i ∈ active then w i else 0)
            - if i = selected then ∑ i ∈ active, w i else 0) := sum_le_sum fun i _ => hmember i
      _ = ∑ i, max (c i) 0 := by
        rw [sum_sub_distrib, sum_add_distrib, sum_ite_eq', if_pos (mem_univ _), sum_ite_mem,
          univ_inter]
        ring
      _ ≤ limit w := hcredit
  · -- all credits are below what it has to pay
    have hless : ∑ i ∈ active, w i ≤ ∑ i, w i :=
      sum_le_sum_of_subset_of_nonneg (subset_univ _) fun i _ _ => hw i
    have hactive : 0 ≤ ∑ i ∈ active, w i := sum_nonneg fun i _ => hw i
    have hmember : ∀ i, max (c' i) 0 ≤ ∑ i, w i := by
      intro i
      by_cases heq : i = selected
      · subst heq
        rw [h.winner]
        omega
      · by_cases hi : i ∈ active
        · have hbest := h.best i hi
          rw [h.loser i hi heq]
          omega
        · rw [h.idle i hi]
          omega
    calc ∑ i, max (c' i) 0 ≤ ∑ _i : ι, ∑ i, w i := sum_le_sum fun i _ => hmember i
      _ = limit w := by rw [sum_const, card_univ, nsmul_eq_mul, limit]

/-- The selected member is near to paying. -/
theorem Round.debt_of_near (h : Round w active selected c c') (hw : ∀ i, 0 ≤ w i)
    (hdebt : ∀ T : Finset ι, -debt w T.card ≤ ∑ i ∈ T, c i) (hT : T ⊆ active) (hin : selected ∈ T)
    (hnear : -((Fintype.card ι - T.card) * ∑ i, w i) ≤ c selected + w selected) :
    -debt w T.card ≤ ∑ i ∈ T, c' i := by
  have hothers := hdebt (T.erase selected)
  have hearned : 0 ≤ ∑ i ∈ T.erase selected, w i := sum_nonneg fun i _ => hw i
  have hless : ∑ i ∈ active, w i ≤ ∑ i, w i :=
    sum_le_sum_of_subset_of_nonneg (subset_univ _) fun i _ _ => hw i
  have hcard : T.card = (T.erase selected).card + 1 := (card_erase_add_one hin).symm
  have hbound : debt w T.card = debt w (T.erase selected).card
      + (Fintype.card ι - (T.erase selected).card) * ∑ i, w i := by
    rw [hcard]
    rfl
  rw [h.sum_eq hT, if_pos hin, ← add_sum_erase T _ hin, sum_add_distrib, hbound]
  rw [hcard] at hnear
  push_cast at hnear
  linarith

/-- All that are active are in debt, so those outside of the set owe their part. -/
theorem Round.debt_of_far (h : Round w active selected c c') (hw : ∀ i, 0 ≤ w i)
    (hdebt : ∀ T : Finset ι, -debt w T.card ≤ ∑ i ∈ T, c i) (hT : T ⊆ active) (hin : selected ∈ T)
    (hfar : c selected + w selected ≤ -((Fintype.card ι - T.card) * ∑ i, w i)) :
    -debt w T.card ≤ ∑ i ∈ T, c' i := by
  have hall : ∑ i ∈ active, c' i = ∑ i ∈ active, c i := by
    rw [h.sum_eq subset_rfl, if_pos h.mem, sum_add_distrib, add_sub_cancel_right]
  have hrest : ∑ i ∈ active \ T, c' i
      ≤ (active \ T).card * -((Fintype.card ι - T.card) * ∑ i, w i) := by
    rw [← nsmul_eq_mul, ← sum_const]
    refine sum_le_sum fun i hi => ?_
    rcases mem_sdiff.mp hi with ⟨hactive, hout⟩
    have hne : i ≠ selected := fun heq => hout (heq ▸ hin)
    rw [h.loser i hactive hne]
    exact (h.best i hactive).trans hfar
  have hcard : active.card = T.card + (active \ T).card := by
    rw [card_sdiff_of_subset hT, Nat.add_sub_cancel' (card_le_card hT)]
  have hbound := (debt_le_add (k := T.card) (m := (active \ T).card) (sum_nonneg fun i _ => hw i)
    (hcard ▸ card_le_univ active)).2
  have hactive := hdebt active
  rw [hcard] at hactive
  rw [← sum_sdiff hT] at hall
  linarith

theorem Round.debt (h : Round w active selected c c') (hw : ∀ i, 0 ≤ w i)
    (hdebt : ∀ T : Finset ι, -debt w T.card ≤ ∑ i ∈ T, c i) (T : Finset ι) :
    -SmoothRobin.debt w T.card ≤ ∑ i ∈ T, c' i := by
  have hsub : T ∩ active ⊆ active := inter_subset_right
  have hmono : SmoothRobin.debt w (T ∩ active).card ≤ SmoothRobin.debt w T.card := by
    have hsub : T ∩ active ⊆ T := inter_subset_left
    have hle := card_le_card hsub
    have hdebt' := (debt_le_add (w := w) (k := (T ∩ active).card)
      (m := T.card - (T ∩ active).card) (sum_nonneg fun i _ => hw i)
      (by have := card_le_univ T; omega)).1
    rwa [Nat.add_sub_cancel' hle] at hdebt'
  rw [h.sum_inter]
  refine (neg_le_neg hmono).trans ?_
  by_cases hin : selected ∈ T ∩ active
  · rcases le_total (-((Fintype.card ι - (T ∩ active).card) * ∑ i, w i))
      (c selected + w selected) with hnear | hfar
    · exact h.debt_of_near hw hdebt hsub hin hnear
    · exact h.debt_of_far hw hdebt hsub hin hfar
  · have hearned : 0 ≤ ∑ i ∈ T ∩ active, w i := sum_nonneg fun i _ => hw i
    rw [h.sum_eq hsub, if_neg hin, sub_zero, sum_add_distrib]
    exact (hdebt _).trans (le_add_of_nonneg_right hearned)

theorem Bounded.round (hb : Bounded w c) (h : Round w active selected c c')
    (hw : ∀ i, 0 ≤ w i) : Bounded w c' :=
  ⟨h.credit hw hb.credit, h.debt hw hb.debt⟩

omit [DecidableEq ι] in
theorem Bounded.abs_credit_le (h : Bounded w c) (i : ι) : |c i| ≤ limit w := by
  have hcredit : max (c i) 0 ≤ limit w :=
    (single_le_sum (f := fun i => max (c i) 0) (fun i _ => le_max_right _ _)
      (mem_univ i)).trans h.credit
  have hdebt := h.debt {i}
  have hone : SmoothRobin.debt w 1 = limit w := by
    simp [SmoothRobin.debt, limit]
  rw [card_singleton, sum_singleton, hone] at hdebt
  rw [abs_le]
  exact ⟨hdebt, (le_max_left _ _).trans hcredit⟩

/-! ## Round after round -/

/-- Where no one is active no one is selected, and all credits are lost. -/
inductive Turn (w : ι → ℤ) (active : Finset ι) : Option ι → (ι → ℤ) → (ι → ℤ) → Prop
  | none {c c' : ι → ℤ} (hactive : active = ∅) (hc' : ∀ i, c' i = 0) : Turn w active none c c'
  | some {selected : ι} {c c' : ι → ℤ} (h : Round w active selected c c') :
      Turn w active (some selected) c c'

theorem Bounded.turn (hb : Bounded w c) {selected : Option ι} (h : Turn w active selected c c')
    (hw : ∀ i, 0 ≤ w i) : Bounded w c' := by
  cases h with
  | none hactive hc' =>
      rw [show c' = fun _ => 0 from funext hc']
      exact .zero hw
  | some h => exact hb.round h hw

section Turns

variable {actives : ℕ → Finset ι} {choices : ℕ → Option ι} {credits : ℕ → ι → ℤ}

theorem bounded_turns (hw : ∀ i, 0 ≤ w i) (hstart : ∀ i, credits 0 i = 0)
    (hturns : ∀ n, Turn w (actives n) (choices n) (credits n) (credits (n + 1))) (n : ℕ) :
    Bounded w (credits n) := by
  induction n with
  | zero =>
      rw [show credits 0 = fun _ => 0 from funext hstart]
      exact .zero hw
  | succ n ih => exact ih.turn (hturns n) hw

omit [Fintype ι] [DecidableEq ι] in
/-- A member that is active and not selected earns its weight in every round. -/
theorem earns (hturns : ∀ n, Turn w (actives n) (choices n) (credits n) (credits (n + 1)))
    {i : ι} {n m : ℕ} (hactive : ∀ j < m, i ∈ actives (n + j))
    (hnot : ∀ j < m, choices (n + j) ≠ some i) :
    credits (n + m) i = credits n i + m * w i := by
  induction m with
  | zero => simp
  | succ m ih =>
      have hold := ih (fun j hj => hactive j (by omega)) fun j hj => hnot j (by omega)
      have hmem := hactive m (Nat.lt_succ_self m)
      have hother := hnot m (Nat.lt_succ_self m)
      have hturn := hturns (n + m)
      rw [← Nat.add_assoc]
      cases hchoice : choices (n + m) with
      | none =>
          rw [hchoice] at hturn
          cases hturn with
          | none hempty hc' =>
              rw [hempty] at hmem
              cases hmem
      | some selected =>
          rw [hchoice] at hturn hother
          cases hturn with
          | some h =>
              rw [h.loser i hmem fun heq => hother (heq ▸ rfl), hold]
              push_cast
              ring

/-- A member is selected before it has earned twice the limit. -/
theorem selected_soon (hw : ∀ i, 0 < w i) (hstart : ∀ i, credits 0 i = 0)
    (hturns : ∀ n, Turn w (actives n) (choices n) (credits n) (credits (n + 1)))
    {i : ι} {n m : ℕ} (hactive : ∀ j < m, i ∈ actives (n + j)) (hm : 2 * limit w < m) :
    ∃ j < m, choices (n + j) = some i := by
  by_contra hnever
  have hnot : ∀ j < m, choices (n + j) ≠ some i :=
    fun j hj heq => hnever ⟨j, hj, heq⟩
  have hearned := earns hturns hactive hnot
  have hbounded := bounded_turns (fun i => (hw i).le) hstart hturns
  have hfirst := abs_le.mp ((hbounded n).abs_credit_le i)
  have hlast := abs_le.mp ((hbounded (n + m)).abs_credit_le i)
  have hone : (m : ℤ) * 1 ≤ m * w i :=
    mul_le_mul_of_nonneg_left (hw i) (Int.natCast_nonneg m)
  omega

end Turns

end SmoothRobin
