import Mathlib.Data.List.Induction
import Mathlib.Data.List.Perm.Basic
import Mathlib.Data.List.Nodup
import Mathlib.Tactic.Common

/-!
# A running best

One pass that keeps the cheapest item seen so far and lets a tie rule look at
every further item of the same cost. What it ends with is the tie rule alone
run over the cheapest items (`pass_eq`): items that are not cheapest leave no
trace, wherever they stand.
-/

namespace Absolute

namespace RunningBest

variable {α β : Type*} (cost : α → Nat) (first : α → β) (tie : β → α → β)

/-- The least cost in a list. -/
def least : List α → Option Nat
  | [] => none
  | a :: l => some ((least l).elim (cost a) (min (cost a)))

/-- The items of least cost, in order. -/
def cheapest (l : List α) : List α := l.filter fun a => some (cost a) = least cost l

/-- One item against the best so far and its cost. -/
def consider : Option (Nat × β) → α → Option (Nat × β)
  | none, a => some (cost a, first a)
  | some (c, best), a =>
      if cost a < c then some (cost a, first a)
      else if cost a = c then some (c, tie best a)
      else some (c, best)

def pass (l : List α) : Option (Nat × β) := l.foldl (consider cost first tie) none

/-- The tie rule over items that all cost the same. -/
def ties : List α → Option β
  | [] => none
  | a :: l => some (l.foldl tie (first a))

theorem least_le {l : List α} {a : α} (h : a ∈ l) : ∃ m, least cost l = some m ∧ m ≤ cost a := by
  induction l with
  | nil => cases h
  | cons b l ih =>
      rw [least]
      rcases List.mem_cons.mp h with rfl | h
      · cases hl : least cost l with
        | none => exact ⟨_, rfl, Nat.le_refl _⟩
        | some m => exact ⟨_, rfl, Nat.min_le_left _ _⟩
      · obtain ⟨m, hm, hle⟩ := ih h
        rw [hm]
        exact ⟨_, rfl, Nat.le_trans (Nat.min_le_right _ _) hle⟩

theorem exists_of_least {l : List α} {m : Nat} (h : least cost l = some m) :
    ∃ a ∈ l, cost a = m := by
  induction l generalizing m with
  | nil => cases h
  | cons b l ih =>
      rw [least] at h
      cases hl : least cost l with
      | none =>
          rw [hl] at h
          exact ⟨b, List.mem_cons_self, Option.some.inj h⟩
      | some n =>
          rw [hl] at h
          obtain ⟨a, ha, hc⟩ := ih hl
          rcases Nat.le_total (cost b) n with hle | hle
          · exact ⟨b, List.mem_cons_self, by rw [← Option.some.inj h]; simp [hle]⟩
          · refine ⟨a, List.mem_cons_of_mem _ ha, ?_⟩
            rw [← Option.some.inj h, hc]
            simp [hle]

/-- The least cost is a fact of the items, not of their order. -/
theorem least_eq_iff {l : List α} {m : Nat} :
    least cost l = some m ↔ (∃ a ∈ l, cost a = m) ∧ ∀ a ∈ l, m ≤ cost a := by
  constructor
  · intro h
    refine ⟨exists_of_least cost h, fun a ha => ?_⟩
    obtain ⟨m', hm', hle⟩ := least_le cost ha
    rw [h] at hm'
    rwa [← Option.some.inj hm'] at hle
  · rintro ⟨⟨a, ha, rfl⟩, hle⟩
    obtain ⟨m, hm, hma⟩ := least_le cost ha
    obtain ⟨b, hb, hbm⟩ := exists_of_least cost hm
    rw [hm, Nat.le_antisymm hma (hbm ▸ hle b hb)]

theorem least_eq_none_iff {l : List α} : least cost l = none ↔ l = [] := by
  cases l <;> simp [least]

theorem mem_cheapest {l : List α} {a : α} :
    a ∈ cheapest cost l ↔ a ∈ l ∧ ∀ b ∈ l, cost a ≤ cost b := by
  rw [cheapest, List.mem_filter, decide_eq_true_eq]
  refine and_congr_right fun ha => ?_
  rw [eq_comm, least_eq_iff]
  exact ⟨And.right, fun h => ⟨⟨a, ha, rfl⟩, h⟩⟩

theorem cheapest_eq_nil_iff {l : List α} : cheapest cost l = [] ↔ l = [] := by
  constructor
  · intro h
    cases hl : least cost l with
    | none => exact (least_eq_none_iff cost).mp hl
    | some m =>
        obtain ⟨a, ha, hm⟩ := exists_of_least cost hl
        have : a ∈ cheapest cost l := by
          rw [cheapest, List.mem_filter, hl, hm]
          exact ⟨ha, decide_eq_true rfl⟩
        rw [h] at this
        cases this
  · rintro rfl
    rfl

/-- Cheapest items that stand first stay first. -/
theorem cheapest_append {front l : List α} (h : ∀ a ∈ front, a ∈ cheapest cost (front ++ l)) :
    ∃ back, cheapest cost (front ++ l) = front ++ back ∧ ∀ a ∈ back, a ∈ l := by
  refine ⟨l.filter fun a => some (cost a) = least cost (front ++ l), ?_,
    fun a ha => (List.mem_filter.mp ha).1⟩
  rw [cheapest] at h ⊢
  rw [List.filter_append,
    (List.filter_eq_self (l := front)).mpr fun a ha => (List.mem_filter.mp (h a ha)).2]

theorem least_concat (l : List α) (a : α) :
    least cost (l ++ [a]) = some ((least cost l).elim (cost a) (min · (cost a))) := by
  induction l with
  | nil => rfl
  | cons b l ih =>
      rw [List.cons_append, least, ih, least]
      cases least cost l with
      | none => rfl
      | some m => simp [Nat.min_assoc]

theorem ties_concat {l : List α} {b : β} (h : ties first tie l = some b) (a : α) :
    ties first tie (l ++ [a]) = some (tie b a) := by
  cases l with
  | nil => cases h
  | cons c l =>
      rw [← Option.some.inj h, List.cons_append, ties, List.foldl_append]
      rfl

/-- The pass is the tie rule run over the cheapest items. -/
theorem pass_eq (l : List α) :
    pass cost first tie l
      = (least cost l).bind fun m => (ties first tie (cheapest cost l)).map (m, ·) := by
  induction l using List.reverseRecOn with
  | nil => rfl
  | append_singleton l a ih =>
      rw [pass, List.foldl_append, List.foldl_cons, List.foldl_nil, ← pass, ih, least_concat]
      cases hl : least cost l with
      | none =>
          obtain rfl := (least_eq_none_iff cost).mp hl
          simp [consider, cheapest, least, ties]
      | some m =>
          have hne : cheapest cost l ≠ [] := fun h => by
            rw [(cheapest_eq_nil_iff cost).mp h] at hl
            cases hl
          obtain ⟨b, hb⟩ : ∃ b, ties first tie (cheapest cost l) = some b := by
            cases hc : cheapest cost l with
            | nil => exact absurd hc hne
            | cons c rest => exact ⟨_, rfl⟩
          have hmin : ∀ c ∈ l, m ≤ cost c := ((least_eq_iff cost).mp hl).2
          rw [hb, Option.bind_some, Option.map_some, consider, Option.elim_some,
            Option.bind_some]
          rw [cheapest, least_concat, hl, Option.elim_some, List.filter_append]
          by_cases hlt : cost a < m
          · have hnone :
                l.filter (fun c => decide (some (cost c) = some (min m (cost a)))) = [] := by
              refine List.filter_eq_nil_iff.mpr fun c hc => ?_
              have := hmin c hc
              simp
              omega
            rw [if_pos hlt, hnone, Nat.min_eq_right (by omega)]
            simp [ties]
          · have hsame : l.filter (fun c => decide (some (cost c) = some (min m (cost a))))
                = cheapest cost l := by
              rw [cheapest, hl, Nat.min_eq_left (by omega)]
            rw [if_neg hlt, hsame, Nat.min_eq_left (by omega)]
            by_cases heq : cost a = m
            · rw [if_pos heq]
              simp only [heq, List.filter_cons, decide_true, if_true, List.filter_nil]
              rw [ties_concat first tie hb]
              rfl
            · rw [if_neg heq]
              simp [heq, hb]

end RunningBest

end Absolute
