import Mathlib.Data.List.Nodup
import Mathlib.Tactic.Common

/-!
# First in, first out

A queue over time, step by step. What has `entered` it and what has `left` it is read off two
states of it alone: an item entered if it is there now and was not before. A step that leaves a
queue as it is, puts an item behind the others or takes the first (`Moved`) is one that keeps the
order; if all steps are, what has entered is what has left and then what is still there
(`entered_eq`).
-/

namespace FirstOut

variable {α : Type*} [DecidableEq α]

/-- What one step does to a queue; an item that it puts there meets `p`. -/
inductive Moved (p : α → Prop) (q q' : List α) : Prop where
  | kept (h : q' = q)
  | entered (a : α) (ha : p a) (h : q' = q ++ [a])
  | left (a : α) (h : q = a :: q')

/-- The items of `q` that are not in `q'`. -/
def without (q q' : List α) : List α := q.filter (· ∉ q')

/-- What has entered a queue in so many steps, in the order it did. -/
def entered (q : ℕ → List α) : ℕ → List α
  | 0 => []
  | k + 1 => entered q k ++ without (q (k + 1)) (q k)

/-- What has left a queue in so many steps, in the order it did. -/
def left (q : ℕ → List α) : ℕ → List α
  | 0 => []
  | k + 1 => left q k ++ without (q k) (q (k + 1))

variable {p : α → Prop} {q q' : List α}

theorem without_eq_nil (h : ∀ a ∈ q, a ∈ q') : without q q' = [] := by
  refine List.filter_eq_nil_iff.mpr ?_
  intro a ha
  simpa using h a ha

theorem without_append (a : α) (h : (q ++ [a]).Nodup) : without (q ++ [a]) q = [a] := by
  have ha : a ∉ q := fun hmem => List.disjoint_of_nodup_append h hmem (List.mem_singleton_self a)
  rw [without, List.filter_append, List.filter_singleton, decide_eq_true ha]
  exact congrArg (· ++ [a]) (without_eq_nil fun _ hb => hb)

theorem without_cons (a : α) (h : (a :: q).Nodup) : without (a :: q) q = [a] := by
  have ha : a ∉ q := (List.nodup_cons.mp h).1
  rw [without, List.filter_cons, decide_eq_true ha]
  exact congrArg (a :: ·) (without_eq_nil fun _ hb => hb)

theorem Moved.append (h : Moved p q q') (hq : q.Nodup) (hq' : q'.Nodup) :
    q ++ without q' q = without q q' ++ q' := by
  cases h with
  | kept h =>
      subst h
      rw [without_eq_nil fun _ ha => ha, List.append_nil, List.nil_append]
  | entered a _ h =>
      subst h
      rw [without_append a hq', without_eq_nil fun _ hb => List.mem_append_left _ hb,
        List.nil_append]
  | left a h =>
      subst h
      rw [without_cons a hq, without_eq_nil fun _ hb => List.mem_cons_of_mem _ hb,
        List.append_nil]
      rfl

theorem Moved.of_mem_without (h : Moved p q q') {a : α} (ha : a ∈ without q' q) : p a := by
  obtain ⟨hmem, hnot⟩ := List.mem_filter.mp ha
  have hnot : a ∉ q := of_decide_eq_true hnot
  cases h with
  | kept h => exact absurd (h ▸ hmem) hnot
  | entered b hb h =>
      rw [h] at hmem
      rcases List.mem_append.mp hmem with hmem | hmem
      · exact absurd hmem hnot
      · obtain rfl := List.mem_singleton.mp hmem
        exact hb
  | left b h => exact absurd (h ▸ List.mem_cons_of_mem b hmem) hnot

/-! ## Over time -/

variable {queue : ℕ → List α} {k : ℕ}

theorem entered_eq (hmoved : ∀ i < k, Moved p (queue i) (queue (i + 1)))
    (hnodup : ∀ i ≤ k, (queue i).Nodup) :
    queue 0 ++ entered queue k = left queue k ++ queue k := by
  induction k with
  | zero => rw [entered, left, List.append_nil, List.nil_append]
  | succ k ih =>
      have hrest := ih (fun i hi => hmoved i (Nat.lt_succ_of_lt hi))
        (fun i hi => hnodup i (Nat.le_succ_of_le hi))
      have hstep := (hmoved k (Nat.lt_succ_self k)).append (hnodup k (Nat.le_succ k))
        (hnodup (k + 1) (Nat.le_refl _))
      rw [entered, left, ← List.append_assoc, hrest, List.append_assoc, hstep, List.append_assoc]

theorem of_mem_entered (hmoved : ∀ i < k, Moved p (queue i) (queue (i + 1))) {a : α}
    (ha : a ∈ entered queue k) : p a := by
  induction k with
  | zero => cases ha
  | succ k ih =>
      rcases List.mem_append.mp ha with ha | ha
      · exact ih (fun i hi => hmoved i (Nat.lt_succ_of_lt hi)) ha
      · exact (hmoved k (Nat.lt_succ_self k)).of_mem_without ha

end FirstOut
