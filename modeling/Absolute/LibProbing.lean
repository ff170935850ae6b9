import Mathlib.Data.List.Basic
import Mathlib.Tactic.Common

/-!
# Probing

Open addressing without the tables: a search walks slots one after another,
stops at the first one that was never used, and either looks for a hit or
remembers a slot an insertion may take. Slots are numbers here and what is in
them is given by predicates, so the rules hold of any table that is searched
this way:

- `lookup_of_reach` and `lookup_eq_none`: a search decides whether anything it
  can reach is a hit;
- `freeSlot_spec`: an insertion finds a slot of its own;
- `Reach.mono`: what is reachable stays so while no slot becomes unused again;
- `mem_walk_ring`: on a ring, a whole turn visits every slot.
-/

namespace Absolute

namespace Probing

/-! ## Walks -/

/-- `n` slots from `i` on, each the `next` of the one before. -/
def walk (next : Nat → Nat) : Nat → Nat → List Nat
  | 0, _ => []
  | n + 1, i => i :: walk next n (next i)

theorem mem_walk_mod {size start : Nat} (hstart : start < size) :
    ∀ {n j : Nat}, j < n →
      (start + j) % size ∈ walk (fun i => (i + 1) % size) n start
  | n + 1, 0, _ => by
      rw [walk, show (start + 0) % size = start from Nat.mod_eq_of_lt hstart]
      exact List.mem_cons_self
  | n + 1, j + 1, h => by
      have hnext : (start + 1) % size < size := Nat.mod_lt _ (by omega)
      have ih := mem_walk_mod hnext (Nat.lt_of_succ_lt_succ h)
      rw [Nat.mod_add_mod, Nat.add_assoc, Nat.add_comm 1 j] at ih
      exact List.mem_cons_of_mem _ ih

/-- A turn of the ring visits every slot. -/
theorem mem_walk_ring {size start i : Nat} (hstart : start < size) (hi : i < size) :
    i ∈ walk (fun i => (i + 1) % size) size start := by
  by_cases h : start ≤ i
  · have := mem_walk_mod hstart (show i - start < size by omega)
    rwa [Nat.add_sub_cancel' h, Nat.mod_eq_of_lt hi] at this
  · have := mem_walk_mod hstart (show i + size - start < size by omega)
    rwa [show start + (i + size - start) = i + size by omega, Nat.add_mod_right,
      Nat.mod_eq_of_lt hi] at this

theorem lt_of_mem_walk {next : Nat → Nat} {size : Nat} (hnext : ∀ i, next i < size) :
    ∀ {n start i : Nat}, start < size → i ∈ walk next n start → i < size
  | n + 1, start, i, hstart, h => by
      rcases List.mem_cons.mp h with rfl | h
      · exact hstart
      · exact lt_of_mem_walk hnext (hnext start) h

/-! ## Reaching a slot -/

variable {unused hit dead : Nat → Bool}

/-- The walk `l` comes to `i` before any unused slot. -/
def Reach (unused : Nat → Bool) (l : List Nat) (i : Nat) : Prop :=
  ∃ front back, l = front ++ i :: back ∧ ∀ j ∈ front, unused j = false

theorem Reach.mem {l : List Nat} {i : Nat} (h : Reach unused l i) : i ∈ l := by
  obtain ⟨front, back, rfl, -⟩ := h
  simp

theorem Reach.mono {unused' : Nat → Bool} {l : List Nat} {i : Nat} (h : Reach unused l i)
    (hle : ∀ j, unused j = false → unused' j = false) : Reach unused' l i := by
  obtain ⟨front, back, rfl, hfront⟩ := h
  exact ⟨front, back, rfl, fun j hj => hle j (hfront j hj)⟩

theorem Reach.head {l : List Nat} {i : Nat} : Reach unused (i :: l) i :=
  ⟨[], l, rfl, by simp⟩

theorem Reach.cons {l : List Nat} {i j : Nat} (hj : unused j = false)
    (h : Reach unused l i) : Reach unused (j :: l) i := by
  obtain ⟨front, back, rfl, hfront⟩ := h
  exact ⟨j :: front, back, rfl, List.forall_mem_cons.mpr ⟨hj, hfront⟩⟩

theorem Reach.of_cons {l : List Nat} {i j : Nat} (h : Reach unused (j :: l) i)
    (hne : j ≠ i) : unused j = false ∧ Reach unused l i := by
  obtain ⟨front, back, heq, hfront⟩ := h
  cases front with
  | nil => exact absurd (List.cons.inj heq).1 hne
  | cons a front =>
      obtain ⟨rfl, rfl⟩ := List.cons.inj heq
      rw [List.forall_mem_cons] at hfront
      exact ⟨hfront.1, front, back, rfl, hfront.2⟩

/-! ## Searching -/

/-- The first hit of the walk, unless an unused slot comes first. -/
def lookup (unused hit : Nat → Bool) : List Nat → Option Nat
  | [] => none
  | i :: l => if unused i then none else if hit i then some i else lookup unused hit l

theorem lookup_eq_some {l : List Nat} {i : Nat} (h : lookup unused hit l = some i) :
    hit i = true ∧ unused i = false ∧ i ∈ l := by
  induction l with
  | nil => cases h
  | cons j l ih =>
      rw [lookup] at h
      split at h
      · cases h
      · rename_i hj
        split at h
        · obtain rfl := Option.some.inj h
          exact ⟨‹_›, Bool.eq_false_iff.mpr hj, List.mem_cons_self⟩
        · obtain ⟨h1, h2, h3⟩ := ih h
          exact ⟨h1, h2, List.mem_cons_of_mem _ h3⟩

/-- A search that finds nothing has passed every used slot it can reach. -/
theorem lookup_eq_none {l : List Nat} {i : Nat} (h : lookup unused hit l = none)
    (hi : Reach unused l i) (hused : unused i = false) : hit i = false := by
  induction l with
  | nil => exact absurd hi.mem List.not_mem_nil
  | cons j l ih =>
      rw [lookup] at h
      by_cases hji : j = i
      · subst hji
        rw [hused, if_neg Bool.false_ne_true] at h
        split at h
        · cases h
        · exact Bool.eq_false_iff.mpr ‹_›
      · obtain ⟨hj, hi⟩ := hi.of_cons hji
        rw [hj, if_neg Bool.false_ne_true] at h
        split at h
        · cases h
        · exact ih h hi

/-- The only hit is found, wherever it can be reached. -/
theorem lookup_of_reach {l : List Nat} {i : Nat} (hi : Reach unused l i)
    (hused : unused i = false) (hhit : hit i = true)
    (honly : ∀ j, hit j = true → unused j = false → j = i) :
    lookup unused hit l = some i := by
  cases h : lookup unused hit l with
  | none =>
      rw [lookup_eq_none h hi hused] at hhit
      cases hhit
  | some j =>
      obtain ⟨hj, hju, -⟩ := lookup_eq_some h
      rw [honly j hj hju]

/-! ## Finding a slot to take -/

/-- The first dead slot of the walk before an unused one, else the unused one;
`first` is a dead slot met before. -/
def freeSlot (unused dead : Nat → Bool) : Option Nat → List Nat → Option Nat
  | first, [] => first
  | first, i :: l =>
      if unused i then some (first.getD i)
      else freeSlot unused dead (if dead i ∧ first = none then some i else first) l

theorem freeSlot_some {f : Nat} : ∀ {l : List Nat},
    freeSlot unused dead (some f) l = some f
  | [] => rfl
  | i :: l => by
      rw [freeSlot]
      split
      · rfl
      · rw [if_neg (by simp), freeSlot_some]

/-- On a walk with an unused slot there is always a slot to take, and it can be
reached. -/
theorem freeSlot_spec {l : List Nat} (h : ∃ i ∈ l, unused i = true) :
    ∃ i, freeSlot unused dead none l = some i ∧ Reach unused l i ∧
      (unused i = true ∨ dead i = true) := by
  induction l with
  | nil => simp at h
  | cons j l ih =>
      rw [freeSlot]
      by_cases hj : unused j = true
      · rw [if_pos hj]
        exact ⟨j, rfl, .head, .inl hj⟩
      · rw [if_neg hj]
        by_cases hd : dead j = true
        · rw [if_pos ⟨hd, rfl⟩, freeSlot_some]
          exact ⟨j, rfl, .head, .inr hd⟩
        · rw [if_neg (by simp [hd])]
          obtain ⟨i, hi, hu⟩ := h
          have hmem : i ∈ l := by
            rcases List.mem_cons.mp hi with rfl | hi
            · exact absurd hu hj
            · exact hi
          obtain ⟨i, hfree, hreach, htake⟩ := ih ⟨i, hmem, hu⟩
          exact ⟨i, hfree, hreach.cons (Bool.eq_false_iff.mpr hj), htake⟩

end Probing

end Absolute
