import Mathlib.Data.List.Basic
import Mathlib.Data.Nat.ModEq
import Mathlib.Tactic.Common

/-!
# Rings of cells

A list kept in a ring: from a first cell on, once around, a cell for each element and nothing
in the cells that are left. The rules say what writing or clearing the cell before, behind or
inside the elements does to the list.
-/

namespace Absolute

namespace Ring

variable {α : Type*}

/-! ## Positions -/

theorem pos_inj {n start i j : Nat} (hi : i < n) (hj : j < n)
    (h : (start + i) % n = (start + j) % n) : i = j := by
  have hmod : i % n = j % n := Nat.ModEq.add_left_cancel' start h
  rwa [Nat.mod_eq_of_lt hi, Nat.mod_eq_of_lt hj] at hmod

/-- Every cell has a place from the first one on. -/
theorem exists_pos {n start k : Nat} (hstart : start < n) (hk : k < n) :
    ∃ i < n, (start + i) % n = k := by
  by_cases h : start ≤ k
  · exact ⟨k - start, by omega, by rw [Nat.add_sub_cancel' h, Nat.mod_eq_of_lt hk]⟩
  · refine ⟨k + n - start, by omega, ?_⟩
    rw [show start + (k + n - start) = k + n by omega, Nat.add_mod_right, Nat.mod_eq_of_lt hk]

theorem pos_before {n start : Nat} (hn : 0 < n) (i : Nat) :
    ((start + n - 1) % n + (i + 1)) % n = (start + i) % n := by
  rw [Nat.mod_add_mod, show start + n - 1 + (i + 1) = start + i + n by omega, Nat.add_mod_right]

theorem pos_behind (n start i : Nat) : ((start + 1) % n + i) % n = (start + (i + 1)) % n := by
  rw [Nat.mod_add_mod, Nat.add_assoc, Nat.add_comm 1 i]

/-! ## Lists in rings -/

/-- The cells hold `xs` from `start` on, and nothing else. -/
structure Holds (cells : List (Option α)) (start : Nat) (xs : List α) : Prop where
  start_lt : start < cells.length
  length_le : xs.length ≤ cells.length
  cell : ∀ i < cells.length, cells[(start + i) % cells.length]? = some xs[i]?

variable {cells : List (Option α)} {start : Nat} {xs : List α}

theorem Holds.pos_lt (h : Holds cells start xs) (i : Nat) :
    (start + i) % cells.length < cells.length :=
  Nat.mod_lt _ (Nat.zero_lt_of_lt h.start_lt)

theorem Holds.get (h : Holds cells start xs) {i : Nat} (hi : i < xs.length) :
    cells[(start + i) % cells.length]? = some (some xs[i]) := by
  rw [h.cell i (Nat.lt_of_lt_of_le hi h.length_le), List.getElem?_eq_getElem hi]

theorem Holds.get_start {x : α} (h : Holds cells start (x :: xs)) :
    cells[start]? = some (some x) := by
  have := h.get (i := 0) (Nat.zero_lt_succ _)
  rwa [Nat.add_zero, Nat.mod_eq_of_lt h.start_lt] at this

/-- A cell of the ring after one was written. -/
theorem cell_set (h : Holds cells start xs) {i j : Nat} (hi : i < cells.length)
    (hj : j < cells.length) (c : Option α) :
    (cells.set ((start + i) % cells.length) c)[(start + j) % cells.length]?
      = some (if i = j then c else xs[j]?) := by
  by_cases hij : i = j
  · subst hij
    rw [if_pos rfl, List.getElem?_set_self (h.pos_lt i)]
  · rw [if_neg hij, List.getElem?_set_ne fun heq => hij (pos_inj hi hj heq), h.cell j hj]

theorem Holds.set (h : Holds cells start xs) {i : Nat} (hi : i < xs.length) (x : α) :
    Holds (cells.set ((start + i) % cells.length) (some x)) start (xs.set i x) where
  start_lt := by rw [List.length_set]; exact h.start_lt
  length_le := by rw [List.length_set, List.length_set]; exact h.length_le
  cell j hj := by
    rw [List.length_set] at hj ⊢
    rw [cell_set h (Nat.lt_of_lt_of_le hi h.length_le) hj]
    by_cases hij : i = j
    · subst hij
      rw [if_pos rfl, List.getElem?_set_self hi]
    · rw [if_neg hij, List.getElem?_set_ne hij]

theorem Holds.pushBack (h : Holds cells start xs) (hroom : xs.length < cells.length) (x : α) :
    Holds (cells.set ((start + xs.length) % cells.length) (some x)) start (xs ++ [x]) where
  start_lt := by rw [List.length_set]; exact h.start_lt
  length_le := by rw [List.length_set, List.length_append]; exact hroom
  cell j hj := by
    rw [List.length_set] at hj ⊢
    rw [cell_set h hroom hj]
    rcases Nat.lt_trichotomy j xs.length with hlt | rfl | hgt
    · rw [if_neg (by omega), List.getElem?_append_left hlt]
    · rw [if_pos rfl, List.getElem?_concat_length]
    · rw [if_neg (by omega), List.getElem?_eq_none (by omega),
        List.getElem?_eq_none (by rw [List.length_append, List.length_singleton]; omega)]

theorem Holds.pushFront (h : Holds cells start xs) (hroom : xs.length < cells.length) (x : α) :
    Holds (cells.set ((start + cells.length - 1) % cells.length) (some x))
      ((start + cells.length - 1) % cells.length) (x :: xs) := by
  have hpos : 0 < cells.length := by omega
  have hlt := Nat.mod_lt (start + cells.length - 1) hpos
  refine ⟨by rwa [List.length_set], by rw [List.length_set]; exact hroom, fun j hj => ?_⟩
  rw [List.length_set] at hj ⊢
  cases j with
  | zero =>
      rw [Nat.add_zero, Nat.mod_mod, List.getElem?_set_self hlt]
      rfl
  | succ j =>
      have hne : (start + cells.length - 1) % cells.length ≠ (start + j) % cells.length := by
        rw [← pos_before hpos]
        intro heq
        have := @pos_inj _ ((start + cells.length - 1) % cells.length) 0 (j + 1) hpos hj
          (by rwa [Nat.add_zero, Nat.mod_mod])
        omega
      rw [pos_before hpos, List.getElem?_set_ne hne, h.cell j (by omega)]
      rfl

theorem Holds.popFront {x : α} (h : Holds cells start (x :: xs)) :
    Holds (cells.set start none) ((start + 1) % cells.length) xs := by
  have hpos : 0 < cells.length := Nat.zero_lt_of_lt h.start_lt
  have hlength : xs.length < cells.length := h.length_le
  refine ⟨by rw [List.length_set]; exact Nat.mod_lt _ hpos,
    by rw [List.length_set]; omega, fun j hj => ?_⟩
  rw [List.length_set] at hj ⊢
  rw [pos_behind]
  have hset : cells.set start none = cells.set ((start + 0) % cells.length) none := by
    rw [Nat.add_zero, Nat.mod_eq_of_lt h.start_lt]
  rw [hset]
  by_cases hlast : j + 1 = cells.length
  · -- all the way around: the cell that was cleared
    rw [hlast, Nat.add_mod_right, Nat.add_zero, List.getElem?_set_self (Nat.mod_lt _ hpos),
      List.getElem?_eq_none (by omega)]
  · rw [cell_set h hpos (by omega), if_neg (by omega)]
    rfl

theorem Holds.popBack {x : α} (h : Holds cells start (xs ++ [x])) :
    Holds (cells.set ((start + xs.length) % cells.length) none) start xs := by
  have hlength := h.length_le
  rw [List.length_append, List.length_singleton] at hlength
  refine ⟨by rw [List.length_set]; exact h.start_lt, by rw [List.length_set]; omega,
    fun j hj => ?_⟩
  rw [List.length_set] at hj ⊢
  rw [cell_set h (by omega) hj]
  rcases Nat.lt_trichotomy j xs.length with hlt | rfl | hgt
  · rw [if_neg (by omega), List.getElem?_append_left hlt]
  · rw [if_pos rfl, List.getElem?_eq_none (Nat.le_refl _)]
  · rw [if_neg (by omega),
      List.getElem?_eq_none (by rw [List.length_append, List.length_singleton]; omega),
      List.getElem?_eq_none (by omega)]

/-- Where nothing is held every cell is a first one. -/
theorem Holds.rebase (h : Holds cells start ([] : List α)) {start' : Nat}
    (hstart : start' < cells.length) : Holds cells start' ([] : List α) where
  start_lt := hstart
  length_le := Nat.zero_le _
  cell i hi := by
    obtain ⟨j, hj, hpos⟩ :=
      exists_pos h.start_lt (Nat.mod_lt (start' + i) (Nat.zero_lt_of_lt hstart))
    rw [← hpos, h.cell j hj]
    rfl

theorem Holds.forall_none (h : Holds cells start ([] : List α)) : ∀ cell ∈ cells, cell = none := by
  intro cell hcell
  obtain ⟨k, hk, rfl⟩ := List.mem_iff_getElem.mp hcell
  obtain ⟨i, hi, hpos⟩ := exists_pos h.start_lt hk
  have := h.cell i hi
  rw [hpos, List.getElem?_eq_getElem hk] at this
  exact Option.some.inj this

/-! ## Rows -/

/-- The elements in a row from the first of `n` cells on. -/
def row (n : Nat) (xs : List α) : List (Option α) :=
  xs.map some ++ List.replicate (n - xs.length) none

theorem row_nil (n : Nat) : row n ([] : List α) = List.replicate n none := rfl

theorem row_full (xs : List α) : row xs.length xs = xs.map some := by
  rw [row, Nat.sub_self, List.replicate_zero, List.append_nil]

theorem length_row {n : Nat} (hlength : xs.length ≤ n) : (row n xs).length = n := by
  rw [row, List.length_append, List.length_map, List.length_replicate]
  omega

theorem row_set {n : Nat} (hroom : xs.length < n) (x : α) :
    (row n xs).set xs.length (some x) = row n (xs ++ [x]) := by
  obtain ⟨k, hk⟩ : ∃ k, n - xs.length = k + 1 := ⟨n - xs.length - 1, by omega⟩
  have hrest : n - (xs ++ [x]).length = k := by
    rw [List.length_append, List.length_singleton]
    omega
  rw [row, row, hk, hrest, List.set_append_right _ _ (by rw [List.length_map]), List.length_map,
    Nat.sub_self, List.replicate_succ, List.set_cons_zero, List.map_append, List.append_assoc]
  rfl

theorem holds_row {n : Nat} (hn : 0 < n) (hlength : xs.length ≤ n) : Holds (row n xs) 0 xs := by
  have hsize := length_row hlength
  refine ⟨by omega, by omega, fun i hi => ?_⟩
  rw [hsize] at hi ⊢
  rw [Nat.zero_add, Nat.mod_eq_of_lt hi, row]
  by_cases hlt : i < xs.length
  · rw [List.getElem?_append_left (by rwa [List.length_map]), List.getElem?_map,
      List.getElem?_eq_getElem hlt]
    rfl
  · rw [List.getElem?_append_right (by rw [List.length_map]; omega), List.getElem?_replicate,
      List.length_map, if_pos (by omega), List.getElem?_eq_none (by omega)]

theorem holds_empty {n : Nat} (hn : 0 < n) :
    Holds (List.replicate n none) 0 ([] : List α) := @holds_row α [] n hn (Nat.zero_le n)

end Ring

end Absolute
