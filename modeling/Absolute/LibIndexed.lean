import Mathlib.Data.List.Nodup
import Mathlib.Data.List.GetD
import Mathlib.Logic.Function.Basic

/-!
# Rows that are found by a key

A list of rows and beside it a map from keys to positions. The map is right when it
holds a position under a key exactly if the row there has the key (`Indexes`), so that
no two rows have one key. A right map is the one there is for its rows, and is what a
search for the key would find.
-/

namespace Indexed

open Function

variable {α κ : Type*} {key : α → κ} {rows : List α} {row : α} {index index' : κ → Option ℕ}

def Indexes (key : α → κ) (rows : List α) (index : κ → Option ℕ) : Prop :=
  ∀ k i, index k = some i ↔ (rows[i]?).map key = some k

theorem Indexes.nil : Indexes key [] fun _ => none := fun _ _ => by simp

theorem Indexes.unique (h : Indexes key rows index) (h' : Indexes key rows index') :
    index = index' := by
  funext k
  exact Option.ext fun i => (h k i).trans (h' k i).symm

theorem Indexes.eq_none_iff (h : Indexes key rows index) {k : κ} :
    index k = none ↔ k ∉ rows.map key := by
  constructor
  · intro hnone hmem
    rcases List.getElem?_of_mem hmem with ⟨i, hi⟩
    rw [List.getElem?_map] at hi
    rw [(h k i).mpr hi] at hnone
    cases hnone
  · intro hout
    by_contra hne
    rcases Option.ne_none_iff_exists'.mp hne with ⟨i, hi⟩
    have hrow := (h k i).mp hi
    rw [← List.getElem?_map] at hrow
    exact hout (List.mem_of_getElem? hrow)

theorem Indexes.nodup (h : Indexes key rows index) : (rows.map key).Nodup := by
  rw [List.nodup_iff_getElem?_ne_getElem?]
  intro i j hij hj heq
  rw [List.length_map] at hj
  have hrow : (rows[j]?).map key = some (key rows[j]) := by
    rw [List.getElem?_eq_getElem hj, Option.map_some]
  have hother : (rows[i]?).map key = some (key rows[j]) := by
    rw [List.getElem?_map, List.getElem?_map] at heq
    rw [heq, hrow]
  have hsame := ((h _ i).mpr hother).symm.trans ((h _ j).mpr hrow)
  exact Nat.ne_of_lt hij (Option.some.inj hsame)

/-- A row with a new key is appended. -/
theorem Indexes.append [DecidableEq κ] (h : Indexes key rows index) (row : α)
    (hfree : index (key row) = none) :
    Indexes key (rows ++ [row]) (update index (key row) (some rows.length)) := by
  intro k i
  have hout := h.eq_none_iff.mp hfree
  rcases Nat.lt_trichotomy i rows.length with hlt | rfl | hgt
  · rw [List.getElem?_append_left hlt]
    by_cases hk : k = key row
    · rw [hk, update_self]
      refine iff_of_false (fun heq => Nat.ne_of_gt hlt (Option.some.inj heq)) fun hrow => hout ?_
      rw [← List.getElem?_map] at hrow
      exact List.mem_of_getElem? hrow
    · rw [update_of_ne hk, h k i]
  · rw [List.getElem?_concat_length, Option.map_some]
    by_cases hk : k = key row
    · rw [hk, update_self]
      exact iff_of_true rfl rfl
    · rw [update_of_ne hk]
      refine iff_of_false (fun heq => ?_) fun heq => hk (Option.some.inj heq).symm
      have hrow := (h k _).mp heq
      rw [List.getElem?_eq_none (Nat.le_refl _)] at hrow
      cases hrow
  · rw [List.getElem?_eq_none (by rw [List.length_append, List.length_singleton]; exact hgt)]
    refine iff_of_false (fun heq => ?_) fun heq => by cases heq
    by_cases hk : k = key row
    · rw [hk, update_self] at heq
      exact Nat.ne_of_lt hgt (Option.some.inj heq)
    · rw [update_of_ne hk] at heq
      have hrow := (h k i).mp heq
      rw [List.getElem?_eq_none (Nat.le_of_lt hgt)] at hrow
      cases hrow

/-- Where no two rows have one key the first with a key is the one with it. -/
theorem indexes_findIdx [DecidableEq κ] (h : (rows.map key).Nodup) :
    Indexes key rows fun k => rows.findIdx? fun row => key row = k := by
  intro k i
  rw [List.findIdx?_eq_some_iff_getElem]
  constructor
  · rintro ⟨hi, hk, -⟩
    rw [List.getElem?_eq_getElem hi, Option.map_some, of_decide_eq_true hk]
  · intro hrow
    rcases Option.map_eq_some_iff.mp hrow with ⟨row, hget, hk⟩
    rcases List.getElem?_eq_some_iff.mp hget with ⟨hi, rfl⟩
    refine ⟨hi, decide_eq_true hk, fun j hj hother => ?_⟩
    have hi' : i < (rows.map key).length := by rwa [List.length_map]
    have hj' : j < (rows.map key).length := Nat.lt_trans hj hi'
    have hsame : (rows.map key)[j] = (rows.map key)[i] := by
      rw [List.getElem_map, List.getElem_map, hk, of_decide_eq_true hother]
    exact Nat.ne_of_lt hj ((h.getElem_inj_iff).mp hsame)

theorem Indexes.filter [DecidableEq κ] (h : Indexes key rows index) (p : α → Bool) :
    Indexes key (rows.filter p) fun k => (rows.filter p).findIdx? fun row => key row = k :=
  indexes_findIdx (h.nodup.sublist (List.filter_sublist.map key))

end Indexed
