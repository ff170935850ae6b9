import Mathlib.Data.List.DropRight
import Mathlib.Tactic.Common

/-!
# Stable sorting

A list is sorted by a test that says which of two elements has to stand behind the other. Elements
of which neither has to are tied, and a stable sorting keeps each of them in its place among the
others it is tied with (`StablySorts`).

Insertion puts an element behind the ones in front of it up to the last that may stay there
(`place`). Where the test leaves a total preorder, inserting one element after the other sorts
stably (`sort_stablySorts`).
-/

namespace StableSort

variable {α : Type*} {after : α → α → Bool}

/-- What a test leaves in order is a total preorder. -/
structure TotalPreorder (after : α → α → Bool) : Prop where
  total : ∀ a b, after a b = false ∨ after b a = false
  trans : ∀ {a b c}, after a b = false → after b c = false → after a c = false

/-- None of two elements has to stand behind the other. -/
def tied (after : α → α → Bool) (a b : α) : Bool := !after a b && !after b a

theorem tied_iff {a b : α} : tied after a b = true ↔ after a b = false ∧ after b a = false := by
  simp [tied]

theorem not_after_of_tied (h : TotalPreorder after) {a b c : α} (hb : tied after a b = true)
    (hc : tied after a c = true) : after b c = false :=
  h.trans (tied_iff.mp hb).2 (tied_iff.mp hc).1

/-- No element stands in front of one that it has to stand behind. -/
def Sorted (after : α → α → Bool) (xs : List α) : Prop := xs.Pairwise fun a b => after a b = false

structure StablySorts (after : α → α → Bool) (xs ys : List α) : Prop where
  sorted : Sorted after ys
  perm : ys.Perm xs
  stable : ∀ a, ys.filter (tied after a) = xs.filter (tied after a)

/-! ## Insertion -/

/-- An element behind the ones in front, up to the last that may stay in front of it. -/
def place (after : α → α → Bool) (front : List α) (key : α) : List α :=
  front.rdropWhile (after · key) ++ key :: front.rtakeWhile (after · key)

@[simp] theorem place_nil (key : α) : place after [] key = [key] := rfl

theorem place_concat_of_after {front : List α} {x key : α} (h : after x key = true) :
    place after (front ++ [x]) key = place after front key ++ [x] := by
  rw [place, List.rdropWhile_concat_pos (after · key) front x h,
    List.rtakeWhile_concat_pos (after · key) front x h, place, List.append_assoc, List.cons_append]

theorem place_concat_of_not_after {front : List α} {x key : α} (h : after x key = false) :
    place after (front ++ [x]) key = front ++ [x, key] := by
  have hnot : ¬after x key = true := by rw [h]; exact Bool.false_ne_true
  rw [place, List.rdropWhile_concat_neg (after · key) front x hnot,
    List.rtakeWhile_concat_neg (after · key) front x hnot, List.append_assoc]
  rfl

theorem place_perm (front : List α) (key : α) :
    (place after front key).Perm (front ++ [key]) := by
  have hfront : front.rdropWhile (after · key) ++ front.rtakeWhile (after · key) = front :=
    List.rdropWhile_append_rtakeWhile
  have hmiddle : (place after front key).Perm (key :: front) := by
    rw [place]
    refine List.perm_middle.trans ?_
    rw [hfront]
  exact hmiddle.trans (List.perm_append_singleton key front).symm

theorem place_sorted (h : TotalPreorder after) {front : List α} (hsorted : Sorted after front)
    (key : α) : Sorted after (place after front key) := by
  induction front using List.reverseRecOn with
  | nil => exact List.pairwise_singleton _ _
  | append_singleton front x ih =>
      obtain ⟨hfront, -, hlast⟩ := List.pairwise_append.mp hsorted
      by_cases hx : after x key = true
      · rw [place_concat_of_after hx]
        refine List.pairwise_append.mpr ⟨ih hfront, List.pairwise_singleton _ _, ?_⟩
        intro a ha b hb
        obtain rfl := List.mem_singleton.mp hb
        rcases List.mem_append.mp ((place_perm front key).mem_iff.mp ha) with ha | ha
        · exact hlast a ha b hb
        · obtain rfl := List.mem_singleton.mp ha
          exact (h.total a b).resolve_right (by rw [hx]; exact Bool.noConfusion)
      · have hx : after x key = false := eq_false_of_ne_true hx
        rw [place_concat_of_not_after hx, List.append_cons]
        refine List.pairwise_append.mpr ⟨hsorted, List.pairwise_singleton _ _, ?_⟩
        intro a ha b hb
        obtain rfl := List.mem_singleton.mp hb
        rcases List.mem_append.mp ha with ha | ha
        · exact h.trans (hlast a ha x (List.mem_singleton_self x)) hx
        · obtain rfl := List.mem_singleton.mp ha
          exact hx

/-- An element passes none that it is tied with. -/
theorem filter_place (h : TotalPreorder after) (front : List α) (key a : α) :
    (place after front key).filter (tied after a) = (front ++ [key]).filter (tied after a) := by
  induction front using List.reverseRecOn with
  | nil => rfl
  | append_singleton front x ih =>
      by_cases hx : after x key = true
      · rw [place_concat_of_after hx, List.filter_append, ih]
        by_cases hkey : tied after a key = true
        · have hnot : tied after a x = false := by
            by_contra htied
            rw [not_after_of_tied h (eq_true_of_ne_false htied) hkey] at hx
            exact Bool.false_ne_true hx
          simp [List.filter_append, hkey, hnot]
        · simp [List.filter_append, List.filter_cons, hkey]
      · rw [place_concat_of_not_after (eq_false_of_ne_true hx), List.append_cons]

/-! ## Sorting -/

/-- Each element is inserted into the ones in front of it. -/
def sort (after : α → α → Bool) (xs : List α) : List α := xs.foldl (place after) []

@[simp] theorem sort_concat (xs : List α) (x : α) :
    sort after (xs ++ [x]) = place after (sort after xs) x := by
  rw [sort, List.foldl_append]
  rfl

theorem sort_stablySorts (h : TotalPreorder after) (xs : List α) :
    StablySorts after xs (sort after xs) := by
  induction xs using List.reverseRecOn with
  | nil => exact ⟨.nil, .nil, fun _ => rfl⟩
  | append_singleton xs x ih =>
      rw [sort_concat]
      refine ⟨place_sorted h ih.sorted x, ?_, ?_⟩
      · exact (place_perm _ _).trans (ih.perm.append_right [x])
      · intro a
        rw [filter_place h, List.filter_append, List.filter_append, ih.stable a]

end StableSort
