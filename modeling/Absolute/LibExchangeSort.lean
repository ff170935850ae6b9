import Mathlib.Data.List.Perm.Basic

/-!
# Sorting by exchanges

The sort with two loops that exchanges the element at the outer position with every later one that
has to stand before it. The list is what is left from the outer position on: a round carries the
element of that position along the rest and leaves in the rest what it is exchanged for.
-/

namespace ExchangeSort

variable {α : Type*} {le : α → α → Bool}

/-- The inner loop: what comes to stand in front, and the rest. -/
def round (le : α → α → Bool) (x : α) : List α → α × List α
  | [] => (x, [])
  | y :: l =>
    if le x y then ((round le x l).1, y :: (round le x l).2)
    else ((round le y l).1, x :: (round le y l).2)

def rounds (le : α → α → Bool) : ℕ → List α → List α
  | 0, l => l
  | _ + 1, [] => []
  | n + 1, x :: l => (round le x l).1 :: rounds le n (round le x l).2

def exchangeSort (le : α → α → Bool) (l : List α) : List α := rounds le l.length l

theorem round_perm (le : α → α → Bool) (x : α) (l : List α) :
    List.Perm ((round le x l).1 :: (round le x l).2) (x :: l) := by
  induction l generalizing x with
  | nil => exact .refl _
  | cons y l ih =>
    rw [round]
    split_ifs
    · exact (List.Perm.swap _ _ _).trans (((ih x).cons y).trans (.swap _ _ _))
    · exact (List.Perm.swap _ _ _).trans ((ih y).cons x)

theorem rounds_perm (n : ℕ) (l : List α) : List.Perm (rounds le n l) l := by
  induction n generalizing l with
  | zero => exact .refl _
  | succ n ih =>
    rcases l with - | ⟨x, l⟩
    · exact .refl _
    · exact ((ih _).cons _).trans (round_perm le x l)

theorem exchangeSort_perm (le : α → α → Bool) (l : List α) : List.Perm (exchangeSort le l) l :=
  rounds_perm _ l

variable (trans : ∀ a b c, le a b → le b c → le a c) (total : ∀ a b, le a b || le b a)

include trans total

theorem round_le_self (x : α) (l : List α) : le (round le x l).1 x := by
  induction l generalizing x with
  | nil =>
    have hxx := total x x
    rwa [Bool.or_self] at hxx
  | cons y l ih =>
    rw [round]
    split_ifs with hle
    · exact ih x
    · have hyx : le y x := by simpa [hle] using total x y
      exact trans _ _ _ (ih y) hyx

/-- What a round puts in front is least. -/
theorem round_le (x : α) (l : List α) : ∀ y ∈ (round le x l).2, le (round le x l).1 y := by
  induction l generalizing x with
  | nil =>
    intro y hy
    cases hy
  | cons y l ih =>
    rw [round]
    split_ifs with hle
    · refine List.forall_mem_cons.mpr ⟨?_, ih x⟩
      exact trans _ _ _ (round_le_self trans total x l) hle
    · have hyx : le y x := by simpa [hle] using total x y
      exact List.forall_mem_cons.mpr
        ⟨trans _ _ _ (round_le_self trans total y l) hyx, ih y⟩

theorem pairwise_rounds (n : ℕ) (l : List α) (hn : l.length ≤ n) :
    (rounds le n l).Pairwise fun a b => le a b := by
  induction n generalizing l with
  | zero =>
    obtain rfl := List.length_eq_zero_iff.mp (Nat.le_zero.mp hn)
    exact .nil
  | succ n ih =>
    rcases l with - | ⟨x, l⟩
    · exact .nil
    · have hlen := (round_perm le x l).length_eq
      rw [List.length_cons, List.length_cons] at hlen
      rw [List.length_cons] at hn
      refine .cons (fun y hy => ?_) (ih _ (by omega))
      exact round_le trans total x l y ((rounds_perm n _).mem_iff.mp hy)

theorem pairwise_exchangeSort (l : List α) :
    (exchangeSort le l).Pairwise fun a b => le a b :=
  pairwise_rounds trans total _ l (Nat.le_refl _)

end ExchangeSort
