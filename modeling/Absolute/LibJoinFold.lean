import Mathlib.Data.List.Induction
import Mathlib.Tactic.Common

/-!
# Folds over what is not ordered

A fold from the first element of a list on. For a join, a commutative, associative and
idempotent operation, it depends on the members of the list only (`foldFrom_eq_of_mem_iff`).
For other operations an invariant of what was visited says what the fold is
(`foldFrom_induction`).
-/

namespace JoinFold

variable {α β : Type*} {op : α → α → α} {b s : α} {w v : List α}

/-- The fold of a list from its first element on, and `b` of none. -/
def foldFrom (op : α → α → α) (b : α) : List α → α
  | [] => b
  | s :: rest => rest.foldl op s

theorem foldFrom_append (hw : w ≠ []) :
    foldFrom op b (w ++ v) = v.foldl op (foldFrom op b w) := by
  cases w with
  | nil => exact absurd rfl hw
  | cons s rest => exact List.foldl_append

theorem foldFrom_concat (hw : w ≠ []) :
    foldFrom op b (w ++ [s]) = op (foldFrom op b w) s := foldFrom_append hw

/-- What holds of the first element and is kept with each one more holds of the fold. -/
theorem foldFrom_induction {I : List α → α → Prop} (hfirst : ∀ s, I [s] s)
    (hstep : ∀ w a s, w ≠ [] → I w a → I (w ++ [s]) (op a s)) (hw : w ≠ []) :
    I w (foldFrom op b w) := by
  induction w using List.reverseRecOn with
  | nil => exact absurd rfl hw
  | append_singleton w s ih =>
    cases w with
    | nil => exact hfirst s
    | cons s' rest =>
      rw [foldFrom_concat (List.cons_ne_nil _ _)]
      exact hstep _ _ _ (List.cons_ne_nil _ _) (ih (List.cons_ne_nil _ _))

/-- A map that respects the operation respects the fold. -/
theorem map_foldFrom {op' : β → β → β} (f : α → β) (hf : ∀ a s, f (op a s) = op' (f a) (f s)) :
    f (foldFrom op b w) = foldFrom op' (f b) (w.map f) := by
  cases w with
  | nil => rfl
  | cons s rest =>
    change f (rest.foldl op s) = (rest.map f).foldl op' (f s)
    induction rest generalizing s with
    | nil => rfl
    | cons s' rest ih =>
      rw [List.foldl_cons, ih, hf]
      rfl

/-- The laws of a join. -/
structure IsJoin (op : α → α → α) : Prop where
  comm : ∀ a b, op a b = op b a
  assoc : ∀ a b c, op (op a b) c = op a (op b c)
  idem : ∀ a, op a a = a

/-- The least of what is above the members: `op a x = x` says that `a` is below `x`. -/
theorem IsJoin.foldFrom_le_iff (h : IsJoin op) (hw : w ≠ []) {x : α} :
    op (foldFrom op b w) x = x ↔ ∀ s ∈ w, op s x = x := by
  refine foldFrom_induction (I := fun w a => op a x = x ↔ ∀ s ∈ w, op s x = x) ?_ ?_ hw
  · intro s
    rw [List.forall_mem_singleton]
  · intro w a s _ ih
    rw [List.forall_mem_append, List.forall_mem_singleton, ← ih]
    constructor
    · intro hax
      constructor
      · rw [← hax, ← h.assoc, ← h.assoc, h.idem]
      · rw [← hax, h.comm a s, ← h.assoc, ← h.assoc, h.idem]
    · rintro ⟨ha, hs⟩
      rw [h.assoc, hs, ha]

theorem IsJoin.foldFrom_eq_of_mem_iff (h : IsJoin op) (hw : w ≠ []) (hv : v ≠ [])
    (hmem : ∀ s, s ∈ w ↔ s ∈ v) : foldFrom op b w = foldFrom op b v := by
  have hle : op (foldFrom op b w) (foldFrom op b v) = foldFrom op b v :=
    (h.foldFrom_le_iff hw).mpr fun s hs =>
      (h.foldFrom_le_iff hv).mp (h.idem _) s ((hmem s).mp hs)
  have hge : op (foldFrom op b v) (foldFrom op b w) = foldFrom op b w :=
    (h.foldFrom_le_iff hv).mpr fun s hs =>
      (h.foldFrom_le_iff hw).mp (h.idem _) s ((hmem s).mpr hs)
  rw [← hge, h.comm, hle]

end JoinFold
