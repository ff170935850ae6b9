import Mathlib.Tactic.Common

/-!
# Loops that may fail

Rules for `List.foldlM` in `Except`: what one turn keeps, the whole loop keeps;
what one turn does for its element is still done at the end, when the turns of
the other elements leave it alone.
-/

namespace Folded

universe u

variable {ε α σ : Type*} {f : σ → α → Except ε σ} {s t : σ} {l : List α}

theorem except_bind_eq_ok {ε α β : Type*} {x : Except ε α} {g : α → Except ε β} {b : β} :
    x.bind g = .ok b ↔ ∃ a, x = .ok a ∧ g a = .ok b := by
  cases x with
  | error e => simp [Except.bind]
  | ok a => simp [Except.bind]

theorem bind_eq_ok {ε : Type*} {α β : Type u} {x : Except ε α} {g : α → Except ε β} {b : β} :
    x >>= g = .ok b ↔ ∃ a, x = .ok a ∧ g a = .ok b := except_bind_eq_ok

theorem nil_eq_ok : [].foldlM f s = .ok t ↔ s = t := by
  simp [pure, Except.pure]

theorem cons_eq_ok {a : α} :
    (a :: l).foldlM f s = .ok t ↔ ∃ u, f s a = .ok u ∧ l.foldlM f u = .ok t := by
  rw [List.foldlM_cons]
  exact except_bind_eq_ok

/-- An invariant that may speak of the elements still to come. -/
theorem rest (I : List α → σ → Prop)
    (step : ∀ a l s t, I (a :: l) s → f s a = .ok t → I l t)
    (start : I l s) (h : l.foldlM f s = .ok t) : I [] t := by
  induction l generalizing s with
  | nil => rwa [nil_eq_ok.mp h] at start
  | cons a l ih =>
      rcases cons_eq_ok.mp h with ⟨u, hstep, hrest⟩
      exact ih (step a l s u start hstep) hrest

/-- A loop that fails fails in one of its turns. -/
theorem fails (I : σ → Prop) {e : ε} (step : ∀ a ∈ l, ∀ s t, I s → f s a = .ok t → I t)
    (start : I s) (h : l.foldlM f s = .error e) : ∃ a ∈ l, ∃ u, I u ∧ f u a = .error e := by
  induction l generalizing s with
  | nil => cases h
  | cons a l ih =>
      rw [List.foldlM_cons] at h
      cases hstep : f s a with
      | error e' =>
          rw [hstep] at h
          cases h
          exact ⟨a, List.mem_cons_self, s, start, hstep⟩
      | ok u =>
          rw [hstep] at h
          rcases ih (fun b hb => step b (List.mem_cons_of_mem _ hb))
            (step a List.mem_cons_self s u start hstep) h with ⟨b, hb, w, hw, hfail⟩
          exact ⟨b, List.mem_cons_of_mem _ hb, w, hw, hfail⟩

end Folded
