import Mathlib.Tactic.Common

/-!
# Loops

What one turn of a loop does is a function: it goes on with another state, or the loop is over
(`Turn`). A loop `Ends` with a result if some number of turns gets there. It ends where a measure
goes down with every turn (`Ends.of_measure`), and never does where no turn of it is the last
(`not_ends`).
-/

namespace While

variable {σ ρ : Type*}

/-- What a turn does. -/
inductive Turn (σ ρ : Type*) where
  | next (s : σ)
  | done (result : ρ)

variable (turn : σ → Turn σ ρ)

/-- The result, if it is there after so many turns. -/
def run : ℕ → σ → Option ρ
  | 0, _ => none
  | n + 1, s =>
      match turn s with
      | .next s' => run n s'
      | .done result => some result

def Ends (s : σ) (result : ρ) : Prop := ∃ n, run turn n s = some result

variable {turn} {s s' : σ} {r r' : ρ}

theorem run_next (h : turn s = .next s') (n : ℕ) : run turn (n + 1) s = run turn n s' := by
  rw [run, h]

theorem run_done (h : turn s = .done r) (n : ℕ) : run turn (n + 1) s = some r := by
  rw [run, h]

theorem Ends.done (h : turn s = .done r) : Ends turn s r := ⟨1, run_done h 0⟩

theorem Ends.next (h : turn s = .next s') (hs' : Ends turn s' r) : Ends turn s r := by
  obtain ⟨n, hn⟩ := hs'
  exact ⟨n + 1, (run_next h n).trans hn⟩

theorem run_unique {n m : ℕ} (hn : run turn n s = some r) (hm : run turn m s = some r') :
    r = r' := by
  induction n generalizing m s with
  | zero => cases hn
  | succ n ih =>
      cases m with
      | zero => cases hm
      | succ m =>
          cases h : turn s with
          | next s' =>
              rw [run_next h] at hn hm
              exact ih hn hm
          | done result =>
              rw [run_done h] at hn hm
              exact Option.some.inj (hn.symm.trans hm)

theorem Ends.unique (h : Ends turn s r) (h' : Ends turn s r') : r = r' := by
  obtain ⟨n, hn⟩ := h
  obtain ⟨m, hm⟩ := h'
  exact run_unique hn hm

/-- An invariant that each turn keeps, or gives the result its property, and a measure that goes
down. -/
theorem Ends.of_measure {inv : σ → Prop} {post : ρ → Prop} (measure : σ → ℕ)
    (hnext : ∀ s s', inv s → turn s = .next s' → inv s' ∧ measure s' < measure s)
    (hdone : ∀ s r, inv s → turn s = .done r → post r) (hs : inv s) :
    ∃ r, Ends turn s r ∧ post r := by
  induction hn : measure s using Nat.strongRecOn generalizing s with
  | ind n ih =>
      cases h : turn s with
      | next s' =>
          obtain ⟨hs', hlt⟩ := hnext s s' hs h
          obtain ⟨r, hr, hpost⟩ := ih _ (hn ▸ hlt) hs' rfl
          exact ⟨r, hr.next h, hpost⟩
      | done r => exact ⟨r, .done h, hdone s r hs h⟩

/-- A loop of which every turn is followed by another. -/
theorem not_ends (inv : σ → Prop) (hnext : ∀ s, inv s → ∃ s', turn s = .next s' ∧ inv s')
    (hs : inv s) (r : ρ) : ¬Ends turn s r := by
  rintro ⟨n, hn⟩
  induction n generalizing s with
  | zero => cases hn
  | succ n ih =>
      obtain ⟨s', h, hs'⟩ := hnext s hs
      exact ih hs' ((run_next h n).symm.trans hn)

end While
