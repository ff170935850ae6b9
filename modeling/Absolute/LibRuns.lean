import Mathlib.Data.List.Basic

/-!
# Labelled runs and their invariants

Runs of a labelled transition system, recorded newest step first, and the one
induction everything about whole runs rests on: a property of the history and
the state that holds at the start and survives one step holds at the end of
every run.

A step may depend on what happened before, so the property relates the history
to the state (`Run.invariant`); the two common special cases are a property of
the state alone (`Run.stateInvariant`) and a property that needs every step of
the run to meet a side condition (`Run.invariantUnder`).
-/

namespace Absolute

namespace Runs

variable {σ α : Type*}

/-- `Run step s₀ past s`: the steps `past`, newest first, lead from `s₀` to
`s`. -/
inductive Run (step : σ → α → σ → Prop) (s₀ : σ) : List α → σ → Prop where
  | nil : Run step s₀ [] s₀
  | cons {past : List α} {s s' : σ} {a : α} :
      Run step s₀ past s → step s a s' → Run step s₀ (a :: past) s'

variable {step : σ → α → σ → Prop} {s₀ : σ}

/-- A property of history and state that holds initially and is kept by every
step holds at the end of every run. -/
theorem Run.invariant {P : List α → σ → Prop} (hinit : P [] s₀)
    (hstep : ∀ past s a s', Run step s₀ past s → P past s → step s a s' →
      P (a :: past) s')
    {past : List α} {s : σ} (h : Run step s₀ past s) : P past s := by
  induction h with
  | nil => exact hinit
  | cons hrun hs ih => exact hstep _ _ _ _ hrun ih hs

theorem Run.stateInvariant {I : σ → Prop} (hinit : I s₀)
    (hstep : ∀ s a s', I s → step s a s' → I s')
    {past : List α} {s : σ} (h : Run step s₀ past s) : I s :=
  h.invariant (P := fun _ s => I s) hinit (fun _ _ _ _ _ hi hs => hstep _ _ _ hi hs)

/-- The states of a sequence are at the end of runs. -/
theorem Run.of_sequence {states : ℕ → σ} {labels : ℕ → α} {k : ℕ} (hstart : states 0 = s₀)
    (hsteps : ∀ i < k, step (states i) (labels i) (states (i + 1))) :
    ∃ past, Run step s₀ past (states k) := by
  induction k with
  | zero => exact ⟨[], hstart ▸ .nil⟩
  | succ k ih =>
      obtain ⟨past, hpast⟩ := ih fun i hi => hsteps i (Nat.lt_succ_of_lt hi)
      exact ⟨labels k :: past, hpast.cons (hsteps k (Nat.lt_succ_self k))⟩

/-- The steps of `past` all meet `C`, a condition on the state a step is taken
in and the step itself. -/
inductive RunUnder (step : σ → α → σ → Prop) (C : σ → α → Prop) (s₀ : σ) :
    List α → σ → Prop where
  | nil : RunUnder step C s₀ [] s₀
  | cons {past : List α} {s s' : σ} {a : α} :
      RunUnder step C s₀ past s → C s a → step s a s' →
      RunUnder step C s₀ (a :: past) s'

theorem RunUnder.run {C : σ → α → Prop} {past : List α} {s : σ}
    (h : RunUnder step C s₀ past s) : Run step s₀ past s := by
  induction h with
  | nil => exact .nil
  | cons _ _ hs ih => exact ih.cons hs

theorem RunUnder.invariant {C : σ → α → Prop} {P : List α → σ → Prop}
    (hinit : P [] s₀)
    (hstep : ∀ past s a s', RunUnder step C s₀ past s → P past s → C s a →
      step s a s' → P (a :: past) s')
    {past : List α} {s : σ} (h : RunUnder step C s₀ past s) : P past s := by
  induction h with
  | nil => exact hinit
  | cons hrun hc hs ih => exact hstep _ _ _ _ hrun ih hc hs

end Runs

end Absolute
