import Mathlib.Data.List.Forall2

/-!
# Computations in pace

Two computations that carry a state and may fail keep pace when, from states
related by `S`, they fail with the same error or end in related states with
related results. The rules follow the shape of the computations: `pure`, `fail`,
`bind` and a step on its own; so do those for what a computation leaves as it was
(`Keeps`).
-/

namespace Paired

variable {σ ε α β γ δ : Type}

/-- A computation over a state that may fail. -/
abbrev Computation (σ ε α : Type) := StateT σ (Except ε) α

/-- A computation in steps ends well when each step does. -/
theorem run_bind_eq_ok {m : Computation σ ε α} {f : α → Computation σ ε γ} {s : σ} {r : γ × σ} :
    (m >>= f) s = .ok r ↔ ∃ a t, m s = .ok (a, t) ∧ f a t = .ok r := by
  change (m s).bind (fun p => f p.1 p.2) = .ok r ↔ _
  cases m s with
  | error e =>
      constructor
      · intro h
        cases h
      · rintro ⟨_, _, h, -⟩
        cases h
  | ok p =>
      constructor
      · exact fun h => ⟨p.1, p.2, rfl, h⟩
      · rintro ⟨a, t, h, hf⟩
        cases h
        exact hf

theorem run_bind_of_ok {m : Computation σ ε α} (f : α → Computation σ ε γ) {s t : σ} {a : α}
    (h : m s = .ok (a, t)) : (m >>= f) s = f a t := by
  change (m s).bind (fun p => f p.1 p.2) = f a t
  rw [h]
  rfl

/-- Both fail alike, or both end well and related. -/
inductive Outcomes (S : σ → σ → Prop) (R : α → β → Prop) :
    Except ε (α × σ) → Except ε (β × σ) → Prop
  | failed (e : ε) : Outcomes S R (.error e) (.error e)
  | ended {a : α} {b : β} {s t : σ} (result : R a b) (state : S s t) :
      Outcomes S R (.ok (a, s)) (.ok (b, t))

def InPace (S : σ → σ → Prop) (R : α → β → Prop) (m : Computation σ ε α)
    (n : Computation σ ε β) : Prop :=
  ∀ ⦃s t⦄, S s t → Outcomes S R (m s) (n t)

variable {S : σ → σ → Prop} {R : α → β → Prop} {Q : γ → δ → Prop}

theorem InPace.pure {a : α} {b : β} (h : R a b) :
    InPace S R (pure a : Computation σ ε α) (pure b) :=
  fun _ _ hs => .ended h hs

theorem InPace.fail (e : ε) :
    InPace S R (fun _ => .error e : Computation σ ε α) (fun _ => .error e) :=
  fun _ _ _ => .failed e

theorem InPace.bind {m : Computation σ ε α} {n : Computation σ ε β}
    {f : α → Computation σ ε γ} {g : β → Computation σ ε δ}
    (h : InPace S R m n) (hfg : ∀ a b, R a b → InPace S Q (f a) (g b)) :
    InPace S Q (m >>= f) (n >>= g) := by
  intro s t hst
  have hmn := h hst
  change Outcomes S Q ((m s).bind fun p => f p.1 p.2) ((n t).bind fun p => g p.1 p.2)
  cases hm : m s with
  | error e =>
      rw [hm] at hmn
      cases hn : n t with
      | error e' => rw [hn] at hmn; cases hmn; exact .failed e
      | ok _ => rw [hn] at hmn; cases hmn
  | ok p =>
      rw [hm] at hmn
      cases hn : n t with
      | error _ => rw [hn] at hmn; cases hmn
      | ok q =>
          rw [hn] at hmn
          cases hmn with
          | ended hR hS => exact hfg _ _ hR hS

theorem InPace.mono {R' : α → β → Prop} {m : Computation σ ε α} {n : Computation σ ε β}
    (h : InPace S R m n) (hR : ∀ a b, R a b → R' a b) : InPace S R' m n := by
  intro s t hst
  have hmn := h hst
  generalize m s = x at hmn ⊢
  generalize n t = y at hmn ⊢
  cases hmn with
  | failed e => exact .failed e
  | ended hr hs => exact .ended (hR _ _ hr) hs

/-- From a run of the first to one of the second. -/
theorem InPace.of_ok {m : Computation σ ε α} {n : Computation σ ε β} (h : InPace S R m n)
    {s t s' : σ} {a : α} (hst : S s t) (hm : m s = .ok (a, s')) :
    ∃ b t', n t = .ok (b, t') ∧ R a b ∧ S s' t' := by
  have hmn := h hst
  rw [hm] at hmn
  generalize hn : n t = out at hmn
  cases hmn with
  | ended hR hS => exact ⟨_, _, rfl, hR, hS⟩

/-! ## What is kept -/

/-- Where it ends well it leaves what `f` reads of the state. -/
def Keeps {τ : Type} (f : σ → τ) (m : Computation σ ε α) : Prop :=
  ∀ ⦃s a t⦄, m s = .ok (a, t) → f t = f s

section Keeps

variable {τ : Type} {f : σ → τ}

theorem Keeps.pure (a : α) : Keeps f (pure a : Computation σ ε α) := by
  intro s b t h
  cases h
  rfl

theorem Keeps.fail (e : ε) : Keeps f (fun _ => .error e : Computation σ ε α) := by
  intro s b t h
  cases h

theorem Keeps.bind {m : Computation σ ε α} {g : α → Computation σ ε γ} (hm : Keeps f m)
    (hg : ∀ a, Keeps f (g a)) : Keeps f (m >>= g) := by
  intro s b t h
  obtain ⟨a, u, hfirst, hsecond⟩ := run_bind_eq_ok.mp h
  exact (hg a hsecond).trans (hm hfirst)

theorem Keeps.ite {c : Prop} [Decidable c] {m n : Computation σ ε α} (hm : Keeps f m)
    (hn : Keeps f n) : Keeps f (if c then m else n) := by
  split
  · exact hm
  · exact hn

end Keeps

end Paired
