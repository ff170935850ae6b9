import Mathlib.Order.Basic
import Mathlib.Tactic.Common

/-!
# Computations that raise and keep the state

Rules for `EStateM` where a raise keeps what was written before it. A computation
that only adds to its state raises with the state it was given only if it has added
nothing before (`untouched_bind`).
-/

namespace Raising

universe u

variable {ε σ α β : Type u}

abbrev state : EStateM.Result ε σ α → σ
  | .ok _ s => s
  | .error _ s => s

variable {x : EStateM ε σ α} {f : α → EStateM ε σ β} {s t : σ} {a : α} {b : β} {e : ε}

theorem bind_eq_ok :
    (x >>= f) s = .ok b t ↔ ∃ a u, x s = .ok a u ∧ f a u = .ok b t := by
  change EStateM.bind x f s = _ ↔ _
  unfold EStateM.bind
  cases x s <;> simp

theorem bind_eq_error :
    (x >>= f) s = .error e t ↔
      x s = .error e t ∨ ∃ a u, x s = .ok a u ∧ f a u = .error e t := by
  change EStateM.bind x f s = _ ↔ _
  unfold EStateM.bind
  cases x s <;> simp

theorem bind_of_ok (h : x s = .ok a t) : (x >>= f) s = f a t := by
  change EStateM.bind x f s = _
  unfold EStateM.bind
  rw [h]

/-- A check, and a write where it passes. -/
def guarded (fault : σ → Option ε) (write : σ → σ) : EStateM ε σ PUnit := fun s =>
  match fault s with
  | some e => .error e s
  | none => .ok ⟨⟩ (write s)

/-- It raises with the state it was given. -/
def Untouched (x : EStateM ε σ α) (s : σ) : Prop := ∃ e, x s = .error e s

/-- A computation on a part of the state. -/
def onPart {ρ : Type u} (part : σ → ρ) (put : ρ → σ → σ) (x : EStateM ε ρ α) : EStateM ε σ α :=
  fun s =>
    match x (part s) with
    | .ok a r => .ok a (put r s)
    | .error e r => .error e (put r s)

section Growing

variable [PartialOrder σ]

def Grows (x : EStateM ε σ α) : Prop := ∀ s, s ≤ state (x s)

def GrowsToError (x : EStateM ε σ α) : Prop := ∀ s e t, x s = .error e t → s ≤ t

theorem Grows.toError (h : Grows x) : GrowsToError x := by
  intro s e t hx
  have hle := h s
  rwa [hx] at hle

theorem Grows.pure (a : α) : Grows (pure a : EStateM ε σ α) := fun _ => le_rfl

theorem Grows.raise (e : ε) : Grows (throw e : EStateM ε σ α) := fun _ => le_rfl

theorem Grows.guarded {fault : σ → Option ε} {write : σ → σ}
    (h : ∀ s, fault s = none → s ≤ write s) : Grows (guarded fault write) := by
  intro s
  unfold Raising.guarded
  split
  · exact le_rfl
  · rename_i hfault
    exact h s hfault

theorem Grows.bind (hx : Grows x) (hf : ∀ a, Grows (f a)) : Grows (x >>= f) := by
  intro s
  cases hresult : (x >>= f) s with
  | ok b t =>
      rcases Iff.mp bind_eq_ok hresult with ⟨a, u, hxs, hfu⟩
      have hu := hx s
      have ht := hf a u
      rw [hxs] at hu
      rw [hfu] at ht
      exact le_trans hu ht
  | error e t =>
      rcases Iff.mp bind_eq_error hresult with hxs | ⟨a, u, hxs, hfu⟩
      · have hu := hx s
        rwa [hxs] at hu
      · have hu := hx s
        have ht := hf a u
        rw [hxs] at hu
        rw [hfu] at ht
        exact le_trans hu ht

theorem GrowsToError.bind (hx : Grows x) (hf : ∀ a, GrowsToError (f a)) :
    GrowsToError (x >>= f) := by
  intro s e t hresult
  rcases Iff.mp bind_eq_error hresult with hxs | ⟨a, u, hxs, hfu⟩
  · exact hx.toError s e t hxs
  · have hu := hx s
    rw [hxs] at hu
    exact le_trans hu (hf a u e t hfu)

theorem Grows.forM {l : List α} {g : α → EStateM ε σ PUnit} (h : ∀ a ∈ l, Grows (g a)) :
    Grows (l.forM g) := by
  induction l with
  | nil => exact .pure _
  | cons a l ih =>
      exact (h a List.mem_cons_self).bind fun _ => ih fun b hb => h b (List.mem_cons_of_mem _ hb)

/-- What is raised with nothing added is raised by the first part, or by the second
after a first part that adds nothing. -/
theorem untouched_bind (hx : Grows x) (hf : ∀ a, GrowsToError (f a)) :
    Untouched (x >>= f) s ↔ Untouched x s ∨ ∃ a, x s = .ok a s ∧ Untouched (f a) s := by
  constructor
  · rintro ⟨e, hresult⟩
    rcases Iff.mp bind_eq_error hresult with hxs | ⟨a, u, hxs, hfu⟩
    · exact .inl ⟨e, hxs⟩
    · have hle := hx s
      rw [hxs] at hle
      have hus : u = s := le_antisymm (hf a u e s hfu) hle
      rw [hus] at hxs hfu
      exact .inr ⟨a, hxs, e, hfu⟩
  · rintro (⟨e, hxs⟩ | ⟨a, hxs, e, hfs⟩)
    · exact ⟨e, Iff.mpr bind_eq_error (.inl hxs)⟩
    · exact ⟨e, Iff.mpr bind_eq_error (.inr ⟨a, s, hxs, hfs⟩)⟩

theorem untouched_seq {x : EStateM ε σ PUnit} {y : EStateM ε σ β} (hx : Grows x)
    (hy : GrowsToError y) :
    Untouched (x >>= fun _ => y) s ↔ Untouched x s ∨ x s = .ok ⟨⟩ s ∧ Untouched y s := by
  rw [untouched_bind hx fun _ => hy]
  constructor
  · rintro (h | ⟨⟨⟩, hxs, hys⟩)
    · exact .inl h
    · exact .inr ⟨hxs, hys⟩
  · rintro (h | ⟨hxs, hys⟩)
    · exact .inl h
    · exact .inr ⟨⟨⟩, hxs, hys⟩

theorem idle_seq {x : EStateM ε σ PUnit} {y : EStateM ε σ β} (hx : Grows x) (hy : Grows y) :
    (x >>= fun _ => y) s = .ok b s ↔ x s = .ok ⟨⟩ s ∧ y s = .ok b s := by
  constructor
  · intro hresult
    rcases Iff.mp bind_eq_ok hresult with ⟨⟨⟩, u, hxs, hyu⟩
    have hsu := hx s
    have hus := hy u
    rw [hxs] at hsu
    rw [hyu] at hus
    have heq : u = s := le_antisymm hus hsu
    rw [heq] at hxs hyu
    exact ⟨hxs, hyu⟩
  · rintro ⟨hxs, hys⟩
    exact Iff.mpr bind_eq_ok ⟨⟨⟩, s, hxs, hys⟩

end Growing

theorem GrowsToError.modify [PartialOrder σ] (write : σ → σ) :
    GrowsToError (modify write : EStateM ε σ PUnit) := fun _ _ _ h => by cases h

theorem not_untouched_modify (write : σ → σ) :
    ¬Untouched (modify write : EStateM ε σ PUnit) s := by
  rintro ⟨e, he⟩
  cases he

/-- A write at the end is never raised from. -/
theorem bind_modify_eq_error {x : EStateM ε σ PUnit} {write : σ → σ} :
    (x >>= fun _ => modify write) s = .error e t ↔ x s = .error e t := by
  rw [bind_eq_error]
  refine or_iff_left ?_
  rintro ⟨a, u, -, hu⟩
  cases hu

theorem not_untouched_pure : ¬Untouched (pure a : EStateM ε σ α) s := by
  rintro ⟨e, he⟩
  cases he

theorem untouched_guarded {fault : σ → Option ε} {write : σ → σ} :
    Untouched (guarded fault write) s ↔ fault s ≠ none := by
  unfold Untouched guarded
  cases fault s <;> simp

theorem guarded_idle {fault : σ → Option ε} {write : σ → σ} :
    guarded fault write s = .ok ⟨⟩ s ↔ fault s = none ∧ write s = s := by
  unfold guarded
  cases fault s <;> simp

/-! ## Results -/

/-- What holds of a result, and of what is raised. -/
def Results (x : EStateM ε σ α) (s : σ) (Q : α → σ → Prop) (E : ε → σ → Prop) : Prop :=
  match x s with
  | .ok a t => Q a t
  | .error e t => E e t

variable {Q Q' : α → σ → Prop} {E E' : ε → σ → Prop} {R : β → σ → Prop}

theorem Results.of_ok (h : Results x s Q E) (hx : x s = .ok a t) : Q a t := by
  unfold Results at h
  rwa [hx] at h

theorem Results.of_error (h : Results x s Q E) (hx : x s = .error e t) : E e t := by
  unfold Results at h
  rwa [hx] at h

theorem Results.ok (hx : x s = .ok a t) (h : Q a t) : Results x s Q E := by
  unfold Results
  rwa [hx]

theorem Results.error (hx : x s = .error e t) (h : E e t) : Results x s Q E := by
  unfold Results
  rwa [hx]

theorem Results.exists_ok (h : Results x s Q E) (hno : ∀ e t, ¬E e t) :
    ∃ a t, x s = .ok a t ∧ Q a t := by
  cases hx : x s with
  | ok a t => exact ⟨a, t, rfl, h.of_ok hx⟩
  | error e t => exact absurd (h.of_error hx) (hno e t)

theorem Results.mono (h : Results x s Q E) (hQ : ∀ a t, Q a t → Q' a t)
    (hE : ∀ e t, E e t → E' e t) : Results x s Q' E' := by
  unfold Results at *
  cases hx : x s with
  | ok a t =>
      rw [hx] at h
      exact hQ a t h
  | error e t =>
      rw [hx] at h
      exact hE e t h

/-- What holds of every result holds of the state that is left. -/
theorem Results.state {P : σ → Prop} (h : Results x s (fun _ t => P t) fun _ t => P t) :
    P (state (x s)) := by
  unfold Results at h
  cases hx : x s with
  | ok a t =>
      rw [hx] at h
      exact h
  | error e t =>
      rw [hx] at h
      exact h

/-- The second part starts where the first one ended. -/
theorem Results.bind_ok (hx : Results x s Q E)
    (hf : ∀ a t, x s = .ok a t → Q a t → Results (f a) t R E) : Results (x >>= f) s R E := by
  cases hresult : (x >>= f) s with
  | ok b t =>
      rcases Iff.mp bind_eq_ok hresult with ⟨a, u, hxs, hfu⟩
      unfold Results
      rw [hresult]
      exact (hf a u hxs (hx.of_ok hxs)).of_ok hfu
  | error e t =>
      unfold Results
      rw [hresult]
      rcases Iff.mp bind_eq_error hresult with hxs | ⟨a, u, hxs, hfu⟩
      · exact hx.of_error hxs
      · exact (hf a u hxs (hx.of_ok hxs)).of_error hfu

theorem Results.after {Q : β → σ → Prop} (hx : x s = .ok a t) (h : Results (f a) t Q E) :
    Results (x >>= f) s Q E := by
  unfold Results
  rwa [bind_of_ok hx]

theorem Results.bind (hx : Results x s Q E) (hf : ∀ a t, Q a t → Results (f a) t R E) :
    Results (x >>= f) s R E :=
  hx.bind_ok fun a t _ => hf a t

theorem forM_append_of_ok {l l' : List α} {g : α → EStateM ε σ PUnit} (h : l.forM g s = .ok ⟨⟩ t) :
    (l ++ l').forM g s = l'.forM g t := by
  induction l generalizing s with
  | nil =>
      cases h
      rfl
  | cons a l ih =>
      rcases Iff.mp bind_eq_ok h with ⟨⟨⟩, u, ha, hl⟩
      exact (bind_of_ok (f := fun _ => (l ++ l').forM g) ha).trans (ih hl)

/-- Every element's turn does its `D`, which later turns keep. -/
theorem Results.forM {l : List α} {g : α → EStateM ε σ PUnit} {I : σ → Prop}
    {D : α → σ → Prop}
    (hstep : ∀ done a rest, l = done ++ a :: rest → ∀ t, done.forM g s = .ok ⟨⟩ t → I t →
      Results (g a) t (fun _ u => I u ∧ D a u ∧ ∀ b ∈ l, D b t → D b u) E)
    (hs : I s) : Results (l.forM g) s (fun _ t => I t ∧ ∀ a ∈ l, D a t) E := by
  suffices h : ∀ done rest, l = done ++ rest → ∀ t, done.forM g s = .ok ⟨⟩ t → I t →
      (∀ a ∈ done, D a t) → Results (rest.forM g) t (fun _ u => I u ∧ ∀ a ∈ l, D a u) E from
    h [] l rfl s rfl hs fun _ h => by cases h
  intro done rest hl t hdone ht hall
  induction rest generalizing done t with
  | nil =>
      rw [List.append_nil] at hl
      exact ⟨ht, hl ▸ hall⟩
  | cons a rest ih =>
      refine Results.bind_ok (x := g a) (f := fun _ => rest.forM g)
        (hstep done a rest hl t hdone ht) ?_
      rintro ⟨⟩ u hturn ⟨hu, ha, hkeep⟩
      refine ih (done ++ [a]) (by rw [hl, List.append_assoc]; rfl) u ?_ hu fun b hb => ?_
      · rw [forM_append_of_ok hdone]
        exact Iff.mpr bind_eq_ok ⟨⟨⟩, u, hturn, rfl⟩
      · rcases List.mem_append.mp hb with hb | hb
        · exact hkeep b (hl ▸ List.mem_append_left _ hb) (hall b hb)
        · exact List.mem_singleton.mp hb ▸ ha

/-! ## One computation seen through another -/

section Lifting

variable {τ : Type u} {lift : σ → τ}

/-- What `x` does to a state, `y` does to its image. -/
def Lifts (lift : σ → τ) (x : EStateM ε σ α) (y : EStateM ε τ α) : Prop :=
  ∀ s, y (lift s) = match x s with
    | .ok a t => .ok a (lift t)
    | .error e t => .error e (lift t)

theorem Lifts.pure (a : α) : Lifts lift (pure a : EStateM ε σ α) (Pure.pure a) := fun _ => rfl

theorem Lifts.throw (e : ε) :
    Lifts lift (throw e : EStateM ε σ α) (MonadExcept.throw e) := fun _ => rfl

theorem Lifts.bind {y : EStateM ε τ α} {g : α → EStateM ε τ β} (hx : Lifts lift x y)
    (hf : ∀ a, Lifts lift (f a) (g a)) : Lifts lift (x >>= f) (y >>= g) := by
  intro s
  change EStateM.bind y g (lift s) = match EStateM.bind x f s with
    | .ok a t => .ok a (lift t)
    | .error e t => .error e (lift t)
  unfold EStateM.bind
  rw [hx s]
  cases x s with
  | ok a t => exact hf a t
  | error e t => rfl

/-- What holds of the image's results holds of the results' images. -/
theorem Lifts.results {y : EStateM ε τ α} (h : Lifts lift x y) {Q : α → τ → Prop}
    {E : ε → τ → Prop} (hy : Results y (lift s) Q E) :
    Results x s (fun a t => Q a (lift t)) (fun e t => E e (lift t)) := by
  unfold Results at *
  rw [h s] at hy
  cases hx : x s with
  | ok a t => rwa [hx] at hy
  | error e t => rwa [hx] at hy

end Lifting

/-! ## What is kept -/

/-- It keeps what holds of the state, also where it raises. -/
def Keeps (I : σ → Prop) (x : EStateM ε σ α) : Prop := ∀ s, I s → I (state (x s))

variable {I : σ → Prop}

/-- What holds after the first part holds after both. -/
theorem Keeps.after (hf : ∀ a, Keeps I (f a)) (h : I (state (x s))) : I (state ((x >>= f) s)) := by
  change I (state (EStateM.bind x f s))
  unfold EStateM.bind
  cases hx : x s with
  | ok a t =>
      rw [hx] at h
      exact hf a t h
  | error e t =>
      rw [hx] at h
      exact h

theorem Keeps.bind (hx : Keeps I x) (hf : ∀ a, Keeps I (f a)) : Keeps I (x >>= f) :=
  fun s hs => Keeps.after hf (hx s hs)

theorem Keeps.forM {l : List α} {g : α → EStateM ε σ PUnit} (h : ∀ a ∈ l, Keeps I (g a)) :
    Keeps I (l.forM g) := by
  induction l with
  | nil => exact fun _ hs => hs
  | cons a l ih =>
      exact (h a List.mem_cons_self).bind fun _ => ih fun b hb => h b (List.mem_cons_of_mem _ hb)

/-- What holds after the turn of one element holds at the end. -/
theorem Keeps.forM_after {done rest : List α} {a : α} {g : α → EStateM ε σ PUnit}
    (hdone : done.forM g s = .ok ⟨⟩ t) (h : ∀ b ∈ rest, Keeps I (g b)) (ha : I (state (g a t))) :
    I (state ((done ++ a :: rest).forM g s)) := by
  rw [forM_append_of_ok hdone]
  exact Keeps.after (x := g a) (fun _ => Keeps.forM h) ha

theorem Keeps.guarded {fault : σ → Option ε} : Keeps I (guarded fault id) := by
  intro s hs
  unfold Raising.guarded
  split <;> exact hs

theorem Keeps.of_results (h : ∀ s, I s → Results x s (fun _ t => I t) fun _ t => I t) :
    Keeps I x := fun s hs => (h s hs).state

/-! ## Computations that see a part of the state -/

/-- Two outcomes with one answer, in related states. -/
def Alike (R : σ → σ → Prop) : EStateM.Result ε σ α → EStateM.Result ε σ α → Prop
  | .ok a t, .ok a' t' => a = a' ∧ R t t'
  | .error e t, .error e' t' => e = e' ∧ R t t'
  | _, _ => False

/-- It does not tell related states apart. -/
def Respects (R : σ → σ → Prop) (x : EStateM ε σ α) : Prop := ∀ s s', R s s' → Alike R (x s) (x s')

variable {r : σ → σ → Prop}

theorem Respects.pure (a : α) : Respects r (pure a : EStateM ε σ α) := fun _ _ h => ⟨rfl, h⟩

theorem Alike.bind (hx : Alike r (x s) (x t)) (hf : ∀ a, Respects r (f a)) :
    Alike r ((x >>= f) s) ((x >>= f) t) := by
  change Alike r (EStateM.bind x f s) (EStateM.bind x f t)
  unfold EStateM.bind
  cases hs : x s <;> cases ht : x t <;> rw [hs, ht] at hx
  · obtain ⟨rfl, hstate⟩ := hx
    exact hf _ _ _ hstate
  · exact False.elim hx
  · exact False.elim hx
  · exact hx

theorem Respects.bind (hx : Respects r x) (hf : ∀ a, Respects r (f a)) : Respects r (x >>= f) :=
  fun s t h => (hx s t h).bind hf

/-- What is got from the state is the same in related states. -/
theorem Respects.get_bind {f : σ → EStateM ε σ β} (hsame : ∀ s s', r s s' → f s = f s')
    (hf : ∀ a, Respects r (f a)) : Respects r (MonadState.get >>= f) := by
  intro s s' h
  have hfs := hf s s s' h
  rw [show (MonadState.get >>= f) s = f s s from rfl,
    show (MonadState.get >>= f) s' = f s' s' from rfl, ← hsame s s' h]
  exact hfs

theorem Respects.guarded {fault : σ → Option ε} {write : σ → σ}
    (hfault : ∀ s s', r s s' → fault s = fault s') (hwrite : ∀ s s', r s s' → r (write s) (write s')) :
    Respects r (guarded fault write) := by
  intro s s' h
  unfold Raising.guarded
  rw [← hfault s s' h]
  cases fault s with
  | none => exact ⟨rfl, hwrite s s' h⟩
  | some e => exact ⟨rfl, h⟩

/-- Its states follow each other as related. -/
def Moves (R : σ → σ → Prop) (x : EStateM ε σ α) : Prop := ∀ s, R s (state (x s))

theorem Moves.after (htrans : ∀ s t u, r s t → r t u → r s u) (hx : r s (state (x s)))
    (hf : ∀ a, Moves r (f a)) : r s (state ((x >>= f) s)) := by
  cases hs : x s with
  | ok a t =>
      rw [hs] at hx
      rw [bind_of_ok hs]
      exact htrans _ _ _ hx (hf a t)
  | error e t =>
      have herror : (x >>= f) s = .error e t := Iff.mpr bind_eq_error (.inl hs)
      rw [hs] at hx
      rwa [herror]

theorem Moves.bind (htrans : ∀ s t u, r s t → r t u → r s u) (hx : Moves r x)
    (hf : ∀ a, Moves r (f a)) : Moves r (x >>= f) := fun s => Moves.after htrans (hx s) hf

theorem Moves.guarded {fault : σ → Option ε} {write : σ → σ} (hrefl : ∀ s, r s s)
    (hwrite : ∀ s, r s (write s)) : Moves r (guarded fault write) := by
  intro s
  unfold Raising.guarded
  cases fault s with
  | none => exact hwrite s
  | some e => exact hrefl s

end Raising
