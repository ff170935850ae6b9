import Absolute.LibRuns
import Absolute.LibWaiting

/-!
# Running an initializer once

`Once.call` over `absolute_once_begin`, `absolute_once_complete` and
`absolute_once_reset`. A step is one critical section of the mutex, the end of an
initializer, or a wake-up that arrives; wake-ups are on the way from the critical
section that owes them, as with the reader/writer lock.

The initializer counts as running from the call of `begin` that claims the object to
the `complete` or `reset` that follows it, as the state 1 of the source does.
-/

namespace Absolute

namespace Once

open Function Runs Waiting

/-- The values 0, 1 and 2 of `state`. -/
inductive Phase where
  | idle
  | running
  | complete
deriving DecidableEq, Repr

/-- How far the initializer of a call has come. -/
inductive Stage where
  | none
  | running
  /-- returned, `complete` not yet called -/
  | returned
  /-- thrown, `reset` not yet called -/
  | thrown
deriving DecidableEq, Repr

structure State (τ : Type) where
  state : Phase := .idle
  waiters : List τ := []
  place : τ → Place Unit := fun _ => .outside
  stage : τ → Stage := fun _ => .none
  notifications : ℕ := 0

inductive Event (τ : Type) where
  | call (t : τ)
  /-- a woken caller takes the mutex and tests again -/
  | test (t : τ)
  | initializerReturns (t : τ)
  | initializerThrows (t : τ)
  | complete (t : τ)
  | reset (t : τ)
  | resume (t : τ)
  | notify
  | wake (t : τ)
deriving DecidableEq

variable {τ : Type}

section Model

variable [DecidableEq τ]

namespace State

/-- A turn of the loop of `absolute_once_begin`. -/
def begin (isTask : τ → Bool) (s : State τ) (t : τ) : State τ :=
  match s.state with
  | .complete => { s with place := update s.place t .outside }
  | .idle => { s with
      state := .running
      place := update s.place t .outside
      stage := update s.stage t .running }
  | .running =>
      if isTask t then
        { s with waiters := s.waiters ++ [t], place := update s.place t (.inside () .parked) }
      else { s with place := update s.place t (.inside () .blocked) }

/-- `absolute_once_complete` and `absolute_once_reset` by the caller `t`. -/
def leave (s : State τ) (t : τ) (next : Phase) : State τ :=
  if s.state ≠ .running then { s with stage := update s.stage t .none }
  else { s with
    state := next
    waiters := []
    place := handAll () s.waiters s.place
    stage := update s.stage t .none
    notifications := s.notifications + 1 }

/-- A call comes from outside any, or from the caller's own initializer. -/
def apply (isTask : τ → Bool) (s : State τ) : Event τ → Option (State τ)
  | .call t =>
      if s.place t = .outside ∧ (s.stage t = .none ∨ s.stage t = .running) then
        some (s.begin isTask t)
      else none
  | .test t => if s.place t = .inside () .ready then some (s.begin isTask t) else none
  | .initializerReturns t =>
      if s.place t = .outside ∧ s.stage t = .running then
        some { s with stage := update s.stage t .returned }
      else none
  | .initializerThrows t =>
      if s.place t = .outside ∧ s.stage t = .running then
        some { s with stage := update s.stage t .thrown }
      else none
  | .complete t => if s.stage t = .returned then some (s.leave t .complete) else none
  | .reset t => if s.stage t = .thrown then some (s.leave t .idle) else none
  | .resume t =>
      if s.place t = .inside () .handed then
        some { s with place := update s.place t (.inside () .ready) }
      else none
  | .notify =>
      if 0 < s.notifications then
        some { s with notifications := s.notifications - 1
                      place := awaken (fun _ => true) s.place }
      else none
  | .wake t =>
      if s.place t = .inside () .blocked then
        some { s with place := update s.place t (.inside () .ready) }
      else none

end State

def Step (isTask : τ → Bool) (s : State τ) (e : Event τ) (s' : State τ) : Prop :=
  s.apply isTask e = some s'

end Model

variable {isTask : τ → Bool} {s s' : State τ} {past : List (Event τ)}

/-! ## What is promised -/

/-- The step lets an initializer start. -/
def Starts (s : State τ) (e : Event τ) : Prop :=
  s.state = .idle ∧ ∃ t, e = .call t ∨ e = .test t

/-- The step ends a call normally. -/
def Returns (s : State τ) (e : Event τ) : Prop :=
  (s.state = .complete ∧ ∃ t, e = .call t ∨ e = .test t) ∨ ∃ t, e = .complete t

def SomeReturned (past : List (Event τ)) : Prop := ∃ t, .initializerReturns t ∈ past

/-- A caller that waited has been woken, or its wake-up is on the way. -/
def Woken (s : State τ) (t : τ) : Prop :=
  s.place t = .inside () .ready ∨ s.place t = .inside () .handed
    ∨ s.place t = .inside () .blocked ∧ 0 < s.notifications

/-! ## The invariant -/

structure Inv (past : List (Event τ)) (s : State τ) : Prop where
  claimed : s.state = .running ↔ ∃ t, s.stage t ≠ .none
  single : ∀ t u, s.stage t ≠ .none → s.stage u ≠ .none → t = u
  returned : SomeReturned past ↔ s.state = .complete ∨ ∃ t, s.stage t = .returned
  queue : Queued s.place () s.waiters
  drained : s.state ≠ .running → s.waiters = []
  notified : s.state ≠ .running → ∀ t, s.place t = .inside () .blocked → 0 < s.notifications

theorem Inv.initial : Inv [] ({} : State τ) where
  claimed := ⟨fun h => (by cases h), fun ⟨_, h⟩ => absurd rfl h⟩
  single _ _ h := absurd rfl h
  returned := by
    refine iff_of_false (fun ⟨_, h⟩ => by cases h) ?_
    rintro (h | ⟨_, h⟩) <;> cases h
  queue := .nil fun _ => rfl
  drained _ := rfl
  notified _ _ h := by cases h

theorem someReturned_cons {e : Event τ} (he : ∀ t, e ≠ .initializerReturns t) :
    SomeReturned (e :: past) ↔ SomeReturned past := by
  constructor
  · rintro ⟨t, ht⟩
    rcases List.mem_cons.mp ht with heq | ht
    · exact absurd heq.symm (he t)
    · exact ⟨t, ht⟩
  · rintro ⟨t, ht⟩
    exact ⟨t, List.mem_cons_of_mem _ ht⟩

theorem Inv.none_claimed (h : Inv past s) (hs : s.state ≠ .running) (t : τ) :
    s.stage t = .none := by
  by_contra hne
  exact hs (h.claimed.mpr ⟨t, hne⟩)

theorem Inv.not_starts (h : Inv past s) (hreturned : SomeReturned past) {e : Event τ} :
    ¬Starts s e := by
  rintro ⟨hidle, -⟩
  rcases h.returned.mp hreturned with hc | ⟨t, ht⟩
  · rw [hidle] at hc
    cases hc
  · have hrunning := h.claimed.mpr ⟨t, by rw [ht]; decide⟩
    rw [hidle] at hrunning
    cases hrunning

theorem Inv.woken (h : Inv past s) (hs : s.state ≠ .running) {t : τ} {spot : Spot}
    (ht : s.place t = .inside () spot) : Woken s t := by
  cases spot with
  | ready => exact .inl ht
  | handed => exact .inr (.inl ht)
  | blocked => exact .inr (.inr ⟨ht, h.notified hs t ht⟩)
  | parked =>
      have hmem := (h.queue.parked t).mpr ht
      rw [h.drained hs] at hmem
      cases hmem

theorem Inv.notify (h : Inv past s) :
    Inv (.notify :: past) { s with notifications := s.notifications - 1
                                   place := awaken (fun _ => true) s.place } := by
  refine ⟨h.claimed, h.single, (someReturned_cons fun _ heq => by cases heq).trans h.returned,
    h.queue.awaken, h.drained, fun _ u hu => ?_⟩
  dsimp only at hu
  by_cases hblocked : s.place u = .inside () .blocked
  · rw [awaken_of_blocked hblocked rfl] at hu
    cases hu
  · rw [awaken_of_ne fun _ => hblocked] at hu
    exact absurd hu hblocked

variable [DecidableEq τ]

/-- A turn of `begin` by a caller that is in no queue. -/
theorem Inv.begin (h : Inv past s) {e : Event τ} (he : ∀ t, e ≠ .initializerReturns t) {t : τ}
    (ht : s.place t = .outside ∨ s.place t = .inside () .ready) :
    Inv (e :: past) (s.begin isTask t) := by
  have hparked : s.place t ≠ .inside () .parked := by
    rcases ht with ht | ht <;> rw [ht] <;> simp
  unfold State.begin
  split <;> rename_i hs
  · have hne : s.state ≠ .running := by rw [hs]; decide
    refine ⟨h.claimed, h.single, (someReturned_cons he).trans h.returned,
      h.queue.move hparked (by simp), h.drained, fun _ u hu => ?_⟩
    by_cases hut : u = t
    · dsimp only at hu
      rw [hut, update_self] at hu
      cases hu
    · dsimp only at hu
      rw [update_of_ne hut] at hu
      exact h.notified hne u hu
  · have hne : s.state ≠ .running := by rw [hs]; decide
    have honly : ∀ u, update s.stage t .running u ≠ .none → u = t := by
      intro u hu
      by_contra hut
      rw [update_of_ne hut] at hu
      exact hu (h.none_claimed hne u)
    have hself : update s.stage t .running t ≠ .none := by
      rw [update_self]
      decide
    refine ⟨⟨fun _ => ⟨t, hself⟩, fun _ => rfl⟩,
      fun u v hu hv => by rw [honly u hu, honly v hv], ?_,
      h.queue.move hparked (by simp), fun hrun => absurd rfl hrun, fun hrun => absurd rfl hrun⟩
    rw [someReturned_cons he, h.returned, hs]
    refine iff_of_false ?_ ?_
    · rintro (hc | ⟨u, hu⟩)
      · cases hc
      · rw [h.none_claimed hne u] at hu
        cases hu
    · rintro (hc | ⟨u, hu⟩)
      · cases hc
      · dsimp only at hu
        by_cases hut : u = t
        · rw [hut, update_self] at hu
          cases hu
        · rw [update_of_ne hut, h.none_claimed hne u] at hu
          cases hu
  · split
    · exact ⟨h.claimed, h.single, (someReturned_cons he).trans h.returned,
        h.queue.park hparked, fun hrun => absurd hs hrun, fun hrun => absurd hs hrun⟩
    · exact ⟨h.claimed, h.single, (someReturned_cons he).trans h.returned,
        h.queue.move hparked (by simp), fun hrun => absurd hs hrun, fun hrun => absurd hs hrun⟩

/-- The initializer of `t` ends one way or the other. -/
theorem Inv.ends (h : Inv past s) {t : τ} (ht : s.stage t = .running) {e : Event τ} {x : Stage}
    (hx : x ≠ .none)
    (he : SomeReturned (e :: past) ↔ SomeReturned past ∨ x = .returned) :
    Inv (e :: past) { s with stage := update s.stage t x } := by
  have hne : s.stage t ≠ .none := by rw [ht]; decide
  have hold : ∀ u, update s.stage t x u ≠ .none ↔ s.stage u ≠ .none := by
    intro u
    by_cases hut : u = t
    · rw [hut, update_self]
      exact iff_of_true hx hne
    · rw [update_of_ne hut]
  refine ⟨h.claimed.trans (exists_congr fun u => (hold u).symm),
    fun u v hu hv => h.single u v ((hold u).mp hu) ((hold v).mp hv),
    ?_, h.queue, h.drained, h.notified⟩
  rw [he, h.returned]
  constructor
  · rintro ((hc | ⟨u, hu⟩) | rfl)
    · exact .inl hc
    · have hut : u = t := h.single u t (by rw [hu]; decide) hne
      rw [hut, ht] at hu
      cases hu
    · exact .inr ⟨t, update_self _ _ _⟩
  · rintro (hc | ⟨u, hu⟩)
    · exact .inl (.inl hc)
    · dsimp only at hu
      by_cases hut : u = t
      · rw [hut, update_self] at hu
        exact .inr hu
      · rw [update_of_ne hut] at hu
        exact .inl (.inr ⟨u, hu⟩)

/-- The caller that claimed the object gives it up. -/
theorem Inv.leave (h : Inv past s) {t : τ} (ht : s.stage t ≠ .none) {e : Event τ}
    (he : ∀ t, e ≠ .initializerReturns t) {next : Phase} (hnext : next ≠ .running)
    (hresult : s.stage t = .returned ↔ next = .complete) :
    Inv (e :: past) (s.leave t next) := by
  have hrunning := h.claimed.mpr ⟨t, ht⟩
  have hnone : ∀ u, update s.stage t .none u = .none := by
    intro u
    by_cases hut : u = t
    · rw [hut, update_self]
    · rw [update_of_ne hut]
      by_contra hne
      exact hut (h.single u t hne ht)
  unfold State.leave
  rw [if_neg (by rw [not_not]; exact hrunning)]
  refine ⟨iff_of_false hnext fun ⟨u, hu⟩ => hu (hnone u),
    fun u _ hu => absurd (hnone u) hu, ?_, h.queue.drain,
    fun _ => rfl, fun _ _ _ => Nat.succ_pos _⟩
  rw [someReturned_cons he, h.returned, hrunning]
  constructor
  · rintro (hc | ⟨u, hu⟩)
    · cases hc
    · have hut : u = t := h.single u t (by rw [hu]; decide) ht
      rw [hut] at hu
      exact .inl (hresult.mp hu)
  · rintro (hc | ⟨u, hu⟩)
    · exact .inr ⟨t, hresult.mpr hc⟩
    · dsimp only at hu
      rw [hnone] at hu
      cases hu

/-- A caller that was out of the queue comes to test again. -/
theorem Inv.makeReady (h : Inv past s) {e : Event τ} (he : ∀ t, e ≠ .initializerReturns t) {t : τ}
    (ht : s.place t ≠ .inside () .parked) :
    Inv (e :: past) { s with place := update s.place t (.inside () .ready) } := by
  refine ⟨h.claimed, h.single, (someReturned_cons he).trans h.returned,
    h.queue.move ht (by simp), h.drained, fun hne u hu => ?_⟩
  dsimp only at hu
  by_cases hut : u = t
  · rw [hut, update_self] at hu
    cases hu
  · rw [update_of_ne hut] at hu
    exact h.notified hne u hu

theorem Inv.step (h : Inv past s) {e : Event τ} (hstep : Step isTask s e s') :
    Inv (e :: past) s' := by
  unfold Step State.apply at hstep
  cases e with
  | call t =>
      dsimp only at hstep
      split at hstep <;> cases hstep
      rename_i hplace
      exact h.begin (fun _ heq => by cases heq) (.inl hplace.1)
  | test t =>
      dsimp only at hstep
      split at hstep <;> cases hstep
      rename_i hplace
      exact h.begin (fun _ heq => by cases heq) (.inr hplace)
  | initializerReturns t =>
      dsimp only at hstep
      split at hstep <;> cases hstep
      rename_i hstage
      exact h.ends hstage.2 (by decide)
        (iff_of_true ⟨t, List.mem_cons_self⟩ (.inr rfl))
  | initializerThrows t =>
      dsimp only at hstep
      split at hstep <;> cases hstep
      rename_i hstage
      have he : SomeReturned (.initializerThrows t :: past) ↔ SomeReturned past :=
        someReturned_cons fun _ heq => by cases heq
      exact h.ends hstage.2 (by decide) (he.trans (or_iff_left (by decide)).symm)
  | complete t =>
      dsimp only at hstep
      split at hstep <;> cases hstep
      rename_i hstage
      exact h.leave (by rw [hstage]; decide) (fun _ heq => by cases heq) (by decide)
        (iff_of_true hstage rfl)
  | reset t =>
      dsimp only at hstep
      split at hstep <;> cases hstep
      rename_i hstage
      exact h.leave (by rw [hstage]; decide) (fun _ heq => by cases heq) (by decide)
        (iff_of_false (by rw [hstage]; decide) (by decide))
  | resume t =>
      dsimp only at hstep
      split at hstep <;> cases hstep
      rename_i hplace
      exact h.makeReady (fun _ heq => by cases heq) (by rw [hplace]; decide)
  | notify =>
      dsimp only at hstep
      split at hstep <;> cases hstep
      exact h.notify
  | wake t =>
      dsimp only at hstep
      split at hstep <;> cases hstep
      rename_i hplace
      exact h.makeReady (fun _ heq => by cases heq) (by rw [hplace]; decide)

theorem Inv.run (h : Run (Step isTask) {} past s) : Inv past s :=
  h.invariant .initial fun _ _ _ _ _ hI hstep => hI.step hstep

/-! ## The three promises -/

theorem Inv.returns (h : Inv past s) {e : Event τ} (hstep : Step isTask s e s')
    (hreturns : Returns s e) : SomeReturned past := by
  rcases hreturns with ⟨hc, -⟩ | ⟨t, rfl⟩
  · exact h.returned.mpr (.inl hc)
  · unfold Step State.apply at hstep
    dsimp only at hstep
    split at hstep <;> cases hstep
    rename_i hstage
    exact h.returned.mpr (.inr ⟨t, hstage⟩)

/-- In every run at most one initializer is running; once one has returned none
starts, and before that no call returns; and where none is running every caller that waits has
been woken. -/
theorem once_protocol (h : Run (Step isTask) {} past s) :
    (∀ t u, s.stage t ≠ .none → s.stage u ≠ .none → t = u)
      ∧ (∀ e s', Step isTask s e s' →
        (SomeReturned past → ¬Starts s e) ∧ (Returns s e → SomeReturned past))
      ∧ ((∀ t, s.stage t = .none) → ∀ t, (t ∈ s.waiters ∨ s.place t = .inside () .blocked) →
        Woken s t) := by
  have hI := Inv.run h
  refine ⟨hI.single, fun e s' hstep => ⟨fun hret => hI.not_starts hret, hI.returns hstep⟩, ?_⟩
  intro hnone t ht
  have hs : s.state ≠ .running := by
    intro hrunning
    rcases hI.claimed.mp hrunning with ⟨u, hu⟩
    exact hu (hnone u)
  rcases ht with hmem | hblocked
  · exact hI.woken hs ((hI.queue.parked t).mp hmem)
  · exact hI.woken hs hblocked

/-- A call that waits for an initializer that throws. -/
theorem once_retried : ∃ s : State Bool,
    Run (Step fun _ => true) {} [.reset false, .initializerThrows false, .call true, .call false] s
      ∧ ((∀ t u, s.stage t ≠ .none → s.stage u ≠ .none → t = u)
        ∧ (∀ e s', Step (fun _ => true) s e s' →
          (SomeReturned
              [Event.reset false, .initializerThrows false, .call true, .call false] →
            ¬Starts s e)
          ∧ (Returns s e → SomeReturned
              [Event.reset false, .initializerThrows false, .call true, .call false]))
        ∧ ((∀ t, s.stage t = .none) → ∀ t,
          (t ∈ s.waiters ∨ s.place t = .inside () .blocked) → Woken s t)) := by
  have hrun : Run (Step fun _ => true) ({} : State Bool)
      [.reset false, .initializerThrows false, .call true, .call false] _ :=
    .cons (.cons (.cons (.cons .nil rfl) rfl) rfl) rfl
  exact ⟨_, hrun, once_protocol hrun⟩

end Once

end Absolute
