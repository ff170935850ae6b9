import Absolute.LibAttended
import Absolute.LibRuns

/-!
# The mutex

`absolute_mutex_lock`, `absolute_mutex_try_lock` and `absolute_mutex_unlock`. A step
is one critical section of the mutex's own lock, or a wake-up that arrives. An unlock
hands over nothing: it takes one task out of the queue and notifies one thread, and
both test again, beside whoever comes first.
-/

namespace Absolute

namespace Mutex

open Function Headcount Runs Waiting

structure State (τ : Type) where
  locked : Bool := false
  waiters : List τ := []
  place : τ → Place Unit := fun _ => .outside
  /-- whether a caller holds the mutex -/
  holds : τ → Bool := fun _ => false
  notifications : ℕ := 0

inductive Event (τ : Type) where
  | lock (t : τ)
  | tryLock (t : τ)
  | unlock (t : τ)
  /-- a woken caller takes the lock and tests again -/
  | test (t : τ)
  /-- `ResumeSchedulerTask` of the task out of the queue -/
  | resume (t : τ)
  /-- one call of `available.notify_one`, and the thread it wakes, if it wakes one -/
  | notify (woken : Option τ)
  /-- a wake-up without a reason -/
  | wake (t : τ)

variable {τ : Type} {isTask : τ → Bool} {s s' : State τ} {t : τ} {past : List (Event τ)}

/-- One unit, free or not. -/
def State.free (s : State τ) : ℕ := if s.locked = true then 0 else 1

theorem free_of_locked (h : s.locked = true) : s.free = 0 := if_pos h

theorem free_of_unlocked (h : s.locked = false) : s.free = 1 := by
  unfold State.free
  rw [h]
  rfl

variable [DecidableEq τ]

namespace State

def acquire (s : State τ) (t : τ) : State τ :=
  { s with
    locked := true
    holds := update s.holds t true
    place := update s.place t .outside }

/-- Tasks park, other threads block. -/
def wait (isTask : τ → Bool) (s : State τ) (t : τ) : State τ :=
  if isTask t then
    { s with waiters := s.waiters ++ [t], place := update s.place t (.inside () .parked) }
  else { s with place := update s.place t (.inside () .blocked) }

/-- A turn of the loop of `absolute_mutex_lock`. -/
def test (isTask : τ → Bool) (s : State τ) (t : τ) : State τ :=
  if s.locked = false then s.acquire t else s.wait isTask t

def unlock (s : State τ) (t : τ) : State τ :=
  let s' := { s with
    locked := false
    holds := update s.holds t false
    notifications := s.notifications + 1 }
  match s.waiters with
  | w :: rest => { s' with waiters := rest, place := update s.place w (.inside () .handed) }
  | [] => s'

/-- A caller inside a call makes no other, and unlocks only what it holds. -/
def apply (isTask : τ → Bool) (s : State τ) : Event τ → Option (State τ)
  | .lock t => if s.place t = .outside then some (s.test isTask t) else none
  | .tryLock t =>
      if s.place t = .outside then some (if s.locked = true then s else s.acquire t) else none
  | .unlock t => if s.place t = .outside ∧ s.holds t = true then some (s.unlock t) else none
  | .test t => if s.place t = .inside () .ready then some (s.test isTask t) else none
  | .resume t =>
      if s.place t = .inside () .handed then
        some { s with place := update s.place t (.inside () .ready) }
      else none
  | .notify none =>
      if 0 < s.notifications then some { s with notifications := s.notifications - 1 } else none
  | .notify (some t) =>
      if 0 < s.notifications ∧ s.place t = .inside () .blocked then
        some { s with
          notifications := s.notifications - 1, place := update s.place t (.inside () .ready) }
      else none
  | .wake t =>
      if s.place t = .inside () .blocked then
        some { s with place := update s.place t (.inside () .ready) }
      else none

end State

def Step (isTask : τ → Bool) (s : State τ) (e : Event τ) (s' : State τ) : Prop :=
  s.apply isTask e = some s'

/-- One party at most holds the mutex, and does where it is locked. -/
structure Exclusive (s : State τ) : Prop where
  holder : s.locked = true ↔ ∃ t, s.holds t = true
  single : ∀ t u, s.holds t = true → s.holds u = true → t = u

/-- Where the mutex is free and tasks are parked, one is on its way to it. -/
def NotStranded (isTask : τ → Bool) (s : State τ) : Prop :=
  s.locked = false → s.waiters ≠ [] →
    ∃ n, Total (fun t => onWay isTask t (s.place t)) n ∧ 1 ≤ n

structure Inv (isTask : τ → Bool) (s : State τ) : Prop extends Exclusive s where
  attended : Attended isTask s.free s.place () s.waiters

theorem Inv.initial : Inv isTask ({} : State τ) where
  holder := ⟨fun h => (by cases h), fun ⟨_, h⟩ => (by cases h)⟩
  single _ _ h := by cases h
  attended := .nil 1

theorem Inv.acquire (h : Inv isTask s) (ht : s.place t ≠ .inside () .parked)
    (hfree : s.locked = false) : Inv isTask (s.acquire t) where
  holder := ⟨fun _ => ⟨t, update_self _ _ _⟩, fun _ => rfl⟩
  single := by
    have hnone : ∀ u, s.holds u = true → False := by
      intro u hu
      rw [h.holder.mpr ⟨u, hu⟩] at hfree
      cases hfree
    have honly : ∀ u, (s.acquire t).holds u = true → u = t := by
      intro u hu
      by_contra hne
      change update s.holds t true u = true at hu
      rw [update_of_ne hne] at hu
      exact hnone u hu
    intro u v hu hv
    rw [honly u hu, honly v hv]
  attended := by
    refine h.attended.move ht (by simp) (by simp) ?_
    have hle : onWay isTask t (s.place t) ≤ 1 := onWay_le_one
    have hdone : onWay isTask t (.outside : Place Unit) = 0 := rfl
    rw [free_of_unlocked hfree, free_of_locked (s := s.acquire t) rfl, hdone]
    omega

theorem Inv.wait (h : Inv isTask s) (ht : s.place t ≠ .inside () .parked)
    (hlocked : s.locked = true) : Inv isTask (s.wait isTask t) := by
  have hzero := free_of_locked hlocked
  unfold State.wait
  split
  · rename_i htask
    refine { holder := h.holder, single := h.single, attended := ?_ }
    have hpark := h.attended.park ht htask
    rwa [← hzero] at hpark
  · rename_i htask
    refine { holder := h.holder, single := h.single, attended := ?_ }
    refine h.attended.move ht (by simp) (fun _ _ => htask) ?_
    rw [onWay_of_not_task htask]
    exact Nat.le_add_right _ _

theorem Inv.test (h : Inv isTask s) (ht : s.place t ≠ .inside () .parked) :
    Inv isTask (s.test isTask t) := by
  unfold State.test
  split
  · rename_i hfree
    exact h.acquire ht hfree
  · rename_i hlocked
    exact h.wait ht (by simpa using hlocked)

theorem Inv.unlock (h : Inv isTask s) (hheld : s.holds t = true) : Inv isTask (s.unlock t) := by
  have hlocked := h.holder.mpr ⟨t, hheld⟩
  have hnone : ∀ u, update s.holds t false u ≠ true := by
    intro u hu
    by_cases hut : u = t
    · subst hut
      rw [update_self] at hu
      cases hu
    · rw [update_of_ne hut] at hu
      exact hut (h.single u t hu hheld)
  have hattended := h.attended
  rw [free_of_locked hlocked] at hattended
  unfold State.unlock
  dsimp only
  cases hqueue : s.waiters with
  | cons w rest =>
      rw [hqueue] at hattended
      exact
        { holder := ⟨fun hl => (by cases hl), fun ⟨u, hu⟩ => absurd hu (hnone u)⟩
          single := fun u _ hu => absurd hu (hnone u)
          attended := hattended.hand }
  | nil =>
      rw [hqueue] at hattended
      exact
        { holder := ⟨fun hl => (by cases hl), fun ⟨u, hu⟩ => absurd hu (hnone u)⟩
          single := fun u _ hu => absurd hu (hnone u)
          attended := hattended.free_any 1 }

/-- A caller that was woken comes to test again. -/
theorem Inv.makeReady (h : Inv isTask s) {spot : Spot} (ht : s.place t = .inside () spot)
    (hspot : spot ≠ .parked) (notifications : ℕ) :
    Inv isTask { s with
      notifications := notifications, place := update s.place t (.inside () .ready) } where
  holder := h.holder
  single := h.single
  attended := by
    refine h.attended.move (by rw [ht]; simp [hspot]) (by simp) (by simp)
      (Nat.add_le_add_left ?_ _)
    rw [ht]
    cases spot with
    | ready => exact le_rfl
    | handed => exact le_rfl
    | parked => exact Nat.zero_le _
    | blocked => exact Nat.zero_le _

theorem Inv.step {e : Event τ} (h : Inv isTask s) (hstep : Step isTask s e s') :
    Inv isTask s' := by
  unfold Step State.apply at hstep
  cases e with
  | lock t =>
      dsimp only at hstep
      split at hstep <;> cases hstep
      rename_i hplace
      exact h.test (by rw [hplace]; simp)
  | tryLock t =>
      dsimp only at hstep
      split at hstep <;> cases hstep
      rename_i hplace
      split
      · exact h
      · rename_i hfree
        exact h.acquire (by rw [hplace]; simp) (by simpa using hfree)
  | unlock t =>
      dsimp only at hstep
      split at hstep <;> cases hstep
      rename_i hheld
      exact h.unlock hheld.2
  | test t =>
      dsimp only at hstep
      split at hstep <;> cases hstep
      rename_i hplace
      exact h.test (by rw [hplace]; simp)
  | resume t =>
      dsimp only at hstep
      split at hstep <;> cases hstep
      rename_i hplace
      exact h.makeReady hplace (by simp) s.notifications
  | notify woken =>
      cases woken with
      | none =>
          dsimp only at hstep
          split at hstep <;> cases hstep
          exact { holder := h.holder, single := h.single, attended := h.attended }
      | some t =>
          dsimp only at hstep
          split at hstep <;> cases hstep
          rename_i hblocked
          exact h.makeReady hblocked.2 (by simp) (s.notifications - 1)
  | wake t =>
      dsimp only at hstep
      split at hstep <;> cases hstep
      rename_i hplace
      exact h.makeReady hplace (by simp) s.notifications

theorem Inv.run (h : Run (Step isTask) {} past s) : Inv isTask s :=
  h.stateInvariant .initial fun _ _ _ hI hstep => hI.step hstep

theorem Inv.notStranded (h : Inv isTask s) : NotStranded isTask s := by
  intro hfree hne
  rcases h.attended.comes with ⟨n, htotal, hn⟩
  exact ⟨n, htotal, free_of_unlocked hfree ▸ hn hne⟩

end Mutex

end Absolute
