import Absolute.RtMutex

/-!
# The semaphore

`absolute_semaphore_create` to `absolute_semaphore_release`, in the same steps as the
mutex. A release frees several permits at once and takes as many tasks out of the
queue, in the order in which they came.
-/

namespace Absolute

namespace Semaphore

open Function Headcount Runs Waiting

structure State (τ : Type) where
  permits : ℤ
  maximum : ℤ
  waiters : List τ := []
  place : τ → Place Unit := fun _ => .outside
  notifications : ℕ := 0
  /-- how many permits were acquired and released -/
  acquired : ℤ := 0
  released : ℤ := 0

inductive Event (τ : Type) where
  | acquire (t : τ)
  | tryAcquire (t : τ)
  | release (t : τ) (permits : ℤ)
  /-- a woken caller takes the lock and tests again -/
  | test (t : τ)
  /-- `ResumeSchedulerTask` of a task out of the queue -/
  | resume (t : τ)
  /-- one call of `available.notify_all` -/
  | notify
  /-- a wake-up without a reason -/
  | wake (t : τ)

variable {τ : Type}

def create (initialPermits maximumPermits : ℤ) : Option (State τ) :=
  if maximumPermits ≤ 0 ∨ initialPermits < 0 ∨ maximumPermits < initialPermits then none
  else some { permits := initialPermits, maximum := maximumPermits }

/-- What `absolute_semaphore_release` returns. -/
def State.accepts (s : State τ) (permits : ℤ) : Bool :=
  0 < permits && permits ≤ s.maximum - s.permits

variable [DecidableEq τ]

namespace State

def take (s : State τ) (t : τ) : State τ :=
  { s with
    permits := s.permits - 1
    acquired := s.acquired + 1
    place := update s.place t .outside }

/-- Tasks park, other threads block. -/
def wait (isTask : τ → Bool) (s : State τ) (t : τ) : State τ :=
  if isTask t then
    { s with waiters := s.waiters ++ [t], place := update s.place t (.inside () .parked) }
  else { s with place := update s.place t (.inside () .blocked) }

/-- A turn of the loop of `absolute_semaphore_acquire`. -/
def test (isTask : τ → Bool) (s : State τ) (t : τ) : State τ :=
  if 0 < s.permits then s.take t else s.wait isTask t

def release (s : State τ) (permits : ℤ) : State τ :=
  if s.accepts permits then
    let resumed := handUp () permits.toNat s.waiters s.place
    { s with
      permits := s.permits + permits
      waiters := resumed.1
      place := resumed.2
      notifications := s.notifications + 1
      released := s.released + permits }
  else s

/-- A caller inside a call makes no other. -/
def apply (isTask : τ → Bool) (s : State τ) : Event τ → Option (State τ)
  | .acquire t => if s.place t = .outside then some (s.test isTask t) else none
  | .tryAcquire t =>
      if s.place t = .outside then some (if s.permits ≤ 0 then s else s.take t) else none
  | .release t permits => if s.place t = .outside then some (s.release permits) else none
  | .test t => if s.place t = .inside () .ready then some (s.test isTask t) else none
  | .resume t =>
      if s.place t = .inside () .handed then
        some { s with place := update s.place t (.inside () .ready) }
      else none
  | .notify =>
      if 0 < s.notifications then
        some { s with
          notifications := s.notifications - 1, place := awaken (fun _ => true) s.place }
      else none
  | .wake t =>
      if s.place t = .inside () .blocked then
        some { s with place := update s.place t (.inside () .ready) }
      else none

end State

def Step (isTask : τ → Bool) (s : State τ) (e : Event τ) (s' : State τ) : Prop :=
  s.apply isTask e = some s'

/-- The permits are those there were and were released, less those acquired. -/
structure Counted (isTask : τ → Bool) (initial : ℤ) (s : State τ) : Prop where
  nonneg : 0 ≤ s.permits
  le_maximum : s.permits ≤ s.maximum
  balance : s.permits = initial + s.released - s.acquired
  rejected : ∀ t permits, s.accepts permits = false → s.place t = .outside →
    s.apply isTask (.release t permits) = some s

/-- Where permits are left and tasks are parked, as many are on their way. -/
def NotStranded (isTask : τ → Bool) (s : State τ) : Prop :=
  0 < s.permits → s.waiters ≠ [] →
    ∃ n : ℕ, Total (fun t => onWay isTask t (s.place t)) n ∧ s.permits ≤ n

structure Inv (isTask : τ → Bool) (initial : ℤ) (s : State τ) : Prop where
  nonneg : 0 ≤ s.permits
  le_maximum : s.permits ≤ s.maximum
  balance : s.permits = initial + s.released - s.acquired
  attended : Attended isTask s.permits.toNat s.place () s.waiters

variable {isTask : τ → Bool} {initial maximum : ℤ} {s s' : State τ} {t : τ}
variable {past : List (Event τ)}

theorem Inv.create (h : create initial maximum = some s) : Inv isTask initial s := by
  unfold Semaphore.create at h
  split at h <;> cases h
  rename_i hrange
  rw [not_or, not_or, not_le, not_lt, not_lt] at hrange
  exact
    { nonneg := hrange.2.1
      le_maximum := hrange.2.2
      balance := by simp
      attended := .nil _ }

theorem Inv.take (h : Inv isTask initial s) (ht : s.place t ≠ .inside () .parked)
    (hfree : 0 < s.permits) : Inv isTask initial (s.take t) where
  nonneg := by
    change 0 ≤ s.permits - 1
    omega
  le_maximum := by
    have := h.le_maximum
    change s.permits - 1 ≤ s.maximum
    omega
  balance := by
    have := h.balance
    change s.permits - 1 = initial + s.released - (s.acquired + 1)
    omega
  attended := by
    refine h.attended.move ht (by simp) (by simp) ?_
    have hle : onWay isTask t (s.place t) ≤ 1 := onWay_le_one
    have hdone : onWay isTask t (.outside : Place Unit) = 0 := rfl
    have hpermits : (s.take t).permits = s.permits - 1 := rfl
    rw [hdone, hpermits]
    omega

theorem Inv.wait (h : Inv isTask initial s) (ht : s.place t ≠ .inside () .parked)
    (hnone : s.permits ≤ 0) : Inv isTask initial (s.wait isTask t) := by
  have hzero : s.permits.toNat = 0 := by omega
  unfold State.wait
  split
  · rename_i htask
    refine { nonneg := h.nonneg, le_maximum := h.le_maximum, balance := h.balance, attended := ?_ }
    have hpark := h.attended.park ht htask
    rwa [← hzero] at hpark
  · rename_i htask
    refine { nonneg := h.nonneg, le_maximum := h.le_maximum, balance := h.balance, attended := ?_ }
    refine h.attended.move ht (by simp) (fun _ _ => htask) ?_
    rw [onWay_of_not_task htask]
    exact Nat.le_add_right _ _

theorem Inv.test (h : Inv isTask initial s) (ht : s.place t ≠ .inside () .parked) :
    Inv isTask initial (s.test isTask t) := by
  unfold State.test
  split
  · rename_i hfree
    exact h.take ht hfree
  · rename_i hnone
    exact h.wait ht (not_lt.mp hnone)

theorem Inv.release (h : Inv isTask initial s) (permits : ℤ) :
    Inv isTask initial (s.release permits) := by
  unfold State.release
  split
  · rename_i haccepts
    simp only [State.accepts, Bool.and_eq_true, decide_eq_true_eq] at haccepts
    have hnonneg := h.nonneg
    have hbalance := h.balance
    refine { nonneg := ?_, le_maximum := ?_, balance := ?_, attended := ?_ } <;> dsimp only
    · omega
    · omega
    · omega
    · have hhanded := h.attended.handUp permits.toNat
      rwa [← Int.toNat_add h.nonneg haccepts.1.le] at hhanded
  · exact h

/-- A caller that was woken comes to test again. -/
theorem Inv.makeReady (h : Inv isTask initial s) {spot : Spot} (ht : s.place t = .inside () spot)
    (hspot : spot ≠ .parked) :
    Inv isTask initial { s with place := update s.place t (.inside () .ready) } where
  nonneg := h.nonneg
  le_maximum := h.le_maximum
  balance := h.balance
  attended := by
    refine h.attended.move (by rw [ht]; simp [hspot]) (by simp) (by simp)
      (Nat.add_le_add_left ?_ _)
    rw [ht]
    cases spot with
    | ready => exact le_rfl
    | handed => exact le_rfl
    | parked => exact Nat.zero_le _
    | blocked => exact Nat.zero_le _

theorem Inv.step {e : Event τ} (h : Inv isTask initial s) (hstep : Step isTask s e s') :
    Inv isTask initial s' := by
  unfold Step State.apply at hstep
  cases e with
  | acquire t =>
      dsimp only at hstep
      split at hstep <;> cases hstep
      rename_i hplace
      exact h.test (by rw [hplace]; simp)
  | tryAcquire t =>
      dsimp only at hstep
      split at hstep <;> cases hstep
      rename_i hplace
      split
      · exact h
      · rename_i hfree
        exact h.take (by rw [hplace]; simp) (not_le.mp hfree)
  | release t permits =>
      dsimp only at hstep
      split at hstep <;> cases hstep
      exact h.release permits
  | test t =>
      dsimp only at hstep
      split at hstep <;> cases hstep
      rename_i hplace
      exact h.test (by rw [hplace]; simp)
  | resume t =>
      dsimp only at hstep
      split at hstep <;> cases hstep
      rename_i hplace
      exact h.makeReady hplace (by simp)
  | notify =>
      dsimp only at hstep
      split at hstep <;> cases hstep
      exact
        { nonneg := h.nonneg
          le_maximum := h.le_maximum
          balance := h.balance
          attended := h.attended.awaken }
  | wake t =>
      dsimp only at hstep
      split at hstep <;> cases hstep
      rename_i hplace
      exact h.makeReady hplace (by simp)

theorem Inv.run {s₀ : State τ} (hcreate : Semaphore.create initial maximum = some s₀)
    (h : Run (Step isTask) s₀ past s) : Inv isTask initial s :=
  h.stateInvariant (.create hcreate) fun _ _ _ hI hstep => hI.step hstep

theorem Inv.counted (h : Inv isTask initial s) : Counted isTask initial s where
  nonneg := h.nonneg
  le_maximum := h.le_maximum
  balance := h.balance
  rejected t permits hrejected hplace := by
    unfold State.apply
    dsimp only
    rw [if_pos hplace, State.release, if_neg (by rw [hrejected]; simp)]

theorem Inv.notStranded (h : Inv isTask initial s) : NotStranded isTask s := by
  intro hfree hne
  rcases h.attended.comes with ⟨n, htotal, hn⟩
  have := hn hne
  exact ⟨n, htotal, by omega⟩

/-- In every run of a mutex and of a semaphore: one party at most holds the mutex, the
permits count, and no parked task is left behind. -/
theorem mutex_and_semaphore_protocol {m : Mutex.State τ} {turns : List (Mutex.Event τ)}
    {s₀ : State τ} (hmutex : Run (Mutex.Step isTask) {} turns m)
    (hcreate : create initial maximum = some s₀) (hsemaphore : Run (Step isTask) s₀ past s) :
    (Mutex.Exclusive m ∧ Mutex.NotStranded isTask m)
      ∧ Counted isTask initial s ∧ NotStranded isTask s := by
  have hm := Mutex.Inv.run hmutex
  have hs := Inv.run hcreate hsemaphore
  exact ⟨⟨hm.toExclusive, hm.notStranded⟩, hs.counted, hs.notStranded⟩

/-- A task parks behind the holder, which unlocks; two park where there is no permit, and
one is released. -/
theorem mutex_and_semaphore_handover : ∃ (m : Mutex.State (Fin 3)) (s : State (Fin 3)),
    Run (Mutex.Step fun _ => true) {} [.unlock 0, .lock 1, .lock 0] m
      ∧ s.permits = 1 ∧ s.waiters = [1]
      ∧ (Mutex.Exclusive m ∧ Mutex.NotStranded (fun _ => true) m)
      ∧ Counted (fun _ => true) 0 s ∧ NotStranded (fun _ => true) s := by
  have hmutex : Run (Mutex.Step fun _ => true) ({} : Mutex.State (Fin 3))
      [.unlock 0, .lock 1, .lock 0] _ :=
    .cons (.cons (.cons .nil rfl) rfl) rfl
  have hsemaphore : Run (Step fun _ => true) ({ permits := 0, maximum := 2 } : State (Fin 3))
      [.release 2 1, .acquire 1, .acquire 0] _ :=
    .cons (.cons (.cons .nil rfl) rfl) rfl
  have hcreate : create 0 2 = some ({ permits := 0, maximum := 2 } : State (Fin 3)) := rfl
  exact ⟨_, _, hmutex, rfl, rfl, mutex_and_semaphore_protocol hmutex hcreate hsemaphore⟩

end Semaphore

end Absolute
