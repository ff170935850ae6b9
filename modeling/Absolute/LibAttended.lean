import Absolute.LibHeadcount
import Absolute.LibWaiting

/-!
# Queues that are attended to

A resource with units that are free or taken, and tasks that are parked for one.
Whoever frees units takes as many tasks out of the queue, if there are as many, but
hands over no unit: a task that comes to test again may find all of them taken, and
parks again.

`Attended free` says that, where tasks are parked, as many are on their way as units
are free. A caller that takes a unit, one that parks, and one that frees units all
keep it.
-/

namespace Waiting

open Function Headcount

variable {τ κ : Type}

/-- A task that was taken out of the queue and has not tested again. -/
def onWay (isTask : τ → Bool) (t : τ) : Place κ → ℕ
  | .inside _ .ready => if isTask t then 1 else 0
  | .inside _ .handed => if isTask t then 1 else 0
  | _ => 0

theorem onWay_le_one {isTask : τ → Bool} {t : τ} {x : Place κ} : onWay isTask t x ≤ 1 := by
  unfold onWay
  split <;> first | exact Nat.zero_le _ | split <;> omega

theorem onWay_of_not_task {isTask : τ → Bool} {t : τ} {x : Place κ} (h : isTask t ≠ true) :
    onWay isTask t x = 0 := by
  unfold onWay
  split <;> first | rfl | exact if_neg h

variable [DecidableEq τ]

/-- Where tasks are parked, as many are on their way as units are free. -/
structure Attended (isTask : τ → Bool) (free : ℕ) (place : τ → Place κ) (k : κ)
    (waiters : List τ) : Prop where
  queue : Queued place k waiters
  tasks : ∀ t ∈ waiters, isTask t = true
  blocked : ∀ t op, place t = .inside op .blocked → isTask t ≠ true
  comes : ∃ n, Total (fun t => onWay isTask t (place t)) n ∧ (waiters ≠ [] → free ≤ n)

variable {isTask : τ → Bool} {free free' : ℕ} {place : τ → Place κ} {k : κ} {waiters : List τ}
variable {t w : τ}

theorem Attended.nil (free : ℕ) :
    Attended isTask free (fun _ : τ => .outside) k [] where
  queue := .nil fun _ => rfl
  tasks _ h := by cases h
  blocked _ _ h := by cases h
  comes := ⟨0, .zero, fun h => absurd rfl h⟩

theorem blocked_update
    (h : ∀ t op, place t = .inside op .blocked → isTask t ≠ true) {x : Place κ}
    (hx : ∀ op, x = .inside op .blocked → isTask t ≠ true) (u : τ) (op : κ)
    (hu : update place t x u = .inside op .blocked) : isTask u ≠ true := by
  by_cases hut : u = t
  · subst hut
    rw [update_self] at hu
    exact hx op hu
  · rw [update_of_ne hut] at hu
    exact h u op hu

/-- A caller moves that is not parked; units may be taken as tasks come to their way's end. -/
theorem Attended.move (h : Attended isTask free place k waiters) {x : Place κ}
    (hfrom : place t ≠ .inside k .parked) (hto : x ≠ .inside k .parked)
    (hblocked : ∀ op, x = .inside op .blocked → isTask t ≠ true)
    (hle : free' + onWay isTask t (place t) ≤ free + onWay isTask t x) :
    Attended isTask free' (update place t x) k waiters where
  queue := h.queue.move hfrom hto
  tasks := h.tasks
  blocked := blocked_update h.blocked hblocked
  comes := by
    rcases h.comes with ⟨n, htotal, hn⟩
    have hpart := htotal.le t
    refine ⟨n + onWay isTask t x - onWay isTask t (place t),
      Total.update (fun t => onWay isTask t) htotal t x (by omega), fun hne => ?_⟩
    have := hn hne
    omega

/-- No unit is free: a task parks. -/
theorem Attended.park (h : Attended isTask free place k waiters)
    (hfrom : place t ≠ .inside k .parked) (htask : isTask t = true) :
    Attended isTask 0 (update place t (.inside k .parked)) k (waiters ++ [t]) where
  queue := h.queue.park hfrom
  tasks u hu := by
    rcases List.mem_append.mp hu with hu | hu
    · exact h.tasks u hu
    · rw [List.mem_singleton.mp hu]
      exact htask
  blocked := blocked_update h.blocked (by simp)
  comes := by
    rcases h.comes with ⟨n, htotal, -⟩
    have hpart := htotal.le t
    exact ⟨n - onWay isTask t (place t),
      Total.update (fun t => onWay isTask t) htotal t _ (Nat.sub_add_cancel hpart),
      fun _ => Nat.zero_le _⟩

/-- A unit is freed, and the first of the queue taken out of it. -/
theorem Attended.hand (h : Attended isTask free place k (w :: waiters)) :
    Attended isTask (free + 1) (update place w (.inside k .handed)) k waiters where
  queue := h.queue.pop
  tasks u hu := h.tasks u (List.mem_cons_of_mem _ hu)
  blocked := blocked_update h.blocked (by simp)
  comes := by
    rcases h.comes with ⟨n, htotal, hn⟩
    have htask := h.tasks w List.mem_cons_self
    have hfree := hn (List.cons_ne_nil _ _)
    refine ⟨n + 1, Total.update (fun t => onWay isTask t) htotal w _ ?_, fun _ => by omega⟩
    rw [h.queue.head]
    simp [onWay, htask]

/-- With no one parked any number may be free. -/
theorem Attended.free_any (h : Attended isTask free place k []) (free' : ℕ) :
    Attended isTask free' place k [] where
  queue := h.queue
  tasks := h.tasks
  blocked := h.blocked
  comes := by
    rcases h.comes with ⟨n, htotal, -⟩
    exact ⟨n, htotal, fun h => absurd rfl h⟩

/-- Threads that are blocked are no tasks, so it is no task that a notification wakes. -/
theorem Attended.awaken (h : Attended isTask free place k waiters) {P : κ → Bool} :
    Attended isTask free (awaken P place) k waiters where
  queue := h.queue.awaken
  tasks := h.tasks
  blocked t op ht := by
    by_cases hsome : ∃ op, place t = .inside op .blocked
    · rcases hsome with ⟨op', hop'⟩
      exact h.blocked t op' hop'
    · rw [awaken_of_ne fun op' hop' => hsome ⟨op', hop'⟩] at ht
      exact h.blocked t op ht
  comes := by
    rcases h.comes with ⟨n, htotal, hn⟩
    refine ⟨n, htotal.congr fun t => ?_, hn⟩
    by_cases hsome : ∃ op, place t = .inside op .blocked
    · rcases hsome with ⟨op, hop⟩
      rw [onWay_of_not_task (h.blocked t op hop), onWay_of_not_task (h.blocked t op hop)]
    · rw [awaken_of_ne fun op hop => hsome ⟨op, hop⟩]

/-- The first `n` of a queue are taken out of it. -/
def handUp (k : κ) : ℕ → List τ → (τ → Place κ) → List τ × (τ → Place κ)
  | n + 1, w :: rest, place => handUp k n rest (update place w (.inside k .handed))
  | _, waiters, place => (waiters, place)

theorem Attended.handUp (h : Attended isTask free place k waiters) (n : ℕ) :
    Attended isTask (free + n) (handUp k n waiters place).2 k (handUp k n waiters place).1 := by
  induction n generalizing free place waiters with
  | zero =>
      unfold Waiting.handUp
      exact h
  | succ n ih =>
      cases waiters with
      | nil => exact h.free_any _
      | cons w rest =>
          have hrest := ih h.hand
          rw [Nat.add_assoc, Nat.add_comm 1 n] at hrest
          exact hrest

end Waiting
