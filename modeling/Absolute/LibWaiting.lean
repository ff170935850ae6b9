import Mathlib.Data.List.Nodup
import Mathlib.Logic.Function.Basic
import Mathlib.Tactic.Common

/-!
# Callers that wait

A blocking operation tests a state under a lock and, if it has to wait, either
parks the calling task in a queue or blocks the calling thread on a condition
variable. Whoever changes the state takes tasks out of the queue under the lock
and resumes them after it; a resumed or notified caller tests again.

`Place` is where a caller stands, `Queued` that a queue holds exactly the callers
that are parked for an operation.
-/

namespace Waiting

open Function

/-- Where a caller inside an operation stands. -/
inductive Spot where
  /-- about to test the state (again) -/
  | ready
  /-- in the queue -/
  | parked
  /-- out of the queue, its wake-up on the way -/
  | handed
  /-- blocked on the condition variable -/
  | blocked
deriving DecidableEq, Repr

inductive Place (κ : Type) where
  | outside
  | inside (op : κ) (spot : Spot)
deriving DecidableEq, Repr

variable {τ κ : Type} {place : τ → Place κ} {k : κ} {waiters : List τ}

structure Queued (place : τ → Place κ) (k : κ) (waiters : List τ) : Prop where
  nodup : waiters.Nodup
  parked : ∀ t, t ∈ waiters ↔ place t = .inside k .parked

theorem Queued.nil (h : ∀ t, place t = .outside) : Queued place k [] where
  nodup := List.nodup_nil
  parked t := by simp [h t]

theorem Queued.head {t : τ} {rest : List τ} (h : Queued place k (t :: rest)) :
    place t = .inside k .parked :=
  (h.parked t).mp List.mem_cons_self

section Moves

variable [DecidableEq τ]

/-- A caller that is not parked here moves somewhere that is not here. -/
theorem Queued.move (h : Queued place k waiters) {t : τ} {x : Place κ}
    (hfrom : place t ≠ .inside k .parked) (hto : x ≠ .inside k .parked) :
    Queued (update place t x) k waiters where
  nodup := h.nodup
  parked u := by
    rw [h.parked]
    by_cases hu : u = t
    · subst hu
      rw [update_self]
      exact iff_of_false hfrom hto
    · rw [update_of_ne hu]

theorem Queued.park (h : Queued place k waiters) {t : τ} (hfrom : place t ≠ .inside k .parked) :
    Queued (update place t (.inside k .parked)) k (waiters ++ [t]) where
  nodup := by
    refine List.nodup_append.mpr ⟨h.nodup, List.nodup_singleton t, ?_⟩
    rintro u hu v hv rfl
    rw [List.mem_singleton.mp hv] at hu
    exact hfrom ((h.parked t).mp hu)
  parked u := by
    rw [List.mem_append, List.mem_singleton]
    by_cases hu : u = t
    · subst hu
      rw [update_self]
      exact iff_of_true (.inr rfl) rfl
    · rw [update_of_ne hu, or_iff_left hu, h.parked]

theorem Queued.pop {t : τ} {rest : List τ} (h : Queued place k (t :: rest)) :
    Queued (update place t (.inside k .handed)) k rest where
  nodup := (List.nodup_cons.mp h.nodup).2
  parked u := by
    have hnot := (List.nodup_cons.mp h.nodup).1
    by_cases hu : u = t
    · subst hu
      rw [update_self]
      refine iff_of_false hnot fun heq => ?_
      injection heq with _ hspot
      cases hspot
    · rw [update_of_ne hu, ← h.parked, List.mem_cons, or_iff_right hu]

/-- A whole queue is taken. -/
def handAll (k : κ) (waiters : List τ) (place : τ → Place κ) (t : τ) : Place κ :=
  if t ∈ waiters then .inside k .handed else place t

theorem handAll_of_mem {t : τ} (h : t ∈ waiters) :
    handAll k waiters place t = .inside k .handed := if_pos h

theorem handAll_of_not_mem {t : τ} (h : t ∉ waiters) : handAll k waiters place t = place t :=
  if_neg h

theorem Queued.drain (h : Queued place k waiters) : Queued (handAll k waiters place) k [] where
  nodup := List.nodup_nil
  parked t := by
    refine iff_of_false (fun hmem => by cases hmem) ?_
    by_cases ht : t ∈ waiters
    · rw [handAll_of_mem ht]
      intro heq
      injection heq with _ hspot
      cases hspot
    · rw [handAll_of_not_mem ht, ← h.parked]
      exact ht

/-- Another operation's queue is taken. -/
theorem Queued.drain_other {k' : κ} {others : List τ} (h : Queued place k waiters)
    (h' : Queued place k' others) (hk : k' ≠ k) : Queued (handAll k' others place) k waiters where
  nodup := h.nodup
  parked t := by
    rw [h.parked]
    by_cases ht : t ∈ others
    · rw [handAll_of_mem ht, (h'.parked t).mp ht]
      constructor <;> intro heq <;> injection heq with hop <;> exact absurd hop hk
    · rw [handAll_of_not_mem ht]

end Moves

/-- A notification of all callers blocked in the operations of `P`. -/
def awaken (P : κ → Bool) (place : τ → Place κ) (t : τ) : Place κ :=
  match place t with
  | .inside op .blocked => if P op then .inside op .ready else .inside op .blocked
  | x => x

theorem awaken_of_ne {P : κ → Bool} {t : τ} (h : ∀ op, place t ≠ .inside op .blocked) :
    awaken P place t = place t := by
  unfold awaken
  split
  · rename_i op heq
    exact absurd heq (h op)
  · rfl

theorem awaken_of_blocked {P : κ → Bool} {t : τ} {op : κ} (h : place t = .inside op .blocked)
    (hP : P op = true) : awaken P place t = .inside op .ready := by
  unfold awaken
  rw [h]
  exact if_pos hP

theorem awaken_eq_parked_iff {P : κ → Bool} {t : τ} :
    awaken P place t = .inside k .parked ↔ place t = .inside k .parked := by
  unfold awaken
  split
  · rename_i op heq
    rw [heq]
    split <;> constructor <;> intro h <;> injection h with _ hspot <;> cases hspot
  · exact .rfl

theorem Queued.awaken {P : κ → Bool} (h : Queued place k waiters) :
    Queued (awaken P place) k waiters where
  nodup := h.nodup
  parked t := by rw [awaken_eq_parked_iff, h.parked]

end Waiting
