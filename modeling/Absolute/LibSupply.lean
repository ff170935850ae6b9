import Absolute.LibHeadcount
import Absolute.LibWaiting

/-!
# Supply and the callers on their way to it

Callers park for an operation while there is nothing for them. Each unit of supply
that comes takes one parked task out of the queue, and each caller that tests
again takes at most one unit. So where tasks are parked, the supply is never more
than the tasks that are on their way (`Served`), whoever takes what first.
-/

namespace Supply

open Function Headcount Waiting

variable {τ κ : Type}

variable [DecidableEq κ] {isTask : τ → Bool} {op : κ} {t : τ}

/-- A task that was woken for `op` and has not tested again. -/
def onTheWay (isTask : τ → Bool) (op : κ) (t : τ) (x : Place κ) : ℕ :=
  if isTask t = true ∧ (x = .inside op .ready ∨ x = .inside op .handed) then 1 else 0

theorem onTheWay_le (x : Place κ) : onTheWay isTask op t x ≤ 1 := by
  unfold onTheWay
  split <;> decide

theorem onTheWay_eq_zero {x : Place κ} (hready : x ≠ .inside op .ready)
    (hhanded : x ≠ .inside op .handed) : onTheWay isTask op t x = 0 :=
  if_neg fun h => h.2.elim hready hhanded

variable [DecidableEq τ] {place : τ → Place κ} {waiters : List τ} {supply : ℕ}

/-- Where tasks are parked, enough are on their way for the supply. -/
def Served (isTask : τ → Bool) (op : κ) (place : τ → Place κ) (waiters : List τ)
    (supply : ℕ) : Prop :=
  ∃ n, Total (fun t => onTheWay isTask op t (place t)) n ∧ (waiters ≠ [] → supply ≤ n)

theorem Served.start (h : ∀ t, place t = .outside) : Served isTask op place [] supply := by
  refine ⟨0, Total.zero.congr fun t => ?_, fun hne => absurd rfl hne⟩
  rw [h t]
  exact onTheWay_eq_zero (by simp) (by simp)

theorem Served.mono {supply' : ℕ} (h : Served isTask op place waiters supply)
    (hle : supply' ≤ supply) : Served isTask op place waiters supply' := by
  rcases h with ⟨n, htotal, hn⟩
  exact ⟨n, htotal, fun hne => le_trans hle (hn hne)⟩

/-- A caller goes where it is on its way to nothing, and leaves one unit less. -/
theorem Served.take {x : Place κ} {supply' : ℕ} (h : Served isTask op place waiters supply)
    (hready : x ≠ .inside op .ready) (hhanded : x ≠ .inside op .handed)
    (hle : supply' ≤ supply - 1) : Served isTask op (update place t x) waiters supply' := by
  rcases h with ⟨n, htotal, hn⟩
  have hshare := htotal.le t
  have hone : onTheWay isTask op t (place t) ≤ 1 := onTheWay_le _
  refine ⟨n - onTheWay isTask op t (place t),
    Total.update (onTheWay isTask op) htotal t x ?_, fun hne => ?_⟩
  · rw [onTheWay_eq_zero hready hhanded]
    omega
  · have := hn hne
    omega

/-- A caller that was not on its way stays so, or comes to be. -/
theorem Served.move {x : Place κ} (h : Served isTask op place waiters supply)
    (hgain : onTheWay isTask op t (place t) ≤ onTheWay isTask op t x) :
    Served isTask op (update place t x) waiters supply := by
  rcases h with ⟨n, htotal, hn⟩
  have hshare := htotal.le t
  refine ⟨n + onTheWay isTask op t x - onTheWay isTask op t (place t),
    Total.update (onTheWay isTask op) htotal t x (by omega), fun hne => ?_⟩
  have := hn hne
  omega

/-- A caller of another operation. -/
theorem Served.other {x : Place κ} (h : Served isTask op place waiters supply)
    (hfrom : ∀ spot, place t ≠ .inside op spot) :
    Served isTask op (update place t x) waiters supply := by
  refine h.move ?_
  rw [onTheWay_eq_zero (hfrom _) (hfrom _)]
  exact Nat.zero_le _

/-- A caller parks where there is nothing. -/
theorem Served.park (h : Served isTask op place waiters supply) :
    Served isTask op (update place t (.inside op .parked)) (waiters ++ [t]) 0 := by
  rcases h.take (t := t) (x := .inside op .parked) (by simp) (by simp) le_rfl with ⟨n, htotal, -⟩
  exact ⟨n, htotal, fun _ => Nat.zero_le n⟩

/-- One more unit, and the first task of the queue is taken out for it. -/
theorem Served.give {rest : List τ} (h : Served isTask op place (t :: rest) supply)
    (htask : isTask t = true) (hparked : place t = .inside op .parked) :
    Served isTask op (update place t (.inside op .handed)) rest (supply + 1) := by
  rcases h with ⟨n, htotal, hn⟩
  have hone : onTheWay isTask op t (.inside op .handed) = 1 := if_pos ⟨htask, .inr rfl⟩
  have hzero : onTheWay isTask op t (place t) = 0 := by
    rw [hparked]
    exact onTheWay_eq_zero (by simp) (by simp)
  refine ⟨n + 1, Total.update (onTheWay isTask op) htotal t _ ?_, fun _ => ?_⟩
  · rw [hone, hzero]
  · have := hn (List.cons_ne_nil _ _)
    omega

theorem Served.empty {supply' : ℕ} (h : Served isTask op place [] supply) :
    Served isTask op place [] supply' := by
  rcases h with ⟨n, htotal, -⟩
  exact ⟨n, htotal, fun hne => absurd rfl hne⟩

/-- Everyone in a queue moves. -/
theorem Served.drain {place' : τ → Place κ} {supply' : ℕ} (moved : List τ)
    (h : Served isTask op place waiters supply) (hplace : ∀ t, t ∉ moved → place' t = place t) :
    Served isTask op place' [] supply' := by
  rcases h with ⟨n, htotal, -⟩
  have hagree : ∀ t, t ∉ moved →
      onTheWay isTask op t (place' t) = onTheWay isTask op t (place t) :=
    fun t ht => by rw [hplace t ht]
  rcases htotal.exists_of_agree moved hagree with ⟨m, hm⟩
  exact ⟨m, hm, fun hne => absurd rfl hne⟩

end Supply
