import Absolute.RtSchedulerSteps

/-!
# Suspending and resuming

The protocol between a fiber that suspends itself, the worker it leaves, and the
one waker it registered with. The fiber marks itself as suspending before it
leaves the lock under which the waker finds it, so the waker's call may come at
any point after that: while the fiber is still on its worker, while `Execute`
has it back, or when it is suspended. `Inv.apply` is every step from a state in
which every task is in its place; `suspend_protocol` is every state of every run.
-/

namespace Absolute

namespace Scheduler

open Runs

variable {Role : Type} [DecidableEq Role] {n : ℕ} {s s' : State Role n}

/-! ## What becomes of a wake-up -/

/-- The task's fiber is on its way out of a worker that has noted its wake-up. -/
def State.WillEnqueue (s : State Role n) (t : TaskId) : Prop :=
  (s.tasks t).wakePending = true ∧ ∃ w work stage, s.workers w = .busy work stage ∧ work.task = t
    ∧ (stage = .yielding ∨ stage = .switchedOut)

theorem Woken.lane_or_pending {t : TaskId} (h : Woken s t) :
    s.inLanes t = 1 ∧ (s.tasks t).state = .runnable ∨ s.inLanes t = 0 ∧ s.WillEnqueue t := by
  rcases h with ⟨l, hL⟩ | ⟨hpending, w, stage, hL, hstage⟩
  · exact .inl ⟨hL.inLanes_of_lane, hL.fits.1.state⟩
  · obtain ⟨work, hw, hwork⟩ := hL.exists_work
    exact .inr ⟨hL.inLanes_of_worker, hpending, w, work, stage, hw, hwork, hstage⟩

/-- A noted wake-up stays with a worker that is on its way to it. -/
theorem Inv.willEnqueue (hI : Inv s) {t : TaskId} (hpending : (s.tasks t).wakePending = true) :
    s.WillEnqueue t := by
  obtain ⟨p, hL⟩ := hI.locals t
  have hfits := hL.fits
  have hnot : ∀ {state}, ¬(s.tasks t).own.Is state := fun h => by
    cases h.wakePending.symm.trans hpending
  cases p with
  | unborn => exact (hnot hfits).elim
  | lane l => exact (hnot hfits.1).elim
  | nowhere =>
      rcases hfits with hsuspended | hdone | hidle
      · cases hsuspended.wakePending.symm.trans hpending
      · cases hdone.wakePending.symm.trans hpending
      · exact (hnot hidle).elim
  | worker w stage =>
      obtain ⟨work, hw, hwork⟩ := hL.exists_work
      cases stage with
      | taken | active | arming | enqueuing => exact (hnot hfits.1).elim
      | yielding => exact ⟨hpending, w, work, _, hw, hwork, .inl rfl⟩
      | switchedOut => exact ⟨hpending, w, work, _, hw, hwork, .inr rfl⟩

/-- Wake-ups the task is still to be placed for. -/
def State.owes (s : State Role n) (t : TaskId) : Prop :=
  (s.tasks t).wakePending = true ∨ ∃ w work, s.workers w = .busy work .enqueuing ∧ work.task = t

open Classical in
theorem Local.placements {t : TaskId} {p : Place n} (h : Local s t p) (ht : t < s.created) :
    s.placements.count t + (if s.owes t then 1 else 0) = 1 + s.woken.count t := by
  have hhistory := h.history
  rw [if_neg (h.born.mp ht)] at hhistory
  have howed : owed p (s.tasks t).own = if s.owes t then 1 else 0 := by
    by_cases hp : ∃ w, p = .worker w .enqueuing
    · obtain ⟨w, rfl⟩ := hp
      obtain ⟨work, hw, hwork⟩ := h.exists_work
      exact (if_pos (.inr ⟨w, work, hw, hwork⟩)).symm
    · have howes : s.owes t ↔ (s.tasks t).wakePending = true := by
        refine or_iff_left ?_
        rintro ⟨w, work, hw, rfl⟩
        exact hp ⟨w, (h.workers w .enqueuing).mp (by rw [hw]; rfl)⟩
      have hplain : owed p (s.tasks t).own = if (s.tasks t).wakePending = true then 1 else 0 := by
        cases p with
        | unborn | lane | nowhere => rfl
        | worker w stage =>
            cases stage with
            | enqueuing => exact absurd ⟨w, rfl⟩ hp
            | taken | active | arming | yielding | switchedOut => rfl
      rw [hplain]
      simp only [howes]
  omega

/-! ## Every step -/

/-- Whose waker calls `WakeLocked` in the step. -/
def State.wakes (s : State Role n) : Event Role n → Option TaskId
  | .promoteTimer _ _ => s.timers.head?.map Timer.task
  | .resume _ t => if s.schedulerInstance then some t else none
  | .notifyWaiter w => (s.workers w).waiters.head?
  | _ => none

/-- A worker that has no item and takes none is none of the tasks' concern. -/
theorem sameFor_setWorker_free {w : Fin n} {x : Worker Role} (hw : (s.workers w).task? = none)
    (hx : x.task? = none) (u : TaskId) : SameFor s (s.setWorker w x) u := by
  refine ⟨fun _ => rfl, fun v stage => ?_, rfl, .rfl, rfl, rfl⟩
  unfold State.setWorker
  dsimp only
  by_cases hv : v = w
  · subst hv
    rw [Function.update_self, hw, hx]
  · rw [Function.update_of_ne hv]

theorem onItem_cases (s : State Role n) (w : Fin n) (stage : Stage)
    (step : Work Role → Except Halt (State Role n)) :
    s.onItem w stage step = .error .disabled ∨
      ∃ work, s.workers w = .busy work stage ∧ s.onItem w stage step = step work := by
  unfold State.onItem
  cases s.workers w with
  | looping | notifying | left => exact .inl rfl
  | busy work stage' =>
      by_cases hstage : stage' = stage
      · subst hstage
        exact .inr ⟨work, rfl, if_pos rfl⟩
      · exact .inl (if_neg hstage)

variable [NeZero n]

/-- How a step can end in a state in which every task is in its place. -/
inductive Goes (s : State Role n) (e : Event Role n) : Prop where
  | disabled (h : s.apply e = .error .disabled)
  | awaitsItself (h : s.apply e = .error (.abort .awaitItself))
  | ok (s' : State Role n) (h : s.apply e = .ok s') (inv : Inv s')
      (woken : ∀ t, s.wakes e = some t → Woken s' t)

theorem Inv.goes_wake (hI : Inv s) {e : Event Role n} {t : TaskId}
    (current : Option (Fin n)) {s₁ : State Role n} (he : s.apply e = orStop (s₁.wake current t))
    (hwakers : s.wakers = t ::ₘ s₁.wakers) (hsame : ∀ u, SameFor s s₁ u)
    (hqueues : s₁.toQueues = s.toQueues) (hgauge : s₁.suspendedTasks = s.suspendedTasks)
    (hwakes : ∀ u, s.wakes e = some u → u = t) : Goes s e := by
  obtain ⟨hI₁, p, hL, hnot, hwaits⟩ := hI.handOver hwakers hsame hqueues hgauge
  obtain ⟨s', hwake, hI', hwoken⟩ := hI₁.wake hL hnot hwaits current
  rw [hwake] at he
  exact .ok s' he hI' fun u hu => hwakes u hu ▸ hwoken

theorem Inv.goes_promoteTimer (hI : Inv s) (w : Fin n) (now : ℕ) :
    Goes s (.promoteTimer w now) := by
  cases htimers : s.timers with
  | nil =>
      refine .disabled ?_
      rw [State.apply, htimers]
      cases s.workers w <;> rfl
  | cons timer rest =>
      cases hw : s.workers w with
      | looping =>
          by_cases hdue : timer.deadline ≤ now
          · refine hI.goes_wake (some w) ?_ (wakers_popTimer s htimers)
              (fun u => ⟨fun _ => rfl, fun _ _ => .rfl, rfl, .rfl, rfl, rfl⟩) rfl rfl ?_
            · rw [State.apply, hw, htimers]
              exact if_pos hdue
            · intro u hu
              rw [State.wakes, htimers] at hu
              exact (Option.some.inj hu).symm
          · refine .disabled ?_
            rw [State.apply, hw, htimers]
            exact if_neg hdue
      | busy | notifying | left =>
          refine .disabled ?_
          rw [State.apply, hw]

theorem Inv.goes_resume (hI : Inv s) (current : Option (Fin n)) (t : TaskId) :
    Goes s (.resume current t) := by
  by_cases hcall : (s.mayCall current && s.parked.contains t) = true
  · have hmem : t ∈ s.parked := by
      rw [Bool.and_eq_true, List.contains_iff_mem] at hcall
      exact hcall.2
    have hsame : ∀ u, SameFor s (s.unregister t) u := fun u =>
      ⟨fun _ => rfl, fun _ _ => .rfl, rfl, .rfl, rfl, rfl⟩
    have happly : s.apply (.resume current t)
        = orStop ((s.unregister t).resumeSchedulerTask current t) := if_pos hcall
    cases hinstance : s.schedulerInstance with
    | true =>
        refine hI.goes_wake current ?_ (wakers_unregister s hmem) hsame rfl rfl ?_
        · rw [happly]
          exact congrArg orStop (if_pos hinstance)
        · intro u hu
          rw [State.wakes, hinstance] at hu
          exact (Option.some.inj hu).symm
    | false =>
        -- the call does nothing any more
        obtain ⟨hI', -⟩ := hI.handOver (wakers_unregister s hmem) hsame rfl rfl
        refine .ok _ (happly.trans (congrArg orStop (if_neg ?_))) hI' fun u hu => ?_
        · rw [show (s.unregister t).schedulerInstance = false from hinstance]
          decide
        · rw [State.wakes, hinstance] at hu
          cases hu
  · exact .disabled (if_neg hcall)

theorem Inv.goes_notifyWaiter (hI : Inv s) (w : Fin n) : Goes s (.notifyWaiter w) := by
  cases hw : s.workers w with
  | notifying waiters =>
      have hfree : (s.workers w).task? = none := by rw [hw]; rfl
      cases waiters with
      | nil =>
          refine .ok (s.setWorker w .looping) (by rw [State.apply, hw]) ?_ fun t ht => ?_
          · exact hI.same hI.queues (sameFor_setWorker_free hfree rfl)
              (le_of_eq (s.wakers_setWorker w (congrArg Worker.waiters hw).symm)) rfl
          · rw [State.wakes, hw] at ht
            cases ht
      | cons t rest =>
          refine hI.goes_wake (some w) (by rw [State.apply, hw]) (wakers_notify s hw)
            (sameFor_setWorker_free hfree rfl) rfl rfl fun u hu => ?_
          rw [State.wakes, hw] at hu
          exact (Option.some.inj hu).symm
  | looping | busy | left =>
      refine .disabled ?_
      rw [State.apply, hw]

/-- A step of a worker or its fiber that keeps every task in its place. -/
theorem goes_onItem {e : Event Role n} {w : Fin n} {stage : Stage}
    {step : Work Role → Except Halt (State Role n)} (he : s.apply e = s.onItem w stage step)
    (hwakes : s.wakes e = none)
    (hstep : ∀ work, s.workers w = .busy work stage → step work = .error .disabled
      ∨ step work = .error (.abort .awaitItself) ∨ ∃ s', step work = .ok s' ∧ Inv s') :
    Goes s e := by
  rcases onItem_cases s w stage step with hdisabled | ⟨work, hw, hwork⟩
  · exact .disabled (he.trans hdisabled)
  · rcases hstep work hw with hd | ha | ⟨s', hok, hI'⟩
    · exact .disabled (he.trans (hwork.trans hd))
    · exact .awaitsItself (he.trans (hwork.trans ha))
    · refine .ok s' (he.trans (hwork.trans hok)) hI' fun t ht => ?_
      rw [hwakes] at ht
      cases ht

theorem Inv.goes_wait (hI : Inv s) (w : Fin n) (awaited : TaskId) : Goes s (.wait w awaited) := by
  refine goes_onItem rfl rfl fun work hw => ?_
  by_cases hcreated : s.created ≤ awaited
  · exact .inl (if_pos hcreated)
  · by_cases hself : awaited = work.task
    · exact .inr (.inl ((if_neg hcreated).trans (if_pos hself)))
    · by_cases hdone : (s.tasks awaited).done = true
      · exact .inr (.inr ⟨s, (if_neg hcreated).trans ((if_neg hself).trans (if_pos hdone)), hI⟩)
      · obtain ⟨s₁, hprepare, hI₁⟩ := hI.wait hw (Nat.lt_of_not_le hcreated) hself
        refine .inr (.inr ⟨_, (if_neg hcreated).trans ((if_neg hself).trans
          ((if_neg hdone).trans ?_)), hI₁⟩)
        rw [hprepare]
        rfl

/-- No step takes the scheduler out of order, and none stops the program but a
task that awaits itself. -/
theorem Inv.apply (hI : Inv s) (e : Event Role n) : Goes s e := by
  cases e with
  | submit current core priority role =>
      by_cases hcall : s.mayCall current = true
      · exact .ok _ (if_pos hcall) (hI.submit current core priority role).1 fun t ht => by cases ht
      · exact .disabled (if_neg hcall)
  | take w =>
      cases hw : s.workers w with
      | looping =>
          obtain ⟨s', htake, hI'⟩ := hI.runTake hw
          refine .ok s' ?_ hI' fun t ht => by cases ht
          rw [State.apply, hw]
          exact congrArg orStop htake
      | busy | notifying | left =>
          refine .disabled ?_
          rw [State.apply, hw]
  | promoteTimer w now => exact hI.goes_promoteTimer w now
  | execute w =>
      exact goes_onItem rfl rfl fun work hw => .inr (.inr ⟨_, rfl, hI.execute hw⟩)
  | prepareSuspend w =>
      refine goes_onItem rfl rfl fun work hw => ?_
      obtain ⟨s₁, hprepare, hI₁⟩ := hI.prepareSuspend hw
      refine .inr (.inr ⟨_, ?_, hI₁⟩)
      rw [hprepare]
      rfl
  | pushTimer w deadline =>
      exact goes_onItem rfl rfl fun work hw => .inr (.inr ⟨_, rfl, hI.pushTimer hw deadline⟩)
  | register w =>
      exact goes_onItem rfl rfl fun work hw => .inr (.inr ⟨_, rfl, hI.register hw⟩)
  | park w =>
      refine goes_onItem rfl rfl fun work hw => ?_
      obtain ⟨s₁, hprepare, hI₁⟩ := hI.park hw
      refine .inr (.inr ⟨_, ?_, hI₁⟩)
      rw [hprepare]
      rfl
  | wait w awaited => exact hI.goes_wait w awaited
  | yieldCurrent w =>
      exact goes_onItem rfl rfl fun work hw => .inr (.inr ⟨_, rfl, hI.yieldCurrent hw⟩)
  | finish w =>
      exact goes_onItem rfl rfl fun work hw => .inr (.inr ⟨_, rfl, hI.finish hw⟩)
  | resume current t => exact hI.goes_resume current t
  | afterSwitch w =>
      refine goes_onItem rfl rfl fun work hw => ?_
      obtain ⟨s', hafter, hI', -⟩ := hI.afterSwitch hw
      exact .inr (.inr ⟨s', congrArg orStop hafter, hI'⟩)
  | enqueue w =>
      exact goes_onItem rfl rfl fun work hw => .inr (.inr ⟨_, rfl, (hI.enqueue hw).1⟩)
  | notifyWaiter w => exact hI.goes_notifyWaiter w
  | withdraw =>
      exact .ok _ rfl (hI.same hI.queues (fun u => ⟨fun _ => rfl, fun _ _ => .rfl, rfl, .rfl, rfl,
        rfl⟩) le_rfl rfl) fun t ht => by cases ht
  | stop =>
      by_cases hinstance : s.schedulerInstance = true
      · exact .disabled (if_pos hinstance)
      · exact .ok _ (if_neg hinstance) (hI.same hI.queues (fun u => ⟨fun _ => rfl, fun _ _ => .rfl,
          rfl, .rfl, rfl, rfl⟩) le_rfl rfl) fun t ht => by cases ht

/-! ## Every run -/

theorem wakers_initial [Inhabited Role] : (State.initial : State Role n).wakers = 0 := by
  have hworkers :
      ∑ w, (↑((State.initial : State Role n).workers w).waiters : Multiset TaskId) = 0 :=
    Finset.sum_eq_zero fun w _ => rfl
  unfold State.wakers
  rw [hworkers]
  rfl

theorem inv_initial [Inhabited Role] : Inv (State.initial : State Role n) where
  queues := Queues.wellFormed_initial
  locals t := by
    refine ⟨.unborn, fun l => ?_, fun w stage => ?_, ⟨rfl, rfl, rfl, rfl⟩, ?_, ?_, ?_, rfl⟩
    · rw [if_neg (by rintro ⟨⟩)]
      exact congrArg (Multiset.countP _) (Queues.contents_initial l)
    · exact ⟨nofun, nofun⟩
    · rw [wakers_initial]
      exact Nat.zero_le 1
    · rw [wakers_initial]
      exact fun hmem => absurd hmem (Multiset.notMem_zero t)
    · exact ⟨fun h => absurd h (Nat.not_lt_zero t), fun h => absurd rfl h⟩
  gauge := rfl

theorem inv_of_run [Inhabited Role] {past : List (Event Role n)}
    (hrun : Run State.Step State.initial past s) : Inv s := by
  refine hrun.stateInvariant inv_initial fun s e s' hI hstep => ?_
  cases hI.apply e with
  | disabled h => cases h.symm.trans hstep
  | awaitsItself h => cases h.symm.trans hstep
  | ok s'' h hI' => exact Except.ok.inj (h.symm.trans hstep) ▸ hI'

/-! ## The protocol -/

open Classical in
/-- In every state of every run: a task lies in at most one lane, and there
once; whatever is done next, nothing stops the program but a task awaiting
itself; `suspendedTasks` is the number of suspended tasks; at most one waker owes
a task a call; when that waker calls `WakeLocked`, the task lies in exactly one
lane afterwards, or has its wake-up noted while its worker is on the way to see
it; `Execute` then turns every noted wake-up into exactly one place in a lane;
and a task has been placed once when it was made and once for each wake-up. -/
theorem suspend_protocol [Inhabited Role] {past : List (Event Role n)} {s : State Role n}
    (hrun : Run State.Step State.initial past s) :
    (∀ t, s.inLanes t ≤ 1)
    ∧ (∀ e site, s.apply e = .error (.abort site) → site = .awaitItself)
    ∧ s.suspendedTasks
        = ((Finset.range s.created).filter fun t => (s.tasks t).state = .suspended).card
    ∧ (∀ t, s.wakers.count t ≤ 1)
    ∧ (∀ e s' t, s.apply e = .ok s' → s.wakes e = some t →
        s'.inLanes t = 1 ∧ (s'.tasks t).state = .runnable ∨ s'.inLanes t = 0 ∧ s'.WillEnqueue t)
    ∧ (∀ t, (s.tasks t).wakePending = true → s.WillEnqueue t)
    ∧ (∀ w work, s.workers w = .busy work .switchedOut → (s.tasks work.task).wakePending = true →
        ∃ s', s.apply (.afterSwitch w) = .ok s' ∧ s'.workers w = .busy work .enqueuing)
    ∧ (∀ w work, s.workers w = .busy work .enqueuing →
        ∃ s', s.apply (.enqueue w) = .ok s' ∧ s'.inLanes work.task = 1)
    ∧ (∀ t < s.created,
        s.placements.count t + (if s.owes t then 1 else 0) = 1 + s.woken.count t) := by
  have hI := inv_of_run hrun
  refine ⟨fun t => ?_, fun e site he => ?_, hI.gauge, fun t => ?_, fun e s' t he hwakes => ?_,
    fun t => hI.willEnqueue, fun w work hw hpending => ?_, fun w work hw => ?_, fun t ht => ?_⟩
  · obtain ⟨p, hL⟩ := hI.locals t
    exact hL.inLanes_le
  · cases hI.apply e with
    | disabled h => cases h.symm.trans he
    | awaitsItself h => exact (Halt.abort.inj (Except.error.inj (h.symm.trans he))).symm
    | ok s' h => cases h.symm.trans he
  · obtain ⟨p, hL⟩ := hI.locals t
    exact hL.wakers
  · cases hI.apply e with
    | disabled h => cases h.symm.trans he
    | awaitsItself h => cases h.symm.trans he
    | ok s'' h _ hwoken =>
        obtain rfl := Except.ok.inj (h.symm.trans he)
        exact (hwoken t hwakes).lane_or_pending
  · obtain ⟨s', hafter, -, henqueuing⟩ := hI.afterSwitch hw
    refine ⟨s', ?_, henqueuing hpending⟩
    rw [State.apply, State.onItem, hw]
    exact (if_pos rfl).trans (congrArg orStop hafter)
  · obtain ⟨-, l, hL⟩ := hI.enqueue hw
    refine ⟨_, ?_, hL.inLanes_of_lane⟩
    rw [State.apply, State.onItem, hw]
    exact if_pos rfl
  · obtain ⟨p, hL⟩ := hI.locals t
    exact hL.placements ht

/-- One worker; a task parks itself, and its waker calls while its fiber is
still on its way out. -/
theorem suspend_protocol_early_wake :
    ∃ past, ∃ s : State Unit 1, Run State.Step State.initial past s
      ∧ (s.tasks 0).wakePending = true ∧ s.WillEnqueue 0 ∧ s.suspendedTasks = 0 := by
  have hrun : Run State.Step (State.initial : State Unit 1)
      [.resume none 0, .park 0, .execute 0, .take 0, .submit none (-1) ⟨0, by decide⟩ ()] _ :=
    .cons (.cons (.cons (.cons (.cons .nil rfl) rfl) rfl) rfl) rfl
  exact ⟨_, _, hrun, rfl, (suspend_protocol hrun).2.2.2.2.2.1 0 rfl, rfl⟩

end Scheduler

end Absolute
