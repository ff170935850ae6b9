import Absolute.RtSchedulerInv

/-!
# Every step keeps every task in its place

One lemma for each way a step moves a task: the worker that has it goes on
(`Inv.advance`), it is placed in a lane, it is taken from one, its waker calls.
`Inv.step` puts them together. What the steps that could stop the program come
to is part of their lemmas: none of them does.
-/

namespace Absolute

namespace Scheduler

open Function

variable {Role : Type} {n : ℕ}

/-! ## The worker goes on -/

/-- The worker goes on with the same item. -/
theorem busy_task? (w : Fin n) (work : Work Role) (stage : Stage) (u : TaskId) (stage' : Stage) :
    (Worker.busy work stage).task? = some (u, stage')
      ↔ u = work.task ∧ Place.worker w stage = .worker w stage' := by
  simp [Worker.task?, eq_comm]

/-- The worker is done with the item. -/
theorem free_task? {x : Worker Role} (hx : x.task? = none) (w : Fin n) (work : Work Role)
    (u : TaskId) (stage' : Stage) :
    x.task? = some (u, stage') ↔ u = work.task ∧ Place.nowhere = .worker w stage' := by
  simp [hx]

variable [DecidableEq Role] {s s' : State Role n}

theorem Inv.local_of_busy (hI : Inv s) {w : Fin n} {work : Work Role} {stage : Stage}
    (hw : s.workers w = .busy work stage) : Local s work.task (.worker w stage) := by
  obtain ⟨p, hp⟩ := hI.locals work.task
  obtain rfl := (hp.workers w stage).mp (by rw [hw]; rfl)
  exact hp

/-- A task a worker has is not suspended. -/
theorem Local.share_of_worker {t : TaskId} {w : Fin n} {stage : Stage}
    (h : Local s t (.worker w stage)) : suspendedShare s t = 0 := by
  have hne : (s.tasks t).own.state ≠ .suspended := by
    have hfits := h.fits
    cases stage with
    | taken | active | arming | enqueuing => rw [hfits.1.state]; decide
    | yielding => rw [hfits.state]; decide
    | switchedOut =>
        rcases hfits with hfits | hfits
        · rw [hfits.state]; decide
        · rw [hfits.state]; decide
  exact if_neg hne

/-- The worker `w` does something about the task of its item: it goes on to
`x`, and the task to the place `p` with the fields `k`. Nobody else is owed a
call, or the task is, which was not before. -/
theorem Inv.advance (hI : Inv s) {w : Fin n} {work : Work Role} {stage : Stage}
    (hw : s.workers w = .busy work stage) {x : Worker Role} {p : Place n} {k : Task Role n}
    (hx : ∀ u stage', x.task? = some (u, stage') ↔ u = work.task ∧ p = .worker w stage')
    (hp : p = .nowhere ∨ ∃ stage', p = .worker w stage')
    (hworkers : s'.workers = update s.workers w x)
    (hqueues : s'.toQueues = s.toQueues)
    (hcreated : s'.created = s.created)
    (hplacements : s'.placements = s.placements) (hwoken : s'.woken = s.woken)
    (hk : s'.tasks work.task = k)
    (htasks : ∀ u, u ≠ work.task → (s'.tasks u).own = (s.tasks u).own)
    (hfits : Fits p k.own)
    (hwakers : s'.wakers = s.wakers
        ∧ (Waits (.worker w stage) (s.tasks work.task).own → Waits p k.own)
      ∨ s'.wakers = work.task ::ₘ s.wakers
        ∧ ¬Waits (.worker w stage) (s.tasks work.task).own ∧ Waits p k.own)
    (howed : owed p k.own = owed (.worker w stage) (s.tasks work.task).own)
    (hgauge : s'.suspendedTasks = s.suspendedTasks + if k.state = .suspended then 1 else 0) :
    Inv s' := by
  subst hk
  have hL := hI.local_of_busy hw
  have hlanes : ∀ u l, s'.inLane u l = s.inLane u l := fun u l => by
    unfold State.inLane
    rw [hqueues]
  refine hI.moves (t := work.task) (p := p) ⟨hqueues ▸ hI.queues, ?_, ?_, ?_⟩
  · intro u hu
    refine ⟨⟨hlanes u, fun v stage' => ?_, htasks u hu, by rw [hcreated], by rw [hplacements],
      by rw [hwoken]⟩, ?_⟩
    · rw [hworkers]
      by_cases hv : v = w
      · subst hv
        rw [update_self, hw, hx]
        simp [Worker.task?, hu, eq_comm (a := work.task)]
      · rw [update_of_ne hv]
    · rcases hwakers with ⟨heq, -⟩ | ⟨hcons, -⟩
      · rw [heq]
      · rw [hcons, Multiset.count_cons_of_ne hu]
  · refine ⟨fun l => ?_, fun v stage' => ?_, hfits, ?_, ?_, ?_, ?_⟩
    · rw [hlanes, hL.lanes]
      rcases hp with rfl | ⟨stage', rfl⟩ <;> rfl
    · rw [hworkers]
      by_cases hv : v = w
      · subst hv
        rw [update_self, hx]
        simp
      · rw [update_of_ne hv, hL.workers]
        rcases hp with rfl | ⟨stage', rfl⟩ <;> simp [Ne.symm hv]
    · rcases hwakers with ⟨heq, -⟩ | ⟨hcons, hnot, -⟩
      · rw [heq]
        exact hL.wakers
      · rw [hcons, Multiset.count_cons_self,
          Multiset.count_eq_zero_of_notMem fun hmem => hnot (hL.waits hmem)]
    · rcases hwakers with ⟨heq, hwaits⟩ | ⟨-, -, hwaits⟩
      · rw [heq]
        exact fun hmem => hwaits (hL.waits hmem)
      · exact fun _ => hwaits
    · have hborn := hL.born
      rw [hcreated, hborn]
      rcases hp with rfl | ⟨stage', rfl⟩ <;> simp
    · have hhistory := hL.history
      rw [hplacements, hwoken, howed, hhistory]
      rcases hp with rfl | ⟨stage', rfl⟩ <;> rfl
  · rw [hL.share_of_worker, hgauge, suspendedShare]
    split <;> simp

theorem Local.not_mem_wakers {t : TaskId} {p : Place n} (h : Local s t p)
    (hp : ¬Waits p (s.tasks t).own) : t ∉ s.wakers :=
  mt h.waits hp

/-! ## Who owes whom a call -/

theorem wakers_register (s : State Role n) (t : TaskId) :
    (s.register t).wakers = t ::ₘ s.wakers := by
  unfold State.wakers State.register
  rw [← Multiset.coe_add, Multiset.coe_singleton, ← Multiset.singleton_add]
  ac_rfl

theorem wakers_unregister (s : State Role n) {t : TaskId} (ht : t ∈ s.parked) :
    s.wakers = t ::ₘ (s.unregister t).wakers := by
  have hperm : (↑s.parked : Multiset TaskId) = {t} + ↑(s.parked.erase t) := by
    rw [Multiset.singleton_add, Multiset.cons_coe]
    exact Multiset.coe_eq_coe.mpr (List.perm_cons_erase ht)
  unfold State.wakers State.unregister
  rw [hperm, ← Multiset.singleton_add]
  ac_rfl

theorem wakers_pushTimer (s : State Role n) (deadline : ℕ) (t : TaskId) :
    (s.pushTimer deadline t).wakers = t ::ₘ s.wakers := by
  have hperm : (↑((s.pushTimer deadline t).timers.map Timer.task) : Multiset TaskId)
      = {t} + ↑(s.timers.map Timer.task) := by
    rw [Multiset.singleton_add, Multiset.cons_coe]
    exact Multiset.coe_eq_coe.mpr ((List.perm_orderedInsert _ _ _).map Timer.task)
  unfold State.wakers
  rw [hperm, ← Multiset.singleton_add]
  show _ + _ + _ + _ = {t} + (_ + _ + _ + _)
  ac_rfl

theorem wakers_popTimer (s : State Role n) {timer : Timer} {rest : List Timer}
    (h : s.timers = timer :: rest) : s.wakers = timer.task ::ₘ s.popTimer.wakers := by
  unfold State.wakers State.popTimer
  rw [h, List.map_cons, ← Multiset.cons_coe, ← Multiset.singleton_add, ← Multiset.singleton_add,
    List.tail_cons]
  ac_rfl

/-- The waiters of the workers after one of them changes, against those before. -/
theorem wakers_notify (s : State Role n) {w : Fin n} {t : TaskId} {rest : List TaskId}
    (h : s.workers w = .notifying (t :: rest)) :
    s.wakers = t ::ₘ (s.setWorker w (.notifying rest)).wakers := by
  have hsum := Tally.sum_update (g := fun x : Worker Role => (↑x.waiters : Multiset TaskId))
    Finset.univ (Finset.mem_univ w) s.workers (.notifying rest)
  rw [h] at hsum
  have hcancel : ∑ v, (↑(s.workers v).waiters : Multiset TaskId)
      = {t} + ∑ v, ↑(update s.workers w (.notifying rest) v).waiters := by
    refine add_right_cancel (b := (↑rest : Multiset TaskId)) (hsum.symm.trans ?_)
    show _ + (↑(t :: rest) : Multiset TaskId) = _
    rw [← Multiset.cons_coe, ← Multiset.singleton_add]
    ac_rfl
  unfold State.wakers State.setWorker
  rw [hcancel, ← Multiset.singleton_add]
  ac_rfl

theorem wakers_pushWaiter (s : State Role n) {awaited t : TaskId} (h : awaited < s.created) :
    (s.pushWaiter awaited t).wakers = t ::ₘ s.wakers := by
  have hsum := Tally.sum_update
    (g := fun k : Task Role n => (↑k.completionWaiters : Multiset TaskId))
    (Finset.range s.created) (Finset.mem_range.mpr h) s.tasks { s.tasks awaited with
      completionWaiters := (s.tasks awaited).completionWaiters ++ [t] }
  rw [← Multiset.coe_add, Multiset.coe_singleton, ← add_assoc, add_right_comm] at hsum
  have hcancel := add_right_cancel hsum
  unfold State.wakers State.pushWaiter State.setTask
  dsimp only
  rw [hcancel, ← Multiset.singleton_add]
  ac_rfl

/-- A finished task hands its waiters to the worker that resumes them. -/
theorem wakers_finished (s : State Role n) {w : Fin n} {t : TaskId} {k : Task Role n}
    (ht : t < s.created) (hw : (s.workers w).waiters = [])
    (hk : k.completionWaiters = []) :
    ((s.setTask t k).setWorker w (.notifying (s.tasks t).completionWaiters)).wakers
      = s.wakers := by
  have htasks := Tally.sum_update
    (g := fun k : Task Role n => (↑k.completionWaiters : Multiset TaskId))
    (Finset.range s.created) (Finset.mem_range.mpr ht) s.tasks k
  have hworkers := Tally.sum_update (g := fun x : Worker Role => (↑x.waiters : Multiset TaskId))
    Finset.univ (Finset.mem_univ w) s.workers (.notifying (s.tasks t).completionWaiters)
  rw [hk, Multiset.coe_nil, add_zero] at htasks
  rw [hw, Multiset.coe_nil, add_zero] at hworkers
  unfold State.wakers State.setTask State.setWorker
  dsimp only
  rw [hworkers, ← htasks]
  show _ + _ + (_ + (↑(s.tasks t).completionWaiters : Multiset TaskId)) = _
  ac_rfl

/-- A worker that goes on leaves the waiters of tasks alone. -/
theorem wakers_goOn (s : State Role n) {w : Fin n} {t : TaskId} {k : Task Role n}
    {x : Worker Role} (hk : k.completionWaiters = (s.tasks t).completionWaiters)
    (hx : x.waiters = (s.workers w).waiters) :
    ((s.setTask t k).setWorker w x).wakers = s.wakers :=
  ((s.setTask t k).wakers_setWorker w hx).trans (s.wakers_setTask t hk)

/-! ## The steps of a fiber and its worker -/

theorem Inv.execute (hI : Inv s) {w : Fin n} {work : Work Role}
    (hw : s.workers w = .busy work .taken) : Inv (s.execute w work) := by
  obtain ⟨hidle, howner⟩ := (hI.local_of_busy hw).fits
  refine hI.advance hw (busy_task? w work .active) (.inr ⟨_, rfl⟩) rfl rfl rfl rfl rfl
    (update_self ..) (fun u hu => congrArg Task.own (update_of_ne hu _ _)) ?_
    (.inl ⟨wakers_goOn s rfl (by rw [hw]; rfl), id⟩) rfl (add_zero _).symm
  exact ⟨⟨rfl, hidle.wakePending, hidle.finished, hidle.suspensionActive⟩, congrArg some howner⟩

theorem prepareSuspend_eq {t : TaskId} (h : (s.tasks t).state = .running) :
    s.prepareSuspend t = .ok (s.setTask t { s.tasks t with state := .suspending }) :=
  if_pos h

theorem Inv.prepareSuspend (hI : Inv s) {w : Fin n} {work : Work Role}
    (hw : s.workers w = .busy work .active) :
    ∃ s₁, s.prepareSuspend work.task = .ok s₁ ∧ Inv (s₁.setWorker w (.busy work .arming)) := by
  obtain ⟨hidle, howner⟩ := (hI.local_of_busy hw).fits
  refine ⟨_, prepareSuspend_eq hidle.state, ?_⟩
  refine hI.advance hw (busy_task? w work .arming) (.inr ⟨_, rfl⟩) rfl rfl rfl rfl rfl
    (update_self ..) (fun u hu => congrArg Task.own (update_of_ne hu _ _)) ?_
    (.inl ⟨wakers_goOn s rfl (by rw [hw]; rfl), id⟩) rfl (add_zero _).symm
  exact ⟨⟨rfl, hidle.wakePending, hidle.finished, hidle.suspensionActive⟩, howner⟩

theorem Inv.park (hI : Inv s) {w : Fin n} {work : Work Role}
    (hw : s.workers w = .busy work .active) :
    ∃ s₁, (s.register work.task).prepareSuspend work.task = .ok s₁
      ∧ Inv (s₁.setWorker w (.busy work .yielding)) := by
  obtain ⟨hidle, howner⟩ := (hI.local_of_busy hw).fits
  have hw' : (Worker.busy work .yielding).waiters = ((s.register work.task).workers w).waiters :=
    (congrArg Worker.waiters hw).symm
  refine ⟨_, prepareSuspend_eq (s := s.register work.task) hidle.state, ?_⟩
  refine hI.advance hw (busy_task? w work .yielding) (.inr ⟨_, rfl⟩) rfl rfl rfl rfl rfl
    (update_self ..) (fun u hu => congrArg Task.own (update_of_ne hu _ _)) ?_
    (.inr ⟨?_, id, hidle.wakePending⟩) rfl (add_zero _).symm
  · exact ⟨rfl, hidle.finished, hidle.suspensionActive, howner⟩
  · refine Eq.trans (wakers_goOn (s.register work.task) ?_ hw') (wakers_register s work.task)
    rfl

theorem own_pushWaiter (s : State Role n) (awaited t u : TaskId) :
    ((s.pushWaiter awaited t).tasks u).own = (s.tasks u).own := by
  unfold State.pushWaiter State.setTask
  dsimp only
  by_cases hu : u = awaited
  · subst hu
    rw [update_self]
    rfl
  · rw [update_of_ne hu]

theorem Inv.wait (hI : Inv s) {w : Fin n} {work : Work Role}
    (hw : s.workers w = .busy work .active) {awaited : TaskId} (hcreated : awaited < s.created)
    (hne : awaited ≠ work.task) :
    ∃ s₁, (s.pushWaiter awaited work.task).prepareSuspend work.task = .ok s₁
      ∧ Inv (s₁.setWorker w (.busy work .yielding)) := by
  obtain ⟨hidle, howner⟩ := (hI.local_of_busy hw).fits
  have htask : (s.pushWaiter awaited work.task).tasks work.task = s.tasks work.task :=
    update_of_ne (Ne.symm hne) _ _
  have hw' : (Worker.busy work .yielding).waiters
      = ((s.pushWaiter awaited work.task).workers w).waiters := (congrArg Worker.waiters hw).symm
  refine ⟨_, prepareSuspend_eq (by rw [htask]; exact hidle.state), ?_⟩
  rw [htask]
  refine hI.advance hw (busy_task? w work .yielding) (.inr ⟨_, rfl⟩) rfl rfl rfl rfl rfl
    (update_self ..) (fun u hu => ?_) ?_ (.inr ⟨?_, id, hidle.wakePending⟩) rfl (add_zero _).symm
  · exact ((s.pushWaiter awaited work.task).sameFor_setTask hu _).own.trans
      (own_pushWaiter s awaited work.task u)
  · exact ⟨rfl, hidle.finished, hidle.suspensionActive, howner⟩
  · rw [wakers_goOn _ (by rw [htask]) hw', wakers_pushWaiter s hcreated]

theorem Inv.pushTimer (hI : Inv s) {w : Fin n} {work : Work Role}
    (hw : s.workers w = .busy work .arming) (deadline : ℕ) :
    Inv ((s.pushTimer deadline work.task).setWorker w (.busy work .yielding)) := by
  obtain ⟨hidle, howner⟩ := (hI.local_of_busy hw).fits
  have hw' : (Worker.busy work .yielding).waiters
      = ((s.pushTimer deadline work.task).workers w).waiters := (congrArg Worker.waiters hw).symm
  have hstate : (s.tasks work.task).state ≠ .suspended := by
    rw [show (s.tasks work.task).state = .suspending from hidle.state]
    decide
  refine hI.advance hw (k := s.tasks work.task) (busy_task? w work .yielding) (.inr ⟨_, rfl⟩)
    rfl rfl rfl rfl rfl rfl (fun _ _ => rfl) ?_ (.inr ⟨?_, id, hidle.wakePending⟩) rfl ?_
  · exact ⟨hidle.state, hidle.finished, hidle.suspensionActive, howner⟩
  · rw [State.wakers_setWorker _ w hw', wakers_pushTimer]
  · rw [if_neg hstate]
    exact (add_zero _).symm

theorem Inv.register (hI : Inv s) {w : Fin n} {work : Work Role}
    (hw : s.workers w = .busy work .arming) :
    Inv ((s.register work.task).setWorker w (.busy work .yielding)) := by
  obtain ⟨hidle, howner⟩ := (hI.local_of_busy hw).fits
  have hw' : (Worker.busy work .yielding).waiters = ((s.register work.task).workers w).waiters :=
    (congrArg Worker.waiters hw).symm
  have hstate : (s.tasks work.task).state ≠ .suspended := by
    rw [show (s.tasks work.task).state = .suspending from hidle.state]
    decide
  refine hI.advance hw (k := s.tasks work.task) (busy_task? w work .yielding) (.inr ⟨_, rfl⟩)
    rfl rfl rfl rfl rfl rfl (fun _ _ => rfl) ?_ (.inr ⟨?_, id, hidle.wakePending⟩) rfl ?_
  · exact ⟨hidle.state, hidle.finished, hidle.suspensionActive, howner⟩
  · rw [State.wakers_setWorker _ w hw', wakers_register]
  · rw [if_neg hstate]
    exact (add_zero _).symm

theorem Inv.yieldCurrent (hI : Inv s) {w : Fin n} {work : Work Role}
    (hw : s.workers w = .busy work .yielding) : Inv (s.setWorker w (.busy work .switchedOut)) := by
  have hfits := (hI.local_of_busy hw).fits
  have hstate : (s.tasks work.task).state ≠ .suspended := by
    rw [show (s.tasks work.task).state = .suspending from hfits.state]
    decide
  refine hI.advance hw (k := s.tasks work.task) (busy_task? w work .switchedOut) (.inr ⟨_, rfl⟩)
    rfl rfl rfl rfl rfl rfl (fun _ _ => rfl) (.inl hfits) (.inl ⟨?_, ?_⟩) rfl ?_
  · exact s.wakers_setWorker w (congrArg Worker.waiters hw).symm
  · exact fun hpending => ⟨hfits.state, hpending⟩
  · rw [if_neg hstate]
    exact (add_zero _).symm

theorem Inv.finish (hI : Inv s) {w : Fin n} {work : Work Role}
    (hw : s.workers w = .busy work .active) :
    Inv ((s.setTask work.task { s.tasks work.task with finished := true }).setWorker w
      (.busy work .switchedOut)) := by
  obtain ⟨hidle, -⟩ := (hI.local_of_busy hw).fits
  have hstate : (s.tasks work.task).state ≠ .suspended := by
    rw [show (s.tasks work.task).state = .running from hidle.state]
    decide
  refine hI.advance hw (busy_task? w work .switchedOut) (.inr ⟨_, rfl⟩) rfl rfl rfl rfl rfl
    (update_self ..) (fun u hu => congrArg Task.own (update_of_ne hu _ _)) (.inr ?_)
    (.inl ⟨?_, False.elim⟩) rfl ?_
  · exact ⟨hidle.state, rfl, hidle.wakePending, hidle.suspensionActive⟩
  · exact wakers_goOn s rfl (congrArg Worker.waiters hw).symm
  · rw [if_neg hstate]
    exact (add_zero _).symm

/-- What `Execute` does after the switch: the task is done and its waiters are
to be resumed; or its wake-up has arrived and it is to be placed again; or it is
suspended from here on. -/
theorem Inv.afterSwitch (hI : Inv s) {w : Fin n} {work : Work Role}
    (hw : s.workers w = .busy work .switchedOut) :
    ∃ s', s.afterSwitch w work = .ok s' ∧ Inv s'
      ∧ ((s.tasks work.task).wakePending = true → s'.workers w = .busy work .enqueuing) := by
  have hL := hI.local_of_busy hw
  unfold State.afterSwitch
  dsimp only
  rcases hL.fits with hsuspending | hfinished
  · have hnot : ¬(s.tasks work.task).finished = true := by
      rw [show (s.tasks work.task).finished = false from hsuspending.finished]
      decide
    have hstate : ¬(s.tasks work.task).state ≠ .suspending :=
      not_not.mpr hsuspending.state
    rw [if_neg hnot, if_neg hstate]
    split
    · rename_i hpending
      refine ⟨_, rfl, ?_, fun _ => update_self ..⟩
      refine hI.advance hw (busy_task? w work .enqueuing) (.inr ⟨_, rfl⟩) rfl rfl rfl rfl rfl
        (update_self ..) (fun u hu => congrArg Task.own (update_of_ne hu _ _)) ?_
        (.inl ⟨?_, ?_⟩) ?_ (add_zero _).symm
      · exact ⟨⟨rfl, rfl, hsuspending.finished, hsuspending.suspensionActive⟩, hsuspending.owner⟩
      · exact wakers_goOn s rfl (congrArg Worker.waiters hw).symm
      · rintro ⟨-, hnone⟩
        cases hnone.symm.trans hpending
      · unfold owed
        exact (if_pos hpending).symm
    · rename_i hnone
      refine ⟨_, rfl, ?_, fun hpending => absurd hpending hnone⟩
      refine hI.advance hw (free_task? rfl w work) (.inl rfl) rfl rfl rfl rfl rfl
        (update_self ..) (fun u hu => congrArg Task.own (update_of_ne hu _ _)) ?_
        (.inl ⟨?_, fun _ => rfl⟩) rfl rfl
      · exact .inl ⟨rfl, Bool.eq_false_of_not_eq_true hnone, hsuspending.finished, rfl, w,
          hsuspending.owner⟩
      · exact wakers_goOn s rfl (congrArg Worker.waiters hw).symm
  · rw [if_pos (show (s.tasks work.task).finished = true from hfinished.finished)]
    have hcreated : work.task < s.created := hL.born.mpr (by rintro ⟨⟩)
    refine ⟨_, rfl, ?_, fun hpending => ?_⟩
    · refine hI.advance hw (free_task? rfl w work) (.inl rfl) rfl rfl rfl rfl rfl
        (update_self ..) (fun u hu => congrArg Task.own (update_of_ne hu _ _)) ?_
        (.inl ⟨?_, ?_⟩) rfl (add_zero _).symm
      · exact .inr (.inl ⟨rfl, hfinished.finished, hfinished.wakePending,
          hfinished.suspensionActive⟩)
      · exact wakers_finished s hcreated (congrArg Worker.waiters hw) rfl
      · rintro ⟨hstate, -⟩
        cases hstate.symm.trans hfinished.state
    · cases hfinished.wakePending.symm.trans hpending

/-! ## Into a lane -/

/-- The task `t`, of which no lane and, from now on, no worker knows, comes into
the lane `l`. -/
theorem Inv.placed (hI : Inv s) {t : TaskId} {p : Place n} {l : Lane n} (hL : Local s t p)
    (hp : ∀ l', p ≠ .lane l') (hqueues : s'.toQueues.WellFormed)
    (hlanes : ∀ u l', s'.inLane u l' = s.inLane u l' + if t = u ∧ l' = l then 1 else 0)
    (hworkers : ∀ v u stage, (s'.workers v).task? = some (u, stage)
      ↔ u ≠ t ∧ (s.workers v).task? = some (u, stage))
    (hborn : ∀ u, u < s'.created ↔ u = t ∨ u < s.created)
    (htasks : ∀ u, u ≠ t → (s'.tasks u).own = (s.tasks u).own)
    (hfits : Fits (.lane l) (s'.tasks t).own)
    (hplacements : s'.placements = s.placements ++ [t])
    (hwoken : ∀ u, u ≠ t → s'.woken.count u = s.woken.count u)
    (howed : s'.woken.count t + owed p (s.tasks t).own
      = s.woken.count t + if p = .unborn then 0 else 1)
    (hwakers : s'.wakers = s.wakers) (hnot : t ∉ s.wakers)
    (hgauge : s'.suspendedTasks + suspendedShare s t = s.suspendedTasks) :
    Inv s' ∧ Local s' t (.lane l) := by
  have hhere : Local s' t (.lane l) := by
    refine ⟨fun l' => ?_, fun v stage => ?_, hfits, ?_, ?_, ?_, ?_⟩
    · rw [hlanes, hL.lanes, if_neg (hp l')]
      simp [eq_comm]
    · rw [hworkers]
      simp
    · rw [hwakers]
      exact hL.wakers
    · rw [hwakers]
      exact fun hmem => absurd hmem hnot
    · rw [hborn]
      simp
    · have hhistory := hL.history
      rw [hplacements, List.count_append, List.count_singleton_self,
        show owed (Place.lane l) (s'.tasks t).own = 0 from
          if_neg (by rw [hfits.1.wakePending]; decide), if_neg (by rintro ⟨⟩)]
      omega
  refine ⟨hI.moves ⟨hqueues, fun u hu => ⟨⟨fun l' => ?_, fun v stage => ?_, htasks u hu, ?_, ?_,
    hwoken u hu⟩, by rw [hwakers]⟩, hhere, ?_⟩, hhere⟩
  · rw [hlanes, if_neg fun hc => hu hc.1.symm, Nat.add_zero]
  · rw [hworkers, and_iff_right hu]
  · rw [hborn, or_iff_right hu]
  · rw [hplacements, List.count_append, List.count_singleton, if_neg (by simpa using hu.symm),
      Nat.add_zero]
  · rw [hgauge, suspendedShare, if_neg, Int.natCast_zero, add_zero]
    rw [show (s'.tasks t).state = .runnable from hfits.1.state]
    decide

/-- No worker has a task that a lane, or nobody, has. -/
theorem Local.task?_ne {t : TaskId} {p : Place n} (h : Local s t p)
    (hp : ∀ w stage, p ≠ .worker w stage) (v : Fin n) (u : TaskId) (stage : Stage) :
    (s.workers v).task? = some (u, stage) ↔ u ≠ t ∧ (s.workers v).task? = some (u, stage) := by
  refine (and_iff_right_of_imp ?_).symm
  rintro hv rfl
  exact hp v stage ((h.workers v stage).mp hv)

theorem Inv.enqueue [NeZero n] (hI : Inv s) {w : Fin n} {work : Work Role}
    (hw : s.workers w = .busy work .enqueuing) :
    Inv ((s.enqueueLocked (some w) work.task).setWorker w .looping)
      ∧ ∃ l, Local ((s.enqueueLocked (some w) work.task).setWorker w .looping) work.task
          (.lane l) := by
  have hL := hI.local_of_busy hw
  obtain ⟨hidle, howner⟩ := hL.fits
  obtain ⟨l, hl, hplaced⟩ := placed_enqueueLocked s (some w) work.task
  set s₁ := s.enqueueLocked (some w) work.task
  suffices hmain : Inv (s₁.setWorker w .looping)
      ∧ Local (s₁.setWorker w .looping) work.task (.lane l) from ⟨hmain.1, l, hmain.2⟩
  refine hI.placed hL (fun l' => by rintro ⟨⟩) (hplaced.queues hI.queues)
    (fun u l' => hplaced.inLane u l') (fun v u stage => ?_) (fun u => ?_) (fun u hu => ?_) ?_
    hplaced.placements (fun u _ => ?_) ?_ ?_ (hL.not_mem_wakers id) ?_
  · show (update s₁.workers w .looping v).task? = _ ↔ _
    by_cases hv : v = w
    · subst hv
      rw [update_self, hw]
      simp only [Worker.task?, reduceCtorEq, Option.some.injEq, Prod.mk.injEq, false_iff]
      exact fun hc => hc.1 hc.2.1.symm
    · rw [update_of_ne hv, hplaced.workers]
      refine (and_iff_right_of_imp ?_).symm
      rintro hvw rfl
      exact hv (by cases (hL.workers v stage).mp hvw; rfl)
  · show u < s₁.created ↔ _
    rw [hplaced.created]
    refine (or_iff_right_of_imp ?_).symm
    rintro rfl
    exact hL.born.mpr (by rintro ⟨⟩)
  · show (s₁.tasks u).own = _
    rw [hplaced.tasks]
  · show Fits _ (s₁.tasks work.task).own
    rw [hplaced.tasks]
    exact ⟨hidle, hl.symm⟩
  · show s₁.woken.count u = _
    rw [hplaced.woken]
  · show s₁.woken.count work.task + 1 = _
    rw [hplaced.woken]
    rfl
  · rw [s₁.wakers_setWorker w (by rw [hplaced.workers, hw]; rfl), hplaced.wakers]
  · rw [hL.share_of_worker, Int.natCast_zero, add_zero]
    exact hplaced.suspendedTasks

theorem wakers_create (s : State Role n) {k : Task Role n} (hk : k.completionWaiters = []) :
    (State.setTask { s with created := s.created + 1 } s.created k).wakers = s.wakers := by
  have hsum : ∑ t ∈ Finset.range s.created, (↑(update s.tasks s.created k t).completionWaiters :
      Multiset TaskId) = ∑ t ∈ Finset.range s.created, ↑(s.tasks t).completionWaiters :=
    Finset.sum_congr rfl fun t ht => by
      rw [update_of_ne (Nat.ne_of_lt (Finset.mem_range.mp ht))]
  unfold State.wakers State.setTask
  dsimp only
  rw [Finset.sum_range_succ, update_self, hk, hsum, Multiset.coe_nil, add_zero]

theorem Inv.submit [NeZero n] (hI : Inv s) (current : Option (Fin n)) (core : ℤ)
    (priority : Priority) (role : Role) :
    Inv (s.submit current core priority role)
      ∧ ∃ l, Local (s.submit current core priority role) s.created (.lane l) := by
  obtain ⟨p, hL⟩ := hI.locals s.created
  obtain rfl : p = .unborn := by
    by_contra hp
    exact absurd (hL.born.mpr hp) (Nat.lt_irrefl _)
  have hfits := hL.fits
  unfold State.submit
  dsimp only
  set s₁ := State.setTask { s with created := s.created + 1 } s.created
    { core, priority, role, state := .runnable } with hs₁
  obtain ⟨w, hplaced⟩ := placed_enqueueReady s₁ current s.created
  have htask : s₁.tasks s.created = { core, priority, role, state := .runnable } := update_self ..
  refine (fun h => ⟨h.1, .ready w, h.2⟩) (hI.placed hL (fun l' => by rintro ⟨⟩)
    (hplaced.queues hI.queues) (fun u l' => hplaced.inLane u l') (fun v u stage => ?_)
    (fun u => ?_) (fun u hu => ?_) ?_ hplaced.placements (fun u _ => ?_) ?_ ?_
    (hL.not_mem_wakers id) ?_)
  · rw [hplaced.workers]
    exact hL.task?_ne (fun w stage => by rintro ⟨⟩) v u stage
  · rw [hplaced.created]
    show u < s.created + 1 ↔ u = s.created ∨ u < s.created
    omega
  · rw [hplaced.tasks]
    exact congrArg Task.own (update_of_ne hu _ _)
  · rw [hplaced.tasks, htask]
    exact ⟨⟨rfl, rfl, rfl, rfl⟩, rfl⟩
  · rw [hplaced.woken]
    rfl
  · rw [hplaced.woken, show owed Place.unborn (s.tasks s.created).own = 0 from
      if_neg (by rw [hfits.wakePending]; decide)]
    rfl
  · rw [hplaced.wakers]
    exact wakers_create s rfl
  · rw [hplaced.suspendedTasks, suspendedShare, if_neg, Int.natCast_zero, add_zero]
    · rfl
    · rw [show (s.tasks s.created).state = .pending from hfits.state]
      decide

/-! ## The waker calls -/

/-- What the call of a waker leads to: the task lies in a lane, or its wake-up
is noted while it is still on its way out of its worker. -/
def Woken (s : State Role n) (t : TaskId) : Prop :=
  (∃ l, Local s t (.lane l)) ∨
    (s.tasks t).wakePending = true ∧ ∃ w stage, Local s t (.worker w stage)
      ∧ (stage = .yielding ∨ stage = .switchedOut)

/-- The wake-up of a task on its way out of its worker is noted. -/
theorem Inv.wake_suspending (hI : Inv s) {t : TaskId} {w : Fin n} {stage : Stage}
    (hL : Local s t (.worker w stage)) (hstage : stage = .yielding ∨ stage = .switchedOut)
    (hfits : (s.tasks t).own.Suspending w) (hnot : t ∉ s.wakers)
    (hnone : (s.tasks t).wakePending = false)
    (hwakers : s'.wakers = s.wakers) (hqueues : s'.toQueues = s.toQueues)
    (hworkers : s'.workers = s.workers) (hcreated : s'.created = s.created)
    (hplacements : s'.placements = s.placements) (hwoken : s'.woken = s.woken ++ [t])
    (hsuspended : s'.suspendedTasks = s.suspendedTasks)
    (hself : s'.tasks t = { s.tasks t with wakePending := true })
    (htasks : ∀ u, u ≠ t → s'.tasks u = s.tasks u) : Inv s' ∧ Woken s' t := by
  have hlanes : ∀ u l, s'.inLane u l = s.inLane u l := fun u l => by
    unfold State.inLane
    rw [hqueues]
  have hhere : Local s' t (.worker w stage) := by
    refine ⟨fun l => (hlanes t l).trans (hL.lanes l), fun v st => ?_, ?_, ?_, ?_, ?_, ?_⟩
    · rw [hworkers]
      exact hL.workers v st
    · have hk : ({ s.tasks t with wakePending := true } : Task Role n).own.Suspending w :=
        ⟨hfits.state, hfits.finished, hfits.suspensionActive, hfits.owner⟩
      rw [hself]
      rcases hstage with rfl | rfl
      · exact hk
      · exact .inl hk
    · rw [hwakers]
      exact hL.wakers
    · rw [hwakers]
      exact fun hmem => absurd hmem hnot
    · rw [hcreated]
      exact hL.born
    · have hhistory := hL.history
      have hbefore : owed (Place.worker w stage) (s.tasks t).own = 0 := by
        rcases hstage with rfl | rfl <;>
          exact if_neg (by rw [show (s.tasks t).own.wakePending = _ from hnone]; decide)
      have hafter : owed (Place.worker w stage)
          ({ s.tasks t with wakePending := true } : Task Role n).own = 1 := by
        rcases hstage with rfl | rfl <;> rfl
      rw [hself, hplacements, hwoken, hafter, List.count_append, List.count_singleton_self]
      omega
  refine ⟨hI.moves ⟨hqueues ▸ hI.queues, fun u hu => ⟨⟨hlanes u, fun v st => ?_, ?_, ?_, ?_, ?_⟩,
    by rw [hwakers]⟩, hhere, ?_⟩, .inr ⟨?_, w, stage, hhere, hstage⟩⟩
  · rw [hworkers]
  · rw [htasks u hu]
  · rw [hcreated]
  · rw [hplacements]
  · rw [hwoken, List.count_append, List.count_singleton, if_neg (by simpa using hu.symm),
      Nat.add_zero]
  · rw [hL.share_of_worker, hhere.share_of_worker, hsuspended]
  · rw [hself]

theorem Inv.wake [NeZero n] (hI : Inv s) {t : TaskId} {p : Place n} (hL : Local s t p)
    (hnot : t ∉ s.wakers) (hwaits : Waits p (s.tasks t).own) (current : Option (Fin n)) :
    ∃ s', s.wake current t = .ok s' ∧ Inv s' ∧ Woken s' t := by
  have hcase : (∃ w stage, p = .worker w stage ∧ (stage = .yielding ∨ stage = .switchedOut)
      ∧ (s.tasks t).own.Suspending w ∧ (s.tasks t).wakePending = false)
      ∨ p = .nowhere ∧ (s.tasks t).own.Suspended := by
    have hfits := hL.fits
    cases p with
    | unborn => exact hwaits.elim
    | lane l => exact hwaits.elim
    | nowhere =>
        refine .inr ⟨rfl, ?_⟩
        rcases hfits with hsuspended | hdone | hidle
        · exact hsuspended
        · cases hdone.state.symm.trans hwaits
        · cases hidle.state.symm.trans hwaits
    | worker w stage =>
        refine .inl ⟨w, stage, rfl, ?_⟩
        cases stage with
        | taken | active | arming | enqueuing => exact hwaits.elim
        | yielding => exact ⟨.inl rfl, hfits, hwaits⟩
        | switchedOut =>
            refine ⟨.inr rfl, hfits.resolve_right fun hfinished => ?_, hwaits.2⟩
            cases hfinished.state.symm.trans hwaits.1
  rcases hcase with ⟨w, stage, rfl, hstage, hfits, hnone⟩ | ⟨rfl, hsuspended⟩
  · have hstate : (s.tasks t).state = .suspending := hfits.state
    refine ⟨({ s with woken := s.woken ++ [t] } : State Role n).countWakeUp.setTask t
      { s.tasks t with wakePending := true }, ?_, ?_⟩
    · unfold State.wake State.wakeLocked
      dsimp only
      rw [hstate]
      dsimp only
      rw [if_neg (by rw [hnone]; decide)]
    · exact hI.wake_suspending hL hstage hfits hnot hnone (State.wakers_setTask _ _ rfl) rfl rfl rfl
        rfl rfl rfl (update_self ..) fun u hu => update_of_ne hu _ _
  · have hstate : (s.tasks t).state = .suspended := hsuspended.state
    have hactive : (s.tasks t).suspensionActive = true := hsuspended.suspensionActive
    set s₁ := (({ s with woken := s.woken ++ [t] } : State Role n).countWakeUp.countSuspended
      (-1)).setTask t { s.tasks t with suspensionActive := false, state := .runnable } with hs₁
    have htask : s₁.tasks t = { s.tasks t with suspensionActive := false, state := .runnable } :=
      update_self ..
    obtain ⟨l, hl, hplaced⟩ := placed_enqueueLocked s₁ current t
    refine ⟨s₁.enqueueLocked current t, ?_, (fun h => ⟨h.1, .inl ⟨l, h.2⟩⟩) (hI.placed hL
      (fun l' => by rintro ⟨⟩) (hplaced.queues hI.queues) (fun u l' => hplaced.inLane u l')
      (fun v u stage => ?_) (fun u => ?_) (fun u hu => ?_) ?_ hplaced.placements (fun u hu => ?_)
      ?_ ?_ hnot ?_)⟩
    · unfold State.wake State.wakeLocked
      dsimp only
      rw [hstate]
      dsimp only
      rw [if_pos hactive]
    · rw [hplaced.workers]
      exact hL.task?_ne (fun w stage => by rintro ⟨⟩) v u stage
    · rw [hplaced.created]
      refine (or_iff_right_of_imp ?_).symm
      rintro rfl
      exact hL.born.mpr (by rintro ⟨⟩)
    · rw [hplaced.tasks]
      exact congrArg Task.own (update_of_ne hu _ _)
    · rw [hplaced.tasks]
      rw [htask] at hl ⊢
      exact ⟨⟨rfl, hsuspended.wakePending, hsuspended.finished, rfl⟩, hl.symm⟩
    · rw [hplaced.woken, show s₁.woken = s.woken ++ [t] from rfl, List.count_append,
        List.count_singleton, if_neg (by simpa using hu.symm), Nat.add_zero]
    · rw [hplaced.woken, show s₁.woken = s.woken ++ [t] from rfl, List.count_append,
        List.count_singleton_self, show owed Place.nowhere (s.tasks t).own = 0 from
          if_neg (by rw [hsuspended.wakePending]; decide)]
      rfl
    · rw [hplaced.wakers]
      exact State.wakers_setTask _ _ rfl
    · rw [hplaced.suspendedTasks, suspendedShare, if_pos hstate]
      show s.suspendedTasks + -1 + 1 = s.suspendedTasks
      omega

/-- A waker that has made up its mind about `t` has it no more among those it
owes a call. -/
theorem Inv.handOver (hI : Inv s) {t : TaskId} (hwakers : s.wakers = t ::ₘ s'.wakers)
    (hsame : ∀ u, SameFor s s' u) (hqueues : s'.toQueues = s.toQueues)
    (hgauge : s'.suspendedTasks = s.suspendedTasks) :
    Inv s' ∧ ∃ p, Local s' t p ∧ t ∉ s'.wakers ∧ Waits p (s'.tasks t).own := by
  have hle : s'.wakers ≤ s.wakers := hwakers ▸ Multiset.le_cons_self _ _
  obtain ⟨p, hL⟩ := hI.locals t
  refine ⟨hI.same (hqueues ▸ hI.queues) hsame hle hgauge, p,
    hL.congr (hsame t) (Multiset.count_le_of_le t hle), fun hmem => ?_, ?_⟩
  · have hcount := hL.wakers
    have hpos := Multiset.one_le_count_iff_mem.mpr hmem
    rw [hwakers, Multiset.count_cons_self] at hcount
    omega
  · rw [(hsame t).own]
    exact hL.waits (hwakers ▸ Multiset.mem_cons_self _ _)

/-! ## Out of a lane -/

theorem Queues.Took.place {q' : Queues Role n} {l : Lane n} {work : Work Role}
    (htook : s.toQueues.Took l work q') {p : Place n} (hL : Local s work.task p) :
    p = .lane l := by
  by_contra hp
  have hlanes := hL.lanes l
  rw [if_neg hp] at hlanes
  unfold State.inLane at hlanes
  rw [htook.taken, Multiset.countP_cons, if_pos rfl] at hlanes
  omega

theorem Queues.Took.inLane {q' : Queues Role n} {l : Lane n} {work : Work Role}
    (htook : s.toQueues.Took l work q') (u : TaskId) (l' : Lane n) :
    s.inLane u l' = ({ s with toQueues := q' } : State Role n).inLane u l'
      + if work.task = u ∧ l' = l then 1 else 0 := by
  unfold State.inLane
  by_cases hl : l' = l
  · subst hl
    rw [htook.taken, Multiset.countP_cons]
    by_cases hu : work.task = u <;> simp [hu]
  · rw [if_neg fun hc => hl hc.2, Nat.add_zero]
    exact congrArg _ (htook.rest l' hl).symm

/-- An item is taken: its task goes to the worker, or, if the worker leaves
with it, nowhere. -/
theorem Inv.taken (hI : Inv s) {q' : Queues Role n} (hq' : q'.WellFormed) {l : Lane n}
    {work : Work Role} (htook : s.toQueues.Took l work q') {w : Fin n}
    (hw : s.workers w = .looping) {x : Worker Role} {p : Place n}
    (hx : x = .busy work .taken ∧ p = .worker w .taken ∧ Queues.Reaches w l
      ∨ x = .left ∧ p = .nowhere) :
    Inv (({ s with toQueues := q' } : State Role n).setWorker w x) := by
  obtain ⟨p', hL⟩ := hI.locals work.task
  obtain rfl := htook.place hL
  obtain ⟨hidle, howner⟩ := hL.fits
  have hwakers : (({ s with toQueues := q' } : State Role n).setWorker w x).wakers = s.wakers := by
    refine Eq.trans (State.wakers_setWorker _ w ?_) rfl
    rw [hw]
    rcases hx with ⟨rfl, -, -⟩ | ⟨rfl, -⟩ <;> rfl
  have htask? : ∀ v u stage, (update s.workers w x v).task? = some (u, stage) ↔
      (u = work.task ∧ p = .worker v stage)
        ∨ u ≠ work.task ∧ (s.workers v).task? = some (u, stage) := by
    intro v u stage
    have hlane := hL.workers v stage
    by_cases hv : v = w
    · subst hv
      rw [update_self, hw]
      rcases hx with ⟨rfl, rfl, -⟩ | ⟨rfl, rfl⟩
      · simp [Worker.task?, eq_comm]
      · simp [Worker.task?]
    · rw [update_of_ne hv]
      by_cases hu : u = work.task
      · subst hu
        rw [hlane]
        rcases hx with ⟨-, rfl, -⟩ | ⟨-, rfl⟩ <;> simp [Ne.symm hv]
      · simp [hu]
  refine hI.moves (t := work.task) (p := p)
    ⟨hq', fun u hu => ⟨⟨fun l' => ?_, fun v stage => ?_, rfl,
    .rfl, rfl, rfl⟩, by rw [hwakers]⟩, ⟨fun l' => ?_, fun v stage => ?_, ?_, ?_, ?_, ?_, ?_⟩, rfl⟩
  · rw [htook.inLane u l', if_neg fun hc => hu hc.1.symm, Nat.add_zero]
    rfl
  · exact (htask? v u stage).trans (by simp [hu])
  · have hlanes := hL.lanes l'
    rw [htook.inLane work.task l'] at hlanes
    have hp : p ≠ .lane l' := by rcases hx with ⟨-, rfl, -⟩ | ⟨-, rfl⟩ <;> rintro ⟨⟩
    rw [if_neg hp]
    by_cases hl : l' = l
    · subst hl
      rw [if_pos ⟨rfl, rfl⟩, if_pos rfl] at hlanes
      exact Nat.succ.inj hlanes
    · rw [if_neg fun hc => hl hc.2, if_neg fun hc => hl (Place.lane.inj hc).symm] at hlanes
      exact hlanes
  · exact (htask? v work.task stage).trans (by simp)
  · show Fits p (s.tasks work.task).own
    rcases hx with ⟨-, rfl, hreach⟩ | ⟨-, rfl⟩
    · refine ⟨hidle, ?_⟩
      rw [howner]
      cases l with
      | ready v => rfl
      | pinned v => exact hreach
    · exact .inr (.inr hidle)
  · rw [hwakers]
    exact hL.wakers
  · rw [hwakers]
    exact fun hmem => (hL.waits hmem).elim
  · show work.task < s.created ↔ _
    rw [hL.born]
    rcases hx with ⟨-, rfl, -⟩ | ⟨-, rfl⟩ <;> simp
  · have hhistory := hL.history
    show s.placements.count work.task + owed p (s.tasks work.task).own
      = s.woken.count work.task + _
    rcases hx with ⟨-, rfl, -⟩ | ⟨-, rfl⟩ <;> exact hhistory

theorem Inv.runTake [NeZero n] (hI : Inv s) {w : Fin n} (hw : s.workers w = .looping) :
    ∃ s', s.runTake w = .ok s' ∧ Inv s' := by
  obtain ⟨r, q', htake, hq', hresult⟩ := hI.queues.takeLocked w
  unfold State.runTake
  rw [htake]
  dsimp only [bind, Except.bind]
  cases r with
  | some work =>
      obtain ⟨l, hreach, htook⟩ := hresult
      dsimp only
      split
      · exact ⟨_, rfl, hI.taken hq' htook hw (.inr ⟨rfl, rfl⟩)⟩
      · exact ⟨_, rfl, hI.taken hq' htook hw (.inl ⟨rfl, rfl, hreach⟩)⟩
  | none =>
      have hsame : ∀ u, SameFor s { s with toQueues := q' } u := fun u =>
        ⟨fun l => congrArg (Multiset.countP _) (congrFun hresult.1 l), fun _ _ => .rfl, rfl, .rfl,
          rfl, rfl⟩
      have hI' : Inv { s with toQueues := q' } := hI.same hq' hsame le_rfl rfl
      dsimp only
      split
      · refine ⟨_, rfl, hI'.same hI'.queues (fun u => ⟨fun _ => rfl, fun v stage => ?_, rfl, .rfl,
          rfl, rfl⟩) (le_of_eq ?_) rfl⟩
        · show (update s.workers w .left v).task? = _ ↔ (s.workers v).task? = _
          by_cases hv : v = w
          · subst hv
            rw [update_self, hw]
            rfl
          · rw [update_of_ne hv]
        · exact State.wakers_setWorker _ w (congrArg Worker.waiters hw).symm
      · exact ⟨_, rfl, hI'⟩

end Scheduler

end Absolute
