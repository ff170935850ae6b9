import Mathlib.Data.Multiset.Range
import Absolute.RtSuspend

/-!
# Every item is executed once

An item has a ticket, the number of its placement, and a run should hand every
ticket to `Execute` once. It does as long as three things do not happen
(`Orderly`): that a worker takes the last queued item while `stopping` is set
(`Run` tests for the end between taking and executing, and leaves with it), that
a task is woken into the pinned lane of a worker that has left, and that a task
is submitted when all have.

`Drain` is the invariant of the runs in which they do not, `HandedOver` what it
says about the items, and `handed_over` every state of every such run.
-/

namespace Absolute

namespace Scheduler

open Function Runs

variable {Role : Type} {n : ℕ}

/-! ## Tickets -/

/-- The ticket of the item a worker has taken and not yet executed. -/
def Worker.held : Worker Role → Multiset ℕ
  | .busy work .taken => {work.ticket}
  | _ => 0

variable [DecidableEq Role] {s s' : State Role n}

namespace State

def laneTickets (s : State Role n) : Multiset ℕ := ∑ l, (s.contents l).map Work.ticket

def heldTickets (s : State Role n) : Multiset ℕ := ∑ w, (s.workers w).held

/-- No step may end the run of a placed item: the last queued item is not taken
while `stopping` is set, no task is woken whose worker has left, and none is
submitted when all have. -/
structure Orderly (s : State Role n) (e : Event Role n) : Prop where
  lastItem : ∀ w, e = .take w → s.stopping = true → s.queued = 1 →
    ∀ l, Queues.Reaches w l → s.contents l = 0
  owner : ∀ t w, s.wakes e = some t → (s.tasks t).state = .suspended →
    (s.tasks t).ownerWorker = some w → s.workers w ≠ .left
  submit : ∀ current core priority role, e = .submit current core priority role →
    ∃ w, s.workers w ≠ .left

/-- Every item placed so far waits in a lane that a worker in `Run` takes from,
is held by a worker that executes it next, or has been executed, and each of
these once; a worker that reaches an item takes one; and once all workers have
left, every item has been executed. -/
structure HandedOver [NeZero n] (s : State Role n) : Prop where
  once : s.laneTickets + s.heldTickets + ↑s.executed = Multiset.range s.placements.length
  reached : ∀ l, s.contents l ≠ 0 → ∃ w, s.workers w ≠ .left ∧ Queues.Reaches w l
  takes : ∀ w l, Queues.Reaches w l → s.contents l ≠ 0 →
    ∃ work q, takeLocked s.toQueues w = .ok (some work, q)
  executes : ∀ w work, s.workers w = .busy work .taken →
    ∃ s', s.apply (.execute w) = .ok s' ∧ s'.executed = s.executed ++ [work.ticket]
  drained : (∀ w, s.workers w = .left) →
    (↑s.executed : Multiset ℕ) = Multiset.range s.placements.length

end State

/-- A step that wakes nobody while the scheduler is not stopping. -/
theorem orderly_of_running {e : Event Role n} (hstopping : s.stopping = false)
    (hwakes : s.wakes e = none) (hleft : ∃ w, s.workers w ≠ .left) : s.Orderly e where
  lastItem _ _ hs := by cases hstopping.symm.trans hs
  owner _ _ hw := by cases hwakes.symm.trans hw
  submit _ _ _ _ _ := hleft

/-! ## The invariant -/

structure Drain (s : State Role n) : Prop where
  once : s.laneTickets + s.heldTickets + ↑s.executed = Multiset.range s.placements.length
  left : ∀ w, s.workers w = .left → s.contents (.pinned w) = 0
  allLeft : (∀ w, s.workers w = .left) → ∀ l, s.contents l = 0

/-- A step that touches no item. -/
structure Quiet (s s' : State Role n) : Prop where
  contents : s'.contents = s.contents
  held : ∀ w, (s'.workers w).held = (s.workers w).held
  left : ∀ w, s'.workers w = .left ↔ s.workers w = .left
  executed : s'.executed = s.executed
  placements : s'.placements = s.placements

theorem Drain.quiet (hD : Drain s) (h : Quiet s s') : Drain s' where
  once := by
    have honce := hD.once
    unfold State.laneTickets State.heldTickets at honce ⊢
    rw [h.contents, h.executed, h.placements, Finset.sum_congr rfl fun w _ => h.held w]
    exact honce
  left w hw := by
    rw [h.contents]
    exact hD.left w ((h.left w).mp hw)
  allLeft hall l := by
    rw [h.contents]
    exact hD.allLeft (fun w => (h.left w).mp (hall w)) l

/-- A worker that holds no item goes on to hold none. -/
theorem Drain.goOn (hD : Drain s) {w : Fin n} {x : Worker Role}
    (hworkers : s'.workers = update s.workers w x) (hheld : x.held = 0) (hleft : x ≠ .left)
    (hw : (s.workers w).held = 0) (hwleft : s.workers w ≠ .left)
    (hqueues : s'.toQueues = s.toQueues)
    (hexecuted : s'.executed = s.executed) (hplacements : s'.placements = s.placements) :
    Drain s' := by
  refine hD.quiet ⟨congrArg Queues.contents hqueues, fun v => ?_, fun v => ?_, hexecuted,
    hplacements⟩
  all_goals
    rw [hworkers]
    by_cases hv : v = w
  · subst hv
    rw [update_self, hw, hheld]
  · rw [update_of_ne hv]
  · subst hv
    rw [update_self]
    exact ⟨fun h => absurd h hleft, fun h => absurd h hwleft⟩
  · rw [update_of_ne hv]

/-- The worker of an item that is being executed goes on with it. -/
theorem Drain.advance (hD : Drain s) {w : Fin n} {work : Work Role} {stage : Stage}
    (hw : s.workers w = .busy work stage) (hstage : stage ≠ .taken) {x : Worker Role}
    (hworkers : s'.workers = update s.workers w x) (hheld : x.held = 0) (hleft : x ≠ .left)
    (hqueues : s'.toQueues = s.toQueues) (hexecuted : s'.executed = s.executed)
    (hplacements : s'.placements = s.placements) : Drain s' := by
  refine hD.goOn hworkers hheld hleft ?_ ?_ hqueues hexecuted hplacements
  · rw [hw]
    cases stage with
    | taken => exact absurd rfl hstage
    | active | arming | yielding | switchedOut | enqueuing => rfl
  · rw [hw]
    exact nofun

/-- A task is placed where someone can still take it from. -/
theorem Drain.placed (hD : Drain s) {t : TaskId} {l : Lane n} (h : Placed s s' t l)
    (hpinned : ∀ w, l = .pinned w → s.workers w ≠ .left) (hopen : ∃ w, s.workers w ≠ .left) :
    Drain s' where
  once := by
    have honce := hD.once
    have hsum := Tally.sum_update (g := fun c : Multiset (Work Role) => c.map Work.ticket)
      Finset.univ (Finset.mem_univ l) s.contents (s.workOf t ::ₘ s.contents l)
    rw [Multiset.map_cons, Multiset.add_cons, ← Multiset.cons_add] at hsum
    have hlane := add_right_cancel hsum
    unfold State.laneTickets State.heldTickets at honce ⊢
    rw [h.contents, h.executed, h.placements, h.workers, hlane, List.length_append,
      List.length_singleton, Multiset.range_succ, ← honce]
    rw [Multiset.cons_add, Multiset.cons_add]
    rfl
  left w hw := by
    rw [h.workers] at hw
    have hne : Lane.pinned w ≠ l := fun hl => hpinned w hl.symm hw
    rw [h.contents, update_of_ne hne]
    exact hD.left w hw
  allLeft hall := by
    obtain ⟨w, hw⟩ := hopen
    rw [h.workers] at hall
    exact absurd (hall w) hw

/-! ## The steps -/

theorem Inv.owner_of_suspended (hI : Inv s) {t : TaskId} (h : (s.tasks t).state = .suspended) :
    ∃ w, (s.tasks t).ownerWorker = some w := by
  obtain ⟨p, hL⟩ := hI.locals t
  have hmem := hL.mem_suspendedSet.mpr h
  have hfits := hL.fits
  cases p with
  | unborn => cases hfits.state.symm.trans h
  | lane l => cases hfits.1.state.symm.trans h
  | worker w stage =>
      have hshare := hL.share_of_worker
      unfold suspendedShare at hshare
      rw [if_pos h] at hshare
      cases hshare
  | nowhere =>
      rcases hfits with hsuspended | hdone | hidle
      · exact hsuspended.owner
      · cases hdone.state.symm.trans h
      · cases hidle.state.symm.trans h

theorem Drain.wake [NeZero n] (hD : Drain s) {t : TaskId} {current : Option (Fin n)}
    (hwake : s.wake current t = .ok s')
    (howner : (s.tasks t).state = .suspended → ∃ w, (s.tasks t).ownerWorker = some w
      ∧ s.workers w ≠ .left) : Drain s' := by
  unfold State.wake State.wakeLocked at hwake
  dsimp only at hwake
  split at hwake
  · split at hwake
    · obtain rfl := Except.ok.inj hwake
      exact hD.quiet ⟨rfl, fun _ => rfl, fun _ => .rfl, rfl, rfl⟩
    · obtain rfl := Except.ok.inj hwake
      exact hD.quiet ⟨rfl, fun _ => rfl, fun _ => .rfl, rfl, rfl⟩
  · rename_i hstate
    obtain ⟨w, hw, hleft⟩ := howner hstate
    split at hwake
    · obtain rfl := Except.ok.inj hwake
      set s₁ := (({ s with woken := s.woken ++ [t] } : State Role n).countWakeUp.countSuspended
        (-1)).setTask t { s.tasks t with suspensionActive := false, state := .runnable } with hs₁
      obtain ⟨l, hl, hplaced⟩ := placed_enqueueLocked s₁ current t
      have hquiet : Quiet s s₁ := ⟨rfl, fun _ => rfl, fun _ => .rfl, rfl, rfl⟩
      refine (hD.quiet hquiet).placed hplaced (fun v hv => ?_) ⟨w, hleft⟩
      have htask : s₁.tasks t = { s.tasks t with suspensionActive := false, state := .runnable } :=
        update_self ..
      rw [htask, hv, hw] at hl
      obtain rfl := Option.some.inj hl
      exact hleft
    · cases hwake
  · obtain rfl := Except.ok.inj hwake
    exact hD.quiet ⟨rfl, fun _ => rfl, fun _ => .rfl, rfl, rfl⟩

theorem Drain.execute (hD : Drain s) {w : Fin n} {work : Work Role}
    (hw : s.workers w = .busy work .taken) : Drain (s.execute w work) := by
  refine ⟨?_, fun v hv => ?_, fun hall => ?_⟩
  · have honce := hD.once
    have hsum := Tally.sum_update (g := fun x : Worker Role => x.held)
      Finset.univ (Finset.mem_univ w) s.workers (.busy work .active)
    rw [hw, show (Worker.busy work .active).held = 0 from rfl, add_zero] at hsum
    have hheld : ∑ v, ((s.execute w work).workers v).held + {work.ticket}
        = ∑ v, (s.workers v).held := hsum
    unfold State.laneTickets State.heldTickets at honce ⊢
    rw [← hheld] at honce
    refine Eq.trans ?_ honce
    rw [show (s.execute w work).executed = s.executed ++ [work.ticket] from rfl,
      ← Multiset.coe_add, Multiset.coe_singleton]
    show (_ + _ + (_ + _) : Multiset ℕ) = _
    ac_rfl
  · by_cases hvw : v = w
    · subst hvw
      cases (update_self v _ s.workers).symm.trans hv
    · exact hD.left v ((update_of_ne hvw _ s.workers).symm.trans hv)
  · cases (update_self w _ s.workers).symm.trans (hall w)

theorem Drain.taken (hD : Drain s) {q' : Queues Role n} {l : Lane n} {work : Work Role}
    (htook : s.toQueues.Took l work q') {w : Fin n} (hw : s.workers w = .looping) :
    Drain (({ s with toQueues := q' } : State Role n).setWorker w (.busy work .taken)) := by
  have hsub : ∀ l', s.contents l' = 0 → q'.contents l' = 0 := fun l' hl' => by
    by_cases heq : l' = l
    · subst heq
      exact absurd (htook.taken.symm.trans hl') (Multiset.cons_ne_zero)
    · exact (htook.rest l' heq).trans hl'
  refine ⟨?_, fun v hv => ?_, fun hall => ?_⟩
  · have honce := hD.once
    have hsum := Tally.sum_update (g := fun x : Worker Role => x.held)
      Finset.univ (Finset.mem_univ w) s.workers (.busy work .taken)
    have hlanes := Tally.sum_update (g := fun c : Multiset (Work Role) => c.map Work.ticket)
      Finset.univ (Finset.mem_univ l) s.contents (q'.contents l)
    rw [hw, show (Worker.looping : Worker Role).held = 0 from rfl, add_zero] at hsum
    rw [htook.taken, Multiset.map_cons, Multiset.add_cons, ← Multiset.cons_add,
      ← htook.contents_eq] at hlanes
    have hlane := add_right_cancel hlanes
    unfold State.laneTickets State.heldTickets at honce ⊢
    rw [← hlane] at honce
    refine Eq.trans ?_ honce
    have hheld : ∑ v, (update s.workers w (.busy work .taken) v).held
        = ∑ v, (s.workers v).held + {work.ticket} := hsum
    show ∑ l, (q'.contents l).map Work.ticket
      + ∑ v, (update s.workers w (.busy work .taken) v).held + _ = _
    rw [hheld, ← Multiset.singleton_add]
    ac_rfl
  · by_cases hvw : v = w
    · subst hvw
      cases (update_self v _ s.workers).symm.trans hv
    · exact hsub _ (hD.left v ((update_of_ne hvw _ s.workers).symm.trans hv))
  · cases (update_self w _ s.workers).symm.trans (hall w)

theorem onItem_ok {w : Fin n} {stage : Stage} {step : Work Role → Except Halt (State Role n)}
    (h : s.onItem w stage step = .ok s') :
    ∃ work, s.workers w = .busy work stage ∧ step work = .ok s' := by
  rcases onItem_cases s w stage step with hdisabled | ⟨work, hw, hwork⟩
  · cases hdisabled.symm.trans h
  · exact ⟨work, hw, hwork.symm.trans h⟩

theorem orStop_eq_ok {x : Except Abort (State Role n)} (h : orStop x = .ok s') : x = .ok s' := by
  cases x with
  | ok a => exact congrArg Except.ok (Except.ok.inj h)
  | error site => cases h

theorem prepareSuspend_ok {s₁ : State Role n} {t : TaskId} {w : Fin n} {worker : Worker Role}
    (h : (do let s₂ ← orStop (s₁.prepareSuspend t); return s₂.setWorker w worker) = .ok s') :
    s' = (s₁.setTask t { s₁.tasks t with state := .suspending }).setWorker w worker := by
  unfold State.prepareSuspend at h
  split at h
  · exact (Except.ok.inj h).symm
  · cases h

theorem Drain.afterSwitch (hD : Drain s) {w : Fin n} {work : Work Role}
    (hw : s.workers w = .busy work .switchedOut) (h : s.afterSwitch w work = .ok s') :
    Drain s' := by
  unfold State.afterSwitch at h
  dsimp only at h
  split at h
  · obtain rfl := Except.ok.inj h
    exact hD.advance hw (by decide) rfl rfl nofun rfl rfl rfl
  · split at h
    · cases h
    · split at h
      · obtain rfl := Except.ok.inj h
        exact hD.advance hw (by decide) rfl rfl nofun rfl rfl rfl
      · obtain rfl := Except.ok.inj h
        exact hD.advance hw (by decide) rfl rfl nofun rfl rfl rfl

variable [NeZero n]

theorem Drain.runTake (hI : Inv s) (hD : Drain s) {w : Fin n} (hw : s.workers w = .looping)
    (horderly : s.Orderly (.take w)) (htake : s.runTake w = .ok s') : Drain s' := by
  obtain ⟨r, q', htakeLocked, hq', hresult⟩ := hI.queues.takeLocked w
  unfold State.runTake at htake
  rw [htakeLocked] at htake
  dsimp only [bind, Except.bind] at htake
  cases r with
  | some work =>
      obtain ⟨l, hreach, htook⟩ := hresult
      dsimp only at htake
      split at htake
      · -- the last item, and `stopping` is set
        rename_i hlast
        rw [Bool.and_eq_true, beq_iff_eq] at hlast
        have hqueued : s.queued = 1 := by
          have hsum := Tally.sum_update Finset.univ (Finset.mem_univ l) Multiset.card
            s.contents (q'.contents l)
          rw [← htook.contents_eq, htook.taken, Multiset.card_cons] at hsum
          have hbefore := hI.queues.queued
          have hafter := hq'.queued
          have hzero : q'.queued = 0 := hlast.2
          omega
        have hnil := horderly.lastItem w rfl hlast.1 hqueued l hreach
        exact absurd (htook.taken.symm.trans hnil) Multiset.cons_ne_zero
      · obtain rfl := Except.ok.inj htake
        exact hD.taken htook hw
  | none =>
      have hquiet : Quiet s { s with toQueues := q' } :=
        ⟨hresult.1, fun _ => rfl, fun _ => .rfl, rfl, rfl⟩
      dsimp only at htake
      split at htake
      · rename_i hend
        rw [Bool.and_eq_true, beq_iff_eq] at hend
        obtain rfl := Except.ok.inj htake
        -- nothing is queued, so no lane has anything
        have hempty : ∀ l, q'.contents l = 0 := fun l => by
          have hsum := hq'.queued.symm.trans hend.2
          rw [Finset.sum_eq_zero_iff] at hsum
          exact Multiset.card_eq_zero.mp (hsum l (Finset.mem_univ l))
        refine ⟨?_, fun v _ => hempty _, fun _ => hempty⟩
        have honce := (hD.quiet hquiet).once
        unfold State.laneTickets State.heldTickets at honce ⊢
        refine Eq.trans ?_ honce
        unfold State.setWorker
        dsimp only
        rw [Tally.sum_update_of_eq (g := fun x : Worker Role => x.held) _
          (show Worker.held .left = (s.workers w).held by rw [hw]; rfl)]
      · obtain rfl := Except.ok.inj htake
        exact hD.quiet hquiet

/-- A worker that calls `Enqueue` is the owner of what it places. -/
theorem Drain.enqueue (hI : Inv s) (hD : Drain s) {w : Fin n} {work : Work Role}
    (hw : s.workers w = .busy work .enqueuing) :
    Drain ((s.enqueueLocked (some w) work.task).setWorker w .looping) := by
  obtain ⟨-, howner⟩ := (hI.local_of_busy hw).fits
  obtain ⟨l, hl, hplaced⟩ := placed_enqueueLocked s (some w) work.task
  have hnot : s.workers w ≠ .left := by
    rw [hw]
    exact nofun
  have hD' := hD.placed hplaced (fun v hv => ?_) ⟨w, hnot⟩
  · refine hD'.advance (hplaced.workers ▸ hw) (by decide) rfl rfl nofun rfl rfl rfl
  · have hlv : (Lane.pinned v).owner = some w := hv ▸ hl.trans howner
    obtain rfl := Option.some.inj hlv
    exact hnot

theorem Drain.step (hI : Inv s) (hD : Drain s) {e : Event Role n} (horderly : s.Orderly e)
    (hstep : State.Step s e s') : Drain s' := by
  unfold State.Step at hstep
  cases e with
  | submit current core priority role =>
      rw [State.apply] at hstep
      split at hstep
      · obtain rfl := Except.ok.inj hstep
        unfold State.submit
        dsimp only
        set s₁ := State.setTask { s with created := s.created + 1 } s.created
          { core, priority, role, state := .runnable } with hs₁
        obtain ⟨v, hplaced⟩ := placed_enqueueReady s₁ current s.created
        have hD₁ : Drain s₁ := hD.quiet ⟨rfl, fun _ => rfl, fun _ => .rfl, rfl, rfl⟩
        exact hD₁.placed hplaced (fun w hv => by cases hv)
          (horderly.submit current core priority role rfl)
      · cases hstep
  | take w =>
      rw [State.apply] at hstep
      cases hw : s.workers w with
      | looping =>
          rw [hw] at hstep
          exact Drain.runTake hI hD hw horderly (orStop_eq_ok hstep)
      | busy | notifying | left =>
          rw [hw] at hstep
          cases hstep
  | promoteTimer w now =>
      rw [State.apply] at hstep
      split at hstep
      · rename_i timer rest hw htimers
        split at hstep
        · refine Drain.wake (s := s.popTimer)
            (hD.quiet ⟨rfl, fun _ => rfl, fun _ => .rfl, rfl, rfl⟩) (orStop_eq_ok hstep)
            fun hstate => ?_
          obtain ⟨v, hv⟩ := hI.owner_of_suspended (t := timer.task) hstate
          refine ⟨v, hv, horderly.owner _ v ?_ hstate hv⟩
          rw [State.wakes, htimers]
          rfl
        · cases hstep
      · cases hstep
  | execute w =>
      obtain ⟨work, hw, hwork⟩ := onItem_ok hstep
      obtain rfl := Except.ok.inj hwork
      exact hD.execute hw
  | prepareSuspend w =>
      obtain ⟨work, hw, hwork⟩ := onItem_ok hstep
      obtain rfl := prepareSuspend_ok hwork
      exact hD.advance hw (by decide) rfl rfl (by simp) rfl rfl rfl
  | pushTimer w deadline =>
      obtain ⟨work, hw, hwork⟩ := onItem_ok hstep
      obtain rfl := Except.ok.inj hwork
      exact hD.advance hw (by decide) rfl rfl (by simp) rfl rfl rfl
  | register w =>
      obtain ⟨work, hw, hwork⟩ := onItem_ok hstep
      obtain rfl := Except.ok.inj hwork
      exact hD.advance hw (by decide) rfl rfl (by simp) rfl rfl rfl
  | park w =>
      obtain ⟨work, hw, hwork⟩ := onItem_ok hstep
      obtain rfl := prepareSuspend_ok hwork
      exact hD.advance hw (by decide) rfl rfl (by simp) rfl rfl rfl
  | wait w awaited =>
      obtain ⟨work, hw, hwork⟩ := onItem_ok hstep
      split at hwork
      · cases hwork
      · split at hwork
        · cases hwork
        · split at hwork
          · obtain rfl := Except.ok.inj hwork
            exact hD
          · obtain rfl := prepareSuspend_ok hwork
            exact hD.advance hw (by decide) rfl rfl (by simp) rfl rfl rfl
  | yieldCurrent w =>
      obtain ⟨work, hw, hwork⟩ := onItem_ok hstep
      obtain rfl := Except.ok.inj hwork
      exact hD.advance hw (by decide) rfl rfl (by simp) rfl rfl rfl
  | finish w =>
      obtain ⟨work, hw, hwork⟩ := onItem_ok hstep
      obtain rfl := Except.ok.inj hwork
      exact hD.advance hw (by decide) rfl rfl (by simp) rfl rfl rfl
  | resume current t =>
      rw [State.apply] at hstep
      split at hstep
      · have hquiet : Drain (s.unregister t) :=
          hD.quiet ⟨rfl, fun _ => rfl, fun _ => .rfl, rfl, rfl⟩
        have hresume := orStop_eq_ok hstep
        unfold State.resumeSchedulerTask at hresume
        split at hresume
        · rename_i hinstance
          refine hquiet.wake hresume fun hstate => ?_
          obtain ⟨v, hv⟩ := hI.owner_of_suspended (t := t) hstate
          refine ⟨v, hv, horderly.owner t v ?_ hstate hv⟩
          exact if_pos hinstance
        · obtain rfl := Except.ok.inj hresume
          exact hquiet
      · cases hstep
  | afterSwitch w =>
      obtain ⟨work, hw, hwork⟩ := onItem_ok hstep
      exact hD.afterSwitch hw (orStop_eq_ok hwork)
  | enqueue w =>
      obtain ⟨work, hw, hwork⟩ := onItem_ok hstep
      obtain rfl := Except.ok.inj hwork
      exact Drain.enqueue hI hD hw
  | notifyWaiter w =>
      rw [State.apply] at hstep
      split at hstep
      · rename_i hw
        obtain rfl := Except.ok.inj hstep
        exact hD.goOn rfl rfl (by simp) (congrArg Worker.held hw) (by simp [hw]) rfl rfl rfl
      · rename_i t rest hw
        have hnot : s.workers w ≠ .left := by
          simp [hw]
        refine Drain.wake (s := s.setWorker w (.notifying rest))
          (hD.goOn rfl rfl (by simp) (congrArg Worker.held hw) hnot rfl rfl rfl)
          (orStop_eq_ok hstep) fun hstate => ?_
        obtain ⟨v, hv⟩ := hI.owner_of_suspended (t := t) hstate
        refine ⟨v, hv, ?_⟩
        show update s.workers w (.notifying rest) v ≠ .left
        by_cases hvw : v = w
        · subst hvw
          simp
        · rw [update_of_ne hvw]
          exact horderly.owner t v (by rw [State.wakes, hw]; rfl) hstate hv
      · cases hstep
  | withdraw =>
      obtain rfl := Except.ok.inj hstep
      exact hD.quiet ⟨rfl, fun _ => rfl, fun _ => .rfl, rfl, rfl⟩
  | stop =>
      rw [State.apply] at hstep
      split at hstep
      · cases hstep
      · obtain rfl := Except.ok.inj hstep
        exact hD.quiet ⟨rfl, fun _ => rfl, fun _ => .rfl, rfl, rfl⟩

/-! ## Every run -/

theorem drain_initial [Inhabited Role] : Drain (State.initial : State Role n) where
  once := by
    have hlanes : (State.initial : State Role n).laneTickets = 0 :=
      Finset.sum_eq_zero fun l _ => congrArg (Multiset.map _) (Queues.contents_initial l)
    have hheld : (State.initial : State Role n).heldTickets = 0 := Finset.sum_eq_zero fun _ _ => rfl
    rw [hlanes, hheld]
    rfl
  left w h := by cases h
  allLeft h := by cases h 0

theorem drain_of_run [Inhabited Role] {past : List (Event Role n)}
    (hrun : RunUnder State.Step State.Orderly State.initial past s) : Drain s :=
  hrun.invariant (P := fun _ s => Drain s) drain_initial fun _ _ _ _ hpast hD horderly hstep =>
    Drain.step (inv_of_run hpast.run) hD horderly hstep

/-- Every state of every run whose steps are orderly has handed its items over,
or still can. -/
theorem handed_over [Inhabited Role] {past : List (Event Role n)} {s : State Role n}
    (hrun : RunUnder State.Step State.Orderly State.initial past s) : s.HandedOver := by
  have hI := inv_of_run hrun.run
  have hD := drain_of_run hrun
  refine ⟨hD.once, fun l hl => ?_, fun w l hreach hl => ?_, fun w work hw => ?_, fun hall => ?_⟩
  · cases l with
    | ready v =>
        by_contra hnone
        refine hl (hD.allLeft (fun w => ?_) _)
        by_contra hw
        exact hnone ⟨w, hw, trivial⟩
    | pinned v => exact ⟨v, fun hv => hl (hD.left v hv), rfl⟩
  · obtain ⟨r, q', htake, -, hresult⟩ := hI.queues.takeLocked w
    cases r with
    | none => exact absurd (hresult.2 l hreach) hl
    | some work => exact ⟨work, q', htake⟩
  · refine ⟨s.execute w work, ?_, rfl⟩
    rw [State.apply, State.onItem, hw]
    exact if_pos rfl
  · have honce := hD.once
    have hlanes : s.laneTickets = 0 := Finset.sum_eq_zero fun l _ => by
      rw [hD.allLeft hall l]
      rfl
    have hheld : s.heldTickets = 0 := Finset.sum_eq_zero fun w _ => by
      rw [hall w]
      rfl
    rwa [hlanes, hheld, zero_add, zero_add] at honce

/-- One worker executes the one task submitted, before anything else happens. -/
theorem handed_over_executed :
    ∃ past, ∃ s : State Unit 1, RunUnder State.Step State.Orderly State.initial past s
      ∧ s.executed = [0] ∧ s.HandedOver := by
  have hrun : RunUnder State.Step State.Orderly (State.initial : State Unit 1)
      [.execute 0, .take 0, .submit none (-1) ⟨0, by decide⟩ ()] _ :=
    .cons (.cons (.cons .nil (orderly_of_running rfl rfl ⟨0, nofun⟩) rfl)
      (orderly_of_running rfl rfl ⟨0, nofun⟩) rfl) (orderly_of_running rfl rfl ⟨0, nofun⟩) rfl
  exact ⟨_, _, hrun, rfl, handed_over hrun⟩

/-- One worker; a task is submitted, the destructor runs, and the worker takes
the item: it was the last one queued, so the worker leaves without executing
it. -/
theorem lastItem_not_handedOver :
    ∃ past, ∃ s : State Unit 1, Run State.Step State.initial past s
      ∧ s.placements = [0] ∧ s.executed = [] ∧ (∀ w, s.workers w = .left) ∧ ¬s.HandedOver := by
  have hrun : Run State.Step (State.initial : State Unit 1)
      [.take 0, .stop, .withdraw, .submit none (-1) ⟨0, by decide⟩ ()] _ :=
    .cons (.cons (.cons (.cons .nil rfl) rfl) rfl) rfl
  have hfacts : ∀ s : State Unit 1, s.placements = [0] → s.executed = [] →
      s.workers 0 = .left → (∀ w, s.workers w = .left) ∧ ¬s.HandedOver := fun s hp he hw => by
    have hleft : ∀ w, s.workers w = .left := fun w => Fin.fin_one_eq_zero w ▸ hw
    refine ⟨hleft, fun h => ?_⟩
    have hdrained := congrArg Multiset.card (h.drained hleft)
    rw [hp, he] at hdrained
    cases hdrained
  exact ⟨_, _, hrun, rfl, rfl, hfacts _ rfl rfl rfl⟩

end Scheduler

end Absolute
