import Mathlib.Algebra.Order.BigOperators.Group.Multiset
import Absolute.RtScheduler

/-!
# Where a task is

Every task is in one `Place` at a time: not made yet, in one lane, in the hands
of one worker, or nowhere the scheduler would take it from (it is suspended,
done, or was dropped). `Local` says what the scheduler's data must be for a task
at a place: what its own fields hold, which lanes and workers have it, whether
some waker still owes it a call, and how often it has been placed and woken.

A step moves one task. `SameFor` is the frame of a step, everything `Local`
reads that belongs to another task; `Inv.moves` puts the frame and the moved
task's new `Local` together, so that each step is checked for one task only.
-/

namespace Absolute

namespace Scheduler

open Function

variable {Role : Type} [DecidableEq Role] {n : ℕ}

/-! ## Places -/

inductive Place (n : ℕ) where
  | unborn
  | lane (l : Lane n)
  | worker (w : Fin n) (stage : Stage)
  | nowhere
deriving Repr, DecidableEq

def Lane.owner : Lane n → Option (Fin n)
  | .ready _ => none
  | .pinned w => some w

namespace Task

/-- The task is in a state in which no suspension is under way. -/
structure Is (k : Task Role n) (state : TaskState) : Prop where
  state : k.state = state
  wakePending : k.wakePending = false
  finished : k.finished = false
  suspensionActive : k.suspensionActive = false

structure Suspending (k : Task Role n) (w : Fin n) : Prop where
  state : k.state = .suspending
  finished : k.finished = false
  suspensionActive : k.suspensionActive = false
  owner : k.ownerWorker = some w

structure Finished (k : Task Role n) (state : TaskState) : Prop where
  state : k.state = state
  finished : k.finished = true
  wakePending : k.wakePending = false
  suspensionActive : k.suspensionActive = false

structure Suspended (k : Task Role n) : Prop where
  state : k.state = .suspended
  wakePending : k.wakePending = false
  finished : k.finished = false
  suspensionActive : k.suspensionActive = true
  owner : ∃ w, k.ownerWorker = some w

end Task

/-- What a task's fields hold at a place. -/
def Fits : Place n → Task Role n → Prop
  | .unborn, k => k.Is .pending
  | .lane l, k => k.Is .runnable ∧ k.ownerWorker = l.owner
  | .worker w .taken, k => k.Is .runnable ∧ k.ownerWorker.getD w = w
  | .worker w .active, k => k.Is .running ∧ k.ownerWorker = some w
  | .worker w .arming, k => k.Is .suspending ∧ k.ownerWorker = some w
  | .worker w .yielding, k => k.Suspending w
  | .worker w .switchedOut, k => k.Suspending w ∨ k.Finished .running
  | .worker w .enqueuing, k => k.Is .runnable ∧ k.ownerWorker = some w
  | .nowhere, k => k.Suspended ∨ k.Finished .done ∨ k.Is .runnable

/-- A call of `WakeLocked` for the task would take effect. -/
def Waits : Place n → Task Role n → Prop
  | .worker _ .yielding, k => k.wakePending = false
  | .worker _ .switchedOut, k => k.state = .suspending ∧ k.wakePending = false
  | .nowhere, k => k.state = .suspended
  | _, _ => False

/-- A wake-up that has arrived and has not led to a lane yet. -/
def owed : Place n → Task Role n → ℕ
  | .worker _ .enqueuing, _ => 1
  | _, k => if k.wakePending then 1 else 0

def Worker.task? : Worker Role → Option (TaskId × Stage)
  | .busy work stage => some (work.task, stage)
  | _ => none

def Worker.waiters : Worker Role → List TaskId
  | .notifying waiters => waiters
  | _ => []

namespace State

/-- The tasks some waker owes a call: the resources', the timers', and the
waiters of tasks that are not done and of those that have just finished. -/
def wakers (s : State Role n) : Multiset TaskId :=
  ↑s.parked + ↑(s.timers.map Timer.task)
    + ∑ t ∈ Finset.range s.created, (↑(s.tasks t).completionWaiters : Multiset TaskId)
    + ∑ w, (↑(s.workers w).waiters : Multiset TaskId)

/-- How often the task lies in a lane. -/
def inLane (s : State Role n) (t : TaskId) (l : Lane n) : ℕ :=
  (s.contents l).countP (·.task = t)

end State

/-- A task's own fields, without the list of those that wait for it. -/
def Task.own (k : Task Role n) : Task Role n := { k with completionWaiters := [] }

/-- The scheduler's data agrees with the task being at the place. -/
structure Local (s : State Role n) (t : TaskId) (p : Place n) : Prop where
  lanes : ∀ l, s.inLane t l = if p = .lane l then 1 else 0
  workers : ∀ w stage, (s.workers w).task? = some (t, stage) ↔ p = .worker w stage
  fits : Fits p (s.tasks t).own
  wakers : s.wakers.count t ≤ 1
  waits : t ∈ s.wakers → Waits p (s.tasks t).own
  born : t < s.created ↔ p ≠ .unborn
  history : s.placements.count t + owed p (s.tasks t).own
    = s.woken.count t + if p = .unborn then 0 else 1

/-- The suspended tasks. -/
def suspendedSet (s : State Role n) : Finset TaskId :=
  (Finset.range s.created).filter fun t => (s.tasks t).state = .suspended

structure Inv (s : State Role n) : Prop where
  queues : s.toQueues.WellFormed
  locals : ∀ t, ∃ p, Local s t p
  gauge : s.suspendedTasks = (suspendedSet s).card

/-- In how many lanes the task lies, counting each as often as it lies there. -/
def State.inLanes (s : State Role n) (t : TaskId) : ℕ := ∑ l, s.inLane t l

theorem Local.inLanes_of_lane {s : State Role n} {t : TaskId} {l : Lane n}
    (h : Local s t (.lane l)) :
    s.inLanes t = 1 := by
  unfold State.inLanes
  rw [Finset.sum_congr rfl fun l' _ => h.lanes l', Finset.sum_eq_single l]
  · exact if_pos rfl
  · exact fun l' _ hne => if_neg fun heq => hne (Place.lane.inj heq).symm
  · exact fun hnot => absurd (Finset.mem_univ l) hnot

theorem Local.inLanes_le {s : State Role n} {t : TaskId} {p : Place n} (h : Local s t p) :
    s.inLanes t ≤ 1 := by
  by_cases hp : ∃ l, p = .lane l
  · obtain ⟨l, rfl⟩ := hp
    exact (h.inLanes_of_lane).le
  · unfold State.inLanes
    rw [Finset.sum_eq_zero fun l _ => (h.lanes l).trans (if_neg fun heq => hp ⟨l, heq⟩)]
    exact Nat.zero_le 1

theorem Local.inLanes_of_worker {s : State Role n} {t : TaskId} {w : Fin n} {stage : Stage}
    (h : Local s t (.worker w stage)) : s.inLanes t = 0 :=
  Finset.sum_eq_zero fun l _ => (h.lanes l).trans (if_neg (by rintro ⟨⟩))

theorem Local.exists_work {s : State Role n} {t : TaskId} {w : Fin n} {stage : Stage}
    (h : Local s t (.worker w stage)) : ∃ work, s.workers w = .busy work stage ∧ work.task = t := by
  have hw := (h.workers w stage).mpr rfl
  cases hworker : s.workers w with
  | looping | notifying | left =>
      rw [hworker] at hw
      cases hw
  | busy work stage' =>
      rw [hworker] at hw
      obtain ⟨rfl, rfl⟩ := Prod.mk.inj (Option.some.inj hw)
      exact ⟨work, rfl, rfl⟩

/-! ## Frames -/

structure SameFor (s s' : State Role n) (u : TaskId) : Prop where
  lanes : ∀ l, s'.inLane u l = s.inLane u l
  workers : ∀ w stage,
    (s'.workers w).task? = some (u, stage) ↔ (s.workers w).task? = some (u, stage)
  own : (s'.tasks u).own = (s.tasks u).own
  born : u < s'.created ↔ u < s.created
  placements : s'.placements.count u = s.placements.count u
  woken : s'.woken.count u = s.woken.count u

theorem SameFor.state {s s' : State Role n} {u : TaskId} (h : SameFor s s' u) :
    (s'.tasks u).state = (s.tasks u).state := by
  have hown := congrArg Task.state h.own
  exact hown

theorem SameFor.trans {s s' s'' : State Role n} {u : TaskId} (h : SameFor s s' u)
    (h' : SameFor s' s'' u) : SameFor s s'' u where
  lanes l := (h'.lanes l).trans (h.lanes l)
  workers w stage := (h'.workers w stage).trans (h.workers w stage)
  own := h'.own.trans h.own
  born := h'.born.trans h.born
  placements := h'.placements.trans h.placements
  woken := h'.woken.trans h.woken

theorem Local.congr {s s' : State Role n} {u : TaskId} {p : Place n} (h : Local s u p)
    (hs : SameFor s s' u) (hwakers : s'.wakers.count u ≤ s.wakers.count u) : Local s' u p where
  lanes l := (hs.lanes l).trans (h.lanes l)
  workers w stage := (hs.workers w stage).trans (h.workers w stage)
  fits := hs.own ▸ h.fits
  wakers := hwakers.trans h.wakers
  waits hu := hs.own ▸ h.waits
    (Multiset.one_le_count_iff_mem.mp ((Multiset.one_le_count_iff_mem.mpr hu).trans hwakers))
  born := hs.born.trans h.born
  history := by rw [hs.placements, hs.woken, hs.own, h.history]

def suspendedShare (s : State Role n) (t : TaskId) : ℕ :=
  if (s.tasks t).state = .suspended then 1 else 0

/-- A step moves the task `t` to the place `p`. -/
structure Moves (s s' : State Role n) (t : TaskId) (p : Place n) : Prop where
  queues : s'.toQueues.WellFormed
  others : ∀ u, u ≠ t → SameFor s s' u ∧ s'.wakers.count u ≤ s.wakers.count u
  here : Local s' t p
  gauge : s'.suspendedTasks + suspendedShare s t = s.suspendedTasks + suspendedShare s' t

theorem Local.mem_suspendedSet {s : State Role n} {t : TaskId} {p : Place n} (h : Local s t p) :
    t ∈ suspendedSet s ↔ (s.tasks t).state = .suspended := by
  rw [suspendedSet, Finset.mem_filter, Finset.mem_range, and_iff_right_iff_imp, h.born]
  rintro hstate rfl
  cases h.fits.state.symm.trans hstate

theorem Local.card_suspendedSet {s : State Role n} {t : TaskId} {p : Place n} (h : Local s t p) :
    (suspendedSet s).card = ((suspendedSet s).erase t).card + suspendedShare s t := by
  unfold suspendedShare
  split
  · rename_i hstate
    exact (Finset.card_erase_add_one (h.mem_suspendedSet.mpr hstate)).symm
  · rename_i hstate
    rw [Finset.erase_eq_of_notMem (mt h.mem_suspendedSet.mp hstate)]
    rfl

theorem Moves.erase_suspendedSet {s s' : State Role n} {t : TaskId} {p : Place n}
    (h : Moves s s' t p) : (suspendedSet s').erase t = (suspendedSet s).erase t := by
  ext u
  rw [Finset.mem_erase, Finset.mem_erase, and_congr_right_iff]
  intro hu
  have hsame := (h.others u hu).1
  rw [suspendedSet, suspendedSet, Finset.mem_filter, Finset.mem_filter, Finset.mem_range,
    Finset.mem_range, hsame.born, hsame.state]

theorem Inv.moves {s s' : State Role n} {t : TaskId} {p : Place n} (hI : Inv s)
    (h : Moves s s' t p) : Inv s' where
  queues := h.queues
  locals u := by
    by_cases hu : u = t
    · exact ⟨p, hu ▸ h.here⟩
    · obtain ⟨q, hq⟩ := hI.locals u
      exact ⟨q, hq.congr (h.others u hu).1 (h.others u hu).2⟩
  gauge := by
    obtain ⟨q, hq⟩ := hI.locals t
    have hcount := hq.card_suspendedSet
    have hcount' := h.here.card_suspendedSet
    have hgauge := h.gauge
    rw [h.erase_suspendedSet] at hcount'
    rw [hI.gauge] at hgauge
    omega

/-- A step that moves no task. -/
theorem Inv.same {s s' : State Role n} (hI : Inv s) (hqueues : s'.toQueues.WellFormed)
    (hsame : ∀ u, SameFor s s' u) (hwakers : s'.wakers ≤ s.wakers)
    (hgauge : s'.suspendedTasks = s.suspendedTasks) : Inv s' := by
  obtain ⟨p, hp⟩ := hI.locals s.created
  have hcount : ∀ u, s'.wakers.count u ≤ s.wakers.count u := fun u =>
    Multiset.count_le_of_le u hwakers
  refine hI.moves (t := s.created) (p := p)
    ⟨hqueues, fun u _ => ⟨hsame u, hcount u⟩, hp.congr (hsame _) (hcount _), ?_⟩
  rw [hgauge, suspendedShare, suspendedShare, (hsame s.created).state]

/-! ## The frames of the operations -/

namespace State

theorem sameFor_setTask (s : State Role n) {t u : TaskId} (hu : u ≠ t) (k : Task Role n) :
    SameFor s (s.setTask t k) u :=
  ⟨fun _ => rfl, fun _ _ => .rfl, congrArg Task.own (update_of_ne hu _ _), .rfl, rfl, rfl⟩

theorem wakers_setTask (s : State Role n) (t : TaskId) {k : Task Role n}
    (hk : k.completionWaiters = (s.tasks t).completionWaiters) :
    (s.setTask t k).wakers = s.wakers := by
  unfold wakers setTask
  dsimp only
  rw [Tally.sum_update_of_eq (g := fun k : Task Role n => (↑k.completionWaiters : Multiset TaskId))
    _ (congrArg Multiset.ofList hk)]

theorem wakers_setWorker (s : State Role n) (w : Fin n) {worker : Worker Role}
    (hworker : worker.waiters = (s.workers w).waiters) :
    (s.setWorker w worker).wakers = s.wakers := by
  unfold wakers setWorker
  dsimp only
  rw [Tally.sum_update_of_eq (g := fun x : Worker Role => (↑x.waiters : Multiset TaskId))
    _ (congrArg Multiset.ofList hworker)]

end State

/-- `t` has been placed in the lane `l`, and only the queues know of it. -/
structure Placed (s s' : State Role n) (t : TaskId) (l : Lane n) : Prop where
  queues : s.toQueues.WellFormed → s'.toQueues.WellFormed
  contents : s'.contents = update s.contents l (s.workOf t ::ₘ s.contents l)
  placements : s'.placements = s.placements ++ [t]
  tasks : s'.tasks = s.tasks
  workers : s'.workers = s.workers
  created : s'.created = s.created
  woken : s'.woken = s.woken
  executed : s'.executed = s.executed
  wakers : s'.wakers = s.wakers
  suspendedTasks : s'.suspendedTasks = s.suspendedTasks

theorem placed_place (s : State Role n) (l : Lane n) (t : TaskId) : Placed s (s.place l t) t l :=
  ⟨fun h => Queues.wellFormed_enqueue h l _, Queues.contents_enqueue _ l _, rfl, rfl, rfl, rfl, rfl,
    rfl, rfl, rfl⟩

theorem placed_enqueueReady [NeZero n] (s : State Role n) (current : Option (Fin n)) (t : TaskId) :
    ∃ w, Placed s (s.enqueueReady current t) t (.ready w) := by
  refine ⟨current.getD (Fin.ofNat n s.nextSubmissionQueue),
    ⟨fun h => ?_, ?_, rfl, rfl, rfl, rfl, rfl, rfl, rfl, rfl⟩⟩
  · unfold State.enqueueReady State.place
    dsimp only
    refine Queues.wellFormed_enqueue ?_ _ _
    exact ⟨h.queue, h.queued, h.runnable⟩
  · exact Queues.contents_enqueue _ _ _

theorem placed_enqueueLocked [NeZero n] (s : State Role n) (current : Option (Fin n)) (t : TaskId) :
    ∃ l, l.owner = (s.tasks t).ownerWorker ∧ Placed s (s.enqueueLocked current t) t l := by
  unfold State.enqueueLocked
  cases (s.tasks t).ownerWorker with
  | some owner => exact ⟨.pinned owner, rfl, placed_place s _ t⟩
  | none =>
      obtain ⟨w, hw⟩ := placed_enqueueReady s current t
      exact ⟨.ready w, rfl, hw⟩

namespace Placed

variable {s s' : State Role n} {t : TaskId} {l : Lane n}

theorem inLane (h : Placed s s' t l) (u : TaskId) (l' : Lane n) :
    s'.inLane u l' = s.inLane u l' + if t = u ∧ l' = l then 1 else 0 := by
  unfold State.inLane
  rw [h.contents]
  by_cases hl : l' = l
  · subst hl
    rw [update_self, Multiset.countP_cons]
    by_cases htu : t = u <;> simp [State.workOf, htu]
  · rw [update_of_ne hl, if_neg fun hc => hl hc.2, Nat.add_zero]

/-- A task that was in no lane and with no worker is now in this lane. -/
theorem lanes (h : Placed s s' t l) {p : Place n} (hp : Local s t p) (hlane : ∀ l', p ≠ .lane l')
    (l' : Lane n) : s'.inLane t l' = if Place.lane l = .lane l' then 1 else 0 := by
  rw [h.inLane, hp.lanes, if_neg (hlane l')]
  simp [eq_comm]

end Placed

end Scheduler

end Absolute
