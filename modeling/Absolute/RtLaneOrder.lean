import Absolute.LibFirstOut
import Absolute.LibFolds
import Absolute.RtDrain

/-!
# The lanes' bookkeeping

A set of lanes says four times over what it holds: the lanes, the roles that have one, a count for
each priority, and the number of items in all sets. `Booked` says that they agree. Of each lane,
an operation puts an item at the end or takes the first (`Shifted`), so that the items of one role
and priority leave a set in the order they entered it.
-/

namespace Absolute

namespace Scheduler

open FirstOut Function Runs

variable {Role : Type} [DecidableEq Role] {n : ℕ}

/-- What may lie in the lane of a role and a priority. -/
def Work.Of (b : Bucket) (r : Role) (work : Work Role) : Prop :=
  work.role = r ∧ work.priority.bucket = b

/-! ## One set of lanes -/

namespace LaneSet

def waiting (lanes : LaneSet Role) (b : Bucket) (r : Role) : List (Work Role) :=
  (lanes.lanes b).lane r

/-- Every lane is as it was, has an item more or has lost the first. -/
def Shifted (lanes lanes' : LaneSet Role) : Prop :=
  ∀ b r, Moved (Work.Of b r) (lanes.waiting b r) (lanes'.waiting b r)

theorem Shifted.refl (lanes : LaneSet Role) : lanes.Shifted lanes := fun _ _ => .kept rfl

/-- Only the lanes of one priority are others. -/
theorem shifted_update (lanes : LaneSet Role) {b : Bucket} {lane : FairQueue Role (Work Role)}
    (counts : Bucket → ℕ)
    (h : ∀ r, Moved (Work.Of b r) ((lanes.lanes b).lane r) (lane.lane r)) :
    lanes.Shifted { lanes := update lanes.lanes b lane, counts := counts } := by
  intro b' r
  show Moved _ ((lanes.lanes b').lane r) ((update lanes.lanes b lane b').lane r)
  by_cases hb : b' = b
  · subst hb
    rw [update_self]
    exact h r
  · rw [update_of_ne hb]
    exact .kept rfl

theorem shifted_enqueueLane (lanes : LaneSet Role) (work : Work Role) :
    lanes.Shifted (enqueueLane lanes work) := by
  refine shifted_update lanes _ fun r => ?_
  rw [FairQueue.lane_push]
  by_cases hr : r = work.role
  · subst hr
    rw [if_pos rfl]
    exact .entered work ⟨rfl, rfl⟩ rfl
  · rw [if_neg hr]
    exact .kept rfl

theorem shifted_takeLaneLocked {lanes lanes' : LaneSet Role} {b : Bucket}
    {work : Option (Work Role)} (h : takeLaneLocked lanes b = .ok (work, lanes')) :
    lanes.Shifted lanes' ∧ (work = none → lanes' = lanes) := by
  rw [takeLaneLocked] at h
  split at h
  · obtain ⟨-, rfl⟩ := Prod.mk.inj (Except.ok.inj h)
    exact ⟨.refl lanes, fun _ => rfl⟩
  · split at h
    · cases h
    · rename_i taken rest hpop
      obtain ⟨rfl, rfl⟩ := Prod.mk.inj (Except.ok.inj h)
      refine ⟨?_, fun hnone => by cases hnone⟩
      obtain ⟨k, hk, hrest⟩ := FairQueue.lane_pop hpop
      refine shifted_update lanes _ fun r => ?_
      by_cases hr : r = k
      · subst hr
        exact .left taken hk
      · exact .kept (hrest r hr)

end LaneSet

/-! ## One worker's queue -/

/-- The worker's sets are shifted, and are the same where nothing was taken. -/
structure WorkerQueue.Shifted (queue : WorkerQueue Role) (work : Option (Work Role))
    (queue' : WorkerQueue Role) : Prop where
  ready : queue.ready.Shifted queue'.ready
  pinned : queue.pinned.Shifted queue'.pinned
  same : work = none → queue'.ready = queue.ready ∧ queue'.pinned = queue.pinned

variable {queue queue' : WorkerQueue Role} {work : Option (Work Role)}

theorem shifted_takeLocalLocked (h : takeLocalLocked queue = .ok (work, queue')) :
    queue.Shifted work queue' := by
  unfold takeLocalLocked at h
  dsimp only at h
  split at h
  · obtain ⟨-, rfl⟩ := Prod.mk.inj (Except.ok.inj h)
    exact ⟨.refl _, .refl _, fun _ => ⟨rfl, rfl⟩⟩
  · split at h
    · obtain ⟨⟨taken, pinned⟩, htake, h⟩ := Iff.mp Folded.bind_eq_ok h
      obtain ⟨rfl, rfl⟩ := Prod.mk.inj (Except.ok.inj h)
      obtain ⟨hshifted, hsame⟩ := LaneSet.shifted_takeLaneLocked htake
      exact ⟨.refl _, hshifted, fun hnone => ⟨rfl, hsame hnone⟩⟩
    · obtain ⟨⟨taken, ready⟩, htake, h⟩ := Iff.mp Folded.bind_eq_ok h
      obtain ⟨rfl, rfl⟩ := Prod.mk.inj (Except.ok.inj h)
      obtain ⟨hshifted, hsame⟩ := LaneSet.shifted_takeLaneLocked htake
      exact ⟨hshifted, .refl _, fun hnone => ⟨hsame hnone, rfl⟩⟩

theorem shifted_takeStealableLocked (h : takeStealableLocked queue = .ok (work, queue')) :
    queue.Shifted work queue' := by
  unfold takeStealableLocked at h
  dsimp only at h
  split at h
  · obtain ⟨-, rfl⟩ := Prod.mk.inj (Except.ok.inj h)
    exact ⟨.refl _, .refl _, fun _ => ⟨rfl, rfl⟩⟩
  · obtain ⟨⟨taken, ready⟩, htake, h⟩ := Iff.mp Folded.bind_eq_ok h
    obtain ⟨rfl, rfl⟩ := Prod.mk.inj (Except.ok.inj h)
    obtain ⟨hshifted, hsame⟩ := LaneSet.shifted_takeLaneLocked htake
    exact ⟨hshifted, .refl _, fun hnone => ⟨hsame hnone, rfl⟩⟩

/-! ## The queues of all workers -/

def laneSet (queues : Fin n → WorkerQueue Role) : Lane n → LaneSet Role
  | .ready w => (queues w).ready
  | .pinned w => (queues w).pinned

/-- The lanes of every set are shifted. -/
def Shifted (queues queues' : Fin n → WorkerQueue Role) : Prop :=
  ∀ l, (laneSet queues l).Shifted (laneSet queues' l)

theorem Shifted.refl (queues : Fin n → WorkerQueue Role) : Shifted queues queues :=
  fun _ => .refl _

theorem shifted_update {queues : Fin n → WorkerQueue Role} {w : Fin n}
    (hready : (queues w).ready.Shifted queue.ready)
    (hpinned : (queues w).pinned.Shifted queue.pinned) :
    Shifted queues (update queues w queue) := by
  intro l
  cases l with
  | ready v =>
      show (queues v).ready.Shifted (update queues w queue v).ready
      by_cases hv : v = w
      · subst hv
        rw [update_self]
        exact hready
      · rw [update_of_ne hv]
        exact .refl _
  | pinned v =>
      show (queues v).pinned.Shifted (update queues w queue v).pinned
      by_cases hv : v = w
      · subst hv
        rw [update_self]
        exact hpinned
      · rw [update_of_ne hv]
        exact .refl _

/-- Where a worker's sets are the same, all are. -/
theorem laneSet_update (queues : Fin n → WorkerQueue Role) {w : Fin n}
    (h : queue.ready = (queues w).ready ∧ queue.pinned = (queues w).pinned) :
    laneSet (update queues w queue) = laneSet queues := by
  funext l
  cases l with
  | ready v =>
      show (update queues w queue v).ready = (queues v).ready
      by_cases hv : v = w
      · subst hv
        rw [update_self, h.1]
      · rw [update_of_ne hv]
  | pinned v =>
      show (update queues w queue v).pinned = (queues v).pinned
      by_cases hv : v = w
      · subst hv
        rw [update_self, h.2]
      · rw [update_of_ne hv]

theorem shifted_enqueueLaneLocked (q : Queues Role n) (l : Lane n) (item : Work Role) :
    Shifted q.queues (enqueueLaneLocked q l item).queues := by
  cases l with
  | ready w => exact shifted_update (LaneSet.shifted_enqueueLane _ item) (.refl _)
  | pinned w => exact shifted_update (.refl _) (LaneSet.shifted_enqueueLane _ item)

theorem consumeQueuedLocked_queues {q q' : Queues Role n} (h : consumeQueuedLocked q = .ok q') :
    q'.queues = q.queues := by
  rw [consumeQueuedLocked] at h
  split at h
  · cases h
  · obtain rfl := Except.ok.inj h
    rfl

theorem shifted_steal [NeZero n] {q q' : Queues Role n} {w victim : Fin n} {checks : ℕ}
    (h : steal w q victim checks = .ok (work, q')) : Shifted q.queues q'.queues := by
  induction checks generalizing q victim with
  | zero =>
      obtain ⟨-, rfl⟩ := Prod.mk.inj (Except.ok.inj h)
      exact .refl _
  | succ checks ih =>
      unfold steal at h
      split at h
      · obtain ⟨⟨taken, queue⟩, htake, h⟩ := Iff.mp Folded.bind_eq_ok h
        have hqueue := shifted_takeStealableLocked htake
        cases taken with
        | some item =>
            obtain ⟨q₁, hconsume, h⟩ := Iff.mp Folded.bind_eq_ok h
            obtain ⟨-, rfl⟩ := Prod.mk.inj (Except.ok.inj h)
            show Shifted q.queues q₁.queues
            rw [consumeQueuedLocked_queues hconsume]
            exact shifted_update hqueue.ready hqueue.pinned
        | none =>
            -- the victim's sets are as they were
            have hrest := ih h
            unfold Shifted at hrest ⊢
            rwa [laneSet_update q.queues (hqueue.same rfl)] at hrest
      · exact ih h

theorem shifted_takeLocked [NeZero n] {q q' : Queues Role n} {w : Fin n}
    (h : takeLocked q w = .ok (work, q')) : Shifted q.queues q'.queues := by
  unfold takeLocked at h
  split at h
  · obtain ⟨-, rfl⟩ := Prod.mk.inj (Except.ok.inj h)
    exact .refl _
  · obtain ⟨⟨taken, queue⟩, htake, h⟩ := Iff.mp Folded.bind_eq_ok h
    have hqueue := shifted_takeLocalLocked htake
    cases taken with
    | some item =>
        obtain ⟨q₁, hconsume, h⟩ := Iff.mp Folded.bind_eq_ok h
        obtain ⟨-, rfl⟩ := Prod.mk.inj (Except.ok.inj h)
        rw [consumeQueuedLocked_queues hconsume]
        exact shifted_update hqueue.ready hqueue.pinned
    | none =>
        have hsame := laneSet_update q.queues (hqueue.same rfl)
        dsimp only at h
        split at h
        · obtain ⟨-, rfl⟩ := Prod.mk.inj (Except.ok.inj h)
          exact shifted_update hqueue.ready hqueue.pinned
        · have hrest := shifted_steal h
          unfold Shifted at hrest ⊢
          rwa [hsame] at hrest

/-! ## Steps -/

variable {s s' : State Role n}

theorem afterSwitch_queues {w : Fin n} {item : Work Role} (h : s.afterSwitch w item = .ok s') :
    s'.queues = s.queues := by
  unfold State.afterSwitch at h
  dsimp only at h
  split at h
  · obtain rfl := Except.ok.inj h
    rfl
  · split at h
    · cases h
    · split at h <;>
      · obtain rfl := Except.ok.inj h
        rfl

variable [NeZero n]

theorem shifted_enqueueReady (s : State Role n) (current : Option (Fin n)) (t : TaskId) :
    Shifted s.queues (s.enqueueReady current t).queues :=
  shifted_enqueueLaneLocked { s.toQueues with nextSubmissionQueue := s.nextSubmissionQueue + 1 } _ _

theorem shifted_enqueueLocked (s : State Role n) (current : Option (Fin n)) (t : TaskId) :
    Shifted s.queues (s.enqueueLocked current t).queues := by
  unfold State.enqueueLocked
  split
  · exact shifted_enqueueLaneLocked s.toQueues _ _
  · exact shifted_enqueueReady s current t

theorem shifted_wake {current : Option (Fin n)} {t : TaskId} (h : s.wake current t = .ok s') :
    Shifted s.queues s'.queues := by
  unfold State.wake State.wakeLocked at h
  dsimp only at h
  split at h
  · split at h <;>
    · obtain rfl := Except.ok.inj h
      exact Shifted.refl s.queues
  · split at h
    · obtain rfl := Except.ok.inj h
      exact shifted_enqueueLocked
        ((({ s with woken := s.woken ++ [t] } : State Role n).countWakeUp.countSuspended (-1)).setTask
          t { s.tasks t with suspensionActive := false, state := .runnable }) current t
    · cases h
  · obtain rfl := Except.ok.inj h
    exact Shifted.refl s.queues

theorem shifted_runTake {w : Fin n} (h : s.runTake w = .ok s') : Shifted s.queues s'.queues := by
  unfold State.runTake at h
  obtain ⟨⟨taken, queues⟩, htake, h⟩ := Iff.mp Folded.bind_eq_ok h
  have htaken := shifted_takeLocked htake
  cases taken with
  | some item =>
      dsimp only at h
      split at h <;>
      · obtain rfl := Except.ok.inj h
        exact htaken
  | none =>
      dsimp only at h
      split at h <;>
      · obtain rfl := Except.ok.inj h
        exact htaken

/-- Whatever is done next, each lane keeps its items in order. -/
theorem shifted_step {e : Event Role n} (hstep : State.Step s e s') :
    Shifted s.queues s'.queues := by
  unfold State.Step at hstep
  cases e with
  | submit current core priority role =>
      rw [State.apply] at hstep
      split at hstep
      · obtain rfl := Except.ok.inj hstep
        exact shifted_enqueueReady (State.setTask { s with created := s.created + 1 } s.created
          { core, priority, role, state := .runnable }) current s.created
      · cases hstep
  | take w =>
      rw [State.apply] at hstep
      split at hstep
      · exact shifted_runTake (orStop_eq_ok hstep)
      · cases hstep
  | promoteTimer w now =>
      rw [State.apply] at hstep
      split at hstep
      · split at hstep
        · exact shifted_wake (s := s.popTimer) (orStop_eq_ok hstep)
        · cases hstep
      · cases hstep
  | resume current t =>
      rw [State.apply] at hstep
      split at hstep
      · have hresume := orStop_eq_ok hstep
        unfold State.resumeSchedulerTask at hresume
        split at hresume
        · exact shifted_wake (s := s.unregister t) hresume
        · obtain rfl := Except.ok.inj hresume
          exact Shifted.refl s.queues
      · cases hstep
  | afterSwitch w =>
      obtain ⟨item, -, hitem⟩ := onItem_ok hstep
      rw [afterSwitch_queues (orStop_eq_ok hitem)]
      exact Shifted.refl s.queues
  | enqueue w =>
      obtain ⟨item, -, hitem⟩ := onItem_ok hstep
      obtain rfl := Except.ok.inj hitem
      exact shifted_enqueueLocked s (some w) item.task
  | notifyWaiter w =>
      rw [State.apply] at hstep
      split at hstep
      · obtain rfl := Except.ok.inj hstep
        exact Shifted.refl s.queues
      · rename_i t rest _
        exact shifted_wake (s := s.setWorker w (.notifying rest)) (orStop_eq_ok hstep)
      · cases hstep
  | prepareSuspend w | park w =>
      obtain ⟨item, -, hitem⟩ := onItem_ok hstep
      obtain rfl := prepareSuspend_ok hitem
      exact Shifted.refl s.queues
  | wait w awaited =>
      obtain ⟨item, -, hitem⟩ := onItem_ok hstep
      split at hitem
      · cases hitem
      · split at hitem
        · cases hitem
        · split at hitem
          · obtain rfl := Except.ok.inj hitem
            exact Shifted.refl s.queues
          · obtain rfl := prepareSuspend_ok hitem
            exact Shifted.refl s.queues
  | execute w | pushTimer w deadline | register w | yieldCurrent w | finish w =>
      obtain ⟨item, -, hitem⟩ := onItem_ok hstep
      obtain rfl := Except.ok.inj hitem
      exact Shifted.refl s.queues
  | withdraw =>
      obtain rfl := Except.ok.inj hstep
      exact Shifted.refl s.queues
  | stop =>
      rw [State.apply] at hstep
      split at hstep
      · cases hstep
      · obtain rfl := Except.ok.inj hstep
        exact Shifted.refl s.queues

/-! ## Every run -/

/-- The lanes, the roles that have one, the counts and the number of items agree. -/
structure Booked (q : Queues Role n) : Prop where
  counts : ∀ l b, (laneSet q.queues l).counts b =
    ((((laneSet q.queues l).lanes b).lanes.entries.map fun e => e.2.length).sum)
  roles_nodup : ∀ l b, ((laneSet q.queues l).lanes b).turns.Nodup
  mem_roles : ∀ l b r,
    r ∈ ((laneSet q.queues l).lanes b).turns ↔ (laneSet q.queues l).waiting b r ≠ []
  nonempty : ∀ l b r lane, ((laneSet q.queues l).lanes b).lanes.lookup r = some lane → lane ≠ []
  queued : q.queued = ∑ l, ∑ b, (laneSet q.queues l).counts b

omit [NeZero n] in
theorem wellFormed_laneSet {q : Queues Role n} (h : q.WellFormed) (l : Lane n) :
    (laneSet q.queues l).WellFormed := by
  cases l with
  | ready w => exact (h.queue w).ready
  | pinned w => exact (h.queue w).pinned

omit [NeZero n] in
theorem contents_laneSet (q : Queues Role n) (l : Lane n) :
    q.contents l = (laneSet q.queues l).items := by
  cases l with
  | ready w => rfl
  | pinned w => rfl

omit [NeZero n] in
theorem booked_of_wellFormed {q : Queues Role n} (h : q.WellFormed) : Booked q where
  counts l b := by
    rw [(wellFormed_laneSet h l).counts, FairQueue.card_items]
  roles_nodup l b := ((wellFormed_laneSet h l).lane b).nodup
  mem_roles l b r := ((wellFormed_laneSet h l).lane b).mem_turns_iff r
  nonempty l b r lane hlookup := ((wellFormed_laneSet h l).lane b).nonempty hlookup
  queued := by
    rw [h.queued]
    refine Finset.sum_congr rfl fun l _ => ?_
    rw [contents_laneSet, LaneSet.items, Multiset.card_sum]
    exact Finset.sum_congr rfl fun b _ => ((wellFormed_laneSet h l).counts b).symm

omit [NeZero n] in
/-- A task lies in a lane once at most. -/
theorem nodup_waiting (hI : Inv s) (l : Lane n) (b : Bucket) (r : Role) :
    ((laneSet s.queues l).waiting b r).Nodup := by
  have hle : ((laneSet s.queues l).waiting b r : Multiset (Work Role)) ≤ s.contents l := by
    rw [show s.contents l = (laneSet s.queues l).items from contents_laneSet s.toQueues l]
    refine (FairQueue.coe_lane_le _ r).trans ?_
    exact Finset.single_le_sum (fun b _ => Multiset.zero_le _) (Finset.mem_univ b)
  refine List.nodup_iff_count_le_one.mpr fun item => ?_
  obtain ⟨p, hp⟩ := hI.locals item.task
  have hone : (s.contents l).countP (·.task = item.task) ≤ 1 := by
    have hlanes := hp.lanes l
    rw [State.inLane] at hlanes
    rw [hlanes]
    split <;> omega
  calc ((laneSet s.queues l).waiting b r).count item
      ≤ ((laneSet s.queues l).waiting b r).countP (·.task = item.task) :=
        List.countP_mono_left fun item' _ heq => by
          obtain rfl := beq_iff_eq.mp heq
          exact decide_eq_true rfl
    _ = (((laneSet s.queues l).waiting b r : Multiset (Work Role))).countP
          (·.task = item.task) := (Multiset.coe_countP _ _).symm
    _ ≤ (s.contents l).countP (·.task = item.task) := Multiset.countP_le_of_le _ hle
    _ ≤ 1 := hone

/-- In every state of every run the four agree, and whatever is done next stops the program neither
in `TakeLaneLocked` nor in `ConsumeQueuedLocked`; and what has entered a lane in a run, all of it
of one role and priority, is what has left it and then what still waits there, in this order. -/
theorem lane_bookkeeping [Inhabited Role] :
    (∀ (past : List (Event Role n)) (s : State Role n), Run State.Step State.initial past s →
      Booked s.toQueues ∧ ∀ e, s.apply e ≠ .error (.abort .takeLaneLocked)
        ∧ s.apply e ≠ .error (.abort .consumeQueuedLocked))
    ∧ ∀ (states : ℕ → State Role n) (events : ℕ → Event Role n) (k : ℕ),
      states 0 = State.initial →
      (∀ i < k, State.Step (states i) (events i) (states (i + 1))) →
      ∀ (l : Lane n) (b : Bucket) (r : Role),
        (∀ item ∈ entered (fun i => (laneSet (states i).queues l).waiting b r) k, item.Of b r)
        ∧ entered (fun i => (laneSet (states i).queues l).waiting b r) k
          = left (fun i => (laneSet (states i).queues l).waiting b r) k
            ++ (laneSet (states k).queues l).waiting b r := by
  refine ⟨fun past s hrun => ?_, fun states events k hstart hsteps l b r => ?_⟩
  · have hI := inv_of_run hrun
    refine ⟨booked_of_wellFormed hI.queues, fun e => ?_⟩
    cases hI.apply e with
    | disabled h => constructor <;> rw [h] <;> rintro ⟨⟩
    | awaitsItself h => constructor <;> rw [h] <;> rintro ⟨⟩
    | ok s' h => constructor <;> rw [h] <;> rintro ⟨⟩
  · have hmoved : ∀ i < k, Moved (Work.Of b r) ((laneSet (states i).queues l).waiting b r)
        ((laneSet (states (i + 1)).queues l).waiting b r) :=
      fun i hi => shifted_step (hsteps i hi) l b r
    have hnodup : ∀ i ≤ k, ((laneSet (states i).queues l).waiting b r).Nodup := fun i hi => by
      obtain ⟨past, hrun⟩ := Run.of_sequence hstart fun j hj => hsteps j (Nat.lt_of_lt_of_le hj hi)
      exact nodup_waiting (inv_of_run hrun) l b r
    refine ⟨fun item hitem => of_mem_entered hmoved hitem, ?_⟩
    have hentered := entered_eq hmoved hnodup
    have hempty : (laneSet (states 0).queues l).waiting b r = [] := by
      rw [hstart]
      cases l <;> rfl
    rw [hempty, List.nil_append] at hentered
    exact hentered

/-- Two workers and two tasks, the first of which is stolen. -/
theorem lane_bookkeeping_stolen :
    ∃ past, ∃ s : State Bool 2, Run State.Step State.initial past s
      ∧ Booked s.toQueues ∧ s.queued = 1 ∧ s.successfulSteals = 1 := by
  have hrun : Run State.Step (State.initial : State Bool 2)
      [.submit none (-1) ⟨0, by decide⟩ true, .take 1,
        .submit none (-1) ⟨0, by decide⟩ true] _ :=
    .cons (.cons (.cons .nil rfl) rfl) rfl
  exact ⟨_, _, hrun, (lane_bookkeeping.1 _ _ hrun).1, rfl, rfl⟩

end Scheduler

end Absolute
