import Mathlib.Algebra.Ring.Nat
import Mathlib.Data.Fin.VecNotation
import Mathlib.Data.Fintype.Sum
import Mathlib.Data.Fintype.Basic
import Mathlib.Tactic.DeriveFintype
import Absolute.LibFairQueue
import Absolute.LibTally

/-!
# The scheduler's lanes

`Absolute-Runtime/src/tasks.cpp`, the queue side of `Scheduler`: every worker
has a ready set, which others may steal from, and a pinned set, which only it
takes from. A set has one fair queue of roles for each of the seven priorities
(`LibFairQueue`) and counts what each holds beside it.

The metrics that need a clock are left out, and a role is any type with
decidable equality. A `Work` carries a `ticket`, which the code does not have:
the number of the placement it came from, so that a property can speak of one
item and not only of its task.

`contents` is what everything outside this file sees of the queues: what lies
in which `Lane`.
-/

namespace Absolute

namespace Scheduler

open Function

/-! ## Items -/

abbrev TaskId := ℕ

/-- `absolute_task_spawn_config` stops the program on any other priority. -/
abbrev Priority := {p : ℤ // -3 ≤ p ∧ p ≤ 3}

abbrev Bucket := Fin 7

/-- `priority + 3`. -/
def Priority.bucket (p : Priority) : Bucket :=
  ⟨(p.val + 3).toNat, by have := p.property; omega⟩

structure Work (Role : Type) where
  task : TaskId
  core : ℤ
  priority : Priority
  role : Role
  ticket : ℕ
deriving Repr, DecidableEq

variable {Role : Type} [DecidableEq Role]

structure LaneSet (Role : Type) [DecidableEq Role] where
  lanes : Bucket → FairQueue Role (Work Role) := fun _ => .empty
  counts : Bucket → ℕ := fun _ => 0

structure WorkerQueue (Role : Type) [DecidableEq Role] where
  ready : LaneSet Role := {}
  pinned : LaneSet Role := {}
  localCredits : Bucket → Int64 := fun _ => 0
  stealCredits : Bucket → Int64 := fun _ => 0
  takePinnedNext : Bucket → Bool := fun _ => false

/-- Where the code stops the program. -/
inductive Abort where
  | consumeQueuedLocked
  | takeLaneLocked
  | wakeLocked
  | execute
  | prepareSuspend
  | awaitItself
deriving Repr, DecidableEq

/-! ## Choosing a priority -/

def priorityWeights : Bucket → Int64 := ![1, 2, 3, 4, 6, 8, 12]

/-- The local variables of `ChoosePriorityLocked`; `selected` is -1 in the code
while nothing is. -/
structure Choice where
  credits : Bucket → Int64
  activeWeight : Int64 := 0
  bestCredit : Int64 := Int64.minValue
  selected : Option Bucket := none

/-- One pass of the loop. -/
def Choice.consider (isActive : Bucket → Bool) (c : Choice) (index : Bucket) : Choice :=
  if isActive index then
    let credit := c.credits index + priorityWeights index
    let c' := { c with
      activeWeight := c.activeWeight + priorityWeights index
      credits := update c.credits index credit }
    if c.bestCredit < credit ∨ credit = c.bestCredit ∧ c.selected.all (· < index) then
      { c' with bestCredit := credit, selected := some index }
    else c'
  else { c with credits := update c.credits index 0 }

def choosePriorityLocked (credits : Bucket → Int64) (isActive : Bucket → Bool) :
    (Bucket → Int64) × Option Bucket :=
  let c := (List.finRange 7).foldl (Choice.consider isActive) { credits := credits }
  match c.selected with
  | none => (c.credits, none)
  | some selected =>
      (update c.credits selected (c.credits selected - c.activeWeight), some selected)

theorem eq_minValue_or_lt (x : Int64) : x = Int64.minValue ∨ Int64.minValue < x := by
  rw [Int64.lt_iff_toInt_lt, ← Int64.toInt_inj]
  have := x.minValue_le_toInt
  omega

/-- While nothing is selected the best credit is the least there is. -/
def Choice.Open (c : Choice) : Prop := c.selected = none → c.bestCredit = Int64.minValue

theorem Choice.consider_open (isActive : Bucket → Bool) (c : Choice) (index : Bucket)
    (h : c.Open) : (c.consider isActive index).Open := by
  unfold Choice.consider
  split
  · dsimp only
    split
    · exact fun hnone => by cases hnone
    · exact h
  · exact h

/-- What is selected is active, or was selected before. -/
theorem Choice.selected_consider {isActive : Bucket → Bool} {c : Choice} {index b : Bucket}
    (h : (c.consider isActive index).selected = some b) :
    c.selected = some b ∨ b = index ∧ isActive b := by
  unfold Choice.consider at h
  split at h
  · rename_i hactive
    dsimp only at h
    split at h
    · obtain rfl := Option.some.inj h
      exact .inr ⟨rfl, hactive⟩
    · exact .inl h
  · exact .inl h

theorem Choice.selected_consider_none {isActive : Bucket → Bool} {c : Choice} {index : Bucket}
    (hopen : c.Open) (h : (c.consider isActive index).selected = none) :
    c.selected = none ∧ ¬isActive index := by
  unfold Choice.consider at h
  split at h
  · dsimp only at h
    split at h
    · cases h
    · rename_i hbest
      have hnone : c.selected = none := h
      refine absurd ?_ hbest
      rw [hopen hnone, hnone]
      rcases eq_minValue_or_lt (c.credits index + priorityWeights index) with heq | hlt
      · exact .inr ⟨heq, rfl⟩
      · exact .inl hlt
  · rename_i hactive
    exact ⟨h, hactive⟩

theorem Choice.selected_foldl {isActive : Bucket → Bool} (l : List Bucket) (c : Choice) {b : Bucket}
    (h : (l.foldl (Choice.consider isActive) c).selected = some b) :
    c.selected = some b ∨ isActive b := by
  induction l generalizing c with
  | nil => exact .inl h
  | cons index rest ih =>
      rcases ih _ h with hsel | hactive
      · exact (Choice.selected_consider hsel).imp_right And.right
      · exact .inr hactive

theorem Choice.selected_foldl_none {isActive : Bucket → Bool} (l : List Bucket) (c : Choice)
    (hopen : c.Open) (h : (l.foldl (Choice.consider isActive) c).selected = none) :
    c.selected = none ∧ ∀ b ∈ l, ¬isActive b := by
  induction l generalizing c with
  | nil => exact ⟨h, fun b hb => by cases hb⟩
  | cons index rest ih =>
      obtain ⟨hsel, hrest⟩ := ih _ (Choice.consider_open isActive c index hopen) h
      obtain ⟨hc, hindex⟩ := Choice.selected_consider_none hopen hsel
      refine ⟨hc, fun b hb => ?_⟩
      rcases List.mem_cons.mp hb with rfl | hb
      · exact hindex
      · exact hrest b hb

theorem choosePriorityLocked_some {credits : Bucket → Int64} {isActive : Bucket → Bool} {b : Bucket}
    (h : (choosePriorityLocked credits isActive).2 = some b) : isActive b := by
  unfold choosePriorityLocked at h
  dsimp only at h
  split at h
  · cases h
  · rename_i selected hsel
    obtain rfl := Option.some.inj h
    rcases Choice.selected_foldl _ _ hsel with hnone | hactive
    · cases hnone
    · exact hactive

/-- Some active priority is chosen, whatever the credits. -/
theorem choosePriorityLocked_none {credits : Bucket → Int64} {isActive : Bucket → Bool}
    (h : (choosePriorityLocked credits isActive).2 = none) (b : Bucket) : ¬isActive b := by
  unfold choosePriorityLocked at h
  dsimp only at h
  split at h
  · rename_i hsel
    exact (Choice.selected_foldl_none _ _ (fun _ => rfl) hsel).2 b (List.mem_finRange b)
  · cases h

/-! ## One set of lanes -/

def takeLaneLocked (lanes : LaneSet Role) (bucket : Bucket) :
    Except Abort (Option (Work Role) × LaneSet Role) :=
  if lanes.counts bucket = 0 then .ok (none, lanes)
  else match (lanes.lanes bucket).pop with
    -- readyRoles is empty, or it names a role without a lane
    | none => .error .takeLaneLocked
    | some (work, rest) => .ok (some work,
        { lanes := update lanes.lanes bucket rest
          counts := update lanes.counts bucket (lanes.counts bucket - 1) })

def enqueueLane (lanes : LaneSet Role) (work : Work Role) : LaneSet Role :=
  let bucket := work.priority.bucket
  { lanes := update lanes.lanes bucket ((lanes.lanes bucket).push work.role work)
    counts := update lanes.counts bucket (lanes.counts bucket + 1) }

namespace LaneSet

def items (l : LaneSet Role) : Multiset (Work Role) := ∑ b, (l.lanes b).items

structure WellFormed (l : LaneSet Role) : Prop where
  lane : ∀ b, (l.lanes b).WellFormed
  counts : ∀ b, l.counts b = (l.lanes b).items.card

theorem wellFormed_empty : ({} : LaneSet Role).WellFormed where
  lane _ := FairQueue.wellFormed_empty
  counts _ := rfl

@[simp] theorem items_empty : ({} : LaneSet Role).items = 0 :=
  Finset.sum_eq_zero fun _ _ => rfl

theorem WellFormed.items_eq_zero {l : LaneSet Role} (h : l.WellFormed)
    (hcounts : ∀ b, l.counts b = 0) : l.items = 0 :=
  Finset.sum_eq_zero fun b _ => Multiset.card_eq_zero.mp ((h.counts b).symm.trans (hcounts b))

theorem wellFormed_enqueue {l : LaneSet Role} (h : l.WellFormed) (work : Work Role) :
    (enqueueLane l work).WellFormed := by
  constructor
  · intro b
    by_cases hb : b = work.priority.bucket
    · subst hb
      simpa [enqueueLane] using FairQueue.wellFormed_push (h.lane _) work.role work
    · simpa [enqueueLane, hb] using h.lane b
  · intro b
    by_cases hb : b = work.priority.bucket
    · subst hb
      simp [enqueueLane, FairQueue.items_push, h.counts]
    · simpa [enqueueLane, hb] using h.counts b

theorem items_enqueue (l : LaneSet Role) (work : Work Role) :
    (enqueueLane l work).items = work ::ₘ l.items := by
  have h := Tally.sum_update Finset.univ (Finset.mem_univ work.priority.bucket)
    FairQueue.items l.lanes ((l.lanes work.priority.bucket).push work.role work)
  rw [FairQueue.items_push, Multiset.add_cons, ← Multiset.cons_add] at h
  exact add_right_cancel h

/-- Taking from a well-formed set does not stop the program; it takes nothing
only where nothing is counted. -/
theorem WellFormed.take {l : LaneSet Role} (h : l.WellFormed) (b : Bucket) :
    (l.counts b = 0 ∧ takeLaneLocked l b = .ok (none, l)) ∨
      ∃ work l', takeLaneLocked l b = .ok (some work, l') ∧ l'.WellFormed
        ∧ l.items = work ::ₘ l'.items := by
  unfold takeLaneLocked
  by_cases hb : l.counts b = 0
  · exact .inl ⟨hb, if_pos hb⟩
  · right
    have hne : (l.lanes b).items ≠ 0 := fun hzero => hb (by rw [h.counts, hzero]; rfl)
    obtain ⟨work, rest, hpop⟩ := (h.lane b).pop_isSome hne
    have hitems := FairQueue.items_pop hpop
    rw [if_neg hb, hpop]
    refine ⟨work, _, rfl, ⟨fun b' => ?_, fun b' => ?_⟩, ?_⟩
    · by_cases hb' : b' = b
      · subst hb'
        simpa using (h.lane b').pop hpop
      · simpa [hb'] using h.lane b'
    · by_cases hb' : b' = b
      · subst hb'
        simp [h.counts, hitems]
      · simpa [hb'] using h.counts b'
    · have hsum := Tally.sum_update Finset.univ (Finset.mem_univ b) FairQueue.items l.lanes rest
      rw [hitems, Multiset.add_cons, ← Multiset.cons_add] at hsum
      -- both sides also hold what is left in the lane taken from
      refine add_right_cancel (b := rest.items) ?_
      rw [items, items, ← hsum, Multiset.cons_add]

end LaneSet

/-! ## One worker's queue -/

def takeLocalLocked (queue : WorkerQueue Role) :
    Except Abort (Option (Work Role) × WorkerQueue Role) :=
  let (credits, selected) := choosePriorityLocked queue.localCredits
    fun b => 0 < queue.ready.counts b || 0 < queue.pinned.counts b
  let queue := { queue with localCredits := credits }
  match selected with
  | none => .ok (none, queue)
  | some bucket =>
      let hasReady := decide (0 < queue.ready.counts bucket)
      let hasPinned := decide (0 < queue.pinned.counts bucket)
      let usePinned := hasPinned && (!hasReady || queue.takePinnedNext bucket)
      let queue := { queue with takePinnedNext :=
        if hasReady && hasPinned then update queue.takePinnedNext bucket !usePinned
        else queue.takePinnedNext }
      if usePinned then do
        let (work, pinned) ← takeLaneLocked queue.pinned bucket
        return (work, { queue with pinned := pinned })
      else do
        let (work, ready) ← takeLaneLocked queue.ready bucket
        return (work, { queue with ready := ready })

def takeStealableLocked (queue : WorkerQueue Role) :
    Except Abort (Option (Work Role) × WorkerQueue Role) :=
  let (credits, selected) := choosePriorityLocked queue.stealCredits
    fun b => 0 < queue.ready.counts b
  let queue := { queue with stealCredits := credits }
  match selected with
  | none => .ok (none, queue)
  | some bucket => do
      let (work, ready) ← takeLaneLocked queue.ready bucket
      return (work, { queue with ready := ready })

namespace WorkerQueue

structure WellFormed (q : WorkerQueue Role) : Prop where
  ready : q.ready.WellFormed
  pinned : q.pinned.WellFormed

theorem wellFormed_empty : ({} : WorkerQueue Role).WellFormed where
  ready := LaneSet.wellFormed_empty
  pinned := LaneSet.wellFormed_empty

theorem WellFormed.takeLocal {q : WorkerQueue Role} (h : q.WellFormed) :
    (∃ q', takeLocalLocked q = .ok (none, q') ∧ q'.WellFormed ∧ q'.ready = q.ready
        ∧ q'.pinned = q.pinned ∧ q.ready.items = 0 ∧ q.pinned.items = 0) ∨
      ∃ work q', takeLocalLocked q = .ok (some work, q') ∧ q'.WellFormed
        ∧ (q.ready.items = work ::ₘ q'.ready.items ∧ q'.pinned = q.pinned
          ∨ q.pinned.items = work ::ₘ q'.pinned.items ∧ q'.ready = q.ready) := by
  unfold takeLocalLocked
  dsimp only
  split
  · rename_i hnone
    have hcounts : ∀ b, q.ready.counts b = 0 ∧ q.pinned.counts b = 0 := fun b => by
      simpa using choosePriorityLocked_none hnone b
    exact .inl ⟨_, rfl, ⟨h.ready, h.pinned⟩, rfl, rfl,
      h.ready.items_eq_zero fun b => (hcounts b).1, h.pinned.items_eq_zero fun b => (hcounts b).2⟩
  · rename_i bucket hsome
    have hactive := choosePriorityLocked_some hsome
    simp only [Bool.or_eq_true, decide_eq_true_eq] at hactive
    right
    split
    · rename_i hpinned
      simp only [Bool.and_eq_true, decide_eq_true_eq] at hpinned
      rcases h.pinned.take bucket with ⟨hzero, -⟩ | ⟨work, pinned, htake, hwf, hitems⟩
      · omega
      · rw [htake]
        exact ⟨work, _, rfl, ⟨h.ready, hwf⟩, .inr ⟨hitems, rfl⟩⟩
    · rename_i hready
      rcases h.ready.take bucket with ⟨hzero, -⟩ | ⟨work, ready, htake, hwf, hitems⟩
      · have hpos : 0 < q.pinned.counts bucket := by omega
        simp [hzero, hpos] at hready
      · rw [htake]
        exact ⟨work, _, rfl, ⟨hwf, h.pinned⟩, .inl ⟨hitems, rfl⟩⟩

theorem WellFormed.takeStealable {q : WorkerQueue Role} (h : q.WellFormed) :
    (∃ q', takeStealableLocked q = .ok (none, q') ∧ q'.WellFormed ∧ q'.ready = q.ready
        ∧ q'.pinned = q.pinned ∧ q.ready.items = 0) ∨
      ∃ work q', takeStealableLocked q = .ok (some work, q') ∧ q'.WellFormed
        ∧ q.ready.items = work ::ₘ q'.ready.items ∧ q'.pinned = q.pinned := by
  unfold takeStealableLocked
  dsimp only
  split
  · rename_i hnone
    exact .inl ⟨_, rfl, ⟨h.ready, h.pinned⟩, rfl, rfl, h.ready.items_eq_zero fun b => by
      simpa using choosePriorityLocked_none hnone b⟩
  · rename_i bucket hsome
    have hactive := choosePriorityLocked_some hsome
    simp only [decide_eq_true_eq] at hactive
    rcases h.ready.take bucket with ⟨hzero, -⟩ | ⟨work, ready, htake, hwf, hitems⟩
    · omega
    · rw [htake]
      exact .inr ⟨work, _, rfl, ⟨hwf, h.pinned⟩, hitems, rfl⟩

end WorkerQueue

/-! ## The queues of all workers -/

/-- A place where an item waits. -/
inductive Lane (n : ℕ) where
  | ready (worker : Fin n)
  | pinned (worker : Fin n)
deriving Repr, DecidableEq, Fintype

/-- The scheduler's fields the queue operations use. -/
structure Queues (Role : Type) [DecidableEq Role] (n : ℕ) where
  queues : Fin n → WorkerQueue Role
  stealCursors : Fin n → Fin n
  queued : ℕ := 0
  nextSubmissionQueue : ℕ := 0
  runnableTasks : ℤ := 0
  queueSamples : ℕ := 0
  successfulSteals : ℕ := 0

variable {n : ℕ}

/-- As the constructor leaves them. -/
def Queues.initial [NeZero n] : Queues Role n where
  queues _ := {}
  stealCursors index := index + 1

def enqueueLaneLocked (q : Queues Role n) (lane : Lane n) (work : Work Role) : Queues Role n :=
  { q with
    queues := match lane with
      | .ready w =>
          update q.queues w { q.queues w with ready := enqueueLane (q.queues w).ready work }
      | .pinned w =>
          update q.queues w { q.queues w with pinned := enqueueLane (q.queues w).pinned work }
    queued := q.queued + 1
    runnableTasks := q.runnableTasks + 1 }

def consumeQueuedLocked (q : Queues Role n) : Except Abort (Queues Role n) :=
  if q.queued = 0 then .error .consumeQueuedLocked
  else .ok { q with
    queued := q.queued - 1
    runnableTasks := q.runnableTasks - 1
    queueSamples := q.queueSamples + 1 }

/-- The loop of `TakeLocked` over the victims, with `checks` of them to go. -/
def steal [NeZero n] (localIndex : Fin n) (q : Queues Role n) (victim : Fin n) :
    ℕ → Except Abort (Option (Work Role) × Queues Role n)
  | 0 => .ok (none, { q with stealCursors := update q.stealCursors localIndex victim })
  | checks + 1 =>
      if victim ≠ localIndex then do
        let (work, queue) ← takeStealableLocked (q.queues victim)
        let q := { q with queues := update q.queues victim queue }
        match work with
        | some work => do
            let q ← consumeQueuedLocked q
            return (some work, { q with
              stealCursors := update q.stealCursors localIndex (victim + 1)
              successfulSteals := q.successfulSteals + 1 })
        | none => steal localIndex q (victim + 1) checks
      else steal localIndex q (victim + 1) checks

/-- `TakeLaneLocked` consumes what it takes; here the caller does, once the
item has come out of the queue of the one worker it was in. -/
def takeLocked [NeZero n] (q : Queues Role n) (workerIndex : Fin n) :
    Except Abort (Option (Work Role) × Queues Role n) :=
  if q.queued = 0 then .ok (none, q)
  else do
    let (work, queue) ← takeLocalLocked (q.queues workerIndex)
    let q := { q with queues := update q.queues workerIndex queue }
    match work with
    | some work => do
        let q ← consumeQueuedLocked q
        return (some work, q)
    | none =>
        if n < 2 then .ok (none, q)
        else steal workerIndex q (q.stealCursors workerIndex) n

/-- What lies in a lane. -/
def laneContents (queues : Fin n → WorkerQueue Role) : Lane n → Multiset (Work Role)
  | .ready w => (queues w).ready.items
  | .pinned w => (queues w).pinned.items

namespace Queues

def contents (q : Queues Role n) : Lane n → Multiset (Work Role) := laneContents q.queues

structure WellFormed (q : Queues Role n) : Prop where
  queue : ∀ w, (q.queues w).WellFormed
  queued : q.queued = ∑ lane, (q.contents lane).card
  runnable : q.runnableTasks = q.queued

/-- The lanes `TakeLocked` looks into for a worker. -/
def Reaches (w : Fin n) : Lane n → Prop
  | .ready _ => True
  | .pinned owner => owner = w

instance (w : Fin n) : DecidablePred (Reaches w) := fun lane =>
  match lane with
  | .ready _ => .isTrue trivial
  | .pinned owner => inferInstanceAs (Decidable (owner = w))

end Queues

theorem laneContents_update_ready (queues : Fin n → WorkerQueue Role) {w : Fin n}
    {queue : WorkerQueue Role} (h : queue.pinned = (queues w).pinned) :
    laneContents (update queues w queue)
      = update (laneContents queues) (.ready w) queue.ready.items := by
  funext lane
  cases lane with
  | ready v =>
      by_cases hv : v = w
      · subst hv
        simp [laneContents]
      · simp [laneContents, hv]
  | pinned v =>
      by_cases hv : v = w
      · subst hv
        simp [laneContents, h]
      · simp [laneContents, hv]

theorem laneContents_update_pinned (queues : Fin n → WorkerQueue Role) {w : Fin n}
    {queue : WorkerQueue Role} (h : queue.ready = (queues w).ready) :
    laneContents (update queues w queue)
      = update (laneContents queues) (.pinned w) queue.pinned.items := by
  funext lane
  cases lane with
  | ready v =>
      by_cases hv : v = w
      · subst hv
        simp [laneContents, h]
      · simp [laneContents, hv]
  | pinned v =>
      by_cases hv : v = w
      · subst hv
        simp [laneContents]
      · simp [laneContents, hv]

/-- Credits and turns are not contents. -/
theorem laneContents_update_same (queues : Fin n → WorkerQueue Role) {w : Fin n}
    {queue : WorkerQueue Role} (hready : queue.ready = (queues w).ready)
    (hpinned : queue.pinned = (queues w).pinned) :
    laneContents (update queues w queue) = laneContents queues := by
  rw [laneContents_update_ready queues hpinned, hready]
  exact update_eq_self _ _

theorem wellFormed_update {queues : Fin n → WorkerQueue Role} (h : ∀ v, (queues v).WellFormed)
    {w : Fin n} {queue : WorkerQueue Role} (hqueue : queue.WellFormed) (v : Fin n) :
    (update queues w queue v).WellFormed := by
  by_cases hv : v = w
  · subst hv
    rwa [update_self]
  · rw [update_of_ne hv]
    exact h v

namespace Queues

theorem wellFormed_initial [NeZero n] : (initial : Queues Role n).WellFormed where
  queue _ := WorkerQueue.wellFormed_empty
  queued := by
    refine (Finset.sum_eq_zero fun lane _ => ?_).symm
    cases lane <;> exact congrArg Multiset.card LaneSet.items_empty
  runnable := rfl

@[simp] theorem contents_initial [NeZero n] (lane : Lane n) :
    (initial : Queues Role n).contents lane = 0 := by
  cases lane <;> exact LaneSet.items_empty

theorem contents_enqueue (q : Queues Role n) (lane : Lane n) (work : Work Role) :
    (enqueueLaneLocked q lane work).contents
      = update q.contents lane (work ::ₘ q.contents lane) := by
  unfold enqueueLaneLocked contents
  cases lane with
  | ready w =>
      refine Eq.trans (laneContents_update_ready q.queues ?_) ?_
      · rfl
      · rw [LaneSet.items_enqueue]
        rfl
  | pinned w =>
      refine Eq.trans (laneContents_update_pinned q.queues ?_) ?_
      · rfl
      · rw [LaneSet.items_enqueue]
        rfl

theorem wellFormed_enqueue {q : Queues Role n} (h : q.WellFormed) (lane : Lane n)
    (work : Work Role) : (enqueueLaneLocked q lane work).WellFormed := by
  constructor
  · intro v
    unfold enqueueLaneLocked
    cases lane with
    | ready w =>
        refine wellFormed_update h.queue ?_ v
        exact ⟨LaneSet.wellFormed_enqueue (h.queue w).ready work, (h.queue w).pinned⟩
    | pinned w =>
        refine wellFormed_update h.queue ?_ v
        exact ⟨(h.queue w).ready, LaneSet.wellFormed_enqueue (h.queue w).pinned work⟩
  · have hsum := Tally.sum_update Finset.univ (Finset.mem_univ lane) Multiset.card q.contents
      (work ::ₘ q.contents lane)
    rw [contents_enqueue, show (enqueueLaneLocked q lane work).queued = q.queued + 1 from rfl,
      h.queued]
    rw [Multiset.card_cons] at hsum
    omega
  · have hrunnable := h.runnable
    show q.runnableTasks + 1 = ((q.queued + 1 : ℕ) : ℤ)
    omega

/-- `work` has left `lane`, and nothing else has moved. -/
structure Took (q : Queues Role n) (lane : Lane n) (work : Work Role) (q' : Queues Role n) :
    Prop where
  taken : q.contents lane = work ::ₘ q'.contents lane
  rest : ∀ other, other ≠ lane → q'.contents other = q.contents other

theorem Took.contents_eq {q q' : Queues Role n} {lane : Lane n} {work : Work Role}
    (h : q.Took lane work q') : q'.contents = update q.contents lane (q'.contents lane) := by
  funext other
  by_cases hother : other = lane
  · subst hother
    rw [update_self]
  · rw [update_of_ne hother, h.rest other hother]

/-- Consuming goes through once an item has come out of a lane. -/
theorem WellFormed.consume {q : Queues Role n} (h : q.WellFormed) {w : Fin n}
    {queue : WorkerQueue Role} (hqueue : queue.WellFormed) (lane : Lane n) (work : Work Role)
    {rest : Multiset (Work Role)} (htaken : q.contents lane = work ::ₘ rest)
    (hcontents : laneContents (update q.queues w queue) = update q.contents lane rest) :
    ∃ q', consumeQueuedLocked { q with queues := update q.queues w queue } = .ok q'
      ∧ q'.WellFormed ∧ q.Took lane work q' := by
  have hsum := Tally.sum_update Finset.univ (Finset.mem_univ lane) Multiset.card q.contents rest
  rw [htaken, Multiset.card_cons] at hsum
  have hqueued := h.queued
  have hrunnable := h.runnable
  unfold consumeQueuedLocked
  rw [if_neg (show ¬q.queued = 0 by omega)]
  refine ⟨_, rfl, ⟨wellFormed_update h.queue hqueue, ?_, ?_⟩, ?_, ?_⟩
  · unfold contents
    dsimp only
    rw [hcontents]
    omega
  · show q.runnableTasks - 1 = ((q.queued - 1 : ℕ) : ℤ)
    omega
  · show q.contents lane = work ::ₘ laneContents (update q.queues w queue) lane
    rw [hcontents, update_self, htaken]
  · intro other hother
    show laneContents (update q.queues w queue) other = q.contents other
    rw [hcontents, update_of_ne hother]

/-- What `TakeLocked` does for a worker: it takes from a lane the worker
reaches, and takes nothing only if all of these are empty. -/
def TakeResult (q : Queues Role n) (w : Fin n) : Option (Work Role) → Queues Role n → Prop
  | none, q' => q'.contents = q.contents ∧ ∀ lane, Reaches w lane → q.contents lane = 0
  | some work, q' => ∃ lane, Reaches w lane ∧ q.Took lane work q'

variable [NeZero n]

/-- The victims in the order the loop visits them. -/
theorem iterate_succ_val (victim : Fin n) (j : ℕ) :
    ((· + 1)^[j] victim).val = (victim.val + j) % n := by
  induction j with
  | zero => exact (Nat.mod_eq_of_lt victim.isLt).symm
  | succ j ih =>
      rw [iterate_succ_apply', Fin.val_add, ih, Fin.val_one', Nat.add_mod_mod, Nat.mod_add_mod,
        Nat.add_assoc]

theorem exists_iterate_succ (victim v : Fin n) : ∃ j < n, (· + 1)^[j] victim = v := by
  have hn : 0 < n := Nat.pos_of_ne_zero (NeZero.ne n)
  refine ⟨(v.val + (n - victim.val)) % n, Nat.mod_lt _ hn, Fin.ext ?_⟩
  have hv := victim.isLt
  rw [iterate_succ_val, Nat.add_mod_mod,
    show victim.val + (v.val + (n - victim.val)) = v.val + n by omega,
    Nat.add_mod_right, Nat.mod_eq_of_lt v.isLt]

theorem WellFormed.steal {q : Queues Role n} (h : q.WellFormed) (w victim : Fin n) (checks : ℕ) :
    ∃ r q', steal w q victim checks = .ok (r, q') ∧ q'.WellFormed ∧
      match r with
      | none => q'.contents = q.contents
          ∧ ∀ j < checks, (· + 1)^[j] victim ≠ w → q.contents (.ready ((· + 1)^[j] victim)) = 0
      | some work => ∃ v, q.Took (.ready v) work q' := by
  induction checks generalizing q victim with
  | zero => exact ⟨none, _, rfl, ⟨h.queue, h.queued, h.runnable⟩, rfl, fun j hj => by omega⟩
  | succ checks ih =>
      unfold Scheduler.steal
      by_cases hvictim : victim = w
      · rw [if_neg (not_not.mpr hvictim)]
        obtain ⟨r, q', hsteal, hwf, hr⟩ := ih h (victim + 1)
        refine ⟨r, q', hsteal, hwf, ?_⟩
        cases r with
        | some work => exact hr
        | none =>
            refine ⟨hr.1, fun j hj hne => ?_⟩
            cases j with
            | zero => exact absurd hvictim hne
            | succ j => exact hr.2 j (by omega) hne
      · rw [if_pos hvictim]
        rcases (h.queue victim).takeStealable with
          ⟨queue, htake, hqueue, hready, hpinned, hempty⟩ |
            ⟨work, queue, htake, hqueue, hitems, hpinned⟩
        · rw [htake]
          have hsame : ({ q with queues := update q.queues victim queue } : Queues Role n).contents
              = q.contents := laneContents_update_same q.queues hready hpinned
          obtain ⟨r, q', hsteal, hwf, hr⟩ := ih
            (q := { q with queues := update q.queues victim queue })
            ⟨wellFormed_update h.queue hqueue, by rw [hsame]; exact h.queued, h.runnable⟩
            (victim + 1)
          refine ⟨r, q', hsteal, hwf, ?_⟩
          cases r with
          | some work => exact hr.imp fun v hv => ⟨hsame ▸ hv.taken, hsame ▸ hv.rest⟩
          | none =>
              rw [hsame] at hr
              refine ⟨hr.1, fun j hj hne => ?_⟩
              cases j with
              | zero => exact hempty
              | succ j => exact hr.2 j (by omega) hne
        · rw [htake]
          obtain ⟨q', hconsume, hwf, htook⟩ := h.consume hqueue
            (.ready victim) work hitems (laneContents_update_ready q.queues hpinned)
          dsimp only [bind, Except.bind]
          rw [hconsume]
          exact ⟨some work, _, rfl, ⟨hwf.queue, hwf.queued, hwf.runnable⟩, victim,
            ⟨htook.taken, htook.rest⟩⟩

theorem WellFormed.takeLocked {q : Queues Role n} (h : q.WellFormed) (w : Fin n) :
    ∃ r q', takeLocked q w = .ok (r, q') ∧ q'.WellFormed ∧ q.TakeResult w r q' := by
  unfold Scheduler.takeLocked
  by_cases hzero : q.queued = 0
  · rw [if_pos hzero]
    refine ⟨none, q, rfl, h, rfl, fun lane _ => ?_⟩
    have hsum := h.queued.symm.trans hzero
    rw [Finset.sum_eq_zero_iff] at hsum
    exact Multiset.card_eq_zero.mp (hsum lane (Finset.mem_univ lane))
  · rw [if_neg hzero]
    rcases (h.queue w).takeLocal with
      ⟨queue, htake, hqueue, hready, hpinned, hreadyNil, hpinnedNil⟩ |
        ⟨work, queue, htake, hqueue, hitems⟩
    · rw [htake]
      have hsame : ({ q with queues := update q.queues w queue } : Queues Role n).contents
          = q.contents := laneContents_update_same q.queues hready hpinned
      have hwf : ({ q with queues := update q.queues w queue } : Queues Role n).WellFormed :=
        ⟨wellFormed_update h.queue hqueue, by rw [hsame]; exact h.queued, h.runnable⟩
      dsimp only [bind, Except.bind]
      by_cases hn : n < 2
      · rw [if_pos hn]
        refine ⟨none, _, rfl, hwf, hsame, fun lane hlane => ?_⟩
        cases lane with
        | ready v =>
            obtain rfl : v = w := Fin.ext (by omega)
            exact hreadyNil
        | pinned v =>
            obtain rfl : v = w := hlane
            exact hpinnedNil
      · rw [if_neg hn]
        obtain ⟨r, q', hsteal, hwf', hr⟩ := hwf.steal w (q.stealCursors w) n
        refine ⟨r, q', hsteal, hwf', ?_⟩
        cases r with
        | some work =>
            obtain ⟨v, hv⟩ := hr
            exact ⟨.ready v, trivial, hsame ▸ hv.taken, hsame ▸ hv.rest⟩
        | none =>
            rw [hsame] at hr
            refine ⟨hr.1, fun lane hlane => ?_⟩
            cases lane with
            | pinned v =>
                obtain rfl : v = w := hlane
                exact hpinnedNil
            | ready v =>
                by_cases hv : v = w
                · subst hv
                  exact hreadyNil
                · obtain ⟨j, hj, rfl⟩ := exists_iterate_succ (q.stealCursors w) v
                  exact hr.2 j hj hv
    · rw [htake]
      dsimp only [bind, Except.bind]
      rcases hitems with ⟨hitems, hpinned⟩ | ⟨hitems, hready⟩
      · obtain ⟨q', hconsume, hwf, htook⟩ := h.consume hqueue
          (.ready w) work hitems (laneContents_update_ready q.queues hpinned)
        rw [hconsume]
        exact ⟨some work, q', rfl, hwf, .ready w, trivial, htook⟩
      · obtain ⟨q', hconsume, hwf, htook⟩ := h.consume hqueue
          (.pinned w) work hitems (laneContents_update_pinned q.queues hready)
        rw [hconsume]
        exact ⟨some work, q', rfl, hwf, .pinned w, rfl, htook⟩

end Queues

end Scheduler

end Absolute
