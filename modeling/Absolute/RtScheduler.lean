import Mathlib.Data.List.Sort
import Absolute.LibRuns
import Absolute.RtLanes

/-!
# The task scheduler

`Absolute-Runtime/src/tasks.cpp`, `Scheduler` and what calls it: submitting a
task, a worker's loop in `Run`, `Execute`, a fiber on its way into a suspension
and out of it, the wakers, and the destructor.

A step is what one thread does under one lock, or between two locks; which
thread goes next is free, so a run is any interleaving. Three things are
coarser or finer than the code. A worker that finds nothing waits on a condition
variable: here it may look again at any time. `Run` promotes timers and takes an
item under one lock: here these are separate steps, and so is each timer, which
allows more interleavings than the lock does. And of a resource (channel, mutex,
semaphore, executor, I/O registration) the model keeps who is `parked` with it:
each entry stands for the one call of `ResumeSchedulerTask` its suspension is
owed, whenever the resource comes to make it.

`placements`, `woken` and `executed` are history, which the code does not keep.
-/

namespace Absolute

namespace Scheduler

open Function Runs

/-! ## Tasks, timers and workers -/

inductive TaskState where
  | pending
  | runnable
  | running
  | suspending
  | suspended
  | done
deriving Repr, DecidableEq

structure Task (Role : Type) (n : ℕ) where
  core : ℤ := -1
  priority : Priority := ⟨0, by decide⟩
  ownerWorker : Option (Fin n) := none
  role : Role
  completionWaiters : List TaskId := []
  state : TaskState := .pending
  suspensionActive : Bool := false
  wakePending : Bool := false
  finished : Bool := false
  done : Bool := false
deriving Repr, DecidableEq

structure Timer where
  deadline : ℕ
  sequence : ℕ
  task : TaskId
deriving Repr, DecidableEq

/-- The order of the timer queue, the top first. -/
def Timer.before (a b : Timer) : Prop :=
  a.deadline < b.deadline ∨ a.deadline = b.deadline ∧ a.sequence ≤ b.sequence

instance : DecidableRel Timer.before := fun a b =>
  inferInstanceAs
    (Decidable (a.deadline < b.deadline ∨ a.deadline = b.deadline ∧ a.sequence ≤ b.sequence))

/-- How far `Execute` and the fiber it switched to have come. -/
inductive Stage where
  /-- out of its lane, `Execute` not yet called -/
  | taken
  /-- the fiber runs -/
  | active
  /-- after `PrepareSuspend`, before the waker is registered -/
  | arming
  /-- a waker is registered, on the way to `YieldCurrent` -/
  | yielding
  /-- back in `Execute` -/
  | switchedOut
  /-- `Execute` is about to call `Enqueue` -/
  | enqueuing
deriving Repr, DecidableEq

inductive Worker (Role : Type) where
  | looping
  | busy (work : Work Role) (stage : Stage)
  /-- `Execute` of a finished task, with the waiters still to resume -/
  | notifying (waiters : List TaskId)
  /-- `Run` has returned -/
  | left
deriving Repr, DecidableEq

structure State (Role : Type) [DecidableEq Role] (n : ℕ) extends Queues Role n where
  timers : List Timer := []
  nextTimerSequence : ℕ := 0
  suspendedTasks : ℤ := 0
  completedTasks : ℕ := 0
  wakeUps : ℕ := 0
  stopping : Bool := false
  /-- whether `schedulerInstance` still points here -/
  schedulerInstance : Bool := true
  tasks : TaskId → Task Role n
  created : ℕ := 0
  workers : Fin n → Worker Role := fun _ => .looping
  parked : List TaskId := []
  placements : List TaskId := []
  woken : List TaskId := []
  executed : List ℕ := []

inductive Halt where
  /-- the step is not one the thread can take -/
  | disabled
  | abort (site : Abort)
deriving Repr, DecidableEq

variable {Role : Type} [DecidableEq Role] {n : ℕ}

/-- An operation of the scheduler as a step of a thread. -/
def orStop {α : Type} : Except Abort α → Except Halt α
  | .ok a => .ok a
  | .error site => .error (.abort site)

@[simp] theorem orStop_ok {α : Type} (a : α) : orStop (.ok a) = .ok a := rfl

/-! ## The operations -/

namespace State

/-- As the constructor leaves it. -/
def initial [Inhabited Role] [NeZero n] : State Role n :=
  { Queues.initial with tasks := fun _ => { role := default } }

def setTask (s : State Role n) (t : TaskId) (task : Task Role n) : State Role n :=
  { s with tasks := update s.tasks t task }

def setWorker (s : State Role n) (w : Fin n) (worker : Worker Role) : State Role n :=
  { s with workers := update s.workers w worker }

/-- The counters of the metrics. -/
def countSuspended (s : State Role n) (change : ℤ) : State Role n :=
  { s with suspendedTasks := s.suspendedTasks + change }

def countCompleted (s : State Role n) : State Role n :=
  { s with completedTasks := s.completedTasks + 1 }

def countWakeUp (s : State Role n) : State Role n := { s with wakeUps := s.wakeUps + 1 }

/-- A resource, the executor or the I/O backend takes note of whom to resume. -/
def register (s : State Role n) (t : TaskId) : State Role n :=
  { s with parked := s.parked ++ [t] }

def unregister (s : State Role n) (t : TaskId) : State Role n :=
  { s with parked := s.parked.erase t }

def pushTimer (s : State Role n) (deadline : ℕ) (t : TaskId) : State Role n :=
  { s with
    timers := s.timers.orderedInsert Timer.before ⟨deadline, s.nextTimerSequence, t⟩
    nextTimerSequence := s.nextTimerSequence + 1 }

def popTimer (s : State Role n) : State Role n := { s with timers := s.timers.tail }

def pushWaiter (s : State Role n) (awaited t : TaskId) : State Role n :=
  s.setTask awaited { s.tasks awaited with
    completionWaiters := (s.tasks awaited).completionWaiters ++ [t] }

/-- The item `EnqueueLocked` and `Submit` make of a task. -/
def workOf (s : State Role n) (t : TaskId) : Work Role where
  task := t
  core := (s.tasks t).core
  priority := (s.tasks t).priority
  role := (s.tasks t).role
  ticket := s.placements.length

def place (s : State Role n) (lane : Lane n) (t : TaskId) : State Role n :=
  { s with
    toQueues := enqueueLaneLocked s.toQueues lane (s.workOf t)
    placements := s.placements ++ [t] }

/-- A worker's own queue for what is submitted on it, the queues in turn for
the rest. -/
def enqueueReady [NeZero n] (s : State Role n) (current : Option (Fin n)) (t : TaskId) :
    State Role n :=
  { s with nextSubmissionQueue := s.nextSubmissionQueue + 1 }.place
    (.ready (current.getD (Fin.ofNat n s.nextSubmissionQueue))) t

def enqueueLocked [NeZero n] (s : State Role n) (current : Option (Fin n)) (t : TaskId) :
    State Role n :=
  match (s.tasks t).ownerWorker with
  | some owner => s.place (.pinned owner) t
  | none => s.enqueueReady current t

def submit [NeZero n] (s : State Role n) (current : Option (Fin n)) (core : ℤ)
    (priority : Priority) (role : Role) : State Role n :=
  let t := s.created
  ({ s with created := s.created + 1 }.setTask t
    { core, priority, role, state := .runnable }).enqueueReady current t

def wakeLocked [NeZero n] (s : State Role n) (current : Option (Fin n)) (t : TaskId) :
    Except Abort (State Role n) :=
  let task := s.tasks t
  match task.state with
  | .suspending =>
      if task.wakePending then .ok s
      else .ok (s.countWakeUp.setTask t { task with wakePending := true })
  | .suspended =>
      if task.suspensionActive then
        .ok (((s.countWakeUp.countSuspended (-1)).setTask t
          { task with suspensionActive := false, state := .runnable }).enqueueLocked current t)
      else .error .wakeLocked
  | _ => .ok s

/-- The waker of `t` calls `Resume`, or the worker's loop promotes its timer. -/
def wake [NeZero n] (s : State Role n) (current : Option (Fin n)) (t : TaskId) :
    Except Abort (State Role n) :=
  { s with woken := s.woken ++ [t] }.wakeLocked current t

/-- Nothing happens once the destructor has withdrawn the instance. -/
def resumeSchedulerTask [NeZero n] (s : State Role n) (current : Option (Fin n)) (t : TaskId) :
    Except Abort (State Role n) :=
  if s.schedulerInstance then s.wake current t else .ok s

def prepareSuspend (s : State Role n) (t : TaskId) : Except Abort (State Role n) :=
  if (s.tasks t).state = .running then
    .ok (s.setTask t { s.tasks t with state := .suspending })
  else .error .prepareSuspend

/-- `Execute`, up to the switch to the fiber. -/
def execute (s : State Role n) (w : Fin n) (work : Work Role) : State Role n :=
  let task := s.tasks work.task
  ({ s with executed := s.executed ++ [work.ticket] }.setTask work.task
    { task with
      ownerWorker := some (task.ownerWorker.getD w)
      state := .running }).setWorker w (.busy work .active)

/-- `Execute`, from the switch back to the end of the task's lock. -/
def afterSwitch (s : State Role n) (w : Fin n) (work : Work Role) :
    Except Abort (State Role n) :=
  let task := s.tasks work.task
  if task.finished then
    .ok ((s.countCompleted.setTask work.task { task with
      state := .done, done := true, completionWaiters := [] }).setWorker w
        (.notifying task.completionWaiters))
  else if task.state ≠ .suspending then .error .execute
  else if task.wakePending then
    .ok ((s.setTask work.task { task with wakePending := false, state := .runnable }).setWorker w
      (.busy work .enqueuing))
  else
    .ok (((s.countSuspended 1).setTask work.task
      { task with state := .suspended, suspensionActive := true }).setWorker w .looping)

/-- One look of `Run` at the queues, with the exit test that follows it. -/
def runTake [NeZero n] (s : State Role n) (w : Fin n) : Except Abort (State Role n) := do
  let (work, queues) ← takeLocked s.toQueues w
  let s := { s with toQueues := queues }
  match work with
  | some work =>
      -- the test stands between taking the item and executing it
      if s.stopping && s.queued == 0 then return s.setWorker w .left
      else return s.setWorker w (.busy work .taken)
  | none =>
      if s.stopping && s.queued == 0 then return s.setWorker w .left else return s

end State

/-! ## Steps -/

inductive Event (Role : Type) (n : ℕ) where
  /-- `absolute_task_spawn_config`, from a fiber on a worker or from outside -/
  | submit (current : Option (Fin n)) (core : ℤ) (priority : Priority) (role : Role)
  /-- the loop of `Run` takes an item, leaves, or waits -/
  | take (w : Fin n)
  /-- the loop of `Run` promotes the first timer, which is due -/
  | promoteTimer (w : Fin n) (now : ℕ)
  | execute (w : Fin n)
  /-- `PrepareSuspend` of `SuspendUntil`, `RunBlockingIo` and `SuspendForIo` -/
  | prepareSuspend (w : Fin n)
  /-- `SuspendUntil` pushes the timer -/
  | pushTimer (w : Fin n) (deadline : ℕ)
  /-- the blocking call is queued, or the I/O registered -/
  | register (w : Fin n)
  /-- under a resource's lock: onto its waiters and `PrepareSuspend` -/
  | park (w : Fin n)
  /-- `Wait`, under the awaited task's lock -/
  | wait (w : Fin n) (awaited : TaskId)
  | yieldCurrent (w : Fin n)
  /-- the end of `TaskMain` -/
  | finish (w : Fin n)
  /-- `ResumeSchedulerTask`, from a fiber on a worker or from outside -/
  | resume (current : Option (Fin n)) (t : TaskId)
  | afterSwitch (w : Fin n)
  | enqueue (w : Fin n)
  /-- `Execute` resumes the next waiter of the finished task, or is done with them -/
  | notifyWaiter (w : Fin n)
  /-- the destructor clears `schedulerInstance` -/
  | withdraw
  /-- and then sets `stopping` -/
  | stop
deriving Repr, DecidableEq

namespace State

/-- The item whose fiber a worker runs. -/
def fiber (s : State Role n) (w : Fin n) : Option (Work Role × Stage) :=
  match s.workers w with
  | .busy work .active => some (work, .active)
  | .busy work .arming => some (work, .arming)
  | .busy work .yielding => some (work, .yielding)
  | _ => none

/-- A step of the program is taken outside the scheduler's workers, or by a
fiber that one of them runs. -/
def mayCall (s : State Role n) (current : Option (Fin n)) : Bool :=
  current.all fun w => (s.fiber w).isSome

/-- A step of the worker or of the fiber it runs, at this stage of its item. -/
def onItem (s : State Role n) (w : Fin n) (stage : Stage)
    (step : Work Role → Except Halt (State Role n)) : Except Halt (State Role n) :=
  match s.workers w with
  | .busy work stage' => if stage' = stage then step work else .error .disabled
  | _ => .error .disabled

variable [NeZero n]

def apply (s : State Role n) : Event Role n → Except Halt (State Role n)
  | .submit current core priority role =>
      if s.mayCall current then .ok (s.submit current core priority role) else .error .disabled
  | .take w =>
      match s.workers w with
      | .looping => orStop (s.runTake w)
      | _ => .error .disabled
  | .promoteTimer w now =>
      match s.workers w, s.timers with
      | .looping, timer :: _ =>
          if timer.deadline ≤ now then
            orStop (s.popTimer.wake (some w) timer.task)
          else .error .disabled
      | _, _ => .error .disabled
  | .execute w => s.onItem w .taken fun work => .ok (s.execute w work)
  | .prepareSuspend w => s.onItem w .active fun work => do
      let s ← orStop (s.prepareSuspend work.task)
      return s.setWorker w (.busy work .arming)
  | .pushTimer w deadline => s.onItem w .arming fun work =>
      .ok ((s.pushTimer deadline work.task).setWorker w (.busy work .yielding))
  | .register w => s.onItem w .arming fun work =>
      .ok ((s.register work.task).setWorker w (.busy work .yielding))
  | .park w => s.onItem w .active fun work => do
      let s ← orStop ((s.register work.task).prepareSuspend work.task)
      return s.setWorker w (.busy work .yielding)
  | .wait w awaited => s.onItem w .active fun work =>
      if s.created ≤ awaited then .error .disabled
      else if awaited = work.task then .error (.abort .awaitItself)
      else if (s.tasks awaited).done then .ok s
      else do
        let s ← orStop ((s.pushWaiter awaited work.task).prepareSuspend work.task)
        return s.setWorker w (.busy work .yielding)
  | .yieldCurrent w => s.onItem w .yielding fun work =>
      .ok (s.setWorker w (.busy work .switchedOut))
  | .finish w => s.onItem w .active fun work =>
      .ok ((s.setTask work.task { s.tasks work.task with finished := true }).setWorker w
        (.busy work .switchedOut))
  | .resume current t =>
      if s.mayCall current && s.parked.contains t then
        orStop ((s.unregister t).resumeSchedulerTask current t)
      else .error .disabled
  | .afterSwitch w => s.onItem w .switchedOut fun work => orStop (s.afterSwitch w work)
  | .enqueue w => s.onItem w .enqueuing fun work =>
      .ok ((s.enqueueLocked (some w) work.task).setWorker w .looping)
  | .notifyWaiter w =>
      match s.workers w with
      | .notifying [] => .ok (s.setWorker w .looping)
      | .notifying (t :: rest) => orStop ((s.setWorker w (.notifying rest)).wake (some w) t)
      | _ => .error .disabled
  | .withdraw => .ok { s with schedulerInstance := false }
  | .stop => if s.schedulerInstance then .error .disabled else .ok { s with stopping := true }

def Step (s : State Role n) (e : Event Role n) (s' : State Role n) : Prop := s.apply e = .ok s'

end State

end Scheduler

end Absolute
