import Absolute.LibHeadcount
import Absolute.LibRuns
import Absolute.LibWaiting

/-!
# The reader/writer lock

`absolute_rwlock_lock_read` to `absolute_rwlock_unlock_write`. A step is one
critical section of the lock's own mutex, or a wake-up that arrives. What an
unlock does after it has left the mutex is on its way from then on: the tasks it
took out of a queue are `handed`, and `notifications` counts the calls of
`notify_all` still to come. They may arrive in any order and at any time, which
allows more interleavings than the code does.

A writer is counted in `waitingWriters` from its first test to its last, a task
or not; only a task is in `writerWaiters`, and only while it is parked.
-/

namespace Absolute

namespace RwLock

open Function Headcount Runs Waiting

inductive Op where
  | reading
  | writing
deriving DecidableEq, Repr

structure State (τ : Type) where
  readers : ℤ := 0
  waitingWriters : ℤ := 0
  writer : Bool := false
  readerWaiters : List τ := []
  writerWaiters : List τ := []
  place : τ → Place Op := fun _ => .outside
  /-- how often a thread holds the lock for reading -/
  reads : τ → ℕ := fun _ => 0
  /-- whether a thread holds it for writing -/
  writes : τ → Bool := fun _ => false
  notifications : ℕ := 0

inductive Event (τ : Type) where
  | lockRead (t : τ)
  | tryLockRead (t : τ)
  | unlockRead (t : τ)
  | lockWrite (t : τ)
  | tryLockWrite (t : τ)
  | unlockWrite (t : τ)
  /-- a woken caller takes the mutex and tests again -/
  | test (t : τ)
  /-- `ResumeSchedulerTask` of a task out of a queue -/
  | resume (t : τ)
  /-- one call of `available.notify_all` -/
  | notify
  /-- a wake-up without a reason -/
  | wake (t : τ)

variable {τ : Type} [DecidableEq τ]

namespace State

/-- Tasks park, other threads block. -/
def wait (isTask : τ → Bool) (op : Op) (s : State τ) (t : τ) : State τ :=
  if isTask t then
    match op with
    | .reading => { s with
        readerWaiters := s.readerWaiters ++ [t], place := update s.place t (.inside op .parked) }
    | .writing => { s with
        writerWaiters := s.writerWaiters ++ [t], place := update s.place t (.inside op .parked) }
  else { s with place := update s.place t (.inside op .blocked) }

def acquireRead (s : State τ) (t : τ) : State τ :=
  { s with
    readers := s.readers + 1
    reads := update s.reads t (s.reads t + 1)
    place := update s.place t .outside }

def acquireWrite (s : State τ) (t : τ) : State τ :=
  { s with
    writer := true
    writes := update s.writes t true
    place := update s.place t .outside }

/-- A turn of the loop of `lock_read`. -/
def testRead (isTask : τ → Bool) (s : State τ) (t : τ) : State τ :=
  if s.writer = false ∧ s.waitingWriters = 0 then s.acquireRead t
  else s.wait isTask .reading t

/-- A turn of the loop of `lock_write` of a writer that is registered. -/
def testWrite (isTask : τ → Bool) (s : State τ) (t : τ) : State τ :=
  if s.writer = false ∧ s.readers = 0 then
    { s with waitingWriters := s.waitingWriters - 1 }.acquireWrite t
  else s.wait isTask .writing t

/-- The first writer of the queue is taken out of it. -/
def handWriter (s : State τ) (w : τ) (rest : List τ) : State τ :=
  { s with writerWaiters := rest, place := update s.place w (.inside .writing .handed) }

def unlockRead (s : State τ) (t : τ) : State τ :=
  if s.readers ≤ 0 then s
  else
    let s' := { s with
      readers := s.readers - 1
      reads := update s.reads t (s.reads t - 1)
      notifications := s.notifications + 1 }
    match s.writerWaiters with
    | w :: rest => if s'.readers = 0 then s'.handWriter w rest else s'
    | [] => s'

def unlockWrite (s : State τ) (t : τ) : State τ :=
  if s.writer = false then s
  else
    let s' := { s with
      writer := false
      writes := update s.writes t false
      notifications := s.notifications + 1 }
    match s.writerWaiters with
    | w :: rest => s'.handWriter w rest
    | [] => { s' with
        readerWaiters := [], place := handAll .reading s.readerWaiters s.place }

/-- The step of an event, where it can happen: a thread inside a call makes no
other, and unlocks only what it holds. -/
def apply (isTask : τ → Bool) (s : State τ) : Event τ → Option (State τ)
  | .lockRead t => if s.place t = .outside then some (s.testRead isTask t) else none
  | .tryLockRead t =>
      if s.place t = .outside then
        some (if s.writer = true ∨ s.waitingWriters > 0 then s else s.acquireRead t)
      else none
  | .unlockRead t => if s.place t = .outside ∧ 0 < s.reads t then some (s.unlockRead t) else none
  | .lockWrite t =>
      if s.place t = .outside then
        some ({ s with waitingWriters := s.waitingWriters + 1
                       place := update s.place t (.inside .writing .ready) }.testWrite isTask t)
      else none
  | .tryLockWrite t =>
      if s.place t = .outside then
        some (if s.writer = true ∨ s.readers ≠ 0 then s else s.acquireWrite t)
      else none
  | .unlockWrite t =>
      if s.place t = .outside ∧ s.writes t = true then some (s.unlockWrite t) else none
  | .test t =>
      match s.place t with
      | .inside .reading .ready => some (s.testRead isTask t)
      | .inside .writing .ready => some (s.testWrite isTask t)
      | _ => none
  | .resume t =>
      match s.place t with
      | .inside op .handed => some { s with place := update s.place t (.inside op .ready) }
      | _ => none
  | .notify =>
      if 0 < s.notifications then
        some { s with notifications := s.notifications - 1
                      place := awaken (fun _ => true) s.place }
      else none
  | .wake t =>
      match s.place t with
      | .inside op .blocked => some { s with place := update s.place t (.inside op .ready) }
      | _ => none

end State

def Step (isTask : τ → Bool) (s : State τ) (e : Event τ) (s' : State τ) : Prop :=
  s.apply isTask e = some s'

/-- A writer between its first test and its last. -/
def registered : Place Op → ℕ
  | .inside .writing _ => 1
  | _ => 0

/-- A caller that waited has been woken, or its wake-up is on the way, and it has
not tested again. -/
def Woken (s : State τ) (op : Op) (t : τ) : Prop :=
  s.place t = .inside op .ready ∨ s.place t = .inside op .handed
    ∨ s.place t = .inside op .blocked ∧ 0 < s.notifications

/-- Who holds the lock, and how many writers wait. -/
structure Exclusive (s : State τ) : Prop where
  readers : ∃ n : ℕ, Total s.reads n ∧ s.readers = n
  waiting : ∃ n : ℕ, Total (fun t => registered (s.place t)) n ∧ s.waitingWriters = n
  alone : s.writer = true → s.readers = 0
  holder : s.writer = true ↔ ∃ t, s.writes t = true
  single : ∀ t u, s.writes t = true → s.writes u = true → t = u

/-- Where the lock is free and tasks are parked, a caller is on its way. -/
def NotStranded (s : State τ) : Prop :=
  s.writer = false → s.readers = 0 → (∃ t, t ∈ s.readerWaiters ∨ t ∈ s.writerWaiters) →
    ∃ op t, Woken s op t

end RwLock

end Absolute
