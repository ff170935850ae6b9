import Absolute.LibHeadcount
import Absolute.LibRuns
import Absolute.LibWaiting

/-!
# Condition variables

`absolute_condition_wait`, `absolute_condition_notify_one` and
`absolute_condition_notify_all`. A step is one critical section of the condition's
own mutex, the notification of the operating system that a notifier sends after
it, or a wake-up that arrives. The mutex that a caller gives up while it waits is
not part of the state.

A thread that is no task waits for a generation other than the one it observed, so
the notification may wake one that has nothing to wake for: it tests, and blocks
again.
-/

namespace Absolute

namespace Condition

open Function Headcount Runs Waiting

inductive Kind where
  | task
  /-- no task: the generation that was there when it began to wait -/
  | native (observed : UInt64)
deriving DecidableEq

/-- What a notifier has left to do after its critical section. -/
inductive Owed where
  | nothing
  | one
  | all
deriving DecidableEq, Repr

structure State (τ : Type) where
  taskWaiters : List τ := []
  generation : UInt64 := 0
  nativeWaiters : ℤ := 0
  place : τ → Place Kind := fun _ => .outside
  owes : τ → Owed := fun _ => .nothing

inductive Event (τ : Type) where
  | wait (t : τ)
  | notifyOne (t : τ)
  | notifyAll (t : τ)
  /-- `available.notify_one` by `t` wakes `u` -/
  | arrive (t u : τ)
  /-- `available.notify_one` by `t` finds no one -/
  | unheard (t : τ)
  | arriveAll (t : τ)
  /-- a woken thread takes the mutex and tests its predicate -/
  | test (t : τ)
  | resume (t : τ)
  /-- a thread wakes with no notification -/
  | wake (t : τ)
deriving DecidableEq

variable {τ : Type}

section Model

variable [DecidableEq τ]

namespace State

/-- `absolute_condition_wait`, up to where the caller waits. -/
def wait (isTask : τ → Bool) (s : State τ) (t : τ) : State τ :=
  if isTask t then { s with
    taskWaiters := s.taskWaiters ++ [t]
    place := update s.place t (.inside .task .parked) }
  else { s with
    nativeWaiters := s.nativeWaiters + 1
    place := update s.place t (.inside (.native s.generation) .blocked) }

def notifyOne (s : State τ) (t : τ) : State τ :=
  match s.taskWaiters with
  | w :: rest => { s with
      taskWaiters := rest, place := update s.place w (.inside .task .handed) }
  | [] =>
      if 0 < s.nativeWaiters then
        { s with generation := s.generation + 1, owes := update s.owes t .one }
      else s

def notifyAll (s : State τ) (t : τ) : State τ :=
  let s := { s with taskWaiters := [], place := handAll .task s.taskWaiters s.place }
  if 0 < s.nativeWaiters then
    { s with generation := s.generation + 1, owes := update s.owes t .all }
  else s

/-- A woken thread leaves, or blocks again. -/
def test (s : State τ) (t : τ) (observed : UInt64) : State τ :=
  if s.generation ≠ observed then { s with
    nativeWaiters := s.nativeWaiters - 1
    place := update s.place t .outside }
  else { s with place := update s.place t (.inside (.native observed) .blocked) }

def isNative : Kind → Bool
  | .task => false
  | .native _ => true

/-- A caller is in one call at a time. -/
def apply (isTask : τ → Bool) (s : State τ) : Event τ → Option (State τ)
  | .wait t =>
      if s.place t = .outside ∧ s.owes t = .nothing then some (s.wait isTask t) else none
  | .notifyOne t =>
      if s.place t = .outside ∧ s.owes t = .nothing then some (s.notifyOne t) else none
  | .notifyAll t =>
      if s.place t = .outside ∧ s.owes t = .nothing then some (s.notifyAll t) else none
  | .arrive t u =>
      match s.owes t, s.place u with
      | .one, .inside (.native observed) .blocked =>
          some { s with
            owes := update s.owes t .nothing
            place := update s.place u (.inside (.native observed) .ready) }
      | _, _ => none
  | .unheard t =>
      if s.owes t = .one then some { s with owes := update s.owes t .nothing } else none
  | .arriveAll t =>
      if s.owes t = .all then
        some { s with owes := update s.owes t .nothing, place := awaken isNative s.place }
      else none
  | .test t =>
      match s.place t with
      | .inside (.native observed) .ready => some (s.test t observed)
      | _ => none
  | .resume t =>
      if s.place t = .inside .task .handed then
        some { s with place := update s.place t .outside }
      else none
  | .wake t =>
      match s.place t with
      | .inside (.native observed) .blocked =>
          some { s with place := update s.place t (.inside (.native observed) .ready) }
      | _ => none

end State

/-- `notify_one` finds no one only where no thread is blocked. -/
def Permitted (s : State τ) : Event τ → Prop
  | .unheard _ => ∀ u observed, s.place u ≠ .inside (.native observed) .blocked
  | _ => True

def Step (isTask : τ → Bool) (s : State τ) (e : Event τ) (s' : State τ) : Prop :=
  Permitted s e ∧ s.apply isTask e = some s'

end Model

/-! ## What is promised -/

/-- `t` sends its notification. -/
def Sends (t : τ) (e : Event τ) : Prop := e = .unheard t ∨ ∃ u, e = .arrive t u

def Registered (s : State τ) (u : τ) (observed : UInt64) : Prop :=
  ∃ spot, s.place u = .inside (.native observed) spot

section Promise

variable [DecidableEq τ]

/-- A thread that was registered in `s`, with an older generation than that of `s₁`,
has been awake since `s₁`. -/
def HasWoken (isTask : τ → Bool) (s s₁ : State τ) (later : List (Event τ)) : Prop :=
  ∃ u observed past s', Registered s u observed ∧ observed ≠ s₁.generation
    ∧ past <:+ later ∧ Run (Step isTask) s₁ past s'
    ∧ s'.place u = .inside (.native observed) .ready

/-- The `notify_one` of `t` that leads from `s` to `s₁` releases a waiter: a parked
task, or a thread that is woken by the time its notification is sent. -/
def Releases (isTask : τ → Bool) (s : State τ) (t : τ) (s₁ : State τ)
    (later : List (Event τ)) : Prop :=
  (∃ w, s.place w = .inside .task .parked ∧ s₁.place w = .inside .task .handed)
    ∨ s₁.owes t = .one ∧ ((∀ e ∈ later, ¬Sends t e) ∨ HasWoken isTask s s₁ later)

end Promise

/-- No thread begins to wait between the critical section of `t` and its notification. -/
def Undisturbed (isTask : τ → Bool) (t : τ) (s : State τ) : Event τ → Prop
  | .wait u => isTask u = true ∨ s.owes t ≠ .one
  | _ => True

/-- The generation does not come round to one that is waited with. -/
def Fresh (s : State τ) : Prop :=
  ∀ u observed, Registered s u observed → observed ≠ s.generation + 1

end Condition

end Absolute
