import Absolute.LibRuns
import Absolute.LibSupply

/-!
# Channels

`absolute_channel_send` to `absolute_channel_close`, and the same operations of
`absolute_transfer_channel_*`, which differ in what they carry: a transfer channel
refuses a null capsule before it looks at anything (`valid`). A step is one
critical section of the channel's mutex, with what the call gives back, or a
wake-up that arrives. A thread that is no task blocks on a condition variable and
may wake at any time, with a notification or without.
-/

namespace Absolute

namespace Channel

open Function Runs Supply Waiting

inductive Op where
  | sending
  | receiving
deriving DecidableEq, Repr

structure State (τ α : Type) where
  queue : List α := []
  /-- 0 is no bound -/
  capacity : ℕ := 0
  closed : Bool := false
  sendWaiters : List τ := []
  receiveWaiters : List τ := []
  place : τ → Place Op := fun _ => .outside
  /-- what a call of `send` that waits is to send -/
  offer : τ → Option α := fun _ => none

inductive Event (τ α : Type) where
  | send (t : τ) (val : α)
  | trySend (t : τ) (val : α)
  | receive (t : τ)
  | tryReceive (t : τ)
  | close (t : τ)
  /-- a woken caller takes the mutex and tests again -/
  | test (t : τ)
  | resume (t : τ)
  | wake (t : τ)

/-- What a critical section tells its caller. -/
inductive Answer (α : Type) where
  | accepted (val : α)
  | refused
  | received (val : α)
  /-- `receive` has nothing to give and will not have -/
  | failed
  /-- `try_receive` has nothing to give -/
  | empty
  /-- the caller waits, or asked for nothing -/
  | nothing

variable {τ α : Type}

/-- `absolute_channel_create` -/
def State.create (capacity : ℤ) : State τ α := { capacity := capacity.toNat }

section Model

variable [DecidableEq τ]

namespace State

/-- Tasks park, other threads block. -/
def wait (isTask : τ → Bool) (op : Op) (s : State τ α) (t : τ) : State τ α :=
  if isTask t then
    match op with
    | .sending => { s with
        sendWaiters := s.sendWaiters ++ [t], place := update s.place t (.inside op .parked) }
    | .receiving => { s with
        receiveWaiters := s.receiveWaiters ++ [t], place := update s.place t (.inside op .parked) }
  else { s with place := update s.place t (.inside op .blocked) }

def handReceiver (s : State τ α) : State τ α :=
  match s.receiveWaiters with
  | r :: rest => { s with
      receiveWaiters := rest, place := update s.place r (.inside .receiving .handed) }
  | [] => s

def handSender (s : State τ α) : State τ α :=
  match s.sendWaiters with
  | w :: rest => { s with
      sendWaiters := rest, place := update s.place w (.inside .sending .handed) }
  | [] => s

/-- The call of `t` comes to its end. -/
def leave (s : State τ α) (t : τ) : State τ α := { s with place := update s.place t .outside }

/-- A value goes in, and a parked receiver is taken out. -/
def push (s : State τ α) (val : α) : State τ α :=
  { s with queue := s.queue ++ [val] }.handReceiver

/-- The first value comes out, and a parked sender with it. -/
def pop (s : State τ α) (rest : List α) : State τ α :=
  { s with queue := rest }.handSender

def hasRoom (s : State τ α) : Bool := s.capacity = 0 || s.queue.length < s.capacity

/-- A turn of the loop of `send`. -/
def testSend (isTask : τ → Bool) (s : State τ α) (t : τ) (val : α) : Answer α × State τ α :=
  if s.closed then (.refused, s.leave t)
  else if s.hasRoom then (.accepted val, (s.leave t).push val)
  else (.nothing, { s with offer := update s.offer t (some val) }.wait isTask .sending t)

/-- A turn of the loop of `receive_checked`. -/
def testReceive (isTask : τ → Bool) (s : State τ α) (t : τ) : Answer α × State τ α :=
  match s.queue with
  | val :: rest => (.received val, (s.leave t).pop rest)
  | [] =>
      if s.closed then (.failed, s.leave t)
      else (.nothing, s.wait isTask .receiving t)

def close (s : State τ α) : State τ α :=
  { s with
    closed := true
    sendWaiters := []
    receiveWaiters := []
    place := handAll .receiving s.receiveWaiters (handAll .sending s.sendWaiters s.place) }

/-- The step of an event, where it can happen, and its answer. -/
def apply (isTask : τ → Bool) (valid : α → Bool) (s : State τ α) :
    Event τ α → Option (Answer α × State τ α)
  | .send t val =>
      if s.place t = .outside then
        if valid val then some (s.testSend isTask t val) else some (.refused, s)
      else none
  | .trySend t val =>
      if s.place t = .outside then
        if valid val = false ∨ s.closed = true ∨ s.hasRoom = false then some (.refused, s)
        else some (.accepted val, s.push val)
      else none
  | .receive t => if s.place t = .outside then some (s.testReceive isTask t) else none
  | .tryReceive t =>
      if s.place t = .outside then
        match s.queue with
        | val :: rest => some (.received val, s.pop rest)
        | [] => some (.empty, s)
      else none
  | .close t => if s.place t = .outside then some (.nothing, s.close) else none
  | .test t =>
      match s.place t, s.offer t with
      | .inside .sending .ready, some val => some (s.testSend isTask t val)
      | .inside .receiving .ready, _ => some (s.testReceive isTask t)
      | _, _ => none
  | .resume t =>
      match s.place t with
      | .inside op .handed =>
          some (.nothing, { s with place := update s.place t (.inside op .ready) })
      | _ => none
  | .wake t =>
      match s.place t with
      | .inside op .blocked =>
          some (.nothing, { s with place := update s.place t (.inside op .ready) })
      | _ => none

end State

def Step (isTask : τ → Bool) (valid : α → Bool) (s : State τ α) (e : Event τ α × Answer α)
    (s' : State τ α) : Prop :=
  s.apply isTask valid e.1 = some (e.2, s')

end Model

/-! ## What is promised -/

def Answer.accepted? : Answer α → Option α
  | .accepted val => some val
  | _ => none

def Answer.received? : Answer α → Option α
  | .received val => some val
  | _ => none

/-- The values of the accepted sends, in the order of their critical sections. -/
def acceptedValues (past : List (Event τ α × Answer α)) : List α :=
  past.reverse.filterMap fun e => e.2.accepted?

def receivedValues (past : List (Event τ α × Answer α)) : List α :=
  past.reverse.filterMap fun e => e.2.received?

def Closes (e : Event τ α × Answer α) : Prop := ∃ t, e.1 = .close t

/-- The free places of a bounded channel. -/
def State.free (s : State τ α) : ℕ := s.capacity - s.queue.length

/-- No task is left behind: where tasks are parked the channel is open, and enough
are on their way for what there is. -/
structure NotStranded [DecidableEq τ] (isTask : τ → Bool) (s : State τ α) : Prop where
  receivers : s.receiveWaiters ≠ [] → s.closed = false ∧
    ∃ n, Headcount.Total (fun t => onTheWay isTask .receiving t (s.place t)) n ∧ s.queue.length ≤ n
  senders : s.sendWaiters ≠ [] → s.closed = false ∧
    ∃ n, Headcount.Total (fun t => onTheWay isTask .sending t (s.place t)) n ∧ s.free ≤ n

end Channel

end Absolute
