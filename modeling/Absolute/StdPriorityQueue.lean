import Absolute.LibRaising
import Absolute.StdStorage

/-!
# The priority queue

`std/collections/priority_queue.abs`: a binary heap in two parallel arrays. The comparator is the
caller's: it may keep a state of its own, its world, and it may throw. What the queue has changed
before a throw stays changed. Counters that do not overflow are natural numbers.
-/

namespace Absolute

namespace Collections

/-- What a callback returns or throws, and the world it leaves. -/
abbrev Callback (W β : Type) : Type := W → Except String β × W

structure PriorityQueue (T : Type) where
  items : Storage T
  insertionOrders : List Nat
  count : Nat
  capacity : Nat
  nextInsertionOrder : Nat
deriving DecidableEq, Repr

/-- What a call throws, or that it strays from what the arrays hold. -/
inductive Fault where
  | threw (message : String)
  | stray
deriving DecidableEq, Repr

namespace PriorityQueue

variable {T W : Type}

/-- The queue, and the world of its comparator. -/
structure Running (T W : Type) where
  queue : PriorityQueue T
  world : W

abbrev Action (T W α : Type) : Type := EStateM Fault (Running T W) α

/-! ## Steps -/

/-- An action on the queue alone, `none` where it strays. -/
def onQueue {α : Type} (x : PriorityQueue T → Option (α × PriorityQueue T)) : Action T W α :=
  fun s =>
    match x s.queue with
    | some (a, q) => .ok a { s with queue := q }
    | none => .error .stray s

def callback {β : Type} (c : Callback W β) : Action T W β := fun s =>
  match c s.world with
  | (.ok b, w) => .ok b { s with world := w }
  | (.error message, w) => .error (.threw message) { s with world := w }

/-- `unsafeArrayGet(items, index)` -/
def itemAt (index : Nat) : Action T W T := onQueue fun q =>
  match q.items[index]? with
  | some (some item) => some (item, q)
  | _ => none

def orderAt (index : Nat) : Action T W Nat := onQueue fun q =>
  q.insertionOrders[index]?.map fun order => (order, q)

variable (compare : T → T → Callback W Int)

def comesBefore (left right : Nat) : Action T W Bool := do
  let leftItem ← itemAt left
  let rightItem ← itemAt right
  let order ← callback (compare leftItem rightItem)
  if order < 0 then return true
  else if order > 0 then return false
  else return decide ((← orderAt left) < (← orderAt right))

/-- Three takes, and the two orders exchanged. -/
def swap (left right : Nat) : Action T W Unit := onQueue fun q =>
  match q.items[left]?, q.items[right]?, q.insertionOrders[left]?, q.insertionOrders[right]? with
  | some (some item), some (some item'), some order, some order' =>
      some ((), { q with
        items := (q.items.set left (some item')).set right (some item)
        insertionOrders := (q.insertionOrders.set left order').set right order })
  | _, _, _, _ => none

/-- The first `_count` items and orders in arrays of twice the length. -/
def grow (q : PriorityQueue T) : PriorityQueue T :=
  { q with
    items := q.items.take q.count ++ newArray T (q.capacity * 2 - q.count)
    insertionOrders :=
      q.insertionOrders.take q.count ++ List.replicate (q.capacity * 2 - q.count) 0
    capacity := q.capacity * 2 }

/-! ## Sifting

The first argument counts the turns that are left; an index is halved or doubled in each. -/

def siftUpGo : Nat → Nat → Action T W Unit
  | 0, _ => return ()
  | n + 1, index =>
      if index > 0 then do
        let parent := (index - 1) / 2
        if ← comesBefore compare index parent then do
          swap index parent
          siftUpGo n parent
        else return ()
      else return ()

def siftUp (start : Nat) : Action T W Unit := siftUpGo compare start start

/-- The child that comes first. -/
def bestChild (count index : Nat) : Action T W Nat := do
  let left := index * 2 + 1
  let right := left + 1
  if right < count then
    if ← comesBefore compare right left then return right else return left
  else return left

def siftDownGo (count : Nat) : Nat → Nat → Action T W Unit
  | 0, _ => return ()
  | n + 1, index =>
      if index * 2 + 1 ≥ count then return ()
      else do
        let best ← bestChild compare count index
        if ← comesBefore compare best index then do
          swap index best
          siftDownGo count n best
        else return ()

def siftDown (count start : Nat) : Action T W Unit := siftDownGo compare count count start

/-! ## Operations -/

def new (T : Type) (initialCapacity : Int) : Except String (PriorityQueue T) :=
  if initialCapacity < 1 then .error "PriorityQueue capacity must be positive"
  else .ok ⟨newArray T initialCapacity.toNat, List.replicate initialCapacity.toNat 0, 0,
    initialCapacity.toNat, 0⟩

def isEmpty (q : PriorityQueue T) : Bool := q.count = 0

def peek (q : PriorityQueue T) : Result T :=
  if q.count = 0 then .threw "PriorityQueue is empty" else unsafeArrayGet q.items 0

/-- `enqueue` up to its `siftUp`: the value behind the last one. -/
def place (value : T) (q : PriorityQueue T) : Option (Unit × PriorityQueue T) :=
  let room := if q.count = q.capacity then grow q else q
  if room.count < room.items.length ∧ room.count < room.insertionOrders.length then
    some ((), { room with
      items := room.items.set room.count (some value)
      insertionOrders := room.insertionOrders.set room.count room.nextInsertionOrder
      nextInsertionOrder := room.nextInsertionOrder + 1 })
  else none

def enqueue (value : T) : Action T W Unit := do
  onQueue (place value)
  let s ← get
  siftUp compare s.queue.count
  onQueue fun q => some ((), { q with count := q.count + 1 })

def enqueueAll : List T → Action T W Unit
  | [] => return ()
  | value :: values => do
      enqueue compare value
      enqueueAll values

/-- `dequeue` up to its `siftDown`: the first item is taken and the last one carried to its
place. -/
def carry (q : PriorityQueue T) : Option (T × PriorityQueue T) :=
  match q.items[0]? with
  | some (some result) =>
      let q := { q with items := q.items.set 0 none, count := q.count - 1 }
      if q.count > 0 then
        match q.items[q.count]?, q.insertionOrders[q.count]? with
        | some (some last), some order =>
            some (result, { q with
              items := (q.items.set q.count none).set 0 (some last)
              insertionOrders := q.insertionOrders.set 0 order })
        | _, _ => none
      else some (result, q)
  | _ => none

def dequeue : Action T W T := do
  let s ← get
  if s.queue.count = 0 then throw (.threw "PriorityQueue is empty")
  else do
    let result ← onQueue carry
    let s ← get
    if s.queue.count > 0 then do
      siftDown compare s.queue.count 0
      return result
    else return result

/-- The loop of `contains`, with the equality of the elements. -/
def containsGo [BEq T] (q : PriorityQueue T) (target : T) : Nat → Nat → Result Bool
  | 0, _ => .returned false
  | n + 1, index => do
      let item ← unsafeArrayGet q.items index
      if item == target then return true
      else containsGo q target n (index + 1)

def contains [BEq T] (q : PriorityQueue T) (target : T) : Result Bool :=
  containsGo q target q.count 0

def clear : Action T W Unit := onQueue fun q =>
  match unsafeArrayDrop q.items 0 q.count with
  | .returned items => some ((), { q with items := items, count := 0, nextInsertionOrder := 0 })
  | _ => none

end PriorityQueue

end Collections

end Absolute
