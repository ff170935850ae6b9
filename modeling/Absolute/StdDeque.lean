import Absolute.StdStorage

/-!
# The deque

`std/collections/deque.abs`: a ring of slots. `int32` values that do not overflow are natural
numbers; with a capacity below `2 ^ 30` none of the sums below does. An index the caller gives is
an integer.
-/

namespace Absolute

namespace Collections

structure Deque (T : Type) where
  items : Storage T
  head : Nat
  count : Nat
  capacity : Nat
deriving DecidableEq, Repr

namespace Deque

variable {T : Type}

def new (T : Type) (initialCapacity : Int) : Result (Deque T) :=
  if initialCapacity < 1 then .threw "Deque capacity must be positive"
  else .returned ⟨newArray T initialCapacity.toNat, 0, 0, initialCapacity.toNat⟩

/-- The loop of `grow`: `n` elements are left, from `index` on. -/
def growGo (d : Deque T) : Nat → Nat → Storage T → Storage T → Result (Storage T)
  | 0, _, _, next => .returned next
  | n + 1, index, items, next => do
      let (item, items) ← unsafeArrayTake items ((d.head + index) % d.capacity)
      let next ← unsafeArraySet next index item
      growGo d n (index + 1) items next

def grow (d : Deque T) : Result (Deque T) := do
  let next ← growGo d d.count 0 d.items (newArray T (d.capacity * 2))
  return { d with items := next, capacity := d.capacity * 2, head := 0 }

/-- `if (_count == _capacity) { grow(); }` -/
def makeRoom (d : Deque T) : Result (Deque T) :=
  if d.count = d.capacity then grow d else .returned d

def isEmpty (d : Deque T) : Bool := d.count = 0

def front (d : Deque T) : Result T :=
  if d.count = 0 then .threw "Deque is empty" else unsafeArrayGet d.items d.head

def back (d : Deque T) : Result T :=
  if d.count = 0 then .threw "Deque is empty"
  else unsafeArrayGet d.items ((d.head + d.count - 1) % d.capacity)

def pushFront (d : Deque T) (value : T) : Result (Deque T) := do
  let d ← makeRoom d
  let head := (d.head + d.capacity - 1) % d.capacity
  let items ← unsafeArraySet d.items head value
  return { d with head := head, items := items, count := d.count + 1 }

def pushBack (d : Deque T) (value : T) : Result (Deque T) := do
  let d ← makeRoom d
  let items ← unsafeArraySet d.items ((d.head + d.count) % d.capacity) value
  return { d with items := items, count := d.count + 1 }

/-- `if (_count == 0) { head = 0; }` -/
def resetHead (d : Deque T) : Deque T := if d.count = 0 then { d with head := 0 } else d

def popFront (d : Deque T) : Result (T × Deque T) :=
  if d.count = 0 then .threw "Deque is empty"
  else do
    let (result, items) ← unsafeArrayTake d.items d.head
    return (result, resetHead { d with
      items := items, head := (d.head + 1) % d.capacity, count := d.count - 1 })

def popBack (d : Deque T) : Result (T × Deque T) :=
  if d.count = 0 then .threw "Deque is empty"
  else do
    let (result, items) ← unsafeArrayTake d.items ((d.head + d.count - 1) % d.capacity)
    return (result, resetHead { d with items := items, count := d.count - 1 })

/-- The live range is one run or two. -/
def clear (d : Deque T) : Result (Deque T) := do
  let firstRun := if d.capacity - d.head > d.count then d.count else d.capacity - d.head
  let items ← unsafeArrayDrop d.items d.head firstRun
  let items ← unsafeArrayDrop items 0 (d.count - firstRun)
  return { d with items := items, head := 0, count := 0 }

/-- The loop of `contains`, with the equality of the elements. -/
def containsGo [BEq T] (d : Deque T) (target : T) : Nat → Nat → Result Bool
  | 0, _ => .returned false
  | n + 1, index => do
      let item ← unsafeArrayGet d.items ((d.head + index) % d.capacity)
      if item == target then return true
      else containsGo d target n (index + 1)

def contains [BEq T] (d : Deque T) (target : T) : Result Bool := containsGo d target d.count 0

/-- The indexer's `get`. -/
def get (d : Deque T) (index : Int) : Result T :=
  if index < 0 ∨ index ≥ d.count then .threw "Deque index out of bounds"
  else unsafeArrayGet d.items ((d.head + index.toNat) % d.capacity)

/-- The indexer's `set`. -/
def set (d : Deque T) (index : Int) (value : T) : Result (Deque T) :=
  if index < 0 ∨ index ≥ d.count then .threw "Deque index out of bounds"
  else do
    let items ← unsafeArraySet d.items ((d.head + index.toNat) % d.capacity) value
    return { d with items := items }

/-- The loop of `toArray`. -/
def toArrayGo (d : Deque T) : Nat → Nat → Storage T → Result (Storage T)
  | 0, _, result => .returned result
  | n + 1, index, result => do
      let item ← unsafeArrayGet d.items ((d.head + index) % d.capacity)
      let result ← unsafeArraySet result index item
      toArrayGo d n (index + 1) result

def toArray (d : Deque T) : Result (Storage T) := toArrayGo d d.count 0 (newArray T d.count)

/-! ## Sequences of calls -/

inductive Op (T : Type) where
  | pushFront (value : T)
  | pushBack (value : T)
  | popFront
  | popBack
  | set (index : Int) (value : T)
  | clear
deriving DecidableEq, Repr

/-- A call that throws has changed nothing yet. -/
def settle (d : Deque T) : Result (Answer T × Deque T) → Option (Answer T × Deque T)
  | .returned result => some result
  | .threw message => some (.threw message, d)
  | .stray => none

def call (d : Deque T) : Op T → Result (Answer T × Deque T)
  | .pushFront value => return (.done, ← pushFront d value)
  | .pushBack value => return (.done, ← pushBack d value)
  | .popFront => do
      let (item, d) ← popFront d
      return (.value item, d)
  | .popBack => do
      let (item, d) ← popBack d
      return (.value item, d)
  | .set index value => return (.done, ← set d index value)
  | .clear => return (.done, ← clear d)

def run (d : Deque T) (op : Op T) : Option (Answer T × Deque T) := settle d (call d op)

/-- The answers of the calls in order, and the deque after them. -/
def runAll : Deque T → List (Op T) → Option (List (Answer T) × Deque T)
  | d, [] => some ([], d)
  | d, op :: ops => do
      let (answer, d) ← run d op
      let (answers, d) ← runAll d ops
      return (answer :: answers, d)

end Deque

end Collections

end Absolute
