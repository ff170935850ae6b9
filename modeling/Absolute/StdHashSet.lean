import Absolute.StdHashMap

/-!
# The hash set

The second half of `std/collections/hash_map.abs`, which has its own copies of the map's
probing, tombstones and growing. A slot is its state with its item, if it has one; the
counters and the sentinel are read as in `HashMap`.
-/

namespace Absolute

namespace Collections

/-- 0 = empty, 1 = occupied, 2 = removed (tombstone). -/
inductive Place (T : Type) where
  | empty
  | occupied (item : T)
  | removed
deriving Repr, DecidableEq

structure HashSet (T : Type) where
  places : List (Place T)
  count : Nat
  tombstoneCount : Nat
  capacity : Nat
  mask : Nat
deriving Repr, DecidableEq

namespace HashSet

variable {T : Type} (cb : Callbacks T)

/-! ## Tables -/

/-- `items` and `states` of a capacity, with all states cleared and no element counted. -/
def freshTable (newCapacity : Nat) : HashSet T where
  places := List.replicate newCapacity .empty
  count := 0
  tombstoneCount := 0
  capacity := newCapacity
  mask := newCapacity - 1

def new : HashSet T := freshTable 8

/-- The loop that doubles `_capacity` runs at most once for each value below the requested
one. -/
def roundUpGo (requested : Nat) : Nat → Nat → Nat
  | 0, capacity => capacity
  | n + 1, capacity =>
      if capacity < requested then roundUpGo requested n (capacity * 2) else capacity

def newWithCapacity (initialCapacity : Int) : Except String (HashSet T) :=
  if initialCapacity < 1 then .error "HashSet capacity must be positive"
  else .ok (freshTable (roundUpGo initialCapacity.toNat initialCapacity.toNat 4))

def bucket (s : HashSet T) (value : T) : Nat :=
  (cb.hash value &&& BitVec.ofNat 64 s.mask).toNat

def place (s : HashSet T) (index : Nat) : Place T := s.places.getD index .empty

def next (s : HashSet T) (index : Nat) : Nat := (index + 1) &&& s.mask

/-! ## The two probe loops -/

def findIndexGo (s : HashSet T) (value : T) : Nat → Nat → Option Nat
  | 0, _ => none
  | n + 1, index =>
      match place s index with
      | .empty => none
      | .occupied item =>
          if cb.equals item value then some index else findIndexGo s value n (next s index)
      | .removed => findIndexGo s value n (next s index)

def findIndex (s : HashSet T) (value : T) : Option Nat :=
  findIndexGo cb s value (s.mask + 1) (bucket cb s value)

def findInsertionIndexGo (s : HashSet T) : Nat → Nat → Option Nat → Option Nat
  | 0, _, firstTombstone => firstTombstone
  | n + 1, index, firstTombstone =>
      match place s index with
      | .empty => some (firstTombstone.getD index)
      | .occupied _ => findInsertionIndexGo s n (next s index) firstTombstone
      | .removed =>
          findInsertionIndexGo s n (next s index)
            (if firstTombstone = none then some index else firstTombstone)

def findInsertionIndex (s : HashSet T) (value : T) : Option Nat :=
  findInsertionIndexGo s (s.mask + 1) (bucket cb s value) none

/-! ## Growing -/

def insertRehashed (s : HashSet T) (value : T) : Option (HashSet T) :=
  (findInsertionIndex cb s value).map fun index =>
    { s with places := s.places.set index (.occupied value), count := s.count + 1 }

def rehashPlace (s : HashSet T) : Place T → Option (HashSet T)
  | .occupied item => insertRehashed cb s item
  | .empty | .removed => some s

def rehash (s : HashSet T) (newCapacity : Nat) : Option (HashSet T) :=
  s.places.foldlM (rehashPlace cb) (freshTable newCapacity)

def ensureRoomForNewEntry (s : HashSet T) : Option (HashSet T) :=
  if (s.count + s.tombstoneCount + 1) * 10 ≥ s.capacity * 7 then rehash cb s (s.capacity * 2)
  else some s

/-! ## Operations -/

def isEmpty (s : HashSet T) : Bool := s.count = 0

def contains (s : HashSet T) (value : T) : Bool := (findIndex cb s value).isSome

/-- The end of `add`: the item goes to `index`, over a tombstone or not. -/
def store (s : HashSet T) (index : Nat) (value : T) : HashSet T :=
  { s with
    tombstoneCount :=
      match place s index with
      | .removed => s.tombstoneCount - 1
      | _ => s.tombstoneCount
    places := s.places.set index (.occupied value)
    count := s.count + 1 }

def add (s : HashSet T) (value : T) : Option (Bool × HashSet T) :=
  if contains cb s value then some (false, s)
  else do
    let room ← ensureRoomForNewEntry cb s
    let index ← findInsertionIndex cb room value
    some (true, store room index value)

def remove (s : HashSet T) (value : T) : Bool × HashSet T :=
  match findIndex cb s value with
  | none => (false, s)
  | some index =>
      (true, { s with places := s.places.set index .removed, count := s.count - 1,
                      tombstoneCount := s.tombstoneCount + 1 })

def clear (s : HashSet T) : HashSet T := { freshTable s.capacity with mask := s.mask }

/-- The loop of `toArray`: a result of `_count` default elements, filled from the front. -/
def toArrayGo : List (Place T) → Nat → List (Option T) → Option (List (Option T))
  | [], _, result => some result
  | .occupied item :: places, resultIndex, result =>
      if resultIndex < result.length then
        toArrayGo places (resultIndex + 1) (result.set resultIndex (some item))
      else none
  | _ :: places, resultIndex, result => toArrayGo places resultIndex result

def toArray (s : HashSet T) : Option (List (Option T)) :=
  toArrayGo s.places 0 (List.replicate s.count none)

/-! ## Sequences of calls -/

inductive Op (T : Type) where
  | add (value : T)
  | remove (value : T)
  | clear
deriving Repr, DecidableEq

/-- The set after a call; what the call returned is looked at on its own. -/
def apply (s : HashSet T) : Op T → Option (HashSet T)
  | .add value => (add cb s value).map Prod.snd
  | .remove value => some (remove cb s value).2
  | .clear => some (clear s)

def applyAll (s : HashSet T) (ops : List (Op T)) : Option (HashSet T) := ops.foldlM (apply cb) s

end HashSet

end Collections

end Absolute
