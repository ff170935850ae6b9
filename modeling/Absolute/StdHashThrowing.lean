import Absolute.StdHashSetRefines
import Absolute.StdPriorityQueue

/-!
# Hash tables whose callbacks throw

`HashMap.put` and `HashSet.add` once more, with callbacks that keep a world of their own and may
throw at any call. What the table has become before a throw is what it stays; entries that
`rehash` has taken out and not yet put back go with the arrays that held them.
-/

namespace Absolute

namespace Collections

/-- The hash and the equality as the caller gives them. -/
structure Calls (K W : Type) where
  hash : K → Callback W (BitVec 64)
  equals : K → K → Callback W Bool

/-- A table, and the world of its callbacks. -/
structure Hashing (C W : Type) where
  table : C
  world : W

abbrev Hashed (C W α : Type) : Type := EStateM Fault (Hashing C W) α

variable {K V T W C : Type}

def calling {β : Type} (c : Callback W β) : Hashed C W β := fun s =>
  match c s.world with
  | (.ok b, w) => .ok b { s with world := w }
  | (.error message, w) => .error (.threw message) { s with world := w }

def readTable : Hashed C W C := fun s => .ok s.table s

def writeTable (table : C) : Hashed C W Unit := fun s => .ok () { s with table := table }

/-- What was found, or a stray access. -/
def found {α : Type} : Option α → Hashed C W α
  | some a => return a
  | none => throw .stray

/-- The hash of each key in turn. -/
def hashAll (calls : Calls K W) : List K → Hashed C W Unit
  | [] => return ()
  | key :: keys => do
      let _ ← calling (calls.hash key)
      hashAll calls keys

namespace HashMap

namespace Throwing

variable (calls : Calls K W)

def bucket (key : K) : Hashed (HashMap K V) W Nat := do
  let hash ← calling (calls.hash key)
  let t ← readTable
  return (hash &&& BitVec.ofNat 64 t.mask).toNat

/-- The loop of `put`. -/
def putProbeGo (key : K) : Nat → Nat → Option Nat → Hashed (HashMap K V) W PutProbe
  | 0, index, firstTombstone => return .absent index firstTombstone
  | n + 1, index, firstTombstone => do
      let t ← readTable
      match slot t index with
      | .empty => return .absent index firstTombstone
      | .occupied k _ =>
          if ← calling (calls.equals k key) then return .found index
          else putProbeGo key n (next t index) firstTombstone
      | .removed =>
          putProbeGo key n (next t index)
            (if firstTombstone = none then some index else firstTombstone)

def putProbe (key : K) : Hashed (HashMap K V) W PutProbe := do
  let index ← bucket calls key
  let t ← readTable
  putProbeGo calls key (t.mask + 1) index none

def findInsertionIndex (key : K) : Hashed (HashMap K V) W Nat := do
  let index ← bucket calls key
  let t ← readTable
  found (findInsertionIndexGo t (t.mask + 1) index none)

def insertRehashed (key : K) (value : V) : Hashed (HashMap K V) W Unit := do
  let index ← findInsertionIndex calls key
  let t ← readTable
  writeTable { t with slots := t.slots.set index (.occupied key value), count := t.count + 1 }

/-- The second loop of `rehash`, over the staged slots. -/
def reinsert : List (Slot K V) → Hashed (HashMap K V) W Unit
  | [] => return ()
  | .occupied key value :: slots => do
      insertRehashed calls key value
      reinsert slots
  | _ :: slots => reinsert slots

def rehash (newCapacity : Nat) : Hashed (HashMap K V) W Unit := do
  let t ← readTable
  writeTable (freshTable t newCapacity)
  reinsert calls t.slots

def put (key : K) (value : V) : Hashed (HashMap K V) W Unit := do
  match ← putProbe calls key with
  | .found index => do
      let t ← readTable
      writeTable (setValue t index value)
  | .absent index firstTombstone => do
      let t ← readTable
      if (t.count + t.tombstoneCount + 1) * 10 ≥ t.capacity * 7 then do
        rehash calls (t.capacity * 2)
        let index ← findInsertionIndex calls key
        let t ← readTable
        writeTable (store t index key value)
      else writeTable (store t (firstTombstone.getD index) key value)

end Throwing

end HashMap

namespace HashSet

namespace Throwing

variable (calls : Calls T W)

def bucket (value : T) : Hashed (HashSet T) W Nat := do
  let hash ← calling (calls.hash value)
  let s ← readTable
  return (hash &&& BitVec.ofNat 64 s.mask).toNat

def findIndexGo (value : T) : Nat → Nat → Hashed (HashSet T) W (Option Nat)
  | 0, _ => return none
  | n + 1, index => do
      let s ← readTable
      match place s index with
      | .empty => return none
      | .occupied item =>
          if ← calling (calls.equals item value) then return some index
          else findIndexGo value n (next s index)
      | .removed => findIndexGo value n (next s index)

def findIndex (value : T) : Hashed (HashSet T) W (Option Nat) := do
  let index ← bucket calls value
  let s ← readTable
  findIndexGo calls value (s.mask + 1) index

def findInsertionIndex (value : T) : Hashed (HashSet T) W Nat := do
  let index ← bucket calls value
  let s ← readTable
  found (findInsertionIndexGo s (s.mask + 1) index none)

def insertRehashed (value : T) : Hashed (HashSet T) W Unit := do
  let index ← findInsertionIndex calls value
  let s ← readTable
  writeTable { s with places := s.places.set index (.occupied value), count := s.count + 1 }

def reinsert : List (Place T) → Hashed (HashSet T) W Unit
  | [] => return ()
  | .occupied item :: places => do
      insertRehashed calls item
      reinsert places
  | _ :: places => reinsert places

def rehash (newCapacity : Nat) : Hashed (HashSet T) W Unit := do
  let s ← readTable
  writeTable (freshTable newCapacity)
  reinsert calls s.places

def ensureRoomForNewEntry : Hashed (HashSet T) W Unit := do
  let s ← readTable
  if (s.count + s.tombstoneCount + 1) * 10 ≥ s.capacity * 7 then rehash calls (s.capacity * 2)
  else return ()

def add (value : T) : Hashed (HashSet T) W Bool := do
  match ← findIndex calls value with
  | some _ => return false
  | none => do
      ensureRoomForNewEntry calls
      let index ← findInsertionIndex calls value
      let s ← readTable
      writeTable (store s index value)
      return true

end Throwing

end HashSet

end Collections

end Absolute
