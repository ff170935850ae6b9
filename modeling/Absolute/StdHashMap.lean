import Mathlib.Data.List.Basic
import Mathlib.Tactic.Common

/-!
# The hash map

`std/collections/hash_map.abs`: linear probing over a power-of-two table. The
three arrays `keys`, `values` and `states` are one list of slots, a slot's state
saying whether it has a key and a value at all. `int32` counters that do not
overflow are natural numbers, and the sentinel `-1` is `none`.

An operation is `none` where the source would write outside the table.
-/

namespace Absolute

namespace Collections

/-- 0 = empty, 1 = occupied, 2 = removed (tombstone). -/
inductive Slot (K V : Type) where
  | empty
  | occupied (key : K) (value : V)
  | removed
deriving Repr, DecidableEq

/-- `hashFunction` and `equalityFunction`. -/
structure Callbacks (K : Type) where
  hash : K → BitVec 64
  equals : K → K → Bool

structure HashMap (K V : Type) where
  slots : List (Slot K V)
  count : Nat
  tombstoneCount : Nat
  capacity : Nat
  mask : Nat
deriving Repr, DecidableEq

namespace HashMap

variable {K V : Type} (cb : Callbacks K)

/-! ## Tables -/

def allocateTable (t : HashMap K V) (newCapacity : Nat) : HashMap K V :=
  { t with capacity := newCapacity, mask := newCapacity - 1,
           slots := List.replicate newCapacity .empty }

/-- `allocateTable(n); _count = 0; tombstoneCount = 0;`, as the constructors,
`rehash` and `clear` write it. -/
def freshTable (t : HashMap K V) (newCapacity : Nat) : HashMap K V :=
  { allocateTable t newCapacity with count := 0, tombstoneCount := 0 }

/-- The loop runs at most once for each value below `requested`. -/
def roundUpToPowerOfTwoGo (requested : Nat) : Nat → Nat → Nat
  | 0, result => result
  | n + 1, result =>
      if result < requested then roundUpToPowerOfTwoGo requested n (result * 2) else result

def roundUpToPowerOfTwo (requested : Nat) : Nat :=
  roundUpToPowerOfTwoGo requested requested 4

/-- The fields before a constructor has run. -/
def unset : HashMap K V := ⟨[], 0, 0, 0, 0⟩

def new : HashMap K V := freshTable unset 8

def newWithCapacity (initialCapacity : Int) : Except String (HashMap K V) :=
  if initialCapacity < 1 then .error "HashMap capacity must be positive"
  else .ok (freshTable unset
    (roundUpToPowerOfTwo (if initialCapacity < 4 then 4 else initialCapacity.toNat)))

/-- Masking keeps the low bits and stays non-negative for a negative hash. -/
def bucket (t : HashMap K V) (key : K) : Nat :=
  (cb.hash key &&& BitVec.ofNat 64 t.mask).toNat

/-- `unsafeArrayGet`: the mask keeps every index inside the table. -/
def slot (t : HashMap K V) (index : Nat) : Slot K V := t.slots.getD index .empty

def next (t : HashMap K V) (index : Nat) : Nat := (index + 1) &&& t.mask

/-! ## The three probe loops

The first argument counts the turns that are left of `scanned <= _mask`. -/

def findIndexGo (t : HashMap K V) (key : K) : Nat → Nat → Option Nat
  | 0, _ => none
  | n + 1, index =>
      match slot t index with
      | .empty => none
      | .occupied k _ =>
          if cb.equals k key then some index else findIndexGo t key n (next t index)
      | .removed => findIndexGo t key n (next t index)

def findIndex (t : HashMap K V) (key : K) : Option Nat :=
  findIndexGo cb t key (t.mask + 1) (bucket cb t key)

def findInsertionIndexGo (t : HashMap K V) : Nat → Nat → Option Nat → Option Nat
  | 0, _, firstTombstone => firstTombstone
  | n + 1, index, firstTombstone =>
      match slot t index with
      | .empty => some (firstTombstone.getD index)
      | .occupied _ _ => findInsertionIndexGo t n (next t index) firstTombstone
      | .removed =>
          findInsertionIndexGo t n (next t index)
            (if firstTombstone = none then some index else firstTombstone)

def findInsertionIndex (t : HashMap K V) (key : K) : Option Nat :=
  findInsertionIndexGo t (t.mask + 1) (bucket cb t key) none

/-- How the loop of `put` ends: on the key's own slot, or at `index` with the
first tombstone it passed. -/
inductive PutProbe where
  | found (index : Nat)
  | absent (index : Nat) (firstTombstone : Option Nat)
deriving Repr, DecidableEq

def putProbeGo (t : HashMap K V) (key : K) : Nat → Nat → Option Nat → PutProbe
  | 0, index, firstTombstone => .absent index firstTombstone
  | n + 1, index, firstTombstone =>
      match slot t index with
      | .empty => .absent index firstTombstone
      | .occupied k _ =>
          if cb.equals k key then .found index
          else putProbeGo t key n (next t index) firstTombstone
      | .removed =>
          putProbeGo t key n (next t index)
            (if firstTombstone = none then some index else firstTombstone)

/-! ## Growing -/

def insertRehashed (t : HashMap K V) (key : K) (value : V) : Option (HashMap K V) :=
  (findInsertionIndex cb t key).map fun index =>
    { t with slots := t.slots.set index (.occupied key value), count := t.count + 1 }

/-- A slot of the old table: its entry, if it has one, goes into the new one. -/
def rehashSlot (t : HashMap K V) : Slot K V → Option (HashMap K V)
  | .occupied key value => insertRehashed cb t key value
  | .empty | .removed => some t

/-- Every live entry is taken out of the old table, in the order of its slots,
and put into the new one. -/
def rehash (t : HashMap K V) (newCapacity : Nat) : Option (HashMap K V) :=
  t.slots.foldlM (rehashSlot cb) (freshTable t newCapacity)

/-! ## Operations -/

def isEmpty (t : HashMap K V) : Bool := t.count = 0

def containsKey (t : HashMap K V) (key : K) : Bool := (findIndex cb t key).isSome

/-- `values[index] = value` under the key that is there. -/
def setValue (t : HashMap K V) (index : Nat) (value : V) : HashMap K V :=
  match slot t index with
  | .occupied k _ => { t with slots := t.slots.set index (.occupied k value) }
  | _ => t

/-- The end of `put`: the entry goes to `index`, over a tombstone or not. -/
def store (t : HashMap K V) (index : Nat) (key : K) (value : V) : HashMap K V :=
  { t with
    tombstoneCount :=
      match slot t index with
      | .removed => t.tombstoneCount - 1
      | _ => t.tombstoneCount
    slots := t.slots.set index (.occupied key value)
    count := t.count + 1 }

def put (t : HashMap K V) (key : K) (value : V) : Option (HashMap K V) :=
  match putProbeGo cb t key (t.mask + 1) (bucket cb t key) none with
  | .found index => some (setValue t index value)
  | .absent index firstTombstone =>
      if (t.count + t.tombstoneCount + 1) * 10 ≥ t.capacity * 7 then do
        let grown ← rehash cb t (t.capacity * 2)
        let index ← findInsertionIndex cb grown key
        some (store grown index key value)
      else some (store t (firstTombstone.getD index) key value)

def tryAdd (t : HashMap K V) (key : K) (value : V) : Option (Bool × HashMap K V) :=
  if containsKey cb t key then some (false, t)
  else (put cb t key value).map fun t' => (true, t')

def remove (t : HashMap K V) (key : K) : Bool × HashMap K V :=
  match findIndex cb t key with
  | none => (false, t)
  | some index =>
      (true, { t with slots := t.slots.set index .removed, count := t.count - 1,
                      tombstoneCount := t.tombstoneCount + 1 })

/-- The indexer's `get`. -/
def get (t : HashMap K V) (key : K) : Except String V :=
  match findIndex cb t key with
  | none => .error "Key not found"
  | some index =>
      match slot t index with
      | .occupied _ value => .ok value
      | _ => .error "Key not found"

/-- The indexer's `set`. -/
def set (t : HashMap K V) (key : K) (value : V) : Option (HashMap K V) := put cb t key value

def clear (t : HashMap K V) : HashMap K V := freshTable t t.capacity

/-! ## Copying out -/

/-- The loop over the table that `toArray`, `keysToArray` and `valuesToArray`
share: a result of `_count` default elements, filled from the front. -/
def collectGo {β : Type} (entry : K → V → β) :
    List (Slot K V) → Nat → List (Option β) → Option (List (Option β))
  | [], _, result => some result
  | .occupied key value :: slots, resultIndex, result =>
      if resultIndex < result.length then
        collectGo entry slots (resultIndex + 1) (result.set resultIndex (some (entry key value)))
      else none
  | _ :: slots, resultIndex, result => collectGo entry slots resultIndex result

def collect {β : Type} (entry : K → V → β) (t : HashMap K V) : Option (List (Option β)) :=
  collectGo entry t.slots 0 (List.replicate t.count none)

def toArray (t : HashMap K V) : Option (List (Option (K × V))) := collect Prod.mk t
def keysToArray (t : HashMap K V) : Option (List (Option K)) := collect (fun key _ => key) t
def valuesToArray (t : HashMap K V) : Option (List (Option V)) :=
  collect (fun _ value => value) t

/-! ## Sequences of calls -/

inductive Op (K V : Type) where
  | put (key : K) (value : V)
  | tryAdd (key : K) (value : V)
  | remove (key : K)
  | set (key : K) (value : V)
  | clear
deriving Repr, DecidableEq

/-- The map after a call; what the call returned is looked at on its own. -/
def apply (t : HashMap K V) : Op K V → Option (HashMap K V)
  | .put key value => put cb t key value
  | .tryAdd key value => (tryAdd cb t key value).map Prod.snd
  | .remove key => some (remove cb t key).2
  | .set key value => set cb t key value
  | .clear => some (clear t)

def applyAll (t : HashMap K V) (ops : List (Op K V)) : Option (HashMap K V) :=
  ops.foldlM (apply cb) t

end HashMap

end Collections

end Absolute
