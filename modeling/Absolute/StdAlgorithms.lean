import Absolute.LibStableSort
import Absolute.LibWhile
import Absolute.StdStorage

/-!
# Sorting and searching

`sort` and `binarySearch` of `std/collections/algorithms.abs`, on arrays and on vectors. A test
says which of two elements has to stand behind the other: `>`, or a comparator whose answer is
positive. The arrays' `sort` holds a key out and moves the elements in front of it up, the
vectors' exchanges neighbours; an index that counts down by one is the argument of a recursion.
An access outside the array and an `int32` that overflows are `stray`.
-/

namespace Absolute

namespace Collections

open While

variable {T : Type}

/-! ## Arrays and vectors -/

/-- `items[index]` -/
def itemAt (items : Storage T) (index : Int) : Result T :=
  if 0 ≤ index then unsafeArrayGet items index.toNat else .stray

/-- `items[index] = value` -/
def setItem (items : Storage T) (index : Int) (value : T) : Result (Storage T) :=
  if 0 ≤ index then unsafeArraySet items index.toNat value else .stray

structure Vector (T : Type) where
  items : Storage T
  count : Nat
  capacity : Nat
deriving DecidableEq, Repr

namespace Vector

/-- The indexer's `get`, with one unsigned compare for both ends. -/
def get (vec : Vector T) (index : Int) : Result T :=
  if 0 ≤ index ∧ index < vec.count then unsafeArrayGet vec.items index.toNat else .stray

def swap (vec : Vector T) (a b : Int) : Result (Vector T) :=
  if a < 0 ∨ a ≥ vec.count ∨ b < 0 ∨ b ≥ vec.count then .threw "Index out of bounds"
  else if a = b then .returned vec
  else do
    let (left, items) ← unsafeArrayTake vec.items a.toNat
    let (right, items) ← unsafeArrayTake items b.toNat
    let items ← unsafeArraySet items a.toNat right
    let items ← unsafeArraySet items b.toNat left
    return { vec with items := items }

end Vector

/-! ## Sorting -/

section Sorting

variable (after : T → T → Bool)

/-- The inner loop on an array, by `j + 1`. -/
def shiftGo (key : T) : Nat → Storage T → Result (Nat × Storage T)
  | 0, items => .returned (0, items)
  | j + 1, items => do
      if after (← itemAt items j) key then
        let items ← setItem items (j + 1) (← itemAt items j)
        shiftGo key j items
      else return (j + 1, items)

/-- A turn of the outer loop: `items[i]` goes to its place. -/
def insertKey (items : Storage T) (i : Nat) : Result (Storage T) := do
  let key ← itemAt items i
  let (next, items) ← shiftGo after key i items
  setItem items next key

/-- The outer loop, `i` from 1 on. -/
def sortArray (items : Storage T) : Result (Storage T) :=
  (List.range' 1 (items.length - 1)).foldlM (insertKey after) items

/-- The inner loop on a vector, by `j`. -/
def sinkGo : Nat → Vector T → Result (Vector T)
  | 0, vec => .returned vec
  | j + 1, vec => do
      if after (← vec.get j) (← vec.get (j + 1)) then
        let vec ← vec.swap j (j + 1)
        sinkGo j vec
      else return vec

def sortVector (vec : Vector T) : Result (Vector T) :=
  (List.range' 1 (vec.count - 1)).foldlM (fun vec i => sinkGo after i vec) vec

end Sorting

/-- A comparator's element that has to stand behind another. -/
def afterBy (comparator : T → T → Int32) (a b : T) : Bool := comparator a b > 0

namespace Algorithms

/-- `sort<T>(T[] items)` -/
def sort (gt : T → T → Bool) (items : Storage T) : Result (Storage T) := sortArray gt items

/-- `sort<T>(Vector<T>* vec)` -/
def sortVec (gt : T → T → Bool) (vec : Vector T) : Result (Vector T) := sortVector gt vec

/-- `sort<T>(T[] items, func<int32, T, T> comparator)` -/
def sortBy (items : Storage T) (comparator : T → T → Int32) : Result (Storage T) :=
  sortArray (afterBy comparator) items

/-- `sort<T>(Vector<T>* vec, func<int32, sub T, sub T> comparator)` -/
def sortVecBy (vec : Vector T) (comparator : T → T → Int32) : Result (Vector T) :=
  sortVector (afterBy comparator) vec

end Algorithms

/-! ## Searching -/

section Searching

variable (eq lt : T → T → Bool) (get : Int → Result T) (target : T)

/-- A turn that strays is the end of the loop. -/
def turnOf {σ α : Type} : Result (Turn σ (Result α)) → Turn σ (Result α)
  | .returned turn => turn
  | .threw message => .done (.threw message)
  | .stray => .done .stray

/-- A turn of the loop, `low` and `high` before it. -/
def searchTurn (bounds : Int × Int) : Turn (Int × Int) (Result Int) :=
  if bounds.1 ≤ bounds.2 then
    turnOf do
      let width ← int32 (bounds.2 - bounds.1)
      let mid ← int32 (bounds.1 + width.tdiv 2)
      let item ← get mid
      if eq item target then return .done (.returned mid)
      else if lt item target then
        let low ← int32 (mid + 1)
        return .next (low, bounds.2)
      else
        let high ← int32 (mid - 1)
        return .next (bounds.1, high)
  else .done (.returned (-1))

/-- What the call returns, if the loop is over after so many turns. -/
def search (length : Nat) (turns : Nat) : Option (Result Int) :=
  match int32 (length - 1) with
  | .returned high => run (searchTurn eq lt get target) turns (0, high)
  | .threw message => some (.threw message)
  | .stray => some .stray

namespace Algorithms

/-- `binarySearch<T>(T[] items, T target)` -/
def binarySearch (items : Storage T) : Nat → Option (Result Int) :=
  search eq lt (itemAt items) target items.length

/-- `binarySearch<T>(Vector<T>* vec, sub T target)` -/
def binarySearchVec (vec : Vector T) : Nat → Option (Result Int) :=
  search eq lt vec.get target vec.count

end Algorithms

end Searching

end Collections

end Absolute
