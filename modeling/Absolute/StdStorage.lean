import Mathlib.Algebra.Group.Int.Defs
import Mathlib.Data.List.Basic
import Mathlib.Tactic.Common

/-!
# The storage of collections

What the collections do to their arrays without a bounds check. A slot holds an element or
nothing; reading, taking or dropping a slot that holds nothing is `stray`, and so is every access
outside the array. An element that is taken leaves its slot with nothing in it.
-/

namespace Absolute

namespace Collections

/-- What a call does: it returns, throws an `Error`, or strays from what the array holds. -/
inductive Result (α : Type) where
  | returned (value : α)
  | threw (message : String)
  | stray
deriving DecidableEq, Repr

namespace Result

variable {α β : Type}

def bind : Result α → (α → Result β) → Result β
  | returned a, f => f a
  | threw message, _ => threw message
  | stray, _ => stray

instance : Monad Result where
  pure := returned
  bind := bind

@[simp] theorem pure_eq (a : α) : (pure a : Result α) = returned a := rfl

@[simp] theorem returned_bind (a : α) (f : α → Result β) : returned a >>= f = f a := rfl

@[simp] theorem threw_bind (message : String) (f : α → Result β) :
    threw message >>= f = threw message := rfl

@[simp] theorem stray_bind (f : α → Result β) : (stray : Result α) >>= f = stray := rfl

theorem bind_eq_returned {x : Result α} {f : α → Result β} {b : β} :
    x >>= f = returned b ↔ ∃ a, x = returned a ∧ f a = returned b := by
  cases x <;> simp

end Result

/-- The value of an `int32` expression; one that overflows is `stray`. -/
def int32 (n : Int) : Result Int := if -2 ^ 31 ≤ n ∧ n < 2 ^ 31 then .returned n else .stray

theorem int32_eq {n : Int} (h : -2 ^ 31 ≤ n) (h' : n < 2 ^ 31) : int32 n = .returned n :=
  if_pos ⟨h, h'⟩

theorem int32_returned {n m : Int} (h : int32 n = .returned m) : m = n ∧ n < 2 ^ 31 := by
  rw [int32] at h
  split at h
  · rename_i hrange
    exact ⟨(Result.returned.inj h).symm, hrange.2⟩
  · cases h

/-- What the caller sees of a call. -/
inductive Answer (T : Type) where
  | done
  | value (item : T)
  | threw (message : String)
deriving DecidableEq, Repr

/-- An array of elements. -/
abbrev Storage (T : Type) : Type := List (Option T)

variable {T : Type}

/-- `new T[n]` -/
def newArray (T : Type) (n : Nat) : Storage T := List.replicate n none

def unsafeArrayGet (items : Storage T) (index : Nat) : Result T :=
  match items[index]? with
  | some (some item) => .returned item
  | _ => .stray

def unsafeArraySet (items : Storage T) (index : Nat) (value : T) : Result (Storage T) :=
  if index < items.length then .returned (items.set index (some value)) else .stray

def unsafeArrayTake (items : Storage T) (index : Nat) : Result (T × Storage T) :=
  match items[index]? with
  | some (some item) => .returned (item, items.set index none)
  | _ => .stray

/-- `unsafeArrayDrop`: `n` elements from `start` on. -/
def unsafeArrayDrop (items : Storage T) (start : Nat) : Nat → Result (Storage T)
  | 0 => .returned items
  | n + 1 => do
      let (_, items) ← unsafeArrayTake items start
      unsafeArrayDrop items (start + 1) n

section

variable {items : Storage T} {index : Nat} {value : T}

theorem unsafeArrayGet_eq (h : items[index]? = some (some value)) :
    unsafeArrayGet items index = .returned value := by
  rw [unsafeArrayGet, h]

theorem unsafeArrayTake_eq (h : items[index]? = some (some value)) :
    unsafeArrayTake items index = .returned (value, items.set index none) := by
  rw [unsafeArrayTake, h]

theorem unsafeArraySet_eq (h : index < items.length) (value : T) :
    unsafeArraySet items index value = .returned (items.set index (some value)) :=
  if_pos h

end

end Collections

end Absolute
