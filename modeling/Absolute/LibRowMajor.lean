import Mathlib.Algebra.BigOperators.Group.List.Basic
import Mathlib.Algebra.Order.Ring.Nat
import Mathlib.Tactic.Linarith
import Mathlib.Tactic.Ring

/-!
# Row-major positions

Where an element of a box of dimensions stands when the box is laid out row by
row, and where a sub-box starts when fewer indexes than dimensions are given.
The sum over strides is the meaning; the one pass that multiplies by the next
dimension and adds the next index (`horner_eq`) is what programs compute.
-/

namespace Absolute

namespace RowMajor

/-- The position the indexes name: each index times the product of the
dimensions after it. -/
def offset : List Nat → List Nat → Nat
  | [], _ => 0
  | i :: is, ds => i * ds.tail.prod + offset is ds.tail

/-- Every index is below the dimension it stands at. -/
def InBox : List Nat → List Nat → Prop
  | [], _ => True
  | _ :: _, [] => False
  | i :: is, d :: ds => i < d ∧ InBox is ds

/-- The one pass from a start value: multiply by each dimension, and add the
index there while there are indexes left. -/
def horner : Nat → List Nat → List Nat → Nat
  | acc, _, [] => acc
  | acc, [], d :: ds => horner (acc * d) [] ds
  | acc, i :: is, d :: ds => horner (acc * d + i) is ds

@[simp] theorem offset_nil (ds : List Nat) : offset [] ds = 0 := rfl

@[simp] theorem offset_cons (i d : Nat) (is ds : List Nat) :
    offset (i :: is) (d :: ds) = i * ds.prod + offset is ds := rfl

theorem horner_eq (acc : Nat) {is ds : List Nat} (h : is.length ≤ ds.length) :
    horner acc is ds = acc * ds.prod + offset is ds := by
  induction ds generalizing acc is with
  | nil =>
      cases is with
      | nil => simp [horner]
      | cons i is => simp at h
  | cons d ds ih =>
      cases is with
      | nil =>
          rw [horner, ih _ (Nat.zero_le _), offset_nil, offset_nil, List.prod_cons, mul_assoc]
      | cons i is =>
          rw [horner, ih _ (Nat.le_of_succ_le_succ h), offset_cons, List.prod_cons]
          ring

/-- The element and everything from it to the end of its sub-box are inside. -/
theorem offset_add_le {is ds : List Nat} (h : InBox is ds) :
    offset is ds + (ds.drop is.length).prod ≤ ds.prod := by
  induction is generalizing ds with
  | nil => simp
  | cons i is ih =>
      cases ds with
      | nil => exact h.elim
      | cons d ds =>
          have hrest := ih h.2
          have hrow : (i + 1) * ds.prod ≤ d * ds.prod := Nat.mul_le_mul_right _ h.1
          rw [offset_cons, List.prod_cons, List.length_cons, List.drop_succ_cons]
          linarith

/-- A sub-box starts inside, or the box is empty and it starts at the front. -/
theorem offset_lt_or_eq_zero {is ds : List Nat} (h : InBox is ds) :
    offset is ds < ds.prod ∨ offset is ds = 0 := by
  have hle := offset_add_le h
  rcases Nat.eq_zero_or_pos (ds.drop is.length).prod with hz | hpos
  · have hprod := List.prod_take_mul_prod_drop ds is.length
    rw [hz, Nat.mul_zero] at hprod
    exact .inr (by omega)
  · exact .inl (by omega)

/-- With an index for every dimension, the element itself is inside. -/
theorem offset_lt {is ds : List Nat} (h : InBox is ds) (hlen : is.length = ds.length) :
    offset is ds < ds.prod := by
  have := offset_add_le h
  rw [hlen, List.drop_length, List.prod_nil] at this
  exact this

/-- No two elements share a position. -/
theorem offset_injective {is js ds : List Nat} (hi : InBox is ds) (hj : InBox js ds)
    (hlen : is.length = ds.length) (hlen' : js.length = ds.length)
    (h : offset is ds = offset js ds) : is = js := by
  induction ds generalizing is js with
  | nil => rw [List.length_eq_zero_iff.mp hlen, List.length_eq_zero_iff.mp hlen']
  | cons d ds ih =>
      cases is with
      | nil => simp at hlen
      | cons i is =>
          cases js with
          | nil => simp at hlen'
          | cons j js =>
              have hilen : is.length = ds.length := Nat.succ.inj hlen
              have hjlen : js.length = ds.length := Nat.succ.inj hlen'
              have hilt := offset_lt hi.2 hilen
              have hjlt := offset_lt hj.2 hjlen
              rw [offset_cons, offset_cons] at h
              have hpos : 0 < ds.prod := Nat.lt_of_le_of_lt (Nat.zero_le _) hilt
              have hij : i = j := by
                have hdiv := congrArg (· / ds.prod) h
                simpa [Nat.mul_comm _ ds.prod, Nat.mul_add_div hpos, Nat.div_eq_of_lt hilt,
                  Nat.div_eq_of_lt hjlt] using hdiv
              subst hij
              rw [ih hi.2 hj.2 hilen hjlen (Nat.add_left_cancel h)]

end RowMajor

end Absolute
