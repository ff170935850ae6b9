import Mathlib.Data.List.GetD
import Mathlib.Order.Nat
import Mathlib.Tactic.Common

/-!
# The bytes of a word

A word is taken apart into bytes by shifts and put together again by shifts and ors
(`WordBytes.assemble_bytesOf`). Bytes written one after the other are read back from where they were
written (`WordBytes.getElem?_writeFrom`).
-/

namespace WordBytes

abbrev Byte : Type := BitVec 8

variable {w : ℕ}

/-- `(v >> 8 * k) & 255` -/
def byteOf (v : BitVec w) (k : ℕ) : Byte := (v.sshiftRight (8 * k) &&& 255#w).setWidth 8

/-- The lowest `n` bytes, the lowest one first. -/
def bytesOf (n : ℕ) (v : BitVec w) : List Byte := (List.range n).map (byteOf v)

/-- `b0 << 8 * k | b1 << 8 * (k + 1) | …` -/
def assembleFrom (w k : ℕ) : List Byte → BitVec w
  | [] => 0
  | b :: bs => b.setWidth w <<< (8 * k) ||| assembleFrom w (k + 1) bs

def assemble (w : ℕ) (bs : List Byte) : BitVec w := assembleFrom w 0 bs

@[simp] theorem length_bytesOf (n : ℕ) (v : BitVec w) : (bytesOf n v).length = n := by
  simp [bytesOf]

theorem getLsbD_byteOf (v : BitVec w) {k j : ℕ} (hj : j < 8) (h : 8 * k + 8 ≤ w) :
    (byteOf v k).getLsbD j = v.getLsbD (8 * k + j) := by
  have hmask : (255#w).getLsbD j = true := by
    rw [BitVec.getLsbD_ofNat, decide_eq_true (by omega), Bool.true_and,
      show 255 = 2 ^ 8 - 1 from rfl, Nat.testBit_two_pow_sub_one]
    exact decide_eq_true hj
  rw [byteOf, BitVec.getLsbD_setWidth, BitVec.getLsbD_and, BitVec.getLsbD_sshiftRight, hmask,
    if_pos (by omega), decide_eq_true hj, decide_eq_false (by omega)]
  simp

theorem getLsbD_assembleFrom (bs : List Byte) {k i : ℕ} (hi : i < w) :
    (assembleFrom w k bs).getLsbD i =
      (decide (8 * k ≤ i) && (bs.getD (i / 8 - k) 0).getLsbD (i % 8)) := by
  induction bs generalizing k with
  | nil => simp [assembleFrom]
  | cons b bs ih =>
    rw [assembleFrom, BitVec.getLsbD_or, ih, BitVec.getLsbD_shiftLeft, BitVec.getLsbD_setWidth,
      decide_eq_true hi, decide_eq_true (show i - 8 * k < w by omega)]
    rcases lt_trichotomy (i / 8) k with hlt | heq | hgt
    · rw [decide_eq_true (show i < 8 * k by omega), decide_eq_false (show ¬8 * (k + 1) ≤ i by omega),
        decide_eq_false (show ¬8 * k ≤ i by omega)]
      simp
    · rw [decide_eq_false (show ¬i < 8 * k by omega),
        decide_eq_false (show ¬8 * (k + 1) ≤ i by omega), decide_eq_true (show 8 * k ≤ i by omega),
        show i - 8 * k = i % 8 by omega, show i / 8 - k = 0 by omega]
      simp
    · rw [decide_eq_false (show ¬i < 8 * k by omega), decide_eq_true (show 8 * (k + 1) ≤ i by omega),
        decide_eq_true (show 8 * k ≤ i by omega), BitVec.getLsbD_of_ge b _ (by omega),
        show i / 8 - k = i / 8 - (k + 1) + 1 by omega, List.getD_cons_succ]
      simp

/-- What is put together from the lowest bytes of a word is the word without the others. -/
theorem getLsbD_assemble_bytesOf (v : BitVec w) {n i : ℕ} (h : 8 * n ≤ w) (hi : i < w) :
    (assemble w (bytesOf n v)).getLsbD i = (decide (i < 8 * n) && v.getLsbD i) := by
  rw [assemble, getLsbD_assembleFrom _ hi]
  rcases lt_or_ge i (8 * n) with hlt | hge
  · have hget : (bytesOf n v).getD (i / 8 - 0) 0 = byteOf v (i / 8) := by
      rw [bytesOf, List.getD_eq_getElem _ _ (by simp; omega)]
      simp
    rw [hget, getLsbD_byteOf v (by omega) (by omega), decide_eq_true hlt, Nat.div_add_mod]
    simp
  · rw [List.getD_eq_default _ _ (by simp; omega), decide_eq_false (show ¬i < 8 * n by omega)]
    simp

theorem assemble_bytesOf (v : BitVec w) {n : ℕ} (h : 8 * n = w) : assemble w (bytesOf n v) = v := by
  refine BitVec.eq_of_getLsbD_eq fun i hi => ?_
  rw [getLsbD_assemble_bytesOf v h.le hi, decide_eq_true (by omega), Bool.true_and]

/-- A word that is widened before it is taken apart. -/
theorem assemble_bytesOf_signExtend {m n : ℕ} (v : BitVec m) (h : 8 * n = m) (hw : m ≤ w) :
    (assemble w (bytesOf n (v.signExtend w))).setWidth m = v := by
  refine BitVec.eq_of_getLsbD_eq fun i hi => ?_
  rw [BitVec.getLsbD_setWidth, decide_eq_true hi, Bool.true_and,
    getLsbD_assemble_bytesOf _ (by omega) (by omega), decide_eq_true (by omega), Bool.true_and,
    BitVec.getLsbD_signExtend, decide_eq_true (by omega), if_pos hi, Bool.true_and]

/-! ## Bytes in a row -/

/-- The bytes are written one after the other, the first one at `i`. -/
def writeFrom {α : Type} (xs : List α) (i : ℕ) : List α → List α
  | [] => xs
  | b :: bs => writeFrom (xs.set i b) (i + 1) bs

section Rows

variable {α : Type}

@[simp] theorem length_writeFrom (xs : List α) (i : ℕ) (bs : List α) :
    (writeFrom xs i bs).length = xs.length := by
  induction bs generalizing xs i with
  | nil => rfl
  | cons b bs ih => rw [writeFrom, ih, List.length_set]

theorem getElem?_writeFrom_of_lt (xs : List α) {i j : ℕ} (bs : List α) (h : j < i) :
    (writeFrom xs i bs)[j]? = xs[j]? := by
  induction bs generalizing xs i with
  | nil => rfl
  | cons b bs ih => rw [writeFrom, ih _ (by omega), List.getElem?_set_ne (by omega)]

theorem getElem?_writeFrom_of_ge (xs : List α) {i j : ℕ} (bs : List α) (h : i + bs.length ≤ j) :
    (writeFrom xs i bs)[j]? = xs[j]? := by
  induction bs generalizing xs i with
  | nil => rfl
  | cons b bs ih =>
    rw [List.length_cons] at h
    rw [writeFrom, ih _ (by omega), List.getElem?_set_ne (by omega)]

theorem getElem?_writeFrom (xs : List α) {i k : ℕ} (bs : List α) (hk : k < bs.length)
    (h : i + bs.length ≤ xs.length) : (writeFrom xs i bs)[i + k]? = bs[k]? := by
  induction bs generalizing xs i k with
  | nil => simp at hk
  | cons b bs ih =>
    rw [List.length_cons] at hk h
    rw [writeFrom]
    cases k with
    | zero =>
      rw [getElem?_writeFrom_of_lt _ _ (by omega), Nat.add_zero,
        List.getElem?_set_self (by omega), List.getElem?_cons_zero]
    | succ k =>
      rw [show i + (k + 1) = i + 1 + k by omega, ih _ (by omega) (by rw [List.length_set]; omega),
        List.getElem?_cons_succ]

end Rows

end WordBytes
