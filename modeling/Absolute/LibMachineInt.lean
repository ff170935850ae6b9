import Mathlib.Data.Int.Order.Basic
import Mathlib.Tactic.Common
import Mathlib.Tactic.Positivity
import Mathlib.Tactic.Ring

/-!
# Machine integers read with a sign

A machine word carries no sign: the same bits are an `Int` only once it is
said how they are read. A conversion between widths takes the sign it extends
by as an argument, and keeps the value exactly when that is the sign the word
is read with (`read_cast`).
-/

namespace Absolute

/-- How the bits of a word are read. -/
inductive Signedness where
  | signed
  | unsigned
deriving DecidableEq, Repr

namespace Signedness

variable {w w' : Nat}

/-- The value of a word. -/
def read (s : Signedness) (b : BitVec w) : Int :=
  match s with
  | .signed => b.toInt
  | .unsigned => b.toNat

/-- The word at another width: truncated, or extended by the sign given. -/
def cast (s : Signedness) (w' : Nat) (b : BitVec w) : BitVec w' :=
  match s with
  | .signed => b.signExtend w'
  | .unsigned => b.setWidth w'

@[simp] theorem read_signed (b : BitVec w) : signed.read b = b.toInt := rfl

@[simp] theorem read_unsigned (b : BitVec w) : unsigned.read b = (b.toNat : Int) := rfl

@[simp] theorem cast_self (s : Signedness) (b : BitVec w) : s.cast w b = b := by
  cases s <;> simp [cast]

theorem read_cast (s : Signedness) (h : w ≤ w') (b : BitVec w) :
    s.read (s.cast w' b) = s.read b := by
  cases s with
  | signed => exact BitVec.toInt_signExtend_of_le h
  | unsigned =>
      rw [cast, read_unsigned, read_unsigned, BitVec.toNat_setWidth_of_le h]

/-- What an extension adds is cut off again. -/
theorem setWidth_cast (s : Signedness) (h : w ≤ w') (b : BitVec w) :
    (s.cast w' b).setWidth w = b := by
  ext i hi
  have hi' : i < w' := by omega
  cases s with
  | signed => simp [cast, BitVec.getElem_signExtend, hi, hi']
  | unsigned => simp [cast, hi', BitVec.getLsbD_eq_getElem hi]

theorem toNat_of_read_nonneg {s : Signedness} {b : BitVec w} (h : 0 ≤ s.read b) :
    (b.toNat : Int) = s.read b := by
  cases s with
  | signed =>
      rw [read_signed, BitVec.toInt_eq_toNat_cond] at h ⊢
      split at h <;> rename_i hb
      · rw [if_pos hb]
      · exact absurd b.isLt (by omega)
  | unsigned => rfl

theorem read_mem (s : Signedness) (b : BitVec w) : -2 ^ w ≤ s.read b ∧ s.read b < 2 ^ w := by
  have hlt := b.isLt
  have hcast : ((2 ^ w : Nat) : Int) = 2 ^ w := by push_cast; rfl
  rw [← hcast]
  cases s with
  | signed =>
      rw [read_signed, BitVec.toInt_eq_toNat_cond]
      generalize 2 ^ w = range at *
      split <;> omega
  | unsigned =>
      rw [read_unsigned]
      generalize 2 ^ w = range at *
      omega

/-- A negative word compared as if it had no sign is at least half the range. -/
theorem le_toNat_of_read_neg {s : Signedness} {b : BitVec w} (h : s.read b < 0) :
    2 ^ w ≤ 2 * b.toNat := by
  cases s with
  | signed => exact BitVec.toInt_neg_iff.mp h
  | unsigned => exact absurd h (by rw [read_unsigned]; omega)

/-- One unsigned comparison against a bound in the lower half of the range
checks both ends. -/
theorem toNat_cast_lt_iff (s : Signedness) (h : w ≤ w') (b : BitVec w) {n : Nat}
    (hn : 2 * n ≤ 2 ^ w') :
    (s.cast w' b).toNat < n ↔ 0 ≤ s.read b ∧ s.read b < n := by
  have hread := s.read_cast h b
  constructor
  · intro hlt
    have hnonneg : 0 ≤ s.read (s.cast w' b) := by
      by_contra hneg
      have := le_toNat_of_read_neg (Int.not_le.mp hneg)
      omega
    have hval := toNat_of_read_nonneg hnonneg
    rw [hread] at hnonneg hval
    exact ⟨hnonneg, by omega⟩
  · intro ⟨hnonneg, hlt⟩
    rw [← hread] at hnonneg hlt
    have hval := toNat_of_read_nonneg hnonneg
    omega

/-- A sign extension is the extension by the word's own sign unless it is read
without one and its top bit is set. -/
theorem signExtend_eq_cast {s : Signedness} (w' : Nat) {b : BitVec w}
    (hb : s = .signed ∨ 2 * b.toNat < 2 ^ w) : b.signExtend w' = s.cast w' b := by
  cases s with
  | signed => rfl
  | unsigned =>
      have hlt := hb.resolve_left (by decide)
      have hmsb : b.msb = false := by
        rw [BitVec.msb_eq_decide, decide_eq_false_iff_not]
        cases w with
        | zero => omega
        | succ w => rw [Nat.pow_succ] at hlt; simpa using (by omega : b.toNat < 2 ^ w)
      exact BitVec.signExtend_eq_setWidth_of_msb_false hmsb

/-- With the top bit set it is off by the range of the word. -/
theorem toNat_signExtend_of_top {b : BitVec w} (hb : 2 ^ w ≤ 2 * b.toNat) (h : w ≤ w') :
    (b.signExtend w').toNat = b.toNat + 2 ^ w' - 2 ^ w := by
  have hmsb : b.msb = true := by
    rw [BitVec.msb_eq_decide, decide_eq_true_iff]
    cases w with
    | zero => have := b.isLt; omega
    | succ w => rw [Nat.pow_succ] at hb; simpa using (by omega : 2 ^ w ≤ b.toNat)
  have hpow : 2 ^ w ≤ 2 ^ w' := Nat.pow_le_pow_right (by decide) h
  rw [BitVec.toNat_signExtend, hmsb, BitVec.toNat_setWidth_of_le h, if_pos rfl]
  omega

/-- A difference at a wider type, brought back. -/
theorem signed_cast_sub (s : Signedness) (h : w ≤ w') (b : BitVec w) (x : BitVec w') :
    signed.cast w (s.cast w' b - x) = b - x.setWidth w := by
  change BitVec.signExtend w _ = _
  rw [BitVec.signExtend_eq_setWidth_of_le _ h, BitVec.sub_eq_add_neg, BitVec.setWidth_add _ _ h,
    BitVec.setWidth_neg_of_le h, setWidth_cast s h, ← BitVec.sub_eq_add_neg]

/-- One less than what is not negative does not overflow. -/
theorem toInt_sub_one (hw : 1 < w) {b : BitVec w} (h : 0 ≤ b.toInt) :
    (b - 1).toInt = b.toInt - 1 := by
  have hlt : 2 * b.toInt < 2 ^ w := BitVec.two_mul_toInt_lt
  have hcast : ((2 ^ w : Nat) : Int) = 2 ^ w := by push_cast; rfl
  have hpow : (2 : Int) ≤ 2 ^ w := by
    rw [← hcast]
    exact_mod_cast Nat.pow_le_pow_right (show 0 < 2 by decide) (show 1 ≤ w by omega)
  have hone : (1 : BitVec w).toInt = 1 := BitVec.toInt_one hw
  rw [BitVec.toInt_sub, hone]
  exact Int.bmod_eq_of_le_mul_two (by rw [hcast]; omega) (by rw [hcast]; omega)

/-! ## Words as the integers they are read as -/

/-- A conversion to a wider type is the word of the value there. -/
theorem cast_eq_ofInt (s : Signedness) (h : w ≤ w') (b : BitVec w) :
    s.cast w' b = BitVec.ofInt w' (s.read b) := by
  cases s with
  | signed => rw [read_signed, ← BitVec.toInt_signExtend_of_le h, BitVec.ofInt_toInt, cast]
  | unsigned => rw [read_unsigned, BitVec.ofInt_natCast, BitVec.ofNat_toNat, cast]

/-- A conversion to a narrower type cuts off. -/
theorem cast_ofInt_of_le (s : Signedness) (h : w' ≤ w) (x : Int) :
    s.cast w' (BitVec.ofInt w x) = BitVec.ofInt w' x := by
  have hcut : s.cast w' (BitVec.ofInt w x) = (BitVec.ofInt w x).setWidth w' := by
    cases s with
    | signed => rw [cast, BitVec.signExtend_eq_setWidth_of_le _ h]
    | unsigned => rfl
  rw [hcut, ← BitVec.toNat_inj, BitVec.toNat_setWidth, BitVec.toNat_ofInt, BitVec.toNat_ofInt]
  have hpos : ∀ n : Nat, (0 : Int) ≤ x % ((2 ^ n : Nat) : Int) := fun n =>
    Int.emod_nonneg x (Int.natCast_ne_zero.mpr (Nat.two_pow_pos n).ne')
  have hdvd : ((2 ^ w' : Nat) : Int) ∣ ((2 ^ w : Nat) : Int) :=
    Int.natCast_dvd_natCast.mpr (Nat.pow_dvd_pow 2 h)
  apply Int.ofNat_inj.mp
  rw [Int.natCast_emod, Int.toNat_of_nonneg (hpos w), Int.toNat_of_nonneg (hpos w'),
    Int.emod_emod_of_dvd x hdvd]

/-- A conversion of a value that is read as itself. -/
theorem cast_ofInt (s : Signedness) {x : Int} (h : s.read (BitVec.ofInt w x) = x) :
    s.cast w' (BitVec.ofInt w x) = BitVec.ofInt w' x := by
  rcases Nat.le_total w w' with hle | hle
  · rw [s.cast_eq_ofInt hle, h]
  · exact s.cast_ofInt_of_le hle x
theorem neg_ofInt (w : Nat) (x : Int) : -BitVec.ofInt w x = BitVec.ofInt w (-x) := by
  rw [← BitVec.toInt_inj, BitVec.toInt_neg, BitVec.toInt_ofInt, BitVec.toInt_ofInt]
  simp

theorem ofInt_read (s : Signedness) (b : BitVec w) : BitVec.ofInt w (s.read b) = b := by
  rw [← s.cast_eq_ofInt (Nat.le_refl w), cast_self]

theorem read_inj {s : Signedness} {a b : BitVec w} : s.read a = s.read b ↔ a = b := by
  constructor
  · intro h
    rw [← s.ofInt_read a, h, s.ofInt_read]
  · intro h
    rw [h]

theorem ofInt_eq_ofInt {x y : Int} :
    BitVec.ofInt w x = BitVec.ofInt w y ↔ x % 2 ^ w = y % 2 ^ w := by
  rw [← BitVec.toNat_inj, BitVec.toNat_ofInt, BitVec.toNat_ofInt]
  have hpos : (0 : Int) < 2 ^ w := by positivity
  have hx := Int.emod_nonneg x hpos.ne'
  have hy := Int.emod_nonneg y hpos.ne'
  push_cast
  omega

/-- What the sign of the reading changes: nothing in the lower half of the
range, the whole range in the upper. -/
theorem signed_read_eq (b : BitVec w) :
    signed.read b = if 2 * b.toNat < 2 ^ w then unsigned.read b else unsigned.read b - 2 ^ w := by
  rw [read_signed, read_unsigned, BitVec.toInt_eq_toNat_cond]
  push_cast
  rfl

/-- Words on the same side of the middle are in the same order under either
reading, and words on different sides never are. -/
theorem signed_lt_iff_unsigned_lt {a b : BitVec w} :
    (signed.read a < signed.read b ↔ unsigned.read a < unsigned.read b) ↔
      (2 * a.toNat < 2 ^ w ↔ 2 * b.toNat < 2 ^ w) := by
  have ha := a.isLt
  have hb := b.isLt
  rw [signed_read_eq, signed_read_eq, read_unsigned, read_unsigned]
  have hcast : ((2 ^ w : Nat) : Int) = 2 ^ w := by push_cast; rfl
  rw [← hcast]
  generalize 2 ^ w = range at *
  split <;> split <;> omega

theorem sshiftRight_eq_iff {a : BitVec w} {k : Nat} (hk : k < w) :
    a.sshiftRight k = a >>> k ↔ 2 * a.toNat < 2 ^ w ∨ k = 0 := by
  have hmsb : a.msb = false ↔ 2 * a.toNat < 2 ^ w := by
    rw [BitVec.msb_eq_decide, decide_eq_false_iff_not]
    obtain ⟨v, rfl⟩ : ∃ v, w = v + 1 := ⟨w - 1, by omega⟩
    rw [Nat.pow_succ, Nat.add_sub_cancel]
    omega
  rw [← hmsb]
  constructor
  · intro h
    by_contra hne
    obtain ⟨htop, hk0⟩ := not_or.mp hne
    have := congrArg BitVec.msb h
    rw [BitVec.msb_sshiftRight, BitVec.msb_ushiftRight,
      decide_eq_true (Nat.pos_of_ne_zero hk0)] at this
    exact htop this
  · rintro (h | rfl)
    · exact BitVec.sshiftRight_eq_of_msb_false h
    · simp

end Signedness

end Absolute
