import Mathlib.Data.Int.Log
import Mathlib.Data.Rat.Floor
import Mathlib.Tactic

/-!
# Double precision numbers

The numbers of the format binary64 and the rounding of a rational to the nearest of
them, to the even significand where two are equally near. An integer of magnitude
below `2 ^ 53` is rounded to itself (`Binary64.value_ofInt`).
-/

namespace Binary64

/-! ## Rounding to an integer -/

/-- The natural number nearest to `x`, the even one of two. -/
def halfEven (x : ℚ) : ℕ :=
  let below := ⌊x⌋₊
  if x - below < 1 / 2 then below
  else if 1 / 2 < x - below then below + 1
  else if below % 2 = 0 then below else below + 1

theorem floor_le_halfEven (x : ℚ) : ⌊x⌋₊ ≤ halfEven x := by
  unfold halfEven
  dsimp only
  split_ifs <;> omega

theorem halfEven_le_floor_add_one (x : ℚ) : halfEven x ≤ ⌊x⌋₊ + 1 := by
  unfold halfEven
  dsimp only
  split_ifs <;> omega

@[simp] theorem halfEven_natCast (n : ℕ) : halfEven n = n := by simp [halfEven]

theorem halfEven_le {x : ℚ} {n : ℕ} (h0 : 0 ≤ x) (h : x < n) : halfEven x ≤ n :=
  (halfEven_le_floor_add_one x).trans ((Nat.floor_lt h0).mpr h)

theorem le_halfEven {x : ℚ} {n : ℕ} (h : n ≤ x) : n ≤ halfEven x :=
  (Nat.le_floor h).trans (floor_le_halfEven x)

/-! ## The format -/

/-- The finite magnitudes `significand * 2 ^ exponent`, each in one way: the significand
is short of its full length only at the least exponent. -/
structure Magnitude where
  significand : ℕ
  exponent : ℤ
  short : significand < 2 ^ 53
  least : -1074 ≤ exponent
  most : exponent ≤ 971
  normal : 2 ^ 52 ≤ significand ∨ exponent = -1074

def Magnitude.value (m : Magnitude) : ℚ := m.significand * 2 ^ m.exponent

def Magnitude.zero : Magnitude := ⟨0, -1074, by norm_num, le_rfl, by norm_num, .inr rfl⟩

end Binary64

inductive Binary64 where
  | finite (negative : Bool) (magnitude : Binary64.Magnitude)
  | infinity (negative : Bool)
  | nan

namespace Binary64

/-- The value of a finite number. -/
def value : Binary64 → Option ℚ
  | .finite negative m => some (if negative then -m.value else m.value)
  | _ => none

/-! ## Rounding to the format -/

/-- The exponent at which the significand of `q` has its full length, or the least one. -/
def scale (q : ℚ) : ℤ := max (-1074) (Int.log 2 q - 52)

/-- `q` in units of its scale. -/
def scaled (q : ℚ) : ℕ := halfEven (q / 2 ^ scale q)

section Scale

variable {q : ℚ}

theorem least_le_scale (q : ℚ) : -1074 ≤ scale q := le_max_left _ _

theorem div_scale_lt (q : ℚ) : q / 2 ^ scale q < 2 ^ 53 := by
  have hlog : q < 2 ^ (Int.log 2 q + 1) := by
    simpa using Int.lt_zpow_succ_log_self (R := ℚ) one_lt_two q
  have hle : Int.log 2 q + 1 ≤ 53 + scale q := by
    have : Int.log 2 q - 52 ≤ scale q := le_max_right _ _
    omega
  rw [div_lt_iff₀ (by positivity), ← zpow_natCast, ← zpow_add₀ (by norm_num)]
  exact hlog.trans_le (zpow_le_zpow_right₀ (by norm_num) (by exact_mod_cast hle))

theorem scaled_le (h : 0 < q) : scaled q ≤ 2 ^ 53 :=
  halfEven_le (by positivity) (by exact_mod_cast div_scale_lt q)

theorem full_or_least (h : 0 < q) : 2 ^ 52 ≤ scaled q ∨ scale q = -1074 := by
  rcases le_or_gt (Int.log 2 q - 52) (-1074) with hlog | hlog
  · exact .inr (max_eq_left hlog)
  · left
    have hscale : scale q = Int.log 2 q - 52 := max_eq_right hlog.le
    refine le_halfEven ?_
    rw [hscale, le_div_iff₀ (by positivity)]
    calc ((2 ^ 52 : ℕ) : ℚ) * 2 ^ (Int.log 2 q - 52)
        = 2 ^ Int.log 2 q := by
          rw [Nat.cast_pow, Nat.cast_ofNat, ← zpow_natCast, ← zpow_add₀ (by norm_num)]
          congr 1
          push_cast
          ring
      _ ≤ q := by simpa using Int.zpow_log_le_self (R := ℚ) one_lt_two h

end Scale

/-- The number nearest to a magnitude `q`; above the greatest one, the infinity. -/
def nearest (negative : Bool) (q : ℚ) : Binary64 :=
  if hpos : 0 < q then
    if hcarry : scaled q = 2 ^ 53 then
      if hmost : scale q + 1 ≤ 971 then
        .finite negative ⟨2 ^ 52, scale q + 1, by norm_num,
          (least_le_scale q).trans (by omega), hmost, .inl le_rfl⟩
      else .infinity negative
    else
      if hmost : scale q ≤ 971 then
        .finite negative ⟨scaled q, scale q, (scaled_le hpos).lt_of_ne hcarry,
          least_le_scale q, hmost, full_or_least hpos⟩
      else .infinity negative
  else .finite negative .zero

/-- The conversion of an integer. -/
def ofInt (n : ℤ) : Binary64 := nearest (n < 0) n.natAbs

/-- What is left of the fraction of a number that fits a signed integer of 64 bits. -/
def toInt64 (d : Binary64) : Option ℤ := do
  let q ← d.value
  let n := if 0 ≤ q then ⌊q⌋ else -⌊-q⌋
  if -2 ^ 63 ≤ n ∧ n < 2 ^ 63 then some n else none

/-! ## Integers -/

theorem div_scale_natCast {n : ℕ} (h : n < 2 ^ 53) :
    ∃ k : ℕ, scale n = -k ∧ (n : ℚ) / 2 ^ scale n = (n * 2 ^ k : ℕ) := by
  have hlog : Nat.log 2 n ≤ 52 := by
    rcases n.eq_zero_or_pos with rfl | hn
    · simp
    · exact Nat.lt_succ_iff.mp (Nat.log_lt_of_lt_pow hn.ne' h)
  have hscale : scale n ≤ 0 := by
    rw [scale, Int.log_natCast]
    exact max_le (by norm_num) (by omega)
  obtain ⟨k, hk⟩ := Int.eq_ofNat_of_zero_le (neg_nonneg.mpr hscale)
  refine ⟨k, by omega, ?_⟩
  rw [show scale (n : ℚ) = -(k : ℤ) by omega, zpow_neg, zpow_natCast, div_inv_eq_mul]
  push_cast
  ring

theorem value_nearest_natCast {n : ℕ} (h : n < 2 ^ 53) (negative : Bool) :
    (nearest negative n).value = some (if negative then -(n : ℚ) else n) := by
  rcases n.eq_zero_or_pos with rfl | hn
  · simp [nearest, value, Magnitude.value, Magnitude.zero]
  obtain ⟨k, hscale, hdiv⟩ := div_scale_natCast h
  have hscaled : scaled n = n * 2 ^ k := by rw [scaled, hdiv, halfEven_natCast]
  have hcarry : scaled n ≠ 2 ^ 53 := by
    have hlt := div_scale_lt n
    rw [hdiv] at hlt
    rw [hscaled]
    exact ne_of_lt (by exact_mod_cast hlt)
  have hpos : (0 : ℚ) < n := by exact_mod_cast hn
  have hvalue : ((n * 2 ^ k : ℕ) : ℚ) * 2 ^ (-(k : ℤ)) = n := by
    rw [zpow_neg, zpow_natCast]
    push_cast
    field_simp
  rw [nearest, dif_pos hpos, dif_neg hcarry, dif_pos (by omega)]
  simp only [value, Magnitude.value, hscaled, hscale, hvalue]

theorem value_ofInt {n : ℤ} (h : n.natAbs < 2 ^ 53) : (ofInt n).value = some (n : ℚ) := by
  rw [ofInt, value_nearest_natCast h]
  by_cases hn : n < 0
  · simp [hn, abs_of_neg hn, Nat.cast_natAbs]
  · simp [hn, abs_of_nonneg (not_lt.mp hn), Nat.cast_natAbs]

theorem toInt64_ofInt {n : ℤ} (h : n.natAbs < 2 ^ 53) : (ofInt n).toInt64 = some n := by
  have htrunc : (if (0 : ℚ) ≤ n then ⌊(n : ℚ)⌋ else -⌊-(n : ℚ)⌋) = n := by
    split
    · exact Int.floor_intCast n
    · rw [← Int.cast_neg, Int.floor_intCast, neg_neg]
  simp only [toInt64, value_ofInt h, Option.bind_eq_bind, Option.bind_some, htrunc]
  rw [if_pos (by omega)]

end Binary64
