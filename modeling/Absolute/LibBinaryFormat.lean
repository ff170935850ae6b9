import Absolute.LibBinary64

/-!
# Binary floating formats and saturating conversion

A format has a precision and a least and a greatest exponent; its numbers and the rounding to them
are read as in `Binary64`. A number goes through a signed integer of more bits than the precision
and comes back as it was exactly if it is whole, in the range of the integer or its upper end, and
no negative zero (`ofInt_toInt_iff`): the upper end is one above the range, and rounding brings
the greatest integer back to it.
-/

namespace BinaryFormat

open Binary64 (halfEven)

structure Format where
  precision : ℕ
  least : ℤ
  most : ℤ
  two_le : 2 ≤ precision
  least_le : least ≤ most

def single : Format := ⟨24, -149, 104, by omega, by omega⟩

def double : Format := ⟨53, -1074, 971, by omega, by omega⟩

/-- The finite magnitudes, each in one way. -/
@[ext]
structure Magnitude (f : Format) where
  significand : ℕ
  exponent : ℤ
  short : significand < 2 ^ f.precision
  least : f.least ≤ exponent
  most : exponent ≤ f.most
  normal : 2 ^ (f.precision - 1) ≤ significand ∨ exponent = f.least

inductive Number (f : Format) where
  | finite (negative : Bool) (magnitude : Magnitude f)
  | infinity (negative : Bool)
  | nan

variable {f : Format}

def Magnitude.zero : Magnitude f := ⟨0, f.least, by positivity, le_rfl, f.least_le, .inr rfl⟩

def Magnitude.value (m : Magnitude f) : ℚ := m.significand * 2 ^ m.exponent

def signed (negative : Bool) (q : ℚ) : ℚ := if negative then -q else q

/-! ## Rounding -/

variable (f) in
/-- The exponent at which the significand of `q` has its full length, or the least one. -/
def scale (q : ℚ) : ℤ := max f.least (Int.log 2 q - (f.precision - 1))

variable (f) in
def scaled (q : ℚ) : ℕ := halfEven (q / 2 ^ scale f q)

section Scale

variable {q : ℚ}

theorem least_le_scale (q : ℚ) : f.least ≤ scale f q := le_max_left _ _

theorem div_scale_lt (q : ℚ) : q / 2 ^ scale f q < 2 ^ f.precision := by
  have hlog : q < 2 ^ (Int.log 2 q + 1) := by
    simpa using Int.lt_zpow_succ_log_self (R := ℚ) one_lt_two q
  have hle : Int.log 2 q + 1 ≤ f.precision + scale f q := by
    have : Int.log 2 q - (f.precision - 1) ≤ scale f q := le_max_right _ _
    omega
  rw [div_lt_iff₀ (by positivity), ← zpow_natCast, ← zpow_add₀ (by norm_num)]
  exact hlog.trans_le (zpow_le_zpow_right₀ (by norm_num) (by exact_mod_cast hle))

theorem scaled_le (h : 0 < q) : scaled f q ≤ 2 ^ f.precision :=
  Binary64.halfEven_le (by positivity) (by exact_mod_cast div_scale_lt q)

theorem full_or_least (h : 0 < q) :
    2 ^ (f.precision - 1) ≤ scaled f q ∨ scale f q = f.least := by
  have htwo := f.two_le
  rcases le_or_gt (Int.log 2 q - (f.precision - 1)) f.least with hlog | hlog
  · exact .inr (max_eq_left hlog)
  · left
    have hscale : scale f q = Int.log 2 q - (f.precision - 1) := max_eq_right hlog.le
    refine Binary64.le_halfEven ?_
    rw [hscale, le_div_iff₀ (by positivity)]
    calc ((2 ^ (f.precision - 1) : ℕ) : ℚ) * 2 ^ (Int.log 2 q - (f.precision - 1))
        = 2 ^ Int.log 2 q := by
          rw [Nat.cast_pow, Nat.cast_ofNat, ← zpow_natCast, ← zpow_add₀ (by norm_num)]
          congr 1
          push_cast [Nat.cast_sub (show 1 ≤ f.precision by omega)]
          ring
      _ ≤ q := by simpa using Int.zpow_log_le_self (R := ℚ) one_lt_two h

end Scale

variable (f) in
/-- The number nearest to a magnitude `q`; above the greatest one, the infinity. -/
def nearest (negative : Bool) (q : ℚ) : Number f :=
  if hpos : 0 < q then
    if hcarry : scaled f q = 2 ^ f.precision then
      if hmost : scale f q + 1 ≤ f.most then
        .finite negative ⟨2 ^ (f.precision - 1), scale f q + 1,
          Nat.pow_lt_pow_right (by omega) (by have := f.two_le; omega),
          (least_le_scale q).trans (by omega), hmost, .inl le_rfl⟩
      else .infinity negative
    else
      if hmost : scale f q ≤ f.most then
        .finite negative ⟨scaled f q, scale f q, (scaled_le hpos).lt_of_ne hcarry,
          least_le_scale q, hmost, full_or_least hpos⟩
      else .infinity negative
  else .finite negative .zero

theorem nearest_zero (negative : Bool) : nearest f negative 0 = .finite negative .zero :=
  dif_neg (lt_irrefl _)

/-- Rounding without a carry. -/
theorem nearest_eq {negative : Bool} {q : ℚ} (m : Magnitude f) (hpos : 0 < q)
    (hscaled : scaled f q = m.significand) (hscale : scale f q = m.exponent) :
    nearest f negative q = .finite negative m := by
  have hcarry : ¬scaled f q = 2 ^ f.precision := hscaled ▸ m.short.ne
  have hmost : scale f q ≤ f.most := hscale ▸ m.most
  rw [nearest, dif_pos hpos, dif_neg hcarry, dif_pos hmost]
  exact congrArg (Number.finite negative) (Magnitude.ext hscaled hscale)

theorem Magnitude.value_pos {m : Magnitude f} (h : 0 < m.significand) : 0 < m.value := by
  rw [Magnitude.value]
  have : (0 : ℚ) < m.significand := by exact_mod_cast h
  positivity

/-- The scale of a magnitude is its exponent. -/
theorem scale_value {m : Magnitude f} (h : 0 < m.significand) : scale f m.value = m.exponent := by
  have hpos := Magnitude.value_pos h
  have htwo := f.two_le
  have hlt : m.value < 2 ^ (f.precision + m.exponent) := by
    rw [Magnitude.value, zpow_add₀ (by norm_num), zpow_natCast]
    exact mul_lt_mul_of_pos_right (by exact_mod_cast m.short) (by positivity)
  have hlog : Int.log 2 m.value < f.precision + m.exponent :=
    (Int.lt_zpow_iff_log_lt one_lt_two hpos).mp (by exact_mod_cast hlt)
  unfold scale
  rcases m.normal with hnormal | hleast
  · have hle : (2 : ℚ) ^ (((f.precision - 1 : ℕ) : ℤ) + m.exponent) ≤ m.value := by
      rw [Magnitude.value, zpow_add₀ (by norm_num), zpow_natCast]
      exact mul_le_mul_of_nonneg_right (by exact_mod_cast hnormal) (by positivity)
    have hlog' : ((f.precision - 1 : ℕ) : ℤ) + m.exponent ≤ Int.log 2 m.value :=
      (Int.zpow_le_iff_le_log one_lt_two hpos).mp (by exact_mod_cast hle)
    have := m.least
    omega
  · omega

/-- A magnitude is rounded to itself. -/
theorem nearest_value {m : Magnitude f} (h : 0 < m.significand) (negative : Bool) :
    nearest f negative m.value = .finite negative m := by
  have hscale := scale_value h
  refine nearest_eq m (Magnitude.value_pos h) ?_ hscale
  rw [scaled, hscale, Magnitude.value, mul_div_assoc, div_self (by positivity), mul_one]
  exact Binary64.halfEven_natCast _

theorem value_injective {m m' : Magnitude f} (h : 0 < m.significand) (heq : m.value = m'.value) :
    m = m' := by
  have hpos' : 0 < m'.significand := by
    by_contra hzero
    have hvalue := Magnitude.value_pos h
    rw [heq, Magnitude.value, Nat.eq_zero_of_not_pos hzero] at hvalue
    simp at hvalue
  have hnumber := nearest_value h false
  rw [heq, nearest_value hpos' false] at hnumber
  exact (Number.finite.inj hnumber).2.symm

/-- Below the greatest exponent the rounding is finite and the scaled significand its value. -/
theorem nearest_scaled {q : ℚ} (hpos : 0 < q) (hmost : scale f q + 1 ≤ f.most) (negative : Bool) :
    ∃ m : Magnitude f, nearest f negative q = .finite negative m ∧
      m.value = scaled f q * 2 ^ scale f q := by
  rw [nearest, dif_pos hpos]
  by_cases hcarry : scaled f q = 2 ^ f.precision
  · rw [dif_pos hcarry, dif_pos hmost]
    refine ⟨_, rfl, ?_⟩
    have hlength : (2 : ℚ) ^ (f.precision - 1) * 2 = 2 ^ f.precision := by
      rw [← pow_succ, Nat.sub_add_cancel (by have := f.two_le; omega)]
    calc ((2 ^ (f.precision - 1) : ℕ) : ℚ) * 2 ^ (scale f q + 1)
        = 2 ^ (f.precision - 1) * 2 * 2 ^ scale f q := by
          rw [zpow_add_one₀ (by norm_num)]
          push_cast
          ring
      _ = scaled f q * 2 ^ scale f q := by
          rw [hlength, hcarry]
          push_cast
          rfl
  · rw [dif_neg hcarry, dif_pos (show scale f q ≤ f.most by omega)]
    exact ⟨_, rfl, rfl⟩

/-! ## Integers -/

section Integers

variable (hleast : f.least ≤ 0)
include hleast

/-- An integer of at most the precision is exact. -/
theorem exists_natCast (hmost : 0 ≤ f.most) {n : ℕ} (hpos : 0 < n) (h : n < 2 ^ f.precision) :
    ∃ m : Magnitude f, m.value = n ∧ 0 < m.significand := by
  have hlog : Nat.log 2 n < f.precision := Nat.log_lt_of_lt_pow hpos.ne' h
  have hscale : scale f n ≤ 0 := by
    rw [scale, Int.log_natCast]
    exact max_le hleast (by omega)
  obtain ⟨k, hk⟩ := Int.eq_ofNat_of_zero_le (neg_nonneg.mpr hscale)
  have hk' : scale f n = -k := by omega
  have hdiv : (n : ℚ) / 2 ^ scale f n = (n * 2 ^ k : ℕ) := by
    rw [hk', zpow_neg, zpow_natCast, div_inv_eq_mul]
    push_cast
    rfl
  have hscaled : scaled f n = n * 2 ^ k := by rw [scaled, hdiv, Binary64.halfEven_natCast]
  refine ⟨⟨n * 2 ^ k, scale f n, ?_, least_le_scale _, hscale.trans hmost, ?_⟩, ?_, ?_⟩
  · have hlt := div_scale_lt (f := f) (n : ℚ)
    rw [hdiv] at hlt
    exact_mod_cast hlt
  · exact hscaled ▸ full_or_least (by exact_mod_cast hpos)
  · calc ((n * 2 ^ k : ℕ) : ℚ) * 2 ^ scale f n = n * 2 ^ k * (2 ^ k)⁻¹ := by
          rw [hk', zpow_neg, zpow_natCast]
          push_cast
          rfl
      _ = n := mul_inv_cancel_right₀ (by positivity) _
  · positivity

omit hleast in
theorem precision_le_log {n : ℕ} (h : 2 ^ f.precision ≤ n) : f.precision ≤ Nat.log 2 n :=
  Nat.le_log_of_pow_le one_lt_two h

/-- From the precision on, the scale of an integer is what its length exceeds the precision by. -/
theorem scale_natCast {n : ℕ} (h : 2 ^ f.precision ≤ n) :
    scale f n = (Nat.log 2 n + 1 - f.precision : ℕ) := by
  have hlog := precision_le_log h
  rw [scale, Int.log_natCast]
  omega

/-- An integer of at most `2 ^ b` is rounded to a whole number of at most `2 ^ b`. -/
theorem nearest_natCast {b n : ℕ} (hb : f.precision ≤ b) (hmost : b < f.most + f.precision)
    (hpos : 0 < n) (h : n ≤ 2 ^ b) (negative : Bool) :
    ∃ (m : Magnitude f) (k : ℕ), nearest f negative n = .finite negative m ∧ m.value = k ∧
      0 < k ∧ k ≤ 2 ^ b := by
  have htwo := f.two_le
  rcases lt_or_ge n (2 ^ f.precision) with hshort | hlong
  · obtain ⟨m, hvalue, hm⟩ := exists_natCast hleast (by omega) hpos hshort
    exact ⟨m, n, hvalue ▸ nearest_value hm negative, hvalue, hpos, h⟩
  rcases h.lt_or_eq with hlt | rfl
  · have hscale := scale_natCast hleast hlong
    have hlog : Nat.log 2 n < b := Nat.log_lt_of_lt_pow hpos.ne' hlt
    have hlog' := precision_le_log hlong
    have hposq : (0 : ℚ) < n := by exact_mod_cast hpos
    obtain ⟨m, hm, hvalue⟩ := nearest_scaled (f := f) hposq (by omega) negative
    rw [hscale, zpow_natCast] at hvalue
    refine ⟨m, scaled f n * 2 ^ (Nat.log 2 n + 1 - f.precision), hm, by exact_mod_cast hvalue,
      ?_, ?_⟩
    · have hfull := (full_or_least (f := f) hposq).resolve_right (by omega)
      have := Nat.two_pow_pos (f.precision - 1)
      exact Nat.mul_pos (by omega) (Nat.two_pow_pos _)
    · calc scaled f n * 2 ^ (Nat.log 2 n + 1 - f.precision)
          ≤ 2 ^ f.precision * 2 ^ (Nat.log 2 n + 1 - f.precision) :=
            Nat.mul_le_mul_right _ (scaled_le hposq)
        _ = 2 ^ (f.precision + (Nat.log 2 n + 1 - f.precision)) := (pow_add _ _ _).symm
        _ ≤ 2 ^ b := Nat.pow_le_pow_right (by omega) (by omega)
  · -- the power itself
    let m : Magnitude f := ⟨2 ^ (f.precision - 1), b - (f.precision - 1),
      Nat.pow_lt_pow_right (by omega) (by omega), by omega, by omega, .inl le_rfl⟩
    have hvalue : m.value = ((2 ^ b : ℕ) : ℚ) := by
      simp only [Magnitude.value, m]
      push_cast
      rw [← zpow_natCast, ← zpow_add₀ (by norm_num), ← zpow_natCast]
      congr 1
      omega
    exact ⟨m, 2 ^ b, hvalue ▸ nearest_value (m := m) (by positivity) negative, hvalue, hpos, le_rfl⟩

omit hleast in
/-- What is short of `2 ^ p` by at most a half is rounded up to it. -/
theorem halfEven_below (p j : ℕ) (hp : 0 < p) :
    Binary64.halfEven ((2 ^ (p + j + 1) - 1 : ℕ) / 2 ^ (j + 1)) = 2 ^ p := by
  have hvalue : ((2 ^ (p + j + 1) - 1 : ℕ) : ℚ) / 2 ^ (j + 1) = 2 ^ p - 1 / 2 ^ (j + 1) := by
    rw [Nat.cast_sub Nat.one_le_two_pow, sub_div, add_assoc, pow_add]
    push_cast
    field_simp
  have hhalf : (1 : ℚ) / 2 ^ (j + 1) ≤ 1 / 2 :=
    one_div_le_one_div_of_le (by norm_num) (by
      rw [pow_succ]
      have : (1 : ℚ) ≤ 2 ^ j := one_le_pow₀ (by norm_num)
      linarith)
  have hsmall : (0 : ℚ) < 1 / 2 ^ (j + 1) := by positivity
  have hcast : ((2 ^ p - 1 : ℕ) : ℚ) = 2 ^ p - 1 := by
    rw [Nat.cast_sub Nat.one_le_two_pow]
    push_cast
    rfl
  have hone : (1 : ℚ) ≤ 2 ^ p := one_le_pow₀ (by norm_num)
  have hfloor : ⌊(2 : ℚ) ^ p - 1 / 2 ^ (j + 1)⌋₊ = 2 ^ p - 1 := by
    rw [Nat.floor_eq_iff (by linarith), hcast]
    exact ⟨by linarith, by linarith⟩
  have hodd : ¬(2 ^ p - 1) % 2 = 0 := by
    obtain ⟨i, rfl⟩ := Nat.exists_eq_add_of_lt hp
    have := Nat.two_pow_pos (0 + i)
    rw [pow_succ]
    omega
  have hsucc : 2 ^ p - 1 + 1 = 2 ^ p := Nat.sub_add_cancel Nat.one_le_two_pow
  simp only [Binary64.halfEven, hvalue, hfloor, hcast]
  rw [if_neg (by linarith), if_neg hodd, hsucc, ite_self]

/-- The greatest integer below `2 ^ b` is rounded to `2 ^ b`. -/
theorem nearest_below {b : ℕ} (hb : f.precision < b) (hmost : b < f.most + f.precision)
    (negative : Bool) :
    ∃ m : Magnitude f, nearest f negative (2 ^ b - 1 : ℕ) = .finite negative m ∧
      m.value = 2 ^ b := by
  obtain ⟨j, rfl⟩ := Nat.exists_eq_add_of_lt hb
  have hlong : 2 ^ f.precision ≤ 2 ^ (f.precision + j + 1) - 1 := by
    have : 2 ^ f.precision * 2 ≤ 2 ^ (f.precision + j + 1) := by
      rw [← pow_succ]
      exact Nat.pow_le_pow_right (by omega) (by omega)
    have := Nat.two_pow_pos f.precision
    omega
  have hposq : (0 : ℚ) < (2 ^ (f.precision + j + 1) - 1 : ℕ) := by
    have := Nat.two_pow_pos f.precision
    exact_mod_cast (by omega : 0 < 2 ^ (f.precision + j + 1) - 1)
  have hlog : Nat.log 2 (2 ^ (f.precision + j + 1) - 1) = f.precision + j := by
    refine Nat.log_eq_of_pow_le_of_lt_pow ?_ (by have := Nat.two_pow_pos (f.precision + j + 1); omega)
    have := Nat.two_pow_pos (f.precision + j)
    rw [pow_succ]
    omega
  have hscale := scale_natCast hleast hlong
  rw [hlog, show f.precision + j + 1 - f.precision = j + 1 by omega] at hscale
  obtain ⟨m, hm, hvalue⟩ := nearest_scaled (f := f) hposq (by omega) negative
  refine ⟨m, hm, ?_⟩
  have hscaled : scaled f (2 ^ (f.precision + j + 1) - 1 : ℕ) = 2 ^ f.precision := by
    rw [scaled, hscale, zpow_natCast]
    exact halfEven_below _ _ (by have := f.two_le; omega)
  rw [hvalue, hscaled, hscale, zpow_natCast]
  push_cast
  rw [← pow_add, add_assoc]

end Integers

/-! ## Conversions -/

variable (f) in
def ofInt (n : ℤ) : Number f := nearest f (n < 0) n.natAbs

/-- What is left without the fraction. -/
def truncate (negative : Bool) (q : ℚ) : ℤ := if negative then -⌊q⌋ else ⌊q⌋

/-- The conversion to a signed integer of `w` bits: what does not fit becomes the nearest end. -/
def toInt (w : ℕ) : Number f → ℤ
  | .finite negative m =>
      max (-2 ^ (w - 1)) (min (truncate negative m.value) (2 ^ (w - 1) - 1))
  | .infinity negative => if negative then -2 ^ (w - 1) else 2 ^ (w - 1) - 1
  | .nan => 0

theorem toInt_bounds (w : ℕ) (v : Number f) :
    -2 ^ (w - 1) ≤ toInt w v ∧ toInt w v ≤ 2 ^ (w - 1) - 1 := by
  have hpos : (0 : ℤ) < 2 ^ (w - 1) := by positivity
  cases v with
  | finite negative m => exact ⟨le_max_left _ _, max_le (by omega) (min_le_right _ _)⟩
  | infinity negative => cases negative <;> simp [toInt]
  | nan => simp only [toInt]; omega

/-- A whole number of the range of `w` bits or its upper end, and no negative zero. -/
def Whole (w : ℕ) (v : Number f) : Prop :=
  ∃ negative m, v = .finite negative m ∧ ∃ n : ℤ, signed negative m.value = n ∧
    -2 ^ (w - 1) ≤ n ∧ n ≤ 2 ^ (w - 1) ∧ (n = 0 → negative = false)

theorem truncate_natCast (negative : Bool) (k : ℕ) :
    truncate negative (k : ℚ) = if negative then -(k : ℤ) else k := by
  rw [truncate, Int.floor_natCast]

theorem eq_zero_of_value {m : Magnitude f} (h : m.value = 0) : m = .zero := by
  have hsignificand : m.significand = 0 := by
    by_contra hne
    exact (Magnitude.value_pos (Nat.pos_of_ne_zero hne)).ne' h
  refine Magnitude.ext hsignificand (m.normal.resolve_left ?_)
  have := Nat.two_pow_pos (f.precision - 1)
  omega

/-- The magnitude of a whole number. -/
theorem natCast_value {negative : Bool} {m : Magnitude f} {n : ℤ}
    (h : signed negative m.value = n) : m.value = n.natAbs ∧ (n ≠ 0 → decide (n < 0) = negative) := by
  have hnonneg : 0 ≤ m.value := by
    rw [Magnitude.value]
    positivity
  cases negative with
  | false =>
    have hvalue : m.value = n := h
    have hn : 0 ≤ n := by exact_mod_cast hvalue ▸ hnonneg
    exact ⟨by rw [hvalue, Nat.cast_natAbs, abs_of_nonneg hn], fun _ => by simpa using hn⟩
  | true =>
    have hvalue : m.value = ((-n : ℤ) : ℚ) := by
      have hneg : -m.value = n := h
      push_cast
      linarith
    have hn : 0 ≤ -n := by exact_mod_cast hvalue ▸ hnonneg
    refine ⟨by rw [hvalue, ← Int.natAbs_neg, Nat.cast_natAbs, abs_of_nonneg hn], ?_⟩
    intro hne
    simpa using (by omega : n < 0)

section RoundTrip

variable {w : ℕ} (hleast : f.least ≤ 0) (hw : f.precision + 1 < w) (hmost : w ≤ f.most + f.precision)
include hleast hw hmost

/-- The conversion of an integer that fits, or of the upper end, is whole. -/
theorem whole_ofInt {n : ℤ} (hlow : -2 ^ (w - 1) ≤ n) (hhigh : n ≤ 2 ^ (w - 1)) :
    Whole w (ofInt f n) := by
  rcases eq_or_ne n 0 with rfl | hne
  · refine ⟨false, .zero, nearest_zero _, 0, ?_, hlow, hhigh, fun _ => rfl⟩
    simp [signed, Magnitude.value, Magnitude.zero]
  have habs : n.natAbs ≤ 2 ^ (w - 1) := by zify; exact abs_le.mpr ⟨hlow, hhigh⟩
  obtain ⟨m, k, hm, hvalue, hpos, hk⟩ := nearest_natCast hleast (b := w - 1) (by omega) (by omega)
    (Int.natAbs_pos.mpr hne) habs (n < 0)
  refine ⟨n < 0, m, hm, if n < 0 then -k else k, ?_, ?_, ?_, ?_⟩
  · rw [signed, hvalue]
    split_ifs <;> simp_all
  all_goals
    have hk' : (k : ℤ) ≤ 2 ^ (w - 1) := by exact_mod_cast hk
    split_ifs <;> grind

/-- A number goes through an integer and comes back as it was exactly if it is whole. -/
theorem ofInt_toInt_iff (v : Number f) : ofInt f (toInt w v) = v ↔ Whole w v := by
  constructor
  · intro h
    obtain ⟨hlow, hhigh⟩ := toInt_bounds w v
    exact h ▸ whole_ofInt hleast hw hmost hlow (by omega)
  · rintro ⟨negative, m, rfl, n, hn, hlow, hhigh, hzero⟩
    obtain ⟨hvalue, hsign⟩ := natCast_value hn
    have htruncate : truncate negative m.value = n := by
      rw [hvalue, truncate_natCast]
      rcases eq_or_ne n 0 with rfl | hne
      · simp
      · rw [← hsign hne]
        rcases lt_or_gt_of_ne hne with hneg | hpos
        · rw [decide_eq_true hneg, if_pos rfl]
          omega
        · rw [decide_eq_false (by omega), if_neg (by simp)]
          omega
    rcases lt_or_ge n (2 ^ (w - 1)) with hlt | hge
    · have hint : toInt w (.finite negative m) = n := by
        rw [toInt, htruncate]
        omega
      rw [hint, ofInt]
      rcases eq_or_ne n 0 with rfl | hne
      · rw [eq_zero_of_value (m := m) (by simpa using hvalue), hzero rfl]
        exact nearest_zero _
      · rw [hsign hne, ← hvalue]
        refine nearest_value (Nat.pos_of_ne_zero fun hsignificand => hne ?_) negative
        rw [Magnitude.value, hsignificand] at hvalue
        simpa using hvalue.symm
    · -- the upper end comes back from the integer below it
      have hpow : (0 : ℤ) < 2 ^ (w - 1) := by positivity
      have hn' : n = 2 ^ (w - 1) := by omega
      have hint : toInt w (.finite negative m) = 2 ^ (w - 1) - 1 := by
        rw [toInt, htruncate]
        omega
      have hneg : negative = false := by
        rw [← hsign (by omega)]
        simpa using hpow.le.trans hge
      obtain ⟨m', hm', hvalue'⟩ := nearest_below hleast (b := w - 1) (by omega) (by omega) negative
      have hnat : (2 ^ (w - 1) - 1 : ℤ).natAbs = 2 ^ (w - 1) - 1 := by
        zify [Nat.one_le_two_pow (n := w - 1)]
        exact abs_of_nonneg (by omega)
      have hsigned : decide ((2 ^ (w - 1) - 1 : ℤ) < 0) = negative := by
        rw [hneg]
        exact decide_eq_false (by omega)
      have hsame : m'.value = m.value := by
        rw [hvalue', hvalue, hn', Nat.cast_natAbs, abs_of_nonneg hpow.le]
        push_cast
        rfl
      have hsignificand : 0 < m'.significand := by
        refine Nat.pos_of_ne_zero fun hzero => ?_
        rw [Magnitude.value, hzero, Nat.cast_zero, zero_mul] at hvalue'
        exact (pow_pos (by norm_num : (0 : ℚ) < 2) (w - 1)).ne hvalue'
      rw [hint, ofInt, hnat, hsigned, hm', value_injective hsignificand hsame]

end RoundTrip

end BinaryFormat
