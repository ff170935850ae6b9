import Mathlib.Algebra.Order.Ring.Int
import Absolute.LibWhile
import Absolute.StdHashSetRefines

/-!
# Rounding a capacity up

The constructors that take a capacity double 4 until it is no less, in `int32`. Up to 2^30 the
loop ends where the natural numbers say (`doubling_eq`). From there on the largest power of two
that an `int32` holds is still too small; it doubles to the least `int32`, that to 0, and 0 to
itself (`not_ends_doubling`).
-/

namespace Absolute

namespace Collections

open While

/-- A turn of the loop. -/
def doublingTurn (requested result : Int32) : Turn Int32 Int32 :=
  if result < requested then .next (result * 2) else .done result

/-- The constructor's loop is over with this capacity. -/
def HashMap.Rounds (initialCapacity capacity : Int32) : Prop :=
  Ends (doublingTurn (if initialCapacity < 4 then 4 else initialCapacity)) 4 capacity

def HashSet.Rounds (initialCapacity capacity : Int32) : Prop :=
  Ends (doublingTurn initialCapacity) 4 capacity

/-- What a capacity has to be. -/
structure Fits (initialCapacity capacity : Int32) : Prop where
  power : ∃ n : ℕ, capacity.toInt = 2 ^ n
  four_le : 4 ≤ capacity
  le : initialCapacity ≤ capacity

/-! ## Doubling -/

variable {requested result : Int32}

theorem toInt_mul_two (result : Int32) : (result * 2).toInt = (result.toInt * 2).bmod (2 ^ 32) :=
  Int32.toInt_mul result 2

theorem toInt_double {j : ℕ} (hresult : result.toInt = 2 ^ j) (hj : j < 30) :
    (result * 2).toInt = 2 ^ (j + 1) := by
  have hle : (2 : ℤ) ^ j ≤ 2 ^ 29 := pow_le_pow_right₀ (by decide) (by omega)
  have hpos : (0 : ℤ) < 2 ^ j := Int.pow_pos (by decide)
  rw [toInt_mul_two, hresult, Int.pow_succ, Int.bmod_eq_of_le] <;> omega

/-- Up to 2^30 the doubling ends, where it does without bounds. -/
theorem doubling_eq (hrequested : requested.toInt ≤ 2 ^ 30) {n j : ℕ}
    (hresult : result.toInt = 2 ^ j) (hn : requested.toInt ≤ 2 ^ j + n) :
    ∃ capacity, Ends (doublingTurn requested) result capacity ∧
      capacity.toInt = HashMap.roundUpToPowerOfTwoGo requested.toInt.toNat n (2 ^ j) := by
  induction n generalizing result j with
  | zero =>
      refine ⟨result, .done (if_neg ?_), ?_⟩
      · rw [Int32.lt_iff_toInt_lt, hresult]
        omega
      · rw [HashMap.roundUpToPowerOfTwoGo, hresult]
        norm_cast
  | succ n ih =>
      rw [HashMap.roundUpToPowerOfTwoGo]
      have hcast : ((2 ^ j : ℕ) : ℤ) = 2 ^ j := by norm_cast
      have hpos : (0 : ℤ) < 2 ^ j := Int.pow_pos (by decide)
      by_cases hlt : result < requested
      · have hless : result.toInt < requested.toInt := Int32.lt_iff_toInt_lt.mp hlt
        have hj : j < 30 := (pow_lt_pow_iff_right₀ (a := (2 : ℤ)) (by decide)).mp (by omega)
        obtain ⟨capacity, hends, hcapacity⟩ := ih (toInt_double hresult hj) (by
          rw [Int.pow_succ]
          omega)
        refine ⟨capacity, hends.next (if_pos hlt), ?_⟩
        rw [if_pos (by omega), ← Nat.pow_succ]
        exact hcapacity
      · have hge : ¬result.toInt < requested.toInt := mt Int32.lt_iff_toInt_lt.mpr hlt
        refine ⟨result, .done (if_neg hlt), ?_⟩
        rw [if_neg (by omega), hresult, hcast]

theorem not_ends_doubling (hrequested : 2 ^ 30 < requested.toInt) (capacity : Int32) :
    ¬Ends (doublingTurn requested) 4 capacity := by
  refine not_ends (fun result => (∃ j ≤ 30, result.toInt = 2 ^ j) ∨
    result = Int32.minValue ∨ result = 0) ?_ (.inl ⟨2, by decide, rfl⟩) capacity
  rintro result (⟨j, hj, hresult⟩ | rfl | rfl)
  · have hle : (2 : ℤ) ^ j ≤ 2 ^ 30 := pow_le_pow_right₀ (by decide) hj
    refine ⟨result * 2, if_pos (Int32.lt_iff_toInt_lt.mpr (by omega)), ?_⟩
    rcases Nat.lt_or_eq_of_le hj with hj | rfl
    · exact .inl ⟨j + 1, hj, toInt_double hresult hj⟩
    · right
      left
      rw [← Int32.toInt_inj, toInt_mul_two, hresult]
      rfl
  · exact ⟨0, if_pos (Int32.lt_iff_toInt_lt.mpr (by
      rw [Int32.toInt_minValue]
      omega)), .inr (.inr rfl)⟩
  · exact ⟨0, if_pos (Int32.lt_iff_toInt_lt.mpr (by
      rw [Int32.toInt_zero]
      omega)), .inr (.inr rfl)⟩

/-! ## The constructors -/

theorem le_roundUpToPowerOfTwoGo (requested n m : ℕ) (hm : 1 ≤ m) (h : requested ≤ m + n) :
    m ≤ HashMap.roundUpToPowerOfTwoGo requested n m ∧
      requested ≤ HashMap.roundUpToPowerOfTwoGo requested n m := by
  induction n generalizing m with
  | zero => exact ⟨le_rfl, h⟩
  | succ n ih =>
      rw [HashMap.roundUpToPowerOfTwoGo]
      split
      · obtain ⟨hle, hrequested⟩ := ih (m * 2) (by omega) (by omega)
        exact ⟨by omega, hrequested⟩
      · exact ⟨le_rfl, by omega⟩

/-- A power of two that is enough is not passed. -/
theorem roundUpToPowerOfTwoGo_le (requested n : ℕ) {j k : ℕ} (hj : j ≤ k)
    (h : requested ≤ 2 ^ k) : HashMap.roundUpToPowerOfTwoGo requested n (2 ^ j) ≤ 2 ^ k := by
  induction n generalizing j with
  | zero => exact Nat.pow_le_pow_right (by decide) hj
  | succ n ih =>
      rw [HashMap.roundUpToPowerOfTwoGo]
      split
      · rename_i hlt
        rw [← Nat.pow_succ]
        exact ih ((Nat.pow_lt_pow_iff_right (by decide)).mp (Nat.lt_of_lt_of_le hlt h))
      · exact Nat.pow_le_pow_right (by decide) hj

theorem roundUpGo_eq (requested n capacity : ℕ) :
    HashSet.roundUpGo requested n capacity
      = HashMap.roundUpToPowerOfTwoGo requested n capacity := by
  induction n generalizing capacity with
  | zero => rfl
  | succ n ih =>
      rw [HashSet.roundUpGo, HashMap.roundUpToPowerOfTwoGo]
      split
      · exact ih (capacity * 2)
      · rfl

/-- Where the loop ends. -/
theorem ends_doubling (hpos : 0 ≤ requested.toInt) (hrequested : requested.toInt ≤ 2 ^ 30) :
    ∃ capacity, Ends (doublingTurn requested) 4 capacity ∧
      capacity.toInt = HashMap.roundUpToPowerOfTwoGo requested.toInt.toNat requested.toInt.toNat 4 :=
  doubling_eq hrequested (j := 2) rfl (by omega)

theorem fits_of_ends {initialCapacity capacity : Int32} (hpos : 0 ≤ requested.toInt)
    (hle : initialCapacity ≤ requested) (hrequested : requested.toInt ≤ 2 ^ 30)
    (hends : Ends (doublingTurn requested) 4 capacity) : Fits initialCapacity capacity := by
  obtain ⟨capacity', hends', hcapacity⟩ := ends_doubling hpos hrequested
  obtain rfl := hends.unique hends'
  obtain ⟨k, -, hpow⟩ := HashMap.roundUpToPowerOfTwoGo_pow requested.toInt.toNat
    requested.toInt.toNat (Nat.le_refl 2)
  obtain ⟨hfour, hge⟩ := le_roundUpToPowerOfTwoGo requested.toInt.toNat
    requested.toInt.toNat 4 (by omega) (by omega)
  refine ⟨⟨k, ?_⟩, ?_, ?_⟩
  · rw [hcapacity]
    exact_mod_cast hpow
  · rw [Int32.le_iff_toInt_le, hcapacity]
    exact Int.ofNat_le.mpr hfour
  · rw [Int32.le_iff_toInt_le] at hle ⊢
    omega

/-- The loop does what a constructor wants up to 2^30. -/
theorem ends_doubling_iff {initialCapacity : Int32} (hpos : 0 ≤ requested.toInt)
    (hle : initialCapacity ≤ requested)
    (hsame : requested.toInt ≤ 2 ^ 30 ↔ initialCapacity.toInt ≤ 2 ^ 30) :
    (∃ capacity, Ends (doublingTurn requested) 4 capacity ∧ Fits initialCapacity capacity) ↔
      initialCapacity.toInt ≤ 2 ^ 30 := by
  rw [← hsame]
  constructor
  · rintro ⟨capacity, hends, -⟩
    by_contra hlarge
    exact not_ends_doubling (by omega) capacity hends
  · intro hrequested
    obtain ⟨capacity, hends, -⟩ := ends_doubling hpos hrequested
    exact ⟨capacity, hends, fits_of_ends hpos hle hrequested hends⟩

section

variable {initialCapacity : Int32}

theorem toInt_atLeastFour (initialCapacity : Int32) :
    (if initialCapacity < 4 then 4 else initialCapacity).toInt = max 4 initialCapacity.toInt := by
  have hfour : (4 : Int32).toInt = 4 := rfl
  split
  · rename_i hlt
    have hless := Int32.lt_iff_toInt_lt.mp hlt
    omega
  · rename_i hge
    have hnot := mt Int32.lt_iff_toInt_lt.mpr hge
    omega

theorem HashMap.rounds_iff :
    (∃ capacity, HashMap.Rounds initialCapacity capacity ∧ Fits initialCapacity capacity) ↔
      initialCapacity.toInt ≤ 2 ^ 30 := by
  have hmax := toInt_atLeastFour initialCapacity
  exact ends_doubling_iff (by omega) (Int32.le_iff_toInt_le.mpr (by omega)) (by omega)

theorem HashSet.rounds_iff (h : 1 ≤ initialCapacity) :
    (∃ capacity, HashSet.Rounds initialCapacity capacity ∧ Fits initialCapacity capacity) ↔
      initialCapacity.toInt ≤ 2 ^ 30 := by
  have hone : (1 : Int32).toInt ≤ initialCapacity.toInt := Int32.le_iff_toInt_le.mp h
  have hvalue : (1 : Int32).toInt = 1 := rfl
  exact ends_doubling_iff (by omega) (Int32.le_refl _) Iff.rfl

/-! ## The tables they leave -/

/-- A map as a constructor leaves it in `int32`. -/
def HashMap.Constructed {K V : Type} (t : HashMap K V) : Prop :=
  t = HashMap.new ∨ ∃ initialCapacity capacity, 1 ≤ initialCapacity ∧
    HashMap.Rounds initialCapacity capacity ∧
    t = HashMap.freshTable HashMap.unset capacity.toInt.toNat

def HashSet.Constructed {T : Type} (s : HashSet T) : Prop :=
  s = HashSet.new ∨ ∃ initialCapacity capacity, 1 ≤ initialCapacity ∧
    HashSet.Rounds initialCapacity capacity ∧ s = HashSet.freshTable capacity.toInt.toNat

/-- A loop that ends has the value of the natural numbers'. -/
theorem toNat_of_ends {capacity : Int32} (hpos : 0 ≤ requested.toInt)
    (hends : Ends (doublingTurn requested) 4 capacity) :
    capacity.toInt.toNat
      = HashMap.roundUpToPowerOfTwo requested.toInt.toNat := by
  have hrequested : requested.toInt ≤ 2 ^ 30 := by
    by_contra hlarge
    exact not_ends_doubling (by omega) capacity hends
  obtain ⟨capacity', hends', hcapacity⟩ := ends_doubling hpos hrequested
  obtain rfl := hends.unique hends'
  rw [hcapacity, Int.toNat_natCast]
  rfl

/-- The power of two that is reached is not above another one that is enough. -/
theorem le_pow_iff_of_ends {initialCapacity capacity : Int32} {k : ℕ} (hpos : 0 ≤ requested.toInt)
    (hk : 2 ≤ k) (hsame : requested.toInt ≤ 2 ^ k ↔ initialCapacity.toInt ≤ 2 ^ k)
    (hends : Ends (doublingTurn requested) 4 capacity) :
    capacity.toInt.toNat ≤ 2 ^ k ↔ initialCapacity.toInt ≤ 2 ^ k := by
  have hcapacity := toNat_of_ends hpos hends
  obtain ⟨-, hge⟩ := le_roundUpToPowerOfTwoGo requested.toInt.toNat requested.toInt.toNat 4
    (by omega) (by omega)
  have hcast : ((2 ^ k : ℕ) : ℤ) = 2 ^ k := by norm_cast
  rw [hcapacity, HashMap.roundUpToPowerOfTwo, ← hsame]
  constructor
  · intro hbound
    omega
  · intro hbound
    exact roundUpToPowerOfTwoGo_le _ _ hk (by omega)

theorem HashMap.Constructed.fresh {K V : Type} {t : HashMap K V} (h : HashMap.Constructed t) :
    HashMap.Fresh t := by
  refine h.imp_right ?_
  rintro ⟨initialCapacity, capacity, hone, hrounds, rfl⟩
  have hvalue : (1 : Int32).toInt = 1 := rfl
  have hpos := Int32.le_iff_toInt_le.mp hone
  have hmax := toInt_atLeastFour initialCapacity
  refine ⟨initialCapacity.toInt, ?_⟩
  rw [HashMap.newWithCapacity, if_neg (by omega), toNat_of_ends (by omega) hrounds]
  congr 3
  split <;> omega

theorem HashSet.Constructed.fresh {T : Type} {s : HashSet T} (h : HashSet.Constructed s) :
    HashSet.Fresh s := by
  refine h.imp_right ?_
  rintro ⟨initialCapacity, capacity, hone, hrounds, rfl⟩
  have hvalue : (1 : Int32).toInt = 1 := rfl
  have hpos := Int32.le_iff_toInt_le.mp hone
  refine ⟨initialCapacity.toInt, ?_⟩
  rw [HashSet.newWithCapacity, if_neg (by omega), toNat_of_ends (by omega) hrounds, roundUpGo_eq]
  rfl

end

end Collections

end Absolute
