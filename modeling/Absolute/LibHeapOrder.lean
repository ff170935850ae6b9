import Mathlib.Data.Multiset.Range
import Mathlib.Data.Multiset.MapFold
import Mathlib.Logic.Equiv.Basic
import Mathlib.Tactic.Common

/-!
# Heaps

The first `n` values of a sequence as a binary heap: each is at or after the one at its parent.
Two places are exchanged at a time. On the way up the one place that may be too small is the one
that was just written (`UpReady`), on the way down the one that may be too large (`DownReady`);
an exchange moves that place by one edge, and where it is not needed the heap is in order.
-/

namespace Absolute

namespace HeapOrder

variable {α : Type*}

/-! ## Places -/

def parent (i : ℕ) : ℕ := (i - 1) / 2

theorem parent_lt {i : ℕ} (h : 0 < i) : parent i < i := by
  unfold parent
  omega

theorem child_cases {i c : ℕ} (h : 0 < c) (hc : parent c = i) : c = i * 2 + 1 ∨ c = i * 2 + 2 := by
  unfold parent at hc
  omega

theorem lt_of_parent {i c : ℕ} (h : 0 < c) (hc : parent c = i) : i < c := hc ▸ parent_lt h

/-! ## Exchanging two places -/

/-- The sequence with two places exchanged. -/
def exchange (f : ℕ → α) (i j : ℕ) : ℕ → α := f ∘ Equiv.swap i j

variable {f : ℕ → α} {i j k n : ℕ}

theorem exchange_left : exchange f i j i = f j := by
  rw [exchange, Function.comp_apply, Equiv.swap_apply_left]

theorem exchange_right : exchange f i j j = f i := by
  rw [exchange, Function.comp_apply, Equiv.swap_apply_right]

theorem exchange_other (hi : k ≠ i) (hj : k ≠ j) : exchange f i j k = f k := by
  rw [exchange, Function.comp_apply, Equiv.swap_apply_of_ne_of_ne hi hj]

/-- What the first `n` places hold. -/
def contents (n : ℕ) (f : ℕ → α) : Multiset α := (Multiset.range n).map f

theorem mem_contents {a : α} : a ∈ contents n f ↔ ∃ i < n, f i = a := by
  simp [contents]

theorem contents_succ (n : ℕ) (f : ℕ → α) : contents (n + 1) f = f n ::ₘ contents n f := by
  rw [contents, Multiset.range_succ, Multiset.map_cons]
  rfl

theorem contents_congr {g : ℕ → α} (h : ∀ i < n, f i = g i) : contents n f = contents n g :=
  Multiset.map_congr rfl fun i hi => h i (Multiset.mem_range.mp hi)

theorem contents_exchange (hi : i < n) (hj : j < n) :
    contents n (exchange f i j) = contents n f := by
  have hrange : (Multiset.range n).map (Equiv.swap i j) = Multiset.range n := by
    refine (Multiset.Nodup.ext ?_ (Multiset.nodup_range n)).mpr fun k => ?_
    · exact (Multiset.nodup_range n).map (Equiv.swap i j).injective
    · have hswap : ∀ k, k < n → Equiv.swap i j k < n := fun k hk => by
        rw [Equiv.swap_apply_def]
        split
        · exact hj
        · split
          · exact hi
          · exact hk
      rw [Multiset.mem_map, Multiset.mem_range]
      constructor
      · rintro ⟨k', hk', rfl⟩
        exact hswap k' (Multiset.mem_range.mp hk')
      · intro hk
        exact ⟨Equiv.swap i j k, Multiset.mem_range.mpr (hswap k hk), Equiv.swap_apply_self i j k⟩
  rw [contents, exchange, ← Multiset.map_map, hrange]
  rfl

/-! ## Order -/

variable {le : α → α → Prop}

def Ordered (le : α → α → Prop) (n : ℕ) (f : ℕ → α) : Prop :=
  ∀ k, 0 < k → k < n → le (f (parent k)) (f k)

/-- Only the edge into `i` may be out of order, and what is below `i` fits under its parent. -/
structure UpReady (le : α → α → Prop) (n : ℕ) (f : ℕ → α) (i : ℕ) : Prop where
  others : ∀ k, 0 < k → k < n → k ≠ i → le (f (parent k)) (f k)
  below : ∀ k, 0 < k → k < n → parent k = i → 0 < i → le (f (parent i)) (f k)

/-- Only the edges out of `i` may be out of order, and what is below `i` fits under its parent. -/
structure DownReady (le : α → α → Prop) (n : ℕ) (f : ℕ → α) (i : ℕ) : Prop where
  others : ∀ k, 0 < k → k < n → parent k ≠ i → le (f (parent k)) (f k)
  below : ∀ k, 0 < k → k < n → parent k = i → 0 < i → le (f (parent i)) (f k)

theorem UpReady.stop (h : UpReady le n f i) (hi : 0 < i → le (f (parent i)) (f i)) :
    Ordered le n f := by
  intro k hk hkn
  by_cases hki : k = i
  · subst hki
    exact hi hk
  · exact h.others k hk hkn hki

theorem DownReady.stop (h : DownReady le n f i)
    (hi : ∀ k, 0 < k → k < n → parent k = i → le (f i) (f k)) : Ordered le n f := by
  intro k hk hkn
  by_cases hki : parent k = i
  · rw [hki]
    exact hi k hk hkn hki
  · exact h.others k hk hkn hki

theorem Ordered.root (h : Ordered le n f) (hi : i < n) (hrefl : ∀ a, le a a)
    (htrans : ∀ {a b c}, le a b → le b c → le a c) : le (f 0) (f i) := by
  induction i using Nat.strong_induction_on with
  | _ i ih =>
    rcases Nat.eq_zero_or_pos i with rfl | hpos
    · exact hrefl _
    · have hlt := parent_lt hpos
      exact htrans (ih (parent i) hlt (hlt.trans hi)) (h i hpos hi)

/-- What is smaller than its parent goes up. -/
theorem UpReady.exchange (h : UpReady le n f i) (hpos : 0 < i) (hi : i < n)
    (hle : le (f i) (f (parent i))) (htrans : ∀ {a b c}, le a b → le b c → le a c) :
    UpReady le n (HeapOrder.exchange f i (parent i)) (parent i) where
  others k hk hkn hkp := by
    have hpi := parent_lt hpos
    by_cases hki : k = i
    · subst hki
      rw [exchange_left, exchange_right]
      exact hle
    · rw [exchange_other hki hkp]
      by_cases hparent : parent k = i
      · rw [hparent, exchange_left]
        exact h.below k hk hkn hparent hpos
      · by_cases hsibling : parent k = parent i
        · rw [hsibling, exchange_right]
          exact htrans hle (hsibling ▸ h.others k hk hkn hki)
        · rw [exchange_other hparent hsibling]
          exact h.others k hk hkn hki
  below k hk hkn hparent hppos := by
    have hpi := parent_lt hpos
    have hgrand := parent_lt hppos
    have habove := h.others (parent i) hppos (hpi.trans hi) (by omega)
    rw [exchange_other (by omega) (by omega)]
    by_cases hki : k = i
    · subst hki
      rw [exchange_left]
      exact habove
    · have hkp := lt_of_parent hk hparent
      rw [exchange_other hki (by omega)]
      exact htrans habove (hparent ▸ h.others k hk hkn hki)

/-- What is larger than a child goes down to the smallest one. -/
theorem DownReady.exchange {b : ℕ} (h : DownReady le n f i) (hb : 0 < b) (hbn : b < n)
    (hparent : parent b = i) (hleast : ∀ k, 0 < k → k < n → parent k = i → le (f b) (f k))
    (hle : le (f b) (f i)) : DownReady le n (HeapOrder.exchange f i b) b where
  others k hk hkn hkb := by
    have hib := lt_of_parent hb hparent
    by_cases hki : k = i
    · -- the edge into the place that goes down
      subst hki
      have hpk := parent_lt hk
      rw [exchange_left, exchange_other (by omega) (by omega)]
      exact h.below b hb hbn hparent hk
    · by_cases hkeq : k = b
      · subst hkeq
        rw [hparent, exchange_left, exchange_right]
        exact hle
      · rw [exchange_other hki hkeq]
        by_cases hkp : parent k = i
        · rw [hkp, exchange_left]
          exact hleast k hk hkn hkp
        · rw [exchange_other hkp hkb]
          exact h.others k hk hkn hkp
  below k hk hkn hkb _ := by
    have hib := lt_of_parent hb hparent
    have hbk := lt_of_parent hk hkb
    rw [hparent, exchange_left, exchange_other (by omega) (by omega)]
    exact hkb ▸ h.others k hk hkn (by omega)

end HeapOrder

end Absolute
