import Mathlib.Algebra.Order.Ring.Nat
import Mathlib.Data.List.Basic
import Mathlib.Data.List.ProdSigma
import Mathlib.Tactic.Common

/-!
# Bytes in memory and loops that count up

The contents of a memory give every address its byte. What is stored is loaded again, and
a load elsewhere does not see the store; a run of copies between places that are
`Apart` therefore leaves every target with what its source held (`load_copyEach`).

`countUp` is the loop a counter runs through from a start below an end under signed
comparison; it comes to a fold over how far the counter has got (`countUp_eq_foldl`).
-/

namespace Absolute

namespace Bytes

abbrev Contents := BitVec 64 → BitVec 8

def load (contents : Contents) (address : BitVec 64) (size : Nat) : List (BitVec 8) :=
  (List.range size).map fun k => contents (address + BitVec.ofNat 64 k)

def store (contents : Contents) (address : BitVec 64) (bytes : List (BitVec 8)) : Contents :=
  fun place => (bytes[(place - address).toNat]?).getD (contents place)

@[simp] theorem length_load (contents : Contents) (address : BitVec 64) (size : Nat) :
    (load contents address size).length = size := by
  rw [load, List.length_map, List.length_range]

/-- Objects of some bytes that are equal start with the same one. -/
theorem first_eq_of_load_eq {contents contents' : Contents} {a b : BitVec 64} {size : Nat}
    (hsize : 0 < size) (h : load contents a size = load contents' b size) :
    contents a = contents' b := by
  obtain ⟨n, rfl⟩ : ∃ n, size = n + 1 := ⟨size - 1, by omega⟩
  rw [load, load, List.range_succ_eq_map, List.map_cons, List.map_cons] at h
  have hfirst := (List.cons.inj h).1
  rwa [BitVec.add_zero, BitVec.add_zero] at hfirst

/-- Objects of so many bytes that have none in common. -/
def Apart (size : Nat) (a b : BitVec 64) : Prop :=
  ∀ i < size, ∀ j < size, a + BitVec.ofNat 64 i ≠ b + BitVec.ofNat 64 j

theorem Apart.symm {size : Nat} {a b : BitVec 64} (h : Apart size a b) : Apart size b a :=
  fun i hi j hj heq => h j hj i hi heq.symm

/-- One ends before the other starts. -/
theorem apart_of_le {size : Nat} {a b : BitVec 64} (h : a.toNat + size ≤ b.toNat)
    (hb : b.toNat + size ≤ 2 ^ 64) : Apart size a b := by
  intro i hi j hj heq
  have hnat := congrArg BitVec.toNat heq
  rw [BitVec.toNat_add, BitVec.toNat_add, BitVec.toNat_ofNat, BitVec.toNat_ofNat] at hnat
  omega

theorem load_store_same {contents : Contents} {address : BitVec 64} {bytes : List (BitVec 8)}
    (h : bytes.length ≤ 2 ^ 64) :
    load (store contents address bytes) address bytes.length = bytes := by
  refine List.ext_getElem (length_load _ _ _) fun k hk hk' => ?_
  have hplace : (address + BitVec.ofNat 64 k - address).toNat = k := by
    rw [BitVec.add_comm, BitVec.add_sub_cancel, BitVec.toNat_ofNat]
    exact Nat.mod_eq_of_lt (by omega)
  simp only [load, List.getElem_map, List.getElem_range, store, hplace,
    List.getElem?_eq_getElem hk', Option.getD_some]

theorem load_store_apart {contents : Contents} {a b : BitVec 64} {bytes : List (BitVec 8)}
    (h : Apart bytes.length a b) :
    load (store contents a bytes) b bytes.length = load contents b bytes.length := by
  refine List.map_congr_left fun j hj => ?_
  have hout : bytes.length ≤ (b + BitVec.ofNat 64 j - a).toNat := by
    by_contra hin
    refine h _ (Nat.lt_of_not_le hin) j (List.mem_range.mp hj) ?_
    rw [BitVec.ofNat_toNat, BitVec.setWidth_eq, BitVec.add_comm, BitVec.sub_add_cancel]
  rw [store, List.getElem?_eq_none hout, Option.getD_none]

/-! ## Copies -/

section Copies

variable {ι : Type*} {size : Nat} {target source : ι → BitVec 64}

/-- One object after the other, from its source to its target. -/
def copyEach (size : Nat) (target source : ι → BitVec 64) (contents : Contents) (items : List ι) :
    Contents :=
  items.foldl (fun contents p => store contents (target p) (load contents (source p) size)) contents

theorem load_store_load {contents : Contents} {a b : BitVec 64} (h : size ≤ 2 ^ 64) :
    load (store contents a (load contents b size)) a size = load contents b size := by
  have hsame := @load_store_same contents a (load contents b size)
  rw [length_load] at hsame
  exact hsame h

theorem load_store_load_apart {contents : Contents} {a b c : BitVec 64} (h : Apart size a c) :
    load (store contents a (load contents b size)) c size = load contents c size := by
  have hother := @load_store_apart contents a c (load contents b size)
  rw [length_load] at hother
  exact hother h

/-- Away from every target nothing changes. -/
theorem load_copyEach_apart {contents : Contents} {items : List ι} {place : BitVec 64}
    (h : ∀ p ∈ items, Apart size (target p) place) :
    load (copyEach size target source contents items) place size = load contents place size := by
  induction items generalizing contents with
  | nil => rfl
  | cons p items ih =>
    have hrest := @ih (store contents (target p) (load contents (source p) size))
      fun q hq => h q (List.mem_cons_of_mem _ hq)
    exact hrest.trans (load_store_load_apart (h p List.mem_cons_self))

/-- Every target holds what its source held. -/
theorem load_copyEach {contents : Contents} {items : List ι} (hsize : size ≤ 2 ^ 64)
    (hnodup : items.Nodup)
    (htargets : ∀ p ∈ items, ∀ q ∈ items, p ≠ q → Apart size (target p) (target q))
    (hsources : ∀ p ∈ items, ∀ q ∈ items, Apart size (target p) (source q)) :
    ∀ p ∈ items, load (copyEach size target source contents items) (target p) size =
      load contents (source p) size := by
  induction items generalizing contents with
  | nil => simp
  | cons p items ih =>
    rw [List.nodup_cons] at hnodup
    have hmem : ∀ {q}, q ∈ items → q ∈ p :: items := List.mem_cons_of_mem _
    intro q hq
    rcases List.mem_cons.mp hq with rfl | hq
    · have hlater : ∀ r ∈ items, Apart size (target r) (target q) := fun r hr =>
        htargets r (hmem hr) q List.mem_cons_self (fun heq => hnodup.1 (heq ▸ hr))
      exact (load_copyEach_apart hlater).trans (load_store_load hsize)
    · have hrest := @ih (store contents (target p) (load contents (source p) size)) hnodup.2
        (fun a ha b hb => htargets a (hmem ha) b (hmem hb))
        (fun a ha b hb => hsources a (hmem ha) b (hmem hb)) q hq
      exact hrest.trans (load_store_load_apart (hsources p List.mem_cons_self q (hmem hq)))

end Copies

/-! ## Counting up -/

section Loop

variable {σ : Type*}

theorem toInt_succ {i hi : BitVec 64} (h : i.toInt < hi.toInt) : (i + 1).toInt = i.toInt + 1 := by
  have hlt : hi.toInt < 2 ^ 63 := BitVec.toInt_lt
  have hlo := BitVec.le_toInt i
  rw [BitVec.toInt_add]
  have hone : (1 : BitVec 64).toInt = 1 := rfl
  rw [hone, Int.bmod_eq_of_le] <;> omega

/-- `for (i; i < hi; ++i)`. -/
def countUp (hi : BitVec 64) (body : BitVec 64 → σ → σ) (i : BitVec 64) (s : σ) : σ :=
  if h : i.toInt < hi.toInt then countUp hi body (i + 1) (body i s) else s
termination_by (hi.toInt - i.toInt).toNat
decreasing_by
  rw [toInt_succ h]
  omega

theorem countUp_eq_foldl {body : BitVec 64 → σ → σ} {i hi : BitVec 64} {n : Nat}
    (h : hi.toInt = i.toInt + n) (s : σ) :
    countUp hi body i s =
      (List.range n).foldl (fun s k => body (i + BitVec.ofNat 64 k) s) s := by
  induction n generalizing i s with
  | zero =>
    rw [countUp, dif_neg (by omega)]
    rfl
  | succ n ih =>
    have hlt : i.toInt < hi.toInt := by omega
    rw [countUp, dif_pos hlt, ih (by rw [toInt_succ hlt]; omega), List.range_succ_eq_map,
      List.foldl_cons, List.foldl_map]
    have hzero : i + BitVec.ofNat 64 0 = i := BitVec.add_zero i
    have hstep : ∀ k, i + 1 + BitVec.ofNat 64 k = i + BitVec.ofNat 64 (k + 1) := by
      intro k
      rw [BitVec.ofNat_add, BitVec.add_assoc, BitVec.add_comm 1]
      rfl
    simp only [hzero, hstep, Nat.succ_eq_add_one]

/-- A loop in a loop goes through the pairs. -/
theorem foldl_product {α β : Type*} (f : σ → α × β → σ) (as : List α) (bs : List β) (s : σ) :
    as.foldl (fun s a => bs.foldl (fun s b => f s (a, b)) s) s = (as ×ˢ bs).foldl f s := by
  induction as generalizing s with
  | nil => rfl
  | cons a as ih => rw [List.foldl_cons, ih, List.product_cons, List.foldl_append, List.foldl_map]

end Loop

end Bytes

end Absolute
