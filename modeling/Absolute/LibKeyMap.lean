import Mathlib.Data.Finset.Basic
import Mathlib.Tactic.Common

/-!
# Maps over keys up to an equality test

What a map with a caller's equality means: a value for each class of keys the
test identifies. A `KeyMap` carries that it does not tell equal keys apart, so
a map that does cannot be built.
-/

namespace Absolute

/-- The test `eqv` is an equivalence relation. -/
structure IsEqvTest {K : Type*} (eqv : K → K → Bool) : Prop where
  refl : ∀ k, eqv k k = true
  symm : ∀ {a b}, eqv a b = true → eqv b a = true
  trans : ∀ {a b c}, eqv a b = true → eqv b c = true → eqv a c = true

theorem IsEqvTest.congr {K : Type*} {eqv : K → K → Bool} (h : IsEqvTest eqv) {a b : K}
    (hab : eqv a b = true) (k : K) : eqv k a = eqv k b := by
  rw [Bool.eq_iff_iff]
  exact ⟨fun hk => h.trans hk hab, fun hk => h.trans hk (h.symm hab)⟩

/-- A finite or infinite map on the classes of `eqv`. -/
@[ext]
structure KeyMap {K : Type*} (eqv : K → K → Bool) (V : Type*) where
  lookup : K → Option V
  congr : ∀ {a b}, eqv a b = true → lookup a = lookup b

namespace KeyMap

variable {K V : Type*} {eqv : K → K → Bool}

def empty : KeyMap eqv V := ⟨fun _ => none, fun _ => rfl⟩

def put (h : IsEqvTest eqv) (m : KeyMap eqv V) (k : K) (v : V) : KeyMap eqv V where
  lookup k' := if eqv k k' then some v else m.lookup k'
  congr hab := by rw [h.congr hab, m.congr hab]

def erase (h : IsEqvTest eqv) (m : KeyMap eqv V) (k : K) : KeyMap eqv V where
  lookup k' := if eqv k k' then none else m.lookup k'
  congr hab := by rw [h.congr hab, m.congr hab]

@[simp] theorem lookup_empty (k : K) : (empty : KeyMap eqv V).lookup k = none := rfl

theorem lookup_put_self (h : IsEqvTest eqv) (m : KeyMap eqv V) (k : K) (v : V) :
    (m.put h k v).lookup k = some v := if_pos (h.refl k)

/-- The live pairs `pairs` hold the map: each stands for its key's class. -/
def HeldBy (m : KeyMap eqv V) (pairs : K → V → Prop) : Prop :=
  ∀ k v, m.lookup k = some v ↔ ∃ k', pairs k' v ∧ eqv k' k = true

theorem HeldBy.congr {m : KeyMap eqv V} {pairs pairs' : K → V → Prop}
    (h : m.HeldBy pairs) (heq : ∀ k v, pairs' k v ↔ pairs k v) : m.HeldBy pairs' :=
  fun k v => by simp only [heq, h k v]

theorem HeldBy.lookup_isNone {m : KeyMap eqv V} {pairs : K → V → Prop}
    (h : m.HeldBy pairs) {k : K} (hno : ∀ k' v, pairs k' v → eqv k' k = false) :
    m.lookup k = none := by
  rw [Option.eq_none_iff_forall_ne_some]
  intro v hv
  obtain ⟨k', hp, heq⟩ := (h k v).mp hv
  rw [hno k' v hp] at heq
  cases heq

theorem heldBy_empty : (empty : KeyMap eqv V).HeldBy fun _ _ => False :=
  fun k v => by simp

/-- A pair for a key that was absent. -/
theorem HeldBy.insert (h : IsEqvTest eqv) {m : KeyMap eqv V} {pairs pairs' : K → V → Prop}
    (hm : m.HeldBy pairs) {k : K} {v : V} (hno : ∀ k' w, pairs k' w → eqv k' k = false)
    (hpairs : ∀ k' w, pairs' k' w ↔ pairs k' w ∨ k' = k ∧ w = v) :
    (m.put h k v).HeldBy pairs' := by
  intro k₁ w
  simp only [put, hpairs]
  constructor
  · split
    · rename_i hk
      rintro ⟨⟩
      exact ⟨k, .inr ⟨rfl, rfl⟩, hk⟩
    · intro hw
      obtain ⟨k', hp, heq⟩ := (hm k₁ w).mp hw
      exact ⟨k', .inl hp, heq⟩
  · rintro ⟨k', hp | ⟨rfl, rfl⟩, heq⟩
    · rw [if_neg, (hm k₁ w).mpr ⟨k', hp, heq⟩]
      intro hk
      have := hno k' w hp
      rw [h.trans heq (h.symm hk)] at this
      cases this
    · rw [if_pos heq]

/-- A new value for a key that stands for an equal one. -/
theorem HeldBy.replace (h : IsEqvTest eqv) {m : KeyMap eqv V}
    {pairs pairs' : K → V → Prop} (hm : m.HeldBy pairs) {k k₀ : K} {v : V}
    (heq₀ : eqv k₀ k = true)
    (hpairs : ∀ k' w, pairs' k' w ↔ (pairs k' w ∧ eqv k' k = false) ∨ k' = k₀ ∧ w = v) :
    (m.put h k v).HeldBy pairs' := by
  intro k₁ w
  simp only [put, hpairs]
  constructor
  · split
    · rename_i hk
      rintro ⟨⟩
      exact ⟨k₀, .inr ⟨rfl, rfl⟩, h.trans heq₀ hk⟩
    · rename_i hk
      intro hw
      obtain ⟨k', hp, heq⟩ := (hm k₁ w).mp hw
      refine ⟨k', .inl ⟨hp, Bool.eq_false_iff.mpr fun hk' => hk ?_⟩, heq⟩
      exact h.trans (h.symm hk') heq
  · rintro ⟨k', ⟨hp, hne⟩ | ⟨rfl, rfl⟩, heq⟩
    · rw [if_neg, (hm k₁ w).mpr ⟨k', hp, heq⟩]
      intro hk
      rw [h.trans heq (h.symm hk)] at hne
      cases hne
    · rw [if_pos (h.trans (h.symm heq₀) heq)]

theorem HeldBy.remove (h : IsEqvTest eqv) {m : KeyMap eqv V}
    {pairs pairs' : K → V → Prop} (hm : m.HeldBy pairs) {k : K}
    (hpairs : ∀ k' w, pairs' k' w ↔ pairs k' w ∧ eqv k' k = false) :
    (m.erase h k).HeldBy pairs' := by
  intro k₁ w
  simp only [erase, hpairs]
  constructor
  · split
    · nofun
    · rename_i hk
      intro hw
      obtain ⟨k', hp, heq⟩ := (hm k₁ w).mp hw
      refine ⟨k', ⟨hp, Bool.eq_false_iff.mpr fun hk' => hk ?_⟩, heq⟩
      exact h.trans (h.symm hk') heq
  · rintro ⟨k', ⟨hp, hne⟩, heq⟩
    rw [if_neg, (hm k₁ w).mpr ⟨k', hp, heq⟩]
    intro hk
    rw [h.trans heq (h.symm hk)] at hne
    cases hne

end KeyMap

/-! ## Maps to nothing are sets of classes -/

namespace IsEqvTest

variable {K : Type*} {eqv : K → K → Bool}

def setoid (h : IsEqvTest eqv) : Setoid K where
  r a b := eqv a b = true
  iseqv := ⟨h.refl, h.symm, h.trans⟩

/-- What the test does not tell apart. -/
def Class (h : IsEqvTest eqv) : Type _ := Quotient h.setoid

def classOf (h : IsEqvTest eqv) (k : K) : h.Class := Quotient.mk h.setoid k

theorem classOf_eq_iff (h : IsEqvTest eqv) {a b : K} :
    h.classOf a = h.classOf b ↔ eqv a b = true := by
  rw [classOf, classOf]
  exact Quotient.eq

theorem exists_classOf (h : IsEqvTest eqv) (c : h.Class) : ∃ k, h.classOf k = c :=
  Quotient.exists_rep c

noncomputable instance (h : IsEqvTest eqv) : DecidableEq h.Class := Classical.decEq _

end IsEqvTest

namespace KeyMap

variable {K V : Type*} {eqv : K → K → Bool}

noncomputable def ofClasses (h : IsEqvTest eqv) (S : Finset h.Class) : KeyMap eqv Unit where
  lookup k := if h.classOf k ∈ S then some () else none
  congr hab := by rw [h.classOf_eq_iff.mpr hab]

variable (h : IsEqvTest eqv) {S : Finset h.Class}

theorem isSome_ofClasses {k : K} :
    ((ofClasses h S).lookup k).isSome = decide (h.classOf k ∈ S) := by
  by_cases hk : h.classOf k ∈ S <;> simp [ofClasses, hk]

theorem isNone_ofClasses {k : K} :
    ((ofClasses h S).lookup k).isNone = decide (h.classOf k ∉ S) := by
  by_cases hk : h.classOf k ∈ S <;> simp [ofClasses, hk]

theorem lookup_ofClasses_eq_some {k : K} {u : Unit} :
    (ofClasses h S).lookup k = some u ↔ h.classOf k ∈ S := by
  by_cases hk : h.classOf k ∈ S <;> simp [ofClasses, hk]

theorem ofClasses_empty : ofClasses h ∅ = empty :=
  KeyMap.ext (funext fun k => by simp [ofClasses])

theorem put_ofClasses (k : K) :
    (ofClasses h S).put h k () = ofClasses h (insert (h.classOf k) S) := by
  refine KeyMap.ext (funext fun k' => ?_)
  have hclass : h.classOf k' = h.classOf k ↔ eqv k k' = true :=
    eq_comm.trans h.classOf_eq_iff
  simp only [put, ofClasses, Finset.mem_insert, hclass]
  by_cases heq : eqv k k' = true <;> simp [heq]

/-- A key that is there is not put again. -/
theorem put_ofClasses_of_absent (k : K) :
    (if ((ofClasses h S).lookup k).isSome then ofClasses h S else (ofClasses h S).put h k ())
      = ofClasses h (insert (h.classOf k) S) := by
  rw [isSome_ofClasses, put_ofClasses]
  by_cases hk : h.classOf k ∈ S <;> simp [hk]

theorem erase_ofClasses (k : K) :
    (ofClasses h S).erase h k = ofClasses h (S.erase (h.classOf k)) := by
  refine KeyMap.ext (funext fun k' => ?_)
  have hclass : h.classOf k' = h.classOf k ↔ eqv k k' = true :=
    eq_comm.trans h.classOf_eq_iff
  simp only [erase, ofClasses, Finset.mem_erase, ne_eq, hclass]
  by_cases heq : eqv k k' = true <;> simp [heq]

end KeyMap

end Absolute
