import Mathlib.Data.List.Nodup
import Mathlib.Data.List.Perm.Basic

/-!
# Slots that are found by a key

A table of slots, each of them free or holding an entry, of which no two hold entries of one key
(`Distinct`). The table is searched from the front. What a search finds is a map from keys to
entries (`lookup`), and the lemmas say what filling, changing and freeing one slot does to it.
-/

namespace KeyedSlots

variable {α κ : Type*} [DecidableEq κ] {key : α → κ} {slots : List (Option α)}

def Distinct (key : α → κ) (slots : List (Option α)) : Prop :=
  ∀ ⦃i j : ℕ⦄ ⦃a b : α⦄, slots[i]? = some (some a) → slots[j]? = some (some b) →
    key a = key b → i = j

/-- The first slot with an entry of the key. -/
def find (key : α → κ) (slots : List (Option α)) (k : κ) : Option ℕ :=
  slots.findIdx? fun s => s.any fun a => key a = k

/-- The entry of a slot. -/
def entry (slots : List (Option α)) (i : ℕ) : Option α := (slots[i]?).join

def lookup (key : α → κ) (slots : List (Option α)) (k : κ) : Option α :=
  (find key slots k).bind (entry slots)

/-- The first free slot. -/
def free (slots : List (Option α)) : Option ℕ := slots.findIdx? Option.isNone

theorem entry_eq_some {i : ℕ} {a : α} : entry slots i = some a ↔ slots[i]? = some (some a) := by
  rw [entry]
  rcases slots[i]? with - | - | b <;> simp

/-! ## Searching -/

theorem find_eq_none {k : κ} :
    find key slots k = none ↔ ∀ (i : ℕ) (a : α), slots[i]? = some (some a) → key a ≠ k := by
  rw [find, List.findIdx?_eq_none_iff]
  constructor
  · intro h i a hi hk
    have hfalse := h (some a) (List.mem_of_getElem? hi)
    simp [hk] at hfalse
  · intro h s hs
    obtain ⟨i, hi⟩ := List.getElem?_of_mem hs
    rcases s with - | a
    · rfl
    · simpa using h i a hi

theorem exists_of_find {k : κ} {i : ℕ} (h : find key slots k = some i) :
    ∃ a, slots[i]? = some (some a) ∧ key a = k := by
  obtain ⟨hi, hhere, -⟩ := List.findIdx?_eq_some_iff_getElem.mp h
  rcases ha : slots[i] with - | a
  · rw [ha] at hhere
    cases hhere
  · rw [ha] at hhere
    exact ⟨a, by rw [List.getElem?_eq_getElem hi, ha], of_decide_eq_true hhere⟩

theorem find_eq_some (h : Distinct key slots) {k : κ} {i : ℕ} :
    find key slots k = some i ↔ ∃ a, slots[i]? = some (some a) ∧ key a = k := by
  refine ⟨exists_of_find, ?_⟩
  rintro ⟨a, hi, hk⟩
  cases hfind : find key slots k with
  | none => exact absurd hk (find_eq_none.mp hfind i a hi)
  | some j =>
    obtain ⟨b, hj, hb⟩ := exists_of_find hfind
    rw [h hj hi (hb.trans hk.symm)]

theorem lookup_eq_some (h : Distinct key slots) {k : κ} {a : α} :
    lookup key slots k = some a ↔ key a = k ∧ ∃ i : ℕ, slots[i]? = some (some a) := by
  rw [lookup, Option.bind_eq_some_iff]
  constructor
  · rintro ⟨i, hfind, hentry⟩
    obtain ⟨b, hi, hk⟩ := exists_of_find hfind
    rw [entry_eq_some, hi] at hentry
    obtain rfl := Option.some.inj (Option.some.inj hentry)
    exact ⟨hk, i, hi⟩
  · rintro ⟨hk, i, hi⟩
    exact ⟨i, (find_eq_some h).mpr ⟨a, hi, hk⟩, entry_eq_some.mpr hi⟩

theorem lookup_eq_none {k : κ} : lookup key slots k = none ↔ find key slots k = none := by
  rw [lookup]
  cases hfind : find key slots k with
  | none => exact ⟨fun _ => rfl, fun _ => rfl⟩
  | some i =>
    obtain ⟨a, hi, -⟩ := exists_of_find hfind
    rw [Option.bind_some, entry_eq_some.mpr hi]
    constructor <;> intro h <;> cases h

theorem lookup_of_find {k : κ} {i : ℕ} {a : α} (h : find key slots k = some i)
    (hi : slots[i]? = some (some a)) : lookup key slots k = some a := by
  rw [lookup, h, Option.bind_some, entry_eq_some.mpr hi]

/-! ## Changing a slot -/

omit [DecidableEq κ] in
theorem Distinct.set_some (h : Distinct key slots) {i : ℕ} {a : α}
    (hnew : ∀ (j : ℕ) (b : α), slots[j]? = some (some b) → key b = key a → j = i) :
    Distinct key (slots.set i (some a)) := by
  intro j j' b b' hb hb' hk
  rw [List.getElem?_set] at hb hb'
  by_cases hj : i = j
  · by_cases hj' : i = j'
    · exact hj.symm.trans hj'
    · rw [if_neg hj'] at hb'
      rw [if_pos hj] at hb
      split_ifs at hb
      obtain rfl := Option.some.inj (Option.some.inj hb)
      exact hj.symm.trans (hnew j' b' hb' hk.symm).symm
  · rw [if_neg hj] at hb
    by_cases hj' : i = j'
    · rw [if_pos hj'] at hb'
      split_ifs at hb'
      obtain rfl := Option.some.inj (Option.some.inj hb')
      exact (hnew j b hb hk).trans hj'
    · rw [if_neg hj'] at hb'
      exact h hb hb' hk

omit [DecidableEq κ] in
theorem Distinct.set_none (h : Distinct key slots) (i : ℕ) :
    Distinct key (slots.set i none) := by
  intro j j' b b' hb hb' hk
  rw [List.getElem?_set] at hb hb'
  by_cases hj : i = j
  · rw [if_pos hj] at hb
    split_ifs at hb
    cases hb
  · by_cases hj' : i = j'
    · rw [if_pos hj'] at hb'
      split_ifs at hb'
      cases hb'
    · rw [if_neg hj] at hb
      rw [if_neg hj'] at hb'
      exact h hb hb' hk

/-- An entry that is put into a slot is found under its key, and what was there is not found under
another. -/
theorem lookup_set_some (h : Distinct key slots) {i : ℕ} {s : Option α} {a : α}
    (hi : slots[i]? = some s)
    (hnew : ∀ (j : ℕ) (b : α), slots[j]? = some (some b) → key b = key a → j = i) (k : κ) :
    lookup key (slots.set i (some a)) k =
      if k = key a then some a
      else if s.any (fun b => key b = k) then none
      else lookup key slots k := by
  have hlt := (List.getElem?_eq_some_iff.mp hi).1
  have hset := h.set_some hnew
  split_ifs with hk hold
  · subst hk
    exact (lookup_eq_some hset).mpr ⟨rfl, i, List.getElem?_set_self hlt⟩
  · obtain ⟨b, hb, hkey⟩ := Option.any_eq_true _ _ |>.mp hold
    subst hb
    rw [lookup_eq_none, find_eq_none]
    intro j c hj hc
    rw [List.getElem?_set] at hj
    split_ifs at hj with hij
    · obtain rfl := Option.some.inj (Option.some.inj hj)
      exact hk hc.symm
    · exact hij (h hi hj ((of_decide_eq_true hkey).trans hc.symm))
  · refine Option.ext fun c => ?_
    rw [lookup_eq_some hset, lookup_eq_some h]
    refine and_congr_right fun hc => ?_
    constructor
    · rintro ⟨j, hj⟩
      rw [List.getElem?_set] at hj
      split_ifs at hj with hij
      · obtain rfl := Option.some.inj (Option.some.inj hj)
        exact absurd hc.symm hk
      · exact ⟨j, hj⟩
    · rintro ⟨j, hj⟩
      refine ⟨j, ?_⟩
      rw [List.getElem?_set, if_neg]
      · exact hj
      · rintro rfl
        rw [hi] at hj
        obtain rfl := Option.some.inj hj
        exact hold (by simp [hc])

/-- A slot that is freed takes its entry from the map. -/
theorem lookup_set_none (h : Distinct key slots) {i : ℕ} {a : α}
    (hi : slots[i]? = some (some a)) (k : κ) :
    lookup key (slots.set i none) k = if k = key a then none else lookup key slots k := by
  have hset := h.set_none i
  split_ifs with hk
  · subst hk
    rw [lookup_eq_none, find_eq_none]
    intro j b hj hb
    rw [List.getElem?_set] at hj
    split_ifs at hj with hij
    · cases hj
    · exact hij (h hi hj hb.symm)
  · refine Option.ext fun c => ?_
    rw [lookup_eq_some hset, lookup_eq_some h]
    refine and_congr_right fun hc => ?_
    constructor
    · rintro ⟨j, hj⟩
      rw [List.getElem?_set] at hj
      split_ifs at hj
      · cases hj
      · exact ⟨j, hj⟩
    · rintro ⟨j, hj⟩
      refine ⟨j, ?_⟩
      rw [List.getElem?_set, if_neg]
      · exact hj
      · rintro rfl
        rw [hi] at hj
        obtain rfl := Option.some.inj (Option.some.inj hj)
        exact hk hc.symm

/-! ## Free slots -/

omit [DecidableEq κ] in
theorem free_eq_some {i : ℕ} (h : free slots = some i) : slots[i]? = some none := by
  obtain ⟨hi, hhere, -⟩ := List.findIdx?_eq_some_iff_getElem.mp h
  rw [List.getElem?_eq_getElem hi, Option.isNone_iff_eq_none.mp hhere]

omit [DecidableEq κ] in
theorem nodup_keys (h : Distinct key slots) : ((slots.filterMap id).map key).Nodup := by
  induction slots with
  | nil => exact List.nodup_nil
  | cons s slots ih =>
    have htail : Distinct key slots := fun i j a b hi hj hk =>
      Nat.succ.inj (h (i := i + 1) (j := j + 1) hi hj hk)
    rcases s with - | a
    · exact ih htail
    · rw [show (some a :: slots).filterMap id = a :: slots.filterMap id from rfl, List.map_cons,
        List.nodup_cons]
      refine ⟨fun hmem => ?_, ih htail⟩
      obtain ⟨b, hb, hk⟩ := List.mem_map.mp hmem
      obtain ⟨s, hs, hsb⟩ := List.mem_filterMap.mp hb
      obtain ⟨j, hj⟩ := List.getElem?_of_mem hs
      rw [id_eq] at hsb
      subst hsb
      exact Nat.succ_ne_zero j (h (i := j + 1) (j := 0) hj rfl hk)

/-- No slot is free when there are as many keys as slots. -/
theorem free_eq_none (h : Distinct key slots) {keys : List κ} (hnodup : keys.Nodup)
    (hkeys : ∀ k, k ∈ keys ↔ (lookup key slots k).isSome) :
    free slots = none ↔ keys.length = slots.length := by
  have hlength : keys.length = (slots.filterMap id).length := by
    rw [← List.length_map (f := key)]
    refine List.Perm.length_eq ((List.perm_ext_iff_of_nodup hnodup (nodup_keys h)).mpr fun k => ?_)
    rw [hkeys, Option.isSome_iff_exists, List.mem_map]
    constructor
    · rintro ⟨a, ha⟩
      obtain ⟨hk, i, hi⟩ := (lookup_eq_some h).mp ha
      exact ⟨a, List.mem_filterMap.mpr ⟨some a, List.mem_of_getElem? hi, rfl⟩, hk⟩
    · rintro ⟨a, ha, hk⟩
      obtain ⟨s, hs, hsa⟩ := List.mem_filterMap.mp ha
      obtain ⟨i, hi⟩ := List.getElem?_of_mem hs
      rw [id_eq] at hsa
      subst hsa
      exact ⟨a, (lookup_eq_some h).mpr ⟨hk, i, hi⟩⟩
  rw [hlength, free, List.findIdx?_eq_none_iff]
  clear hlength hkeys h
  induction slots with
  | nil => simp
  | cons s slots ih =>
    rcases s with - | a
    · have hle : ((none :: slots).filterMap id).length ≤ slots.length :=
        List.length_filterMap_le id slots
      rw [List.length_cons]
      constructor
      · intro h
        cases h none List.mem_cons_self
      · intro h
        omega
    · rw [show (some a :: slots).filterMap id = a :: slots.filterMap id from rfl, List.length_cons,
        List.length_cons, Nat.succ_inj, List.forall_mem_cons]
      exact (and_iff_right rfl).trans ih

end KeyedSlots
