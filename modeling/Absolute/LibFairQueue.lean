import Mathlib.Data.List.AList
import Mathlib.Data.Multiset.AddSub
import Mathlib.Algebra.BigOperators.Group.Multiset.Basic
import Mathlib.Algebra.GroupWithZero.Nat

/-!
# A fair queue

A queue of queues: a first-in first-out lane for every key, and the keys that
have one, taken in turns. `push` adds to a key's lane and gives the key a turn
if it had no lane; `pop` takes the first item of the key whose turn it is and
puts the key behind the others if it has more.

`WellFormed` says the turns and the lanes agree. A well-formed queue hands out
what was put in, each item once (`bag_push`, `pop_bag`), and always hands
something out while it holds anything (`pop_isSome`).
-/

namespace Absolute

structure FairQueue (κ α : Type*) [DecidableEq κ] where
  lanes : AList fun _ : κ => List α
  turns : List κ

namespace FairQueue

variable {κ α : Type*} [DecidableEq κ]

def empty : FairQueue κ α := ⟨∅, []⟩

def lane (q : FairQueue κ α) (k : κ) : List α := (q.lanes.lookup k).getD []

def push (q : FairQueue κ α) (k : κ) (a : α) : FairQueue κ α where
  lanes := q.lanes.insert k (q.lane k ++ [a])
  turns := if q.lane k = [] then q.turns ++ [k] else q.turns

/-- Nothing if no key has a turn, or the one that has it has no item. -/
def pop (q : FairQueue κ α) : Option (α × FairQueue κ α) :=
  match q.turns with
  | [] => none
  | k :: rest =>
      match q.lane k with
      | [] => none
      | a :: [] => some (a, ⟨q.lanes.erase k, rest⟩)
      | a :: lane => some (a, ⟨q.lanes.insert k lane, rest ++ [k]⟩)

/-- Every lane has items and its key one turn. -/
structure WellFormed (q : FairQueue κ α) : Prop where
  nonempty : ∀ {k l}, q.lanes.lookup k = some l → l ≠ []
  nodup : q.turns.Nodup
  mem_turns : ∀ k, k ∈ q.turns ↔ k ∈ q.lanes

theorem wellFormed_empty : (empty : FairQueue κ α).WellFormed where
  nonempty h := by cases h
  nodup := List.nodup_nil
  mem_turns k := by simp [empty]

theorem WellFormed.lane_eq_nil_iff {q : FairQueue κ α} (h : q.WellFormed) (k : κ) :
    q.lane k = [] ↔ k ∉ q.turns := by
  rw [h.mem_turns, ← AList.lookup_eq_none, lane]
  cases hl : q.lanes.lookup k with
  | none => simp
  | some l => simpa using h.nonempty hl

theorem WellFormed.mem_turns_iff {q : FairQueue κ α} (h : q.WellFormed) (k : κ) :
    k ∈ q.turns ↔ q.lane k ≠ [] := by
  rw [ne_eq, h.lane_eq_nil_iff, not_not]

theorem wellFormed_push {q : FairQueue κ α} (h : q.WellFormed) (k : κ) (a : α) :
    (q.push k a).WellFormed := by
  refine ⟨?_, ?_, fun k' => ?_⟩
  · intro k' l hl
    rw [push] at hl
    by_cases hk : k' = k
    · subst hk
      rw [AList.lookup_insert] at hl
      rw [← Option.some.inj hl]
      simp
    · rw [AList.lookup_insert_ne hk] at hl
      exact h.nonempty hl
  · rw [push]
    dsimp only
    split
    · rename_i hnil
      refine List.nodup_append.mpr ⟨h.nodup, List.nodup_singleton k, ?_⟩
      intro x hx y hy
      rw [List.mem_singleton] at hy
      rintro rfl
      exact (h.lane_eq_nil_iff k).mp hnil (hy ▸ hx)
    · exact h.nodup
  · rw [push, AList.mem_insert]
    dsimp only
    split
    · rw [List.mem_append, List.mem_singleton, h.mem_turns, or_comm]
    · rename_i hne
      rw [h.mem_turns]
      constructor
      · exact .inr
      · rintro (rfl | hk)
        · rw [← h.mem_turns]
          exact not_not.mp fun hk => hne ((h.lane_eq_nil_iff k').mpr hk)
        · exact hk

theorem WellFormed.pop {q q' : FairQueue κ α} {a : α} (h : q.WellFormed)
    (hpop : q.pop = some (a, q')) : q'.WellFormed := by
  rw [FairQueue.pop] at hpop
  cases ht : q.turns with
  | nil => rw [ht] at hpop; cases hpop
  | cons k rest =>
      have hnodup := h.nodup
      rw [ht, List.nodup_cons] at hnodup
      have hmem : ∀ k', k' ∈ rest ↔ k' ≠ k ∧ k' ∈ q.lanes := fun k' => by
        rw [← h.mem_turns, ht, List.mem_cons]
        constructor
        · exact fun hk' => ⟨fun heq => hnodup.1 (heq ▸ hk'), .inr hk'⟩
        · rintro ⟨hne, rfl | hk'⟩
          exacts [absurd rfl hne, hk']
      rw [ht] at hpop
      dsimp only at hpop
      split at hpop
      · cases hpop
      · obtain ⟨rfl, rfl⟩ := Prod.mk.inj (Option.some.inj hpop)
        refine ⟨fun {k' l} hl => ?_, hnodup.2, fun k' => ?_⟩
        · by_cases hk : k' = k
          · subst hk
            rw [AList.lookup_erase] at hl
            cases hl
          · rw [AList.lookup_erase_ne hk] at hl
            exact h.nonempty hl
        · rw [AList.mem_erase]
          exact hmem k'
      · rename_i lane hne _
        obtain ⟨rfl, rfl⟩ := Prod.mk.inj (Option.some.inj hpop)
        refine ⟨fun {k' l} hl => ?_, ?_, fun k' => ?_⟩
        · by_cases hk : k' = k
          · subst hk
            rw [AList.lookup_insert] at hl
            rw [← Option.some.inj hl]
            exact fun hnil => hne (hnil ▸ rfl)
          · rw [AList.lookup_insert_ne hk] at hl
            exact h.nonempty hl
        · exact List.nodup_append.mpr ⟨hnodup.2, List.nodup_singleton k, fun x hx y hy heq =>
            hnodup.1 (List.mem_singleton.mp hy ▸ heq ▸ hx)⟩
        · rw [AList.mem_insert, List.mem_append, List.mem_singleton, hmem]
          by_cases hk : k' = k <;> simp [hk]

/-! ## One lane -/

theorem lane_push (q : FairQueue κ α) (k k' : κ) (a : α) :
    (q.push k a).lane k' = if k' = k then q.lane k ++ [a] else q.lane k' := by
  rw [lane, push]
  by_cases h : k' = k
  · rw [if_pos h, h, AList.lookup_insert]
    rfl
  · rw [if_neg h, AList.lookup_insert_ne h]
    rfl

/-- The first item of one lane is gone. -/
theorem lane_pop {q q' : FairQueue κ α} {a : α} (hpop : q.pop = some (a, q')) :
    ∃ k, q.lane k = a :: q'.lane k ∧ ∀ k', k' ≠ k → q'.lane k' = q.lane k' := by
  rw [FairQueue.pop] at hpop
  cases ht : q.turns with
  | nil => rw [ht] at hpop; cases hpop
  | cons k rest =>
      rw [ht] at hpop
      dsimp only at hpop
      split at hpop
      · cases hpop
      · rename_i hlane
        obtain ⟨rfl, rfl⟩ := Prod.mk.inj (Option.some.inj hpop)
        refine ⟨k, ?_, fun k' hk' => ?_⟩
        · rw [hlane, lane, AList.lookup_erase]
          rfl
        · rw [lane, AList.lookup_erase_ne hk', lane]
      · rename_i hlane
        obtain ⟨rfl, rfl⟩ := Prod.mk.inj (Option.some.inj hpop)
        refine ⟨k, ?_, fun k' hk' => ?_⟩
        · rw [hlane, lane, AList.lookup_insert]
          rfl
        · rw [lane, AList.lookup_insert_ne hk', lane]

/-! ## What a queue holds -/

/-- The items of every lane. -/
def bag (lanes : AList fun _ : κ => List α) : Multiset α :=
  (lanes.entries.map fun e => (e.2 : Multiset α)).sum

def items (q : FairQueue κ α) : Multiset α := bag q.lanes

@[simp] theorem items_empty : (empty : FairQueue κ α).items = 0 := rfl

theorem bag_insert (lanes : AList fun _ : κ => List α) (k : κ) (l : List α) :
    bag (lanes.insert k l) = ↑l + bag (lanes.erase k) := rfl

theorem bag_erase {lanes : AList fun _ : κ => List α} {k : κ} {l : List α}
    (h : lanes.lookup k = some l) : bag lanes = ↑l + bag (lanes.erase k) := by
  have hmem : k ∈ lanes.entries.keys := by
    rw [← AList.mem_keys.trans (by rfl : k ∈ lanes.keys ↔ k ∈ lanes.entries.keys),
      ← AList.lookup_isSome, h]
    rfl
  obtain ⟨l', front, back, -, hsplit, herase⟩ := List.exists_of_kerase hmem
  have hl : l' = l := by
    have : (⟨k, l'⟩ : Sigma fun _ : κ => List α) ∈ lanes.entries := by
      rw [hsplit]
      simp
    exact Option.some.inj ((AList.mem_lookup_iff.mpr this).symm.trans h)
  subst hl
  have herase' : (lanes.erase k).entries = front ++ back := herase
  rw [bag, bag, herase', hsplit]
  simp [add_left_comm]

theorem lane_add_bag (q : FairQueue κ α) (k : κ) :
    q.items = ↑(q.lane k) + bag (q.lanes.erase k) := by
  rw [items, lane]
  cases hl : q.lanes.lookup k with
  | none =>
      have hk : k ∉ q.lanes := AList.lookup_eq_none.mp hl
      have : (q.lanes.erase k).entries = q.lanes.entries :=
        List.kerase_of_notMem_keys hk
      rw [bag, bag, this]
      simp
  | some l => exact bag_erase hl

theorem items_push (q : FairQueue κ α) (k : κ) (a : α) :
    (q.push k a).items = a ::ₘ q.items := by
  rw [lane_add_bag q k, items, push, bag_insert, ← Multiset.cons_add]
  congr 1
  exact Multiset.coe_eq_coe.mpr (List.perm_append_singleton a (q.lane k))

theorem items_pop {q q' : FairQueue κ α} {a : α} (hpop : q.pop = some (a, q')) :
    q.items = a ::ₘ q'.items := by
  rw [FairQueue.pop] at hpop
  cases ht : q.turns with
  | nil => rw [ht] at hpop; cases hpop
  | cons k rest =>
      rw [lane_add_bag q k]
      rw [ht] at hpop
      dsimp only at hpop
      split at hpop
      · cases hpop
      · rename_i hlane
        obtain ⟨rfl, rfl⟩ := Prod.mk.inj (Option.some.inj hpop)
        rw [hlane, ← Multiset.cons_coe, Multiset.cons_add]
        simp [items]
      · rename_i hlane
        obtain ⟨rfl, rfl⟩ := Prod.mk.inj (Option.some.inj hpop)
        rw [hlane, ← Multiset.cons_coe, Multiset.cons_add, items, bag_insert]

theorem card_items (q : FairQueue κ α) :
    q.items.card = (q.lanes.entries.map fun e => e.2.length).sum := by
  rw [items, bag]
  induction q.lanes.entries with
  | nil => rfl
  | cons e entries ih =>
      rw [List.map_cons, List.map_cons, List.sum_cons, List.sum_cons, Multiset.card_add, ih]
      rfl

theorem coe_lane_le (q : FairQueue κ α) (k : κ) : (q.lane k : Multiset α) ≤ q.items := by
  rw [lane_add_bag q k]
  exact Multiset.le_add_right _ _

/-- A well-formed queue that holds anything hands something out. -/
theorem WellFormed.pop_isSome {q : FairQueue κ α} (h : q.WellFormed) (hitems : q.items ≠ 0) :
    ∃ a q', q.pop = some (a, q') := by
  have hne : q.turns ≠ [] := fun ht => by
    refine hitems ?_
    have : q.lanes.entries = [] := List.eq_nil_iff_forall_not_mem.mpr fun e he => by
      have hk : e.1 ∈ q.turns := (h.mem_turns e.1).mpr (AList.mem_keys.mpr
        (List.mem_map.mpr ⟨e, he, rfl⟩))
      rw [ht] at hk
      cases hk
    rw [items, bag, this]
    rfl
  rw [FairQueue.pop]
  cases ht : q.turns with
  | nil => exact absurd ht hne
  | cons k rest =>
      have hlane : q.lane k ≠ [] := fun hnil =>
        (h.lane_eq_nil_iff k).mp hnil (by rw [ht]; exact List.mem_cons_self)
      dsimp only
      split
      · exact absurd ‹_› hlane
      · exact ⟨_, _, rfl⟩
      · exact ⟨_, _, rfl⟩

end FairQueue

end Absolute
