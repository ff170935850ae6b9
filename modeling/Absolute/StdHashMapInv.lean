import Mathlib.Data.List.Basic
import Mathlib.Data.Nat.Bitwise
import Absolute.LibProbing
import Absolute.LibKeyMap
import Absolute.StdHashMap

/-!
# The hash map holds a finite map

`Inv` is what every operation keeps: the counters count their slots, no two
live keys are equal, and no empty slot lies between a live key's bucket and its
slot. With the load bound a probe always ends at an empty slot, so the three
probe loops are the `lookup` and `freeSlot` of `Probing` and each operation
changes the live pairs the way the map operation does.

The headline is `hashMap_refines`: any sequence of calls on a fresh map goes
through and leaves a table that agrees with the map of the same sequence.
-/

namespace Absolute

namespace Collections

/-- The contract of the callbacks: equality is an equivalence, and equal keys
have equal hashes. -/
structure Callbacks.Lawful {K : Type} (cb : Callbacks K) : Prop where
  eqv : IsEqvTest cb.equals
  hash_eq : ∀ {a b}, cb.equals a b = true → cb.hash a = cb.hash b

def Slot.isOccupied {K V : Type} : Slot K V → Bool
  | .occupied _ _ => true
  | _ => false

def Slot.isRemoved {K V : Type} : Slot K V → Bool
  | .removed => true
  | _ => false

def Slot.isUnused {K V : Type} : Slot K V → Bool
  | .empty => true
  | _ => false

namespace HashMap

variable {K V : Type} {cb : Callbacks K}

/-! ## The probe loops are searches -/

def unused (t : HashMap K V) (i : Nat) : Bool := (slot t i).isUnused
def dead (t : HashMap K V) (i : Nat) : Bool := (slot t i).isRemoved

def hit (cb : Callbacks K) (t : HashMap K V) (key : K) (i : Nat) : Bool :=
  match slot t i with
  | .occupied k _ => cb.equals k key
  | _ => false

/-- The slots a probe for `key` looks at, in order. -/
def probes (cb : Callbacks K) (t : HashMap K V) (key : K) : List Nat :=
  Probing.walk (next t) (t.mask + 1) (bucket cb t key)

theorem findIndexGo_eq (t : HashMap K V) (key : K) (n index : Nat) :
    findIndexGo cb t key n index
      = Probing.lookup (unused t) (hit cb t key) (Probing.walk (next t) n index) := by
  induction n generalizing index with
  | zero => rfl
  | succ n ih =>
      rw [findIndexGo, Probing.walk, Probing.lookup, unused, hit]
      cases slot t index <;> simp [Slot.isUnused, ih]

theorem findIndex_eq (t : HashMap K V) (key : K) :
    findIndex cb t key = Probing.lookup (unused t) (hit cb t key) (probes cb t key) :=
  findIndexGo_eq t key _ _

theorem findInsertionIndexGo_eq (t : HashMap K V) (n index : Nat) (first : Option Nat) :
    findInsertionIndexGo t n index first
      = Probing.freeSlot (unused t) (dead t) first (Probing.walk (next t) n index) := by
  induction n generalizing index first with
  | zero => rfl
  | succ n ih =>
      rw [findInsertionIndexGo, Probing.walk, Probing.freeSlot, unused, dead]
      cases slot t index <;> simp [Slot.isUnused, Slot.isRemoved, ih]

theorem findInsertionIndex_eq (t : HashMap K V) (key : K) :
    findInsertionIndex cb t key
      = Probing.freeSlot (unused t) (dead t) none (probes cb t key) :=
  findInsertionIndexGo_eq t _ _ none

theorem putProbeGo_found {t : HashMap K V} {key : K} {n index i : Nat}
    {first : Option Nat} (h : findIndexGo cb t key n index = some i) :
    putProbeGo cb t key n index first = .found i := by
  induction n generalizing index first with
  | zero => cases h
  | succ n ih =>
      rw [findIndexGo] at h
      rw [putProbeGo]
      cases hs : slot t index with
      | empty => rw [hs] at h; cases h
      | occupied k v =>
          rw [hs] at h
          dsimp only at h ⊢
          split at h
          · rw [if_pos ‹_›, Option.some.inj h]
          · rw [if_neg ‹_›, ih h]
      | removed => rw [hs] at h; exact ih h

/-- Where the key is absent, `put` ends at the slot `findInsertionIndex` finds. -/
theorem putProbeGo_absent {t : HashMap K V} {key : K} {n index : Nat}
    {first : Option Nat} (h : findIndexGo cb t key n index = none)
    (hu : ∃ i ∈ Probing.walk (next t) n index, unused t i = true) :
    ∃ last first', putProbeGo cb t key n index first = .absent last first' ∧
      findInsertionIndexGo t n index first = some (first'.getD last) := by
  induction n generalizing index first with
  | zero => simp [Probing.walk] at hu
  | succ n ih =>
      have hrest : slot t index ≠ .empty →
          ∃ i ∈ Probing.walk (next t) n (next t index), unused t i = true := by
        intro hne
        obtain ⟨i, hi, hui⟩ := hu
        rcases List.mem_cons.mp hi with rfl | hi
        · rw [unused] at hui
          cases hs : slot t i <;> simp_all [Slot.isUnused]
        · exact ⟨i, hi, hui⟩
      rw [findIndexGo] at h
      rw [putProbeGo, findInsertionIndexGo]
      cases hs : slot t index with
      | empty => exact ⟨index, first, rfl, rfl⟩
      | occupied k v =>
          rw [hs] at h
          dsimp only at h ⊢
          split at h
          · cases h
          · rw [if_neg ‹_›]
            exact ih h (hrest (by simp [hs]))
      | removed =>
          rw [hs] at h
          exact ih h (hrest (by simp [hs]))

/-! ## The invariant -/

/-- A live entry. -/
def Live (t : HashMap K V) (k : K) (v : V) : Prop := ∃ i, slot t i = .occupied k v

/-- The capacity is a power of two, and the counters count their slots. -/
structure Sized (t : HashMap K V) : Prop where
  power : ∃ n, 2 ≤ n ∧ t.capacity = 2 ^ n
  mask : t.mask = t.capacity - 1
  size : t.slots.length = t.capacity
  count : t.count = t.slots.countP Slot.isOccupied
  tombstones : t.tombstoneCount = t.slots.countP Slot.isRemoved

theorem slot_lt {t : HashMap K V} {i : Nat} (h : slot t i ≠ .empty) :
    i < t.slots.length := by
  by_contra hge
  exact h (by rw [slot, List.getD_eq_default _ _ (by omega)])

theorem exists_empty {slots : List (Slot K V)}
    (h : slots.countP Slot.isOccupied + slots.countP Slot.isRemoved < slots.length) :
    .empty ∈ slots := by
  induction slots with
  | nil => simp at h
  | cons s slots ih =>
      cases s with
      | empty => exact List.mem_cons_self
      | occupied k v =>
          refine List.mem_cons_of_mem _ (ih ?_)
          simp [List.countP_cons, Slot.isOccupied, Slot.isRemoved] at h
          omega
      | removed =>
          refine List.mem_cons_of_mem _ (ih ?_)
          simp [List.countP_cons, Slot.isOccupied, Slot.isRemoved] at h
          omega

namespace Sized

variable {t : HashMap K V}

theorem four_le (hS : Sized t) : 4 ≤ t.capacity := by
  obtain ⟨n, hn, hc⟩ := hS.power
  rw [hc]
  exact Nat.pow_le_pow_right (n := 2) (by omega) hn

theorem masked_lt (hS : Sized t) (hash : BitVec 64) :
    (hash &&& BitVec.ofNat 64 t.mask).toNat < t.capacity := by
  have hmask := hS.mask
  have hfour := hS.four_le
  rw [BitVec.toNat_and, BitVec.toNat_ofNat]
  calc _ ≤ t.mask % 2 ^ 64 := Nat.and_le_right
    _ ≤ t.mask := Nat.mod_le _ _
    _ < t.capacity := by omega

theorem next_eq (hS : Sized t) : next t = fun i => (i + 1) % t.capacity := by
  obtain ⟨n, -, hc⟩ := hS.power
  funext i
  rw [next, hS.mask, hc, Nat.and_two_pow_sub_one_eq_mod]

/-- A probe looks at every slot of the table. -/
theorem mem_walk (hS : Sized t) {start i : Nat} (hstart : start < t.capacity)
    (hi : i < t.capacity) : i ∈ Probing.walk (next t) (t.mask + 1) start := by
  have hfour := hS.four_le
  rw [hS.next_eq, hS.mask, Nat.sub_add_cancel (by omega)]
  exact Probing.mem_walk_ring hstart hi

theorem lt_of_mem_walk (hS : Sized t) {n start i : Nat} (hstart : start < t.capacity)
    (hi : i ∈ Probing.walk (next t) n start) : i < t.slots.length := by
  have hfour := hS.four_le
  have hnext : ∀ j, next t j < t.capacity := fun j => by
    rw [hS.next_eq]
    exact Nat.mod_lt _ (by omega)
  rw [hS.size]
  exact Probing.lt_of_mem_walk hnext hstart hi

/-- Below full load every probe comes to an empty slot. -/
theorem exists_unused (hS : Sized t) (hroom : t.count + t.tombstoneCount < t.capacity)
    {start : Nat} (hstart : start < t.capacity) :
    ∃ i ∈ Probing.walk (next t) (t.mask + 1) start, unused t i = true := by
  rw [hS.count, hS.tombstones, ← hS.size] at hroom
  obtain ⟨i, hi, hs⟩ := List.mem_iff_getElem.mp (exists_empty hroom)
  refine ⟨i, hS.mem_walk hstart (hS.size ▸ hi), ?_⟩
  rw [unused, slot, List.getD_eq_getElem _ _ hi, hs]
  rfl

end Sized

structure Inv (cb : Callbacks K) (t : HashMap K V) : Prop where
  power : ∃ n, 2 ≤ n ∧ t.capacity = 2 ^ n
  mask : t.mask = t.capacity - 1
  size : t.slots.length = t.capacity
  count : t.count = t.slots.countP Slot.isOccupied
  tombstones : t.tombstoneCount = t.slots.countP Slot.isRemoved
  /-- No empty slot between a live key's bucket and its slot. -/
  reach : ∀ {i k v}, slot t i = .occupied k v → Probing.Reach (unused t) (probes cb t k) i
  unique : ∀ {i j k v k' v'}, slot t i = .occupied k v → slot t j = .occupied k' v' →
    cb.equals k k' = true → i = j

theorem Inv.sized {t : HashMap K V} (hI : Inv cb t) : Sized t :=
  ⟨hI.power, hI.mask, hI.size, hI.count, hI.tombstones⟩

/-- The load after every operation. -/
def Loaded (t : HashMap K V) : Prop := (t.count + t.tombstoneCount) * 10 < t.capacity * 7

theorem Inv.four_le {t : HashMap K V} (hI : Inv cb t) : 4 ≤ t.capacity := hI.sized.four_le

theorem Inv.bucket_lt {t : HashMap K V} (hI : Inv cb t) (key : K) :
    bucket cb t key < t.capacity := hI.sized.masked_lt (cb.hash key)

/-- Below full load every probe comes to an empty slot. -/
theorem Inv.exists_unused {t : HashMap K V} (hI : Inv cb t)
    (hroom : t.count + t.tombstoneCount < t.capacity) (key : K) :
    ∃ i ∈ probes cb t key, unused t i = true := hI.sized.exists_unused hroom (hI.bucket_lt key)

theorem Loaded.room {t : HashMap K V} (h : Loaded t) :
    t.count + t.tombstoneCount < t.capacity := by
  rw [Loaded] at h
  omega

theorem probes_congr (hl : cb.Lawful) (t : HashMap K V) {k key : K}
    (h : cb.equals k key = true) : probes cb t k = probes cb t key := by
  rw [probes, probes, bucket, bucket, hl.hash_eq h]

/-! ## Looking a key up -/

theorem hit_iff {t : HashMap K V} {key : K} {i : Nat} :
    hit cb t key i = true ↔ ∃ k v, slot t i = .occupied k v ∧ cb.equals k key = true := by
  rw [hit]
  cases slot t i <;> simp

theorem not_unused_of_occupied {t : HashMap K V} {i : Nat} {k : K} {v : V}
    (h : slot t i = .occupied k v) : unused t i = false := by
  rw [unused, h]
  rfl

theorem findIndex_some {t : HashMap K V} {key : K} {i : Nat}
    (h : findIndex cb t key = some i) :
    ∃ k v, slot t i = .occupied k v ∧ cb.equals k key = true := by
  rw [findIndex_eq] at h
  exact hit_iff.mp (Probing.lookup_eq_some h).1

theorem findIndex_none (hl : cb.Lawful) {t : HashMap K V} (hI : Inv cb t) {key : K}
    (h : findIndex cb t key = none) {k : K} {v : V} (hlive : Live t k v) :
    cb.equals k key = false := by
  obtain ⟨i, hs⟩ := hlive
  by_contra hne
  have heq := Bool.eq_true_of_not_eq_false hne
  rw [findIndex_eq] at h
  have hreach := hI.reach hs
  rw [probes_congr hl t heq] at hreach
  have hmiss := Probing.lookup_eq_none h hreach (not_unused_of_occupied hs)
  rw [hit_iff.mpr ⟨k, v, hs, heq⟩] at hmiss
  cases hmiss

theorem findIndex_of_live (hl : cb.Lawful) {t : HashMap K V} (hI : Inv cb t) {key k : K}
    {v : V} {i : Nat} (hs : slot t i = .occupied k v) (heq : cb.equals k key = true) :
    findIndex cb t key = some i := by
  rw [findIndex_eq]
  refine Probing.lookup_of_reach (probes_congr hl t heq ▸ hI.reach hs)
    (not_unused_of_occupied hs) (hit_iff.mpr ⟨k, v, hs, heq⟩) fun j hj _ => ?_
  obtain ⟨k', v', hs', heq'⟩ := hit_iff.mp hj
  exact hI.unique hs' hs (hl.eqv.trans heq' (hl.eqv.symm heq))

/-! ## Writing a slot -/

/-- The table after slot `i` is given `s` and the counters are set. -/
def write (t : HashMap K V) (i : Nat) (s : Slot K V) (count tombstoneCount : Nat) :
    HashMap K V :=
  { t with slots := t.slots.set i s, count := count, tombstoneCount := tombstoneCount }

theorem slot_write {t : HashMap K V} {i : Nat} (hi : i < t.slots.length) (s : Slot K V)
    (c d j : Nat) : slot (write t i s c d) j = if i = j then s else slot t j := by
  rw [slot, slot, write, List.getD_eq_getElem?_getD, List.getElem?_set,
    List.getD_eq_getElem?_getD]
  split <;> rfl

/-- A write that does not empty a slot leaves every probe as far as it was. -/
theorem unused_write {t : HashMap K V} {i : Nat} (hi : i < t.slots.length) {s : Slot K V}
    (hs : s.isUnused = false) (c d : Nat) {j : Nat} (hj : unused t j = false) :
    unused (write t i s c d) j = false := by
  rw [unused, slot_write hi]
  split
  · exact hs
  · exact hj

theorem countP_set_slot {t : HashMap K V} {i : Nat} (hi : i < t.slots.length) (s : Slot K V)
    (p : Slot K V → Bool) :
    (t.slots.set i s).countP p + (if p (slot t i) then 1 else 0)
      = t.slots.countP p + (if p s then 1 else 0) := by
  have hslot : slot t i = t.slots[i] := List.getD_eq_getElem _ _ hi
  have hle : (if p t.slots[i] then 1 else 0) ≤ t.slots.countP p := by
    split
    · exact List.countP_pos_iff.mpr ⟨_, List.getElem_mem hi, ‹_›⟩
    · omega
  rw [hslot, List.countP_set hi]
  omega

/-- What a write has to respect for the invariant to survive it. -/
theorem Inv.write {t : HashMap K V} (hI : Inv cb t) {i : Nat} {s : Slot K V}
    (hi : i < t.slots.length) (hs : s.isUnused = false) {c d : Nat}
    (hc : c = (t.slots.set i s).countP Slot.isOccupied)
    (hd : d = (t.slots.set i s).countP Slot.isRemoved)
    (hkey : ∀ k v, s = .occupied k v → Probing.Reach (unused t) (probes cb t k) i ∧
      ∀ j k' v', slot t j = .occupied k' v' → j ≠ i →
        cb.equals k' k = false ∧ cb.equals k k' = false) :
    Inv cb (write t i s c d) where
  power := hI.power
  mask := hI.mask
  size := by rw [HashMap.write, List.length_set]; exact hI.size
  count := hc
  tombstones := hd
  reach := by
    intro j k v hj
    rw [slot_write hi] at hj
    refine Probing.Reach.mono ?_ fun _ => unused_write hi hs c d
    split at hj
    · rename_i hij
      exact hij ▸ (hkey k v hj).1
    · exact hI.reach hj
  unique := by
    intro j j' k v k' v' hj hj' heq
    rw [slot_write hi] at hj hj'
    split at hj <;> split at hj'
    · omega
    · rename_i hij hij'
      rw [((hkey k v hj).2 j' k' v' hj' (Ne.symm hij')).2] at heq
      cases heq
    · rename_i hij hij'
      rw [((hkey k' v' hj').2 j k v hj (Ne.symm hij)).1] at heq
      cases heq
    · exact hI.unique hj hj' heq

theorem live_write {t : HashMap K V} {i : Nat} (hi : i < t.slots.length) {s : Slot K V}
    {c d : Nat} {k : K} {v : V} :
    Live (write t i s c d) k v
      ↔ (∃ j, j ≠ i ∧ slot t j = .occupied k v) ∨ s = .occupied k v := by
  constructor
  · rintro ⟨j, hj⟩
    rw [slot_write hi] at hj
    split at hj
    · exact .inr hj
    · rename_i hij
      exact .inl ⟨j, Ne.symm hij, hj⟩
  · rintro (⟨j, hij, hj⟩ | hs)
    · exact ⟨j, by rw [slot_write hi, if_neg (Ne.symm hij), hj]⟩
    · exact ⟨i, by rw [slot_write hi, if_pos rfl, hs]⟩

/-! ## Counting the slots -/

theorem Sized.write {t : HashMap K V} (hS : Sized t) {i : Nat} {s : Slot K V} {c d : Nat}
    (hc : c = (t.slots.set i s).countP Slot.isOccupied)
    (hd : d = (t.slots.set i s).countP Slot.isRemoved) : Sized (write t i s c d) where
  power := hS.power
  mask := hS.mask
  size := by rw [HashMap.write, List.length_set]; exact hS.size
  count := hc
  tombstones := hd

theorem Sized.store {t : HashMap K V} (hS : Sized t) {i : Nat} (hi : i < t.slots.length)
    (hfree : ∀ k v, slot t i ≠ .occupied k v) (key : K) (value : V) :
    Sized (store t i key value) := by
  have hocc := countP_set_slot hi (.occupied key value) Slot.isOccupied
  have hrem := countP_set_slot hi (.occupied key value) Slot.isRemoved
  have hnot : (slot t i).isOccupied = false := by
    cases hs : slot t i with
    | occupied k v => exact absurd hs (hfree k v)
    | empty => rfl
    | removed => rfl
  refine hS.write ?_ ?_
  · rw [hnot] at hocc
    rw [hS.count]
    exact hocc.symm
  · rw [hS.tombstones]
    cases hs : slot t i <;> simp [hs, Slot.isRemoved] at hrem ⊢ <;> omega

theorem setValue_eq_write {t : HashMap K V} {i : Nat} {k : K} {v : V}
    (hs : slot t i = .occupied k v) (value : V) :
    setValue t i value = HashMap.write t i (.occupied k value) t.count t.tombstoneCount := by
  rw [setValue, hs]
  rfl

theorem Sized.setValue {t : HashMap K V} (hS : Sized t) {i : Nat} {k : K} {v : V}
    (hs : slot t i = .occupied k v) (value : V) : Sized (setValue t i value) := by
  have hi : i < t.slots.length := slot_lt (by rw [hs]; nofun)
  have hocc := countP_set_slot hi (.occupied k value) Slot.isOccupied
  have hrem := countP_set_slot hi (.occupied k value) Slot.isRemoved
  rw [hs] at hocc hrem
  rw [setValue_eq_write hs]
  refine hS.write ?_ ?_
  · rw [hS.count]
    exact (Nat.add_right_cancel hocc).symm
  · rw [hS.tombstones]
    exact (Nat.add_right_cancel hrem).symm

theorem Sized.removed {t : HashMap K V} (hS : Sized t) {i : Nat} {k : K} {v : V}
    (hs : slot t i = .occupied k v) :
    Sized (HashMap.write t i .removed (t.count - 1) (t.tombstoneCount + 1)) ∧ 0 < t.count := by
  have hi : i < t.slots.length := slot_lt (by rw [hs]; nofun)
  have hocc := countP_set_slot hi .removed Slot.isOccupied
  have hrem := countP_set_slot hi .removed Slot.isRemoved
  rw [hs] at hocc hrem
  simp only [Slot.isOccupied, Slot.isRemoved, if_true, Bool.false_eq_true, if_false] at hocc hrem
  have hcount := hS.count
  refine ⟨hS.write ?_ ?_, by omega⟩
  · omega
  · rw [hS.tombstones]
    omega

/-! ## Adding, replacing and removing an entry -/

/-- `i` is where an entry for the absent key `key` may go. -/
structure Vacant (cb : Callbacks K) (t : HashMap K V) (key : K) (i : Nat) : Prop where
  reach : Probing.Reach (unused t) (probes cb t key) i
  free : ∀ k v, slot t i ≠ .occupied k v
  absent : ∀ k v, Live t k v → cb.equals k key = false

theorem Inv.lt_of_reach {t : HashMap K V} (hI : Inv cb t) {key : K} {i : Nat}
    (h : Probing.Reach (unused t) (probes cb t key) i) : i < t.slots.length :=
  hI.sized.lt_of_mem_walk (hI.bucket_lt key) h.mem

/-- A free slot is there for every absent key. -/
theorem Inv.vacant {t : HashMap K V} (hI : Inv cb t)
    (hroom : t.count + t.tombstoneCount < t.capacity) {key : K}
    (habs : ∀ k v, Live t k v → cb.equals k key = false) :
    ∃ i, findInsertionIndex cb t key = some i ∧ Vacant cb t key i := by
  obtain ⟨i, hfree, hreach, htake⟩ :=
    @Probing.freeSlot_spec (unused t) (dead t) _ (hI.exists_unused hroom key)
  refine ⟨i, by rw [findInsertionIndex_eq, hfree], hreach, fun k v hs => ?_, habs⟩
  rw [unused, dead, hs] at htake
  simp [Slot.isUnused, Slot.isRemoved] at htake

/-- What an operation leaves besides the live entries. -/
structure SameTable (t t' : HashMap K V) (count tombstones : Nat) : Prop where
  capacity : t'.capacity = t.capacity
  count : t'.count = count
  tombstones : t'.tombstoneCount = tombstones

theorem Vacant.lt {t : HashMap K V} (hI : Inv cb t) {key : K} {i : Nat}
    (h : Vacant cb t key i) : i < t.slots.length := hI.lt_of_reach h.reach

/-- `store` at a vacant slot adds one entry; the slots in use grow by one unless
a tombstone is taken over. -/
theorem store_spec (hl : cb.Lawful) {t : HashMap K V} (hI : Inv cb t) {key : K} {i : Nat}
    (hv : Vacant cb t key i) (value : V) :
    Inv cb (store t i key value) ∧
      (∀ k v, Live (store t i key value) k v ↔ Live t k v ∨ k = key ∧ v = value) ∧
      (store t i key value).capacity = t.capacity ∧
      (store t i key value).count = t.count + 1 ∧
      (store t i key value).tombstoneCount ≤ t.tombstoneCount := by
  have hi := hv.lt hI
  have hS := hI.sized.store hi hv.free key value
  refine ⟨hI.write hi rfl hS.count hS.tombstones ?_, fun k v => ?_, rfl, rfl, ?_⟩
  · rintro k v ⟨⟩
    refine ⟨hv.reach, fun j k' v' hj _ => ?_⟩
    have := hv.absent k' v' ⟨j, hj⟩
    refine ⟨this, Bool.eq_false_iff.mpr fun heq => ?_⟩
    rw [hl.eqv.symm heq] at this
    cases this
  · refine (live_write hi).trans (or_congr ⟨fun ⟨j, _, hj⟩ => ⟨j, hj⟩, fun ⟨j, hj⟩ =>
      ⟨j, ?_, hj⟩⟩ ?_)
    · rintro rfl
      exact hv.free k v hj
    · simp [eq_comm]
  · simp only [store]
    split <;> omega

/-- The slots in use after an entry is stored. -/
theorem store_used (t : HashMap K V) (i : Nat) (key : K) (value : V) :
    (store t i key value).count + (store t i key value).tombstoneCount
      ≤ t.count + t.tombstoneCount + 1 := by
  simp only [store]
  split <;> omega

theorem setValue_spec (hl : cb.Lawful) {t : HashMap K V} (hI : Inv cb t) {key k₀ : K}
    {v₀ : V} {i : Nat} (hs : slot t i = .occupied k₀ v₀) (heq : cb.equals k₀ key = true)
    (value : V) :
    Inv cb (setValue t i value) ∧
      (∀ k v, Live (setValue t i value) k v
        ↔ (Live t k v ∧ cb.equals k key = false) ∨ k = k₀ ∧ v = value) ∧
      SameTable t (setValue t i value) t.count t.tombstoneCount := by
  have hi : i < t.slots.length := slot_lt (by rw [hs]; nofun)
  have hS := hI.sized.setValue hs value
  rw [setValue_eq_write hs] at hS ⊢
  refine ⟨hI.write hi rfl hS.count hS.tombstones ?_, fun k v => ?_, rfl, rfl, rfl⟩
  · rintro k v ⟨⟩
    refine ⟨hI.reach hs, fun j k' v' hj hne => ?_⟩
    exact ⟨Bool.eq_false_iff.mpr fun h => hne (hI.unique hj hs h),
      Bool.eq_false_iff.mpr fun h => hne (hI.unique hs hj h).symm⟩
  · refine (live_write hi).trans (or_congr ⟨?_, ?_⟩ (by simp [eq_comm]))
    · rintro ⟨j, hne, hj⟩
      exact ⟨⟨j, hj⟩, Bool.eq_false_iff.mpr fun h =>
        hne (hI.unique hj hs (hl.eqv.trans h (hl.eqv.symm heq)))⟩
    · rintro ⟨⟨j, hj⟩, hk⟩
      refine ⟨j, ?_, hj⟩
      rintro rfl
      obtain ⟨rfl, rfl⟩ := Slot.occupied.inj (hs.symm.trans hj)
      rw [heq] at hk
      cases hk

theorem removed_spec (hl : cb.Lawful) {t : HashMap K V} (hI : Inv cb t) {key k₀ : K}
    {v₀ : V} {i : Nat} (hs : slot t i = .occupied k₀ v₀) (heq : cb.equals k₀ key = true) :
    let t' := write t i .removed (t.count - 1) (t.tombstoneCount + 1)
    Inv cb t' ∧ (∀ k v, Live t' k v ↔ Live t k v ∧ cb.equals k key = false) ∧
      0 < t.count := by
  have hi : i < t.slots.length := slot_lt (by rw [hs]; nofun)
  obtain ⟨hS, hpos⟩ := hI.sized.removed hs
  refine ⟨hI.write hi rfl hS.count hS.tombstones nofun, fun k v => (live_write hi).trans ?_, hpos⟩
  · constructor
    · rintro (⟨j, hne, hj⟩ | h)
      · exact ⟨⟨j, hj⟩, Bool.eq_false_iff.mpr fun h =>
          hne (hI.unique hj hs (hl.eqv.trans h (hl.eqv.symm heq)))⟩
      · cases h
    · rintro ⟨⟨j, hj⟩, hk⟩
      refine .inl ⟨j, ?_, hj⟩
      rintro rfl
      obtain ⟨rfl, rfl⟩ := Slot.occupied.inj (hs.symm.trans hj)
      rw [heq] at hk
      cases hk

end HashMap

end Collections

end Absolute
