import Absolute.LibRuns
import Absolute.StdHashRounding
import Absolute.StdHashThrowingSet

/-!
# The sizes of hash tables in `int32`

The load test of `put` and `add` multiplies the capacity by 7, which an `int32` does not hold from
a capacity of 2^29 on; up to 2^28 the test and the doubling stay within `int32`
(`loadTest_returns_iff`). What the tables' sizes keep through all calls (`Roomy`) does not depend
on the callbacks: they may answer anything, differently each time, or throw.
-/

namespace Absolute

namespace Collections

open Raising (Results)

variable {K V T W : Type}

/-! ## Calls with any callbacks -/

namespace HashMap

namespace Throwing

variable (calls : Calls K W)

def findIndexGo (key : K) : Nat → Nat → Hashed (HashMap K V) W (Option Nat)
  | 0, _ => return none
  | n + 1, index => do
      let t ← readTable
      match slot t index with
      | .empty => return none
      | .occupied k _ =>
          if ← calling (calls.equals k key) then return some index
          else findIndexGo key n (next t index)
      | .removed => findIndexGo key n (next t index)

def findIndex (key : K) : Hashed (HashMap K V) W (Option Nat) := do
  let index ← bucket calls key
  let t ← readTable
  findIndexGo calls key (t.mask + 1) index

def tryAdd (key : K) (value : V) : Hashed (HashMap K V) W Bool := do
  match ← findIndex calls key with
  | some _ => return false
  | none => do
      put calls key value
      return true

def remove (key : K) : Hashed (HashMap K V) W Bool := do
  match ← findIndex calls key with
  | none => return false
  | some index => do
      let t ← readTable
      writeTable (write t index .removed (t.count - 1) (t.tombstoneCount + 1))
      return true

def apply : Op K V → Hashed (HashMap K V) W Unit
  | .put key value | .set key value => put calls key value
  | .tryAdd key value => do
      let _ ← tryAdd calls key value
  | .remove key => do
      let _ ← remove calls key
  | .clear => do
      let t ← readTable
      writeTable (clear t)

/-- A call, whatever the callbacks' world is when it is made, and whether it throws or not. -/
def step (t : HashMap K V) (op : Op K V) (t' : HashMap K V) : Prop :=
  ∃ w, (Raising.state (apply calls op ⟨t, w⟩)).table = t'

end Throwing

end HashMap

namespace HashSet

namespace Throwing

variable (calls : Calls T W)

def remove (value : T) : Hashed (HashSet T) W Bool := do
  match ← findIndex calls value with
  | none => return false
  | some index => do
      let s ← readTable
      writeTable { s with places := s.places.set index .removed, count := s.count - 1,
                          tombstoneCount := s.tombstoneCount + 1 }
      return true

def apply : Op T → Hashed (HashSet T) W Unit
  | .add value => do
      let _ ← add calls value
  | .remove value => do
      let _ ← remove calls value
  | .clear => do
      let s ← readTable
      writeTable (clear s)

def step (s : HashSet T) (op : Op T) (s' : HashSet T) : Prop :=
  ∃ w, (Raising.state (apply calls op ⟨s, w⟩)).table = s'

end Throwing

end HashSet

/-! ## The load test -/

/-- The load test with the doubling it leads to, in `int32`. -/
def loadTest (count tombstoneCount capacity : Nat) : Result (Option Int) := do
  let used ← int32 (count + tombstoneCount)
  let used ← int32 (used + 1)
  let load ← int32 (used * 10)
  let limit ← int32 (capacity * 7)
  if load ≥ limit then
    let doubled ← int32 (capacity * 2)
    return some doubled
  else return none

/-- No value of the load test or the doubling is outside `int32`. -/
def HashMap.Safe (t : HashMap K V) : Prop :=
  ∃ doubled, loadTest t.count t.tombstoneCount t.capacity = .returned doubled

def HashSet.Safe (s : HashSet T) : Prop :=
  ∃ doubled, loadTest s.count s.tombstoneCount s.capacity = .returned doubled

/-- All keys are equal; the sizes do not depend on it. -/
def indifferent (K : Type) : Callbacks K := ⟨fun _ => 0, fun _ _ => true⟩

theorem indifferent_lawful : (indifferent K).Lawful where
  eqv := ⟨fun _ => rfl, fun _ => rfl, fun _ _ => rfl⟩
  hash_eq _ := rfl

namespace HashMap

/-- What the calls keep of the sizes. -/
structure Roomy (t : HashMap K V) : Prop where
  sized : Sized t
  loaded : Loaded t

/-- Up to 2^28 the test is the one of the natural numbers. -/
theorem loadTest_eq {t : HashMap K V} (h : Roomy t) (hcap : t.capacity ≤ 2 ^ 28) :
    loadTest t.count t.tombstoneCount t.capacity = .returned
      (if (t.count + t.tombstoneCount + 1) * 10 ≥ t.capacity * 7 then some (t.capacity * 2 : Nat)
       else none) := by
  have hload := h.loaded
  rw [Loaded] at hload
  rw [loadTest, int32_eq (by omega) (by omega), Result.returned_bind,
    int32_eq (by omega) (by omega), Result.returned_bind, int32_eq (by omega) (by omega),
    Result.returned_bind, int32_eq (by omega) (by omega), Result.returned_bind]
  split
  · rename_i hfull
    rw [int32_eq (by omega) (by omega), if_pos (by omega)]
    simp
  · rename_i hfits
    rw [if_neg (by omega)]
    rfl

theorem loadTest_limit {count tombstoneCount capacity : Nat} {doubled : Option Int}
    (h : loadTest count tombstoneCount capacity = .returned doubled) :
    (capacity : Int) * 7 < 2 ^ 31 := by
  obtain ⟨used, -, h⟩ := Result.bind_eq_returned.mp h
  obtain ⟨more, -, h⟩ := Result.bind_eq_returned.mp h
  obtain ⟨load, -, h⟩ := Result.bind_eq_returned.mp h
  obtain ⟨limit, hlimit, -⟩ := Result.bind_eq_returned.mp h
  exact (int32_returned hlimit).2

theorem safe_iff {t : HashMap K V} (h : Roomy t) : t.Safe ↔ t.capacity ≤ 2 ^ 28 := by
  constructor
  · rintro ⟨doubled, hdoubled⟩
    have hlimit := loadTest_limit hdoubled
    obtain ⟨n, -, hcap⟩ := h.sized.power
    rw [hcap]
    refine Nat.pow_le_pow_right (by decide) ?_
    by_contra hlarge
    have hpow : 2 ^ 29 ≤ t.capacity := by
      rw [hcap]
      exact Nat.pow_le_pow_right (by decide) (by omega)
    omega
  · intro hcap
    exact ⟨_, loadTest_eq h hcap⟩

/-! ## Probing -/

namespace Sized

variable {t : HashMap K V}

/-- Where a new entry goes. -/
theorem insertionIndex (hS : Sized t) (hroom : t.count + t.tombstoneCount < t.capacity)
    {start : Nat} (hstart : start < t.capacity) :
    ∃ i, findInsertionIndexGo t (t.mask + 1) start none = some i ∧ i < t.slots.length ∧
      ∀ k v, slot t i ≠ .occupied k v := by
  obtain ⟨i, hfree, hreach, htake⟩ :=
    @Probing.freeSlot_spec (unused t) (dead t) _ (hS.exists_unused hroom hstart)
  refine ⟨i, ?_, hS.lt_of_mem_walk hstart hreach.mem, fun k v hs => ?_⟩
  · rw [findInsertionIndexGo_eq, hfree]
  · rw [unused, dead, hs] at htake
    simp [Slot.isUnused, Slot.isRemoved] at htake

/-- Without tombstones the slot that is found is empty. -/
theorem insert (hS : Sized t) (htomb : t.tombstoneCount = 0) {i : Nat} (hi : i < t.slots.length)
    (hfree : ∀ k v, slot t i ≠ .occupied k v) (key : K) (value : V) :
    Sized { t with slots := t.slots.set i (.occupied key value), count := t.count + 1 } := by
  have hS' := hS.store hi hfree key value
  rw [HashMap.store] at hS'
  split at hS'
  · rename_i hs
    have hmem : slot t i ∈ t.slots := by
      rw [slot, List.getD_eq_getElem _ _ hi]
      exact List.getElem_mem hi
    have hpos : 0 < t.slots.countP Slot.isRemoved :=
      List.countP_pos_iff.mpr ⟨_, hmem, by rw [hs]; rfl⟩
    rw [← hS.tombstones, htomb] at hpos
    exact absurd hpos (Nat.lt_irrefl 0)
  · exact hS'

end Sized

/-- A table below the load test's bound takes one more entry. -/
theorem Roomy.store {t : HashMap K V} (h : Roomy t)
    (hfits : ¬(t.count + t.tombstoneCount + 1) * 10 ≥ t.capacity * 7) {i : Nat}
    (hi : i < t.slots.length) (hfree : ∀ k v, slot t i ≠ .occupied k v) (key : K) (value : V) :
    Roomy (store t i key value) := by
  have hused := store_used t i key value
  have hsame : (HashMap.store t i key value).capacity = t.capacity := rfl
  refine ⟨h.sized.store hi hfree key value, ?_⟩
  rw [Loaded]
  omega

namespace Throwing

variable {calls : Calls K W} {s : Hashing (HashMap K V) W}

theorem bucket_inside (hS : Sized s.table) (key : K) :
    Results (bucket calls key) s (fun index u => u.table = s.table ∧ index < s.table.capacity)
      (fun _ u => u.table = s.table) := by
  rw [bucket]
  refine Results.bind ((calling_results (calls.hash key) s).mono (fun _ _ => id)
    fun _ _ h => h.1) ?_
  rintro hash u ⟨htable, -⟩
  refine Results.after (t := u) rfl ⟨htable, ?_⟩
  rw [htable]
  exact hS.masked_lt hash

theorem findInsertionIndex_free (hS : Sized s.table)
    (hroom : s.table.count + s.table.tombstoneCount < s.table.capacity) (key : K) :
    Results (findInsertionIndex calls key) s
      (fun i u => u.table = s.table ∧ i < s.table.slots.length ∧
        ∀ k v, slot s.table i ≠ .occupied k v)
      (fun _ u => u.table = s.table) := by
  rw [findInsertionIndex]
  refine Results.bind (bucket_inside hS key) ?_
  rintro start u ⟨htable, hstart⟩
  refine Results.after (t := u) rfl ?_
  obtain ⟨i, hindex, hi, hfree⟩ := hS.insertionIndex hroom hstart
  rw [htable, hindex]
  exact ⟨htable, hi, hfree⟩

/-! ## Growing -/

/-- A table that is being filled after it has grown. -/
structure Grown (capacity most : Nat) (t : HashMap K V) : Prop where
  sized : Sized t
  capacity : t.capacity = capacity
  tombstones : t.tombstoneCount = 0
  count : t.count ≤ most

theorem insertRehashed_grown {capacity most : Nat} (h : Grown capacity most s.table)
    (hroom : most < capacity) (key : K) (value : V) :
    Results (insertRehashed calls key value) s
      (fun _ u => Grown capacity (most + 1) u.table) (fun _ u => Grown capacity most u.table) := by
  have hcap := h.capacity
  have htomb := h.tombstones
  have hcount := h.count
  rw [insertRehashed]
  refine Results.bind ((findInsertionIndex_free h.sized (by omega) key).mono (fun _ _ => id)
    fun _ u hu => hu ▸ h) ?_
  rintro i u ⟨htable, hi, hfree⟩
  refine Results.after (t := u) rfl ?_
  rw [htable]
  exact ⟨h.sized.insert htomb hi hfree key value, hcap, htomb, Nat.succ_le_succ hcount⟩

theorem Grown.mono {capacity most more : Nat} {t : HashMap K V} (h : Grown capacity most t)
    (hle : most ≤ more) : Grown capacity more t :=
  ⟨h.sized, h.capacity, h.tombstones, h.count.trans hle⟩

theorem reinsert_grown {capacity most : Nat} (slots : List (Slot K V))
    (h : Grown capacity most s.table) (hroom : most + slots.countP Slot.isOccupied < capacity) :
    Results (reinsert calls slots) s
      (fun _ u => Grown capacity (most + slots.countP Slot.isOccupied) u.table)
      (fun _ u => Grown capacity (most + slots.countP Slot.isOccupied) u.table) := by
  induction slots generalizing s most with
  | nil => exact h
  | cons slot slots ih =>
      cases slot with
      | empty | removed =>
          rw [List.countP_cons_of_neg (by simp [Slot.isOccupied])] at hroom ⊢
          exact ih h hroom
      | occupied key value =>
          rw [List.countP_cons_of_pos (by rfl)] at hroom ⊢
          rw [reinsert]
          refine Results.bind ((insertRehashed_grown h (by omega) key value).mono (fun _ _ => id)
            fun _ u hu => hu.mono (by omega)) ?_
          intro _ u hu
          have hrest := ih hu (by omega)
          rw [Nat.add_right_comm] at hrest
          exact hrest

theorem grown_freshTable {t : HashMap K V} (hS : Sized t) :
    Grown (t.capacity * 2) 0 (freshTable t (t.capacity * 2)) := by
  obtain ⟨n, hn, hcap⟩ := hS.power
  have hfresh := (@inv_freshTable _ _ (indifferent K) t (n + 1) (by omega)).sized
  rw [Nat.pow_succ, ← hcap] at hfresh
  exact ⟨hfresh, rfl, rfl, Nat.le_refl 0⟩

theorem rehash_grown (h : Roomy s.table) :
    Results (rehash calls (s.table.capacity * 2)) s
      (fun _ u => Grown (s.table.capacity * 2) s.table.count u.table)
      (fun _ u => Grown (s.table.capacity * 2) s.table.count u.table) := by
  have hroom := h.loaded.room
  have hcount := h.sized.count
  refine Results.after (t := s) rfl (Results.after rfl ?_)
  rw [← Nat.zero_add s.table.count, hcount]
  exact reinsert_grown s.table.slots (grown_freshTable h.sized) (by omega)

/-- A table that has grown takes one more entry. -/
theorem Grown.roomy {t t' : HashMap K V} (hload : Loaded t)
    (h : Grown (t.capacity * 2) t.count t') : Roomy t' := by
  have hcap := h.capacity
  have htomb := h.tombstones
  have hcount := h.count
  refine ⟨h.sized, ?_⟩
  rw [Loaded] at hload ⊢
  omega

theorem Grown.store {t t' : HashMap K V} (ht : Roomy t) (h : Grown (t.capacity * 2) t.count t')
    {i : Nat} (hi : i < t'.slots.length) (hfree : ∀ k v, slot t' i ≠ .occupied k v) (key : K)
    (value : V) : Roomy (store t' i key value) := by
  have hused := store_used t' i key value
  have hload := ht.loaded
  have hfour := ht.sized.four_le
  have hcap := h.capacity
  have htomb := h.tombstones
  have hcount := h.count
  have hsame : (HashMap.store t' i key value).capacity = t'.capacity := rfl
  refine ⟨h.sized.store hi hfree key value, ?_⟩
  rw [Loaded] at hload ⊢
  omega

/-! ## Calls -/

/-- What a call makes of a table: it has as many slots, or twice as many. -/
structure Leaves (t t' : HashMap K V) : Prop where
  roomy : Roomy t'
  capacity : t'.capacity = t.capacity ∨ t'.capacity = t.capacity * 2

theorem Leaves.of_eq {t t' : HashMap K V} (h : Roomy t) (heq : t' = t) : Leaves t t' := by
  rw [heq]
  exact ⟨h, .inl rfl⟩

/-- An absent key's probe ends where `findInsertionIndex` does. -/
theorem putProbeGo_ends (key : K) (n index : Nat) (first : Option Nat)
    (hunused : ∃ i ∈ Probing.walk (next s.table) n index, unused s.table i = true) :
    Results (putProbeGo calls key n index first) s
      (fun r u => u.table = s.table ∧ match r with
        | .found i => ∃ k v, slot s.table i = .occupied k v
        | .absent last first' =>
            findInsertionIndexGo s.table n index first = some (first'.getD last))
      (fun _ u => u.table = s.table) := by
  induction n generalizing index first s with
  | zero => simp [Probing.walk] at hunused
  | succ n ih =>
      have hrest : slot s.table index ≠ .empty →
          ∃ i ∈ Probing.walk (next s.table) n (next s.table index), unused s.table i = true := by
        intro hne
        obtain ⟨i, hi, hui⟩ := hunused
        rcases List.mem_cons.mp hi with rfl | hi
        · rw [unused] at hui
          cases hs : slot s.table i <;> simp_all [Slot.isUnused]
        · exact ⟨i, hi, hui⟩
      rw [putProbeGo, findInsertionIndexGo]
      refine Results.after (t := s) rfl ?_
      cases hslot : slot s.table index with
      | empty => exact ⟨rfl, rfl⟩
      | removed => exact ih _ _ (hrest (by simp [hslot]))
      | occupied k v =>
          dsimp only
          refine Results.bind ((calling_results (calls.equals k key) s).mono (fun _ _ => id)
            fun _ _ h => h.1) ?_
          rintro b u ⟨htable, -⟩
          split
          · exact ⟨htable, k, v, hslot⟩
          · have hgo := ih (s := u) (next s.table index) first
              (by rw [htable]; exact hrest (by simp [hslot]))
            rw [htable] at hgo
            exact hgo

theorem putProbe_ends (h : Roomy s.table) (key : K) :
    Results (putProbe calls key) s
      (fun r u => u.table = s.table ∧ match r with
        | .found i => ∃ k v, slot s.table i = .occupied k v
        | .absent last first => first.getD last < s.table.slots.length ∧
            ∀ k v, slot s.table (first.getD last) ≠ .occupied k v)
      (fun _ u => u.table = s.table) := by
  rw [putProbe]
  refine Results.bind (bucket_inside h.sized key) ?_
  rintro start u ⟨htable, hstart⟩
  refine Results.after (t := u) rfl ?_
  rw [← htable] at hstart h ⊢
  obtain ⟨i, hindex, hi, hfree⟩ := h.sized.insertionIndex h.loaded.room hstart
  refine (putProbeGo_ends key (u.table.mask + 1) start none
    (h.sized.exists_unused h.loaded.room hstart)).mono ?_ fun _ _ h => h
  rintro r u' ⟨hu', hr⟩
  refine ⟨hu', ?_⟩
  cases r with
  | found index => exact hr
  | absent last first =>
      rw [hindex] at hr
      obtain rfl := Option.some.inj hr
      exact ⟨hi, hfree⟩

theorem put_leaves (h : Roomy s.table) (key : K) (value : V) :
    Results (put calls key value) s (fun _ u => Leaves s.table u.table)
      (fun _ u => Leaves s.table u.table) := by
  rw [put]
  refine Results.bind ((putProbe_ends h key).mono (fun _ _ => id)
    fun _ _ hu => .of_eq h hu) ?_
  rintro r u ⟨htable, hr⟩
  rw [← htable] at h hr ⊢
  cases r with
  | found index =>
      obtain ⟨k, v, hslot⟩ := hr
      have hsized := h.sized.setValue hslot value
      rw [setValue_eq_write hslot] at hsized
      refine Results.after (t := u) rfl ?_
      rw [setValue_eq_write hslot]
      exact ⟨⟨hsized, h.loaded⟩, .inl rfl⟩
  | absent last first =>
      refine Results.after (t := u) rfl ?_
      split
      · refine Results.bind ((rehash_grown h).mono (fun _ _ => id)
          fun _ u' hu' => ⟨hu'.roomy h.loaded, .inr hu'.capacity⟩) ?_
        intro _ u' hu'
        have hroomy := hu'.roomy h.loaded
        refine Results.bind ((findInsertionIndex_free hroomy.sized hroomy.loaded.room key).mono
          (fun _ _ => id) fun _ u'' hu'' => by
            rw [hu'']
            exact ⟨hroomy, .inr hu'.capacity⟩) ?_
        rintro i u'' ⟨htable', hi, hfree⟩
        refine Results.after (t := u'') rfl ?_
        rw [htable']
        exact ⟨hu'.store h hi hfree key value, .inr hu'.capacity⟩
      · rename_i hfits
        obtain ⟨hi, hfree⟩ := hr
        exact ⟨h.store hfits hi hfree key value, .inl rfl⟩

theorem findIndexGo_inside (key : K) (n index : Nat) :
    Results (findIndexGo calls key n index) s
      (fun r u => u.table = s.table ∧ ∀ i, r = some i → ∃ k v, slot s.table i = .occupied k v)
      (fun _ u => u.table = s.table) := by
  induction n generalizing index s with
  | zero => exact ⟨rfl, fun i hi => by cases hi⟩
  | succ n ih =>
      rw [findIndexGo]
      refine Results.after (t := s) rfl ?_
      cases hslot : slot s.table index with
      | empty => exact ⟨rfl, fun i hi => by cases hi⟩
      | removed => exact ih _
      | occupied k v =>
          dsimp only
          refine Results.bind ((calling_results (calls.equals k key) s).mono (fun _ _ => id)
            fun _ _ h => h.1) ?_
          rintro b u ⟨htable, -⟩
          split
          · refine ⟨htable, fun i hi => ?_⟩
            obtain rfl := Option.some.inj hi
            exact ⟨k, v, hslot⟩
          · have hgo := ih (s := u) (next s.table index)
            rw [htable] at hgo
            exact hgo

theorem findIndex_inside (hS : Sized s.table) (key : K) :
    Results (findIndex calls key) s
      (fun r u => u.table = s.table ∧ ∀ i, r = some i → ∃ k v, slot s.table i = .occupied k v)
      (fun _ u => u.table = s.table) := by
  rw [findIndex]
  refine Results.bind ((bucket_inside hS key).mono (fun _ _ h => h.1) fun _ _ => id) ?_
  intro start u htable
  refine Results.after (t := u) rfl ?_
  rw [← htable]
  exact findIndexGo_inside key _ start

theorem tryAdd_leaves (h : Roomy s.table) (key : K) (value : V) :
    Results (tryAdd calls key value) s (fun _ u => Leaves s.table u.table)
      (fun _ u => Leaves s.table u.table) := by
  rw [tryAdd]
  refine Results.bind ((findIndex_inside h.sized key).mono (fun _ _ => id)
    fun _ _ hu => .of_eq h hu) ?_
  rintro r u ⟨htable, -⟩
  rw [← htable] at h ⊢
  cases r with
  | some index => exact Leaves.of_eq h rfl
  | none => exact Results.bind (put_leaves h key value) fun _ _ hu => hu

theorem removed_roomy {t : HashMap K V} (h : Roomy t) {i : Nat} {k : K} {v : V}
    (hslot : slot t i = .occupied k v) :
    Roomy (write t i .removed (t.count - 1) (t.tombstoneCount + 1)) := by
  obtain ⟨hsized, hpos⟩ := h.sized.removed hslot
  have hload := h.loaded
  refine ⟨hsized, ?_⟩
  rw [Loaded] at hload ⊢
  rw [write]
  dsimp only
  omega

theorem remove_leaves (h : Roomy s.table) (key : K) :
    Results (remove calls key) s (fun _ u => Leaves s.table u.table)
      (fun _ u => Leaves s.table u.table) := by
  rw [remove]
  refine Results.bind ((findIndex_inside h.sized key).mono (fun _ _ => id)
    fun _ _ hu => .of_eq h hu) ?_
  rintro r u ⟨htable, hr⟩
  rw [← htable] at h hr ⊢
  cases r with
  | none => exact Leaves.of_eq h rfl
  | some index =>
      obtain ⟨k, v, hslot⟩ := hr index rfl
      exact ⟨removed_roomy h hslot, .inl rfl⟩

theorem clear_roomy {t : HashMap K V} (h : Roomy t) : Roomy (clear t) := by
  obtain ⟨n, hn, hcap⟩ := h.sized.power
  have hholds := @holds_freshTable _ _ (indifferent K) t n hn
  rw [clear, hcap]
  exact ⟨hholds.inv.sized, hholds.loaded⟩

theorem apply_leaves (h : Roomy s.table) (op : Op K V) :
    Results (apply calls op) s (fun _ u => Leaves s.table u.table)
      (fun _ u => Leaves s.table u.table) := by
  cases op with
  | put key value | set key value => exact put_leaves h key value
  | tryAdd key value => exact Results.bind (tryAdd_leaves h key value) fun _ _ hu => hu
  | remove key => exact Results.bind (remove_leaves h key) fun _ _ hu => hu
  | clear => exact ⟨clear_roomy h, .inl rfl⟩

theorem step_leaves {t t' : HashMap K V} {op : Op K V} (h : Roomy t) (hstep : step calls t op t') :
    Leaves t t' := by
  obtain ⟨w, rfl⟩ := hstep
  exact (apply_leaves (s := ⟨t, w⟩) h op).state

end Throwing

end HashMap

/-! ## Sets -/

namespace HashSet

namespace Throwing

open Raising (Lifts)
open HashMap (Roomy)
open HashMap.Throwing (Leaves)

variable {calls : Calls T W} {s : Hashing (HashSet T) W}

theorem lifts_findIndexGo (value : T) (n index : Nat) :
    Lifts lift (findIndexGo calls value n index)
      (HashMap.Throwing.findIndexGo calls value n index) := by
  induction n generalizing index with
  | zero => exact .pure none
  | succ n ih =>
      refine lifts_read fun t => ?_
      rw [slot_toMap]
      cases hplace : place t index with
      | empty => exact .pure none
      | removed => exact ih _
      | occupied item =>
          refine (lifts_calling (calls.equals item value)).bind fun b => ?_
          cases b with
          | true => exact .pure (some index)
          | false => exact ih _

theorem lifts_findIndex (value : T) :
    Lifts lift (findIndex calls value) (HashMap.Throwing.findIndex calls value) :=
  (lifts_bucket value).bind fun index => lifts_read fun t =>
    lifts_findIndexGo value (t.mask + 1) index

theorem lifts_rehash (newCapacity : Nat) :
    Lifts lift (rehash calls newCapacity) (HashMap.Throwing.rehash calls newCapacity) :=
  lifts_read fun t => by
    rw [freshTable_toMap]
    exact (lifts_write _).bind fun _ => lifts_reinsert t.places

/-- The set's probe changes nothing. -/
theorem findIndex_inside (h : Roomy (toMap s.table)) (value : T) :
    Results (findIndex calls value) s
      (fun r u => toMap u.table = toMap s.table ∧ ∀ i, r = some i →
        ∃ k v, HashMap.slot (toMap s.table) i = .occupied k v)
      (fun _ u => toMap u.table = toMap s.table) :=
  (lifts_findIndex value).results
    (HashMap.Throwing.findIndex_inside (s := lift s) h.sized value)

theorem findInsertionIndex_free (h : Roomy (toMap s.table)) (value : T) :
    Results (findInsertionIndex calls value) s
      (fun i u => toMap u.table = toMap s.table ∧ i < (toMap s.table).slots.length ∧
        ∀ k v, HashMap.slot (toMap s.table) i ≠ .occupied k v)
      (fun _ u => toMap u.table = toMap s.table) :=
  (lifts_findInsertionIndex value).results
    (HashMap.Throwing.findInsertionIndex_free (s := lift s) h.sized h.loaded.room value)

/-- There is room for one more entry, in the table as it was or in one that has grown. -/
theorem ensureRoomForNewEntry_room (h : Roomy (toMap s.table)) :
    Results (ensureRoomForNewEntry calls) s
      (fun _ u => toMap u.table = toMap s.table ∧
          ¬(s.table.count + s.table.tombstoneCount + 1) * 10 ≥ s.table.capacity * 7 ∨
        HashMap.Throwing.Grown (s.table.capacity * 2) s.table.count (toMap u.table))
      (fun _ u => Leaves (toMap s.table) (toMap u.table)) := by
  rw [ensureRoomForNewEntry]
  refine Results.after (t := s) rfl ?_
  split
  · refine ((lifts_rehash (s.table.capacity * 2)).results
      (HashMap.Throwing.rehash_grown (s := lift s) h)).mono (fun _ _ hu => .inr hu) ?_
    intro _ u hu
    exact ⟨hu.roomy h.loaded, .inr hu.capacity⟩
  · rename_i hfits
    exact .inl ⟨rfl, hfits⟩

theorem add_leaves (h : Roomy (toMap s.table)) (value : T) :
    Results (add calls value) s (fun _ u => Leaves (toMap s.table) (toMap u.table))
      (fun _ u => Leaves (toMap s.table) (toMap u.table)) := by
  rw [add]
  refine Results.bind ((findIndex_inside h value).mono (fun _ _ => id)
    fun _ _ hu => .of_eq h hu) ?_
  rintro r u ⟨htable, -⟩
  rw [← htable] at h ⊢
  cases r with
  | some index => exact Leaves.of_eq h rfl
  | none =>
      refine Results.bind (ensureRoomForNewEntry_room h) ?_
      rintro _ u' (⟨hsame, hfits⟩ | hgrown)
      · rw [← hsame] at h ⊢
        refine Results.bind ((findInsertionIndex_free h value).mono (fun _ _ => id)
          fun _ _ hu => .of_eq h hu) ?_
        rintro i u'' ⟨htable', hi, hfree⟩
        rw [← htable'] at h hi hfree ⊢
        have hfits' : ¬((toMap u''.table).count + (toMap u''.table).tombstoneCount + 1) * 10
            ≥ (toMap u''.table).capacity * 7 := by
          rw [htable', hsame]
          exact hfits
        have hroomy := h.store hfits' hi hfree value ()
        rw [store_toMap] at hroomy
        exact ⟨hroomy, .inl rfl⟩
      · have hroomy := hgrown.roomy (t := toMap u.table) h.loaded
        refine Results.bind ((findInsertionIndex_free hroomy value).mono (fun _ _ => id)
          fun _ u'' hu => ⟨by rw [hu]; exact hroomy, .inr ?_⟩) ?_
        · rw [hu]
          exact hgrown.capacity
        · rintro i u'' ⟨htable', hi, hfree⟩
          rw [← htable'] at hgrown hi hfree
          have hstored := hgrown.store (t := toMap u.table) h hi hfree value ()
          rw [store_toMap] at hstored
          exact ⟨hstored, .inr hgrown.capacity⟩

theorem remove_leaves (h : Roomy (toMap s.table)) (value : T) :
    Results (remove calls value) s (fun _ u => Leaves (toMap s.table) (toMap u.table))
      (fun _ u => Leaves (toMap s.table) (toMap u.table)) := by
  rw [remove]
  refine Results.bind ((findIndex_inside h value).mono (fun _ _ => id)
    fun _ _ hu => .of_eq h hu) ?_
  rintro r u ⟨htable, hr⟩
  rw [← htable] at h hr ⊢
  cases r with
  | none => exact Leaves.of_eq h rfl
  | some index =>
      obtain ⟨k, v, hslot⟩ := hr index rfl
      have hroomy := HashMap.Throwing.removed_roomy h hslot
      have hremoved : HashMap.write (toMap u.table) index .removed (u.table.count - 1)
            (u.table.tombstoneCount + 1)
          = toMap { u.table with places := u.table.places.set index .removed,
                                 count := u.table.count - 1,
                                 tombstoneCount := u.table.tombstoneCount + 1 } := by
        simp only [toMap, HashMap.write, List.map_set]
        rfl
      exact ⟨hremoved ▸ hroomy, .inl rfl⟩

theorem clear_leaves {t : HashSet T} (h : Roomy (toMap t)) : Leaves (toMap t) (toMap (clear t)) := by
  have hmask : t.mask = t.capacity - 1 := h.sized.mask
  have hroomy := HashMap.Throwing.clear_roomy h
  rw [HashMap.clear, freshTable_toMap] at hroomy
  rw [clear, hmask]
  exact ⟨hroomy, .inl rfl⟩

theorem step_leaves {t t' : HashSet T} {op : Op T} (h : Roomy (toMap t))
    (hstep : step calls t op t') : Leaves (toMap t) (toMap t') := by
  obtain ⟨w, rfl⟩ := hstep
  have happly : Results (apply calls op) (⟨t, w⟩ : Hashing (HashSet T) W)
      (fun _ u => Leaves (toMap t) (toMap u.table)) fun _ u => Leaves (toMap t) (toMap u.table) := by
    cases op with
    | add value => exact Results.bind (add_leaves h value) fun _ _ hu => hu
    | remove value => exact Results.bind (remove_leaves h value) fun _ _ hu => hu
    | clear => exact clear_leaves h
  exact Raising.Results.state happly

end Throwing

end HashSet

/-! ## Every run -/

namespace HashMap

variable {calls : Calls K W}

theorem Constructed.roomy {t : HashMap K V} (h : t.Constructed) : Roomy t := by
  have hholds : Holds (indifferent K) t KeyMap.empty := holds_of_fresh h.fresh
  exact ⟨hholds.inv.sized, hholds.loaded⟩

theorem roomy_of_run {t₀ t : HashMap K V} {past : List (Op K V)} (h₀ : t₀.Constructed)
    (hrun : Runs.Run (Throwing.step calls) t₀ past t) : Roomy t :=
  hrun.stateInvariant h₀.roomy fun _ _ _ hroomy hstep => (Throwing.step_leaves hroomy hstep).roomy

/-- What a requested capacity leads to. -/
theorem safe_of_rounds {initialCapacity capacity : Int32} (h : 1 ≤ initialCapacity)
    (hrounds : Rounds initialCapacity capacity) :
    (freshTable unset capacity.toInt.toNat : HashMap K V).Safe ↔
      initialCapacity.toInt ≤ 2 ^ 28 := by
  have hmax := toInt_atLeastFour initialCapacity
  rw [safe_iff (Constructed.roomy (.inr ⟨initialCapacity, capacity, h, hrounds, rfl⟩))]
  exact le_pow_iff_of_ends (by omega) (by decide) (by omega) hrounds

end HashMap

namespace HashSet

variable {calls : Calls T W}

theorem Constructed.roomy {s : HashSet T} (h : s.Constructed) : HashMap.Roomy (toMap s) := by
  have hholds := holds_of_fresh indifferent_lawful h.fresh
  exact ⟨hholds.inv.sized, hholds.loaded⟩

theorem roomy_of_run {s₀ s : HashSet T} {past : List (Op T)} (h₀ : s₀.Constructed)
    (hrun : Runs.Run (Throwing.step calls) s₀ past s) : HashMap.Roomy (toMap s) :=
  hrun.stateInvariant (I := fun s => HashMap.Roomy (toMap s)) h₀.roomy
    fun _ _ _ hroomy hstep => (Throwing.step_leaves hroomy hstep).roomy

theorem safe_iff {s : HashSet T} (h : HashMap.Roomy (toMap s)) : s.Safe ↔ s.capacity ≤ 2 ^ 28 := by
  have hmap := HashMap.safe_iff h
  exact hmap

theorem safe_of_rounds {initialCapacity capacity : Int32} (h : 1 ≤ initialCapacity)
    (hrounds : Rounds initialCapacity capacity) :
    (freshTable capacity.toInt.toNat : HashSet T).Safe ↔ initialCapacity.toInt ≤ 2 ^ 28 := by
  have hone : (1 : Int32).toInt ≤ initialCapacity.toInt := Int32.le_iff_toInt_le.mp h
  have hvalue : (1 : Int32).toInt = 1 := rfl
  rw [safe_iff (Constructed.roomy (.inr ⟨initialCapacity, capacity, h, hrounds, rfl⟩))]
  exact le_pow_iff_of_ends (by omega) (by decide) Iff.rfl hrounds

end HashSet

open Runs

/-- The rounding ends as it should exactly for capacities up to 2^30; the load test and the
doubling stay within `int32` in exactly those tables, of all that calls lead to, that have at most
2^28 slots, which a table has at first if no more were requested. -/
theorem sizing_iff {K V W : Type} (calls : Calls K W) (initialCapacity : Int32)
    (h : 1 ≤ initialCapacity) :
    (((∃ capacity, HashMap.Rounds initialCapacity capacity ∧ Fits initialCapacity capacity) ↔
        initialCapacity.toInt ≤ 2 ^ 30) ∧
      (∀ capacity, HashMap.Rounds initialCapacity capacity →
        ((HashMap.freshTable HashMap.unset capacity.toInt.toNat : HashMap K V).Safe ↔
          initialCapacity.toInt ≤ 2 ^ 28)) ∧
      ∀ (t₀ t : HashMap K V) (past : List (HashMap.Op K V)), t₀.Constructed →
        RunUnder (HashMap.Throwing.step calls) (fun t _ => t.capacity ≤ 2 ^ 28) t₀ past t →
        (t.Safe ↔ t.capacity ≤ 2 ^ 28)) ∧
    ((∃ capacity, HashSet.Rounds initialCapacity capacity ∧ Fits initialCapacity capacity) ↔
        initialCapacity.toInt ≤ 2 ^ 30) ∧
      (∀ capacity, HashSet.Rounds initialCapacity capacity →
        ((HashSet.freshTable capacity.toInt.toNat : HashSet K).Safe ↔
          initialCapacity.toInt ≤ 2 ^ 28)) ∧
      ∀ (s₀ s : HashSet K) (past : List (HashSet.Op K)), s₀.Constructed →
        RunUnder (HashSet.Throwing.step calls) (fun s _ => s.capacity ≤ 2 ^ 28) s₀ past s →
        (s.Safe ↔ s.capacity ≤ 2 ^ 28) := by
  refine ⟨⟨HashMap.rounds_iff, fun capacity => HashMap.safe_of_rounds h, ?_⟩,
    HashSet.rounds_iff h, fun capacity => HashSet.safe_of_rounds h, ?_⟩
  · intro t₀ t past h₀ hrun
    exact HashMap.safe_iff (HashMap.roomy_of_run h₀ hrun.run)
  · intro s₀ s past h₀ hrun
    exact HashSet.safe_iff (HashSet.roomy_of_run h₀ hrun.run)

/-- A requested capacity of 100, and a map that one entry was put into. -/
theorem sizing_hundred :
    (∃ capacity, HashMap.Rounds 100 capacity ∧ Fits 100 capacity) ∧
      ∃ t : HashMap Nat Nat, HashMap.Throwing.step
        (⟨fun k w => (.ok (BitVec.ofNat 64 k), w), fun a b w => (.ok (a == b), w)⟩ : Calls Nat Unit)
        HashMap.new (.put 1 10) t ∧ t.count = 1 ∧ t.Safe := by
  refine ⟨(sizing_iff (V := Nat) (⟨fun k w => (.ok (BitVec.ofNat 64 k), w),
    fun a b w => (.ok (a == b), w)⟩ : Calls Nat Unit) 100 (by decide)).1.1.mpr (by decide), ?_⟩
  refine ⟨_, ⟨(), rfl⟩, rfl, ?_⟩
  exact ((sizing_iff (V := Nat) _ 100 (by decide)).1.2.2 _ _ [.put 1 10] (.inl rfl)
    (.cons .nil (by decide) ⟨(), rfl⟩)).mpr (by decide)

/-- 2^30 + 1 is never reached, and a table made for 2^28 + 1 is too large for its load test. -/
theorem not_sizing :
    (¬∃ capacity, HashMap.Rounds 1073741825 capacity ∧ Fits 1073741825 capacity) ∧
      (¬∃ capacity, HashSet.Rounds 1073741825 capacity ∧ Fits 1073741825 capacity) ∧
      ∃ capacity, HashMap.Rounds 268435457 capacity ∧
        ¬(HashMap.freshTable HashMap.unset capacity.toInt.toNat : HashMap Nat Nat).Safe := by
  refine ⟨?_, ?_, ?_⟩
  · rw [HashMap.rounds_iff]
    decide
  · rw [HashSet.rounds_iff (by decide)]
    decide
  · obtain ⟨capacity, hrounds, -⟩ := HashMap.rounds_iff.mpr (show (268435457 : Int32).toInt ≤ 2 ^ 30
      by decide)
    refine ⟨capacity, hrounds, ?_⟩
    rw [HashMap.safe_of_rounds (by decide) hrounds]
    decide

end Collections

end Absolute
