import Absolute.StdHashMapInv

/-!
# Every sequence of calls on a hash map

Each operation of `StdHashMap` keeps `Inv` and the load bound, succeeds, and
changes the live entries as the map operation of `KeyMap` does; a sequence of
calls on a fresh map is then an induction (`applyAll_spec`). What a table that
holds a map answers is read off it once, in `Agrees.of_held`.
-/

namespace Absolute

namespace Collections

namespace HashMap

variable {K V : Type} {cb : Callbacks K}

/-! ## Rehashing -/

theorem tombstones_pos {t : HashMap K V} (hI : Inv cb t) {i : Nat}
    (h : slot t i = .removed) : 0 < t.tombstoneCount := by
  have hi : i < t.slots.length := slot_lt (by rw [h]; nofun)
  rw [hI.tombstones, List.countP_pos_iff]
  refine ⟨slot t i, ?_, by rw [h]; rfl⟩
  rw [slot, List.getD_eq_getElem _ _ hi]
  exact List.getElem_mem hi

/-- Without tombstones a rehashed entry is stored like any other. -/
theorem insertRehashed_spec (hl : cb.Lawful) {t : HashMap K V} (hI : Inv cb t)
    (htomb : t.tombstoneCount = 0) (hroom : t.count < t.capacity) {key : K} (value : V)
    (habs : ∀ k v, Live t k v → cb.equals k key = false) :
    ∃ t', insertRehashed cb t key value = some t' ∧ Inv cb t' ∧
      (∀ k v, Live t' k v ↔ Live t k v ∨ k = key ∧ v = value) ∧
      SameTable t t' (t.count + 1) 0 := by
  obtain ⟨i, hfind, hv⟩ := hI.vacant (by omega) habs
  obtain ⟨hI', hlive, -, -, -⟩ := store_spec hl hI hv value
  have hstore : insertRehashed cb t key value = some (store t i key value) := by
    rw [insertRehashed, hfind, Option.map_some, store]
    cases hs : slot t i with
    | removed => exact absurd htomb (Nat.ne_of_gt (tombstones_pos hI hs))
    | empty => rfl
    | occupied k v => rfl
  refine ⟨_, hstore, hI', hlive, rfl, rfl, ?_⟩
  simp only [store]
  split <;> omega

/-- Two slots do not hold equal keys. -/
def Apart (cb : Callbacks K) (s s' : Slot K V) : Prop :=
  ∀ k v k' v', s = .occupied k v → s' = .occupied k' v' → cb.equals k k' = false

theorem Inv.apart {t : HashMap K V} (hI : Inv cb t) : t.slots.Pairwise (Apart cb) := by
  rw [List.pairwise_iff_getElem]
  intro i j hi hj hij k v k' v' hs hs'
  refine Bool.eq_false_iff.mpr fun heq => ?_
  have := hI.unique ((List.getD_eq_getElem _ _ hi).trans hs)
    ((List.getD_eq_getElem _ _ hj).trans hs') heq
  omega

theorem rehash_fold (hl : cb.Lawful) {slots : List (Slot K V)} {t : HashMap K V}
    (hI : Inv cb t) (htomb : t.tombstoneCount = 0)
    (hroom : t.count + slots.countP Slot.isOccupied < t.capacity)
    (hapart : slots.Pairwise (Apart cb))
    (habs : ∀ k v, Live t k v → ∀ k' v', .occupied k' v' ∈ slots → cb.equals k k' = false) :
    ∃ t', slots.foldlM (rehashSlot cb) t = some t' ∧ Inv cb t' ∧
      (∀ k v, Live t' k v ↔ Live t k v ∨ .occupied k v ∈ slots) ∧
      SameTable t t' (t.count + slots.countP Slot.isOccupied) 0 := by
  induction slots generalizing t with
  | nil => exact ⟨t, rfl, hI, by simp, rfl, by simp, htomb⟩
  | cons s slots ih =>
      obtain ⟨hs, hrest⟩ := List.pairwise_cons.mp hapart
      cases s with
      | empty | removed =>
          -- a slot without an entry is passed over
          rw [List.countP_cons_of_neg (by simp [Slot.isOccupied])] at hroom ⊢
          obtain ⟨t', hfold, hI', hlive, hsame⟩ := ih hI htomb hroom hrest
            fun k v hk k' v' hmem => habs k v hk k' v' (List.mem_cons_of_mem _ hmem)
          exact ⟨t', hfold, hI', fun k v => by rw [hlive]; simp, hsame⟩
      | occupied key value =>
          rw [List.countP_cons_of_pos (by rfl)] at hroom ⊢
          obtain ⟨t₁, hstep, hI₁, hlive₁, hcap, hcount, htomb₁⟩ :=
            insertRehashed_spec hl hI htomb (by omega) value
              fun k v hk => habs k v hk key value List.mem_cons_self
          obtain ⟨t', hfold, hI', hlive, hcap', hcount', htomb'⟩ :=
            ih hI₁ htomb₁ (by omega) hrest fun k v hk k' v' hmem => by
              rcases (hlive₁ k v).mp hk with hk | ⟨rfl, rfl⟩
              · exact habs k v hk k' v' (List.mem_cons_of_mem _ hmem)
              · exact hs _ hmem _ _ _ _ rfl rfl
          refine ⟨t', by rw [List.foldlM_cons, rehashSlot, hstep]; exact hfold, hI', fun k v => ?_,
            hcap'.trans hcap, by omega, htomb'⟩
          rw [hlive, hlive₁, List.mem_cons, Slot.occupied.injEq, or_assoc]

theorem slot_freshTable (t : HashMap K V) (n i : Nat) : slot (freshTable t n) i = .empty := by
  rw [slot, freshTable, allocateTable, List.getD_eq_getElem?_getD, List.getElem?_replicate]
  split <;> rfl

theorem not_live_freshTable (t : HashMap K V) (n : Nat) (k : K) (v : V) :
    ¬Live (freshTable t n) k v := by
  rintro ⟨i, h⟩
  rw [slot_freshTable] at h
  cases h

theorem inv_freshTable (t : HashMap K V) {n : Nat} (hn : 2 ≤ n) :
    Inv cb (freshTable t (2 ^ n)) where
  power := ⟨n, hn, rfl⟩
  mask := rfl
  size := List.length_replicate
  count := by simp [freshTable, allocateTable, List.countP_replicate, Slot.isOccupied]
  tombstones := by simp [freshTable, allocateTable, List.countP_replicate, Slot.isRemoved]
  reach := fun {i k v} h => absurd ⟨i, h⟩ (not_live_freshTable t _ k v)
  unique := fun {i _ k v _ _} h => absurd ⟨i, h⟩ (not_live_freshTable t _ k v)

theorem live_iff_mem {t : HashMap K V} {k : K} {v : V} :
    Live t k v ↔ .occupied k v ∈ t.slots := by
  constructor
  · rintro ⟨i, h⟩
    have hi : i < t.slots.length := slot_lt (by rw [h]; nofun)
    rw [slot, List.getD_eq_getElem _ _ hi] at h
    exact h ▸ List.getElem_mem hi
  · intro h
    obtain ⟨i, hi, hs⟩ := List.mem_iff_getElem.mp h
    exact ⟨i, (List.getD_eq_getElem _ _ hi).trans hs⟩

theorem rehash_spec (hl : cb.Lawful) {t : HashMap K V} (hI : Inv cb t) (hload : Loaded t) :
    ∃ t', rehash cb t (t.capacity * 2) = some t' ∧ Inv cb t' ∧
      (∀ k v, Live t' k v ↔ Live t k v) ∧
      t'.capacity = t.capacity * 2 ∧ t'.count = t.count ∧ t'.tombstoneCount = 0 := by
  obtain ⟨n, hn, hcap⟩ := hI.power
  have hroom := hload.room
  have hpow : t.capacity * 2 = 2 ^ (n + 1) := by rw [hcap, Nat.pow_succ]
  have hfresh := not_live_freshTable t (2 ^ (n + 1))
  obtain ⟨t', hfold, hI', hlive, hc, hcount, htomb⟩ :=
    rehash_fold hl (inv_freshTable t (show 2 ≤ n + 1 by omega)) rfl
      (by simp only [freshTable, allocateTable, ← hI.count, ← hpow]; omega) hI.apart
      fun k v hk => absurd hk (hfresh k v)
  refine ⟨t', by rw [rehash, hpow]; exact hfold, hI', fun k v => ?_, hc.trans hpow.symm, ?_,
    htomb⟩
  · rw [hlive]
    simp only [hfresh, false_or]
    exact live_iff_mem.symm
  · rw [hcount, hI.count, freshTable, Nat.zero_add]

/-! ## One call -/

/-- The table is sound, below its load bound, and its live entries hold `m`. -/
structure Holds (cb : Callbacks K) (t : HashMap K V) (m : KeyMap cb.equals V) : Prop where
  inv : Inv cb t
  loaded : Loaded t
  held : m.HeldBy (Live t)

theorem findIndex_isSome_iff (hl : cb.Lawful) {t : HashMap K V} {m : KeyMap cb.equals V}
    (h : Holds cb t m) (key : K) : (findIndex cb t key).isSome = (m.lookup key).isSome := by
  cases hf : findIndex cb t key with
  | none =>
      rw [h.held.lookup_isNone fun k v hlive => findIndex_none hl h.inv hf hlive]
      rfl
  | some i =>
      obtain ⟨k, v, hs, heq⟩ := findIndex_some hf
      rw [(h.held key v).mpr ⟨k, ⟨i, hs⟩, heq⟩]
      rfl

theorem put_spec (hl : cb.Lawful) {t : HashMap K V} {m : KeyMap cb.equals V}
    (h : Holds cb t m) (key : K) (value : V) :
    ∃ t', put cb t key value = some t' ∧ Holds cb t' (m.put hl.eqv key value) := by
  have hI := h.inv
  have hroom := h.loaded.room
  cases hf : findIndex cb t key with
  | some i =>
      obtain ⟨k₀, v₀, hs, heq⟩ := findIndex_some hf
      obtain ⟨hI', hlive, hcap, hcount, htomb⟩ := setValue_spec hl hI hs heq value
      refine ⟨setValue t i value, by rw [put, putProbeGo_found hf], hI', ?_,
        h.held.replace hl.eqv heq hlive⟩
      rw [Loaded, hcap, hcount, htomb]
      exact h.loaded
  | none =>
      have habs : ∀ k v, Live t k v → cb.equals k key = false :=
        fun k v hlive => findIndex_none hl hI hf hlive
      obtain ⟨last, first, hprobe, hfree⟩ :=
        @putProbeGo_absent _ _ cb t key _ _ none hf (hI.exists_unused hroom key)
      rw [put, hprobe]
      dsimp only
      split
      · -- grown: the slot found above is probed again
        rename_i hfull
        obtain ⟨grown, hrehash, hG, hliveG, hcapG, hcountG, htombG⟩ :=
          rehash_spec hl hI h.loaded
        have habsG : ∀ k v, Live grown k v → cb.equals k key = false :=
          fun k v hk => habs k v ((hliveG k v).mp hk)
        obtain ⟨i, hfind, hv⟩ := hG.vacant (by omega) habsG
        obtain ⟨hI', hlive, hcap, hcount, htomb⟩ := store_spec hl hG hv value
        refine ⟨store grown i key value, by rw [hrehash]; simp [hfind], hI', ?_,
          (h.held.congr hliveG).insert hl.eqv habsG hlive⟩
        have hload := h.loaded
        have hfour := hI.four_le
        rw [Loaded] at hload ⊢
        omega
      · rename_i hfits
        obtain ⟨i, hfind, hv⟩ := hI.vacant hroom habs
        obtain rfl : i = first.getD last := Option.some.inj (hfind.symm.trans hfree)
        obtain ⟨hI', hlive, hcap, -, -⟩ := store_spec hl hI hv value
        refine ⟨_, rfl, hI', ?_, h.held.insert hl.eqv habs hlive⟩
        have hused := store_used t (first.getD last) key value
        rw [Loaded, hcap]
        omega

theorem remove_spec (hl : cb.Lawful) {t : HashMap K V} {m : KeyMap cb.equals V}
    (h : Holds cb t m) (key : K) :
    (remove cb t key).1 = (m.lookup key).isSome ∧
      Holds cb (remove cb t key).2 (m.erase hl.eqv key) := by
  have hsome := findIndex_isSome_iff hl h key
  rw [remove]
  cases hf : findIndex cb t key with
  | none =>
      rw [hf] at hsome
      refine ⟨hsome, h.inv, h.loaded, h.held.remove hl.eqv fun k v => ?_⟩
      exact ⟨fun hlive => ⟨hlive, findIndex_none hl h.inv hf hlive⟩, And.left⟩
  | some i =>
      rw [hf] at hsome
      obtain ⟨k₀, v₀, hs, heq⟩ := findIndex_some hf
      obtain ⟨hI', hlive, hpos⟩ := removed_spec hl h.inv hs heq
      refine ⟨hsome, hI', ?_, h.held.remove hl.eqv hlive⟩
      have hload := h.loaded
      rw [Loaded] at hload ⊢
      dsimp only
      omega

theorem tryAdd_spec (hl : cb.Lawful) {t : HashMap K V} {m : KeyMap cb.equals V}
    (h : Holds cb t m) (key : K) (value : V) :
    ∃ t', tryAdd cb t key value = some ((m.lookup key).isNone, t') ∧
      Holds cb t' (if (m.lookup key).isSome then m else m.put hl.eqv key value) := by
  have hsome := findIndex_isSome_iff hl h key
  rw [tryAdd, containsKey, hsome]
  cases hm : m.lookup key with
  | some v => exact ⟨t, rfl, h⟩
  | none =>
      obtain ⟨t', hput, h'⟩ := put_spec hl h key value
      exact ⟨t', by simp [hput], h'⟩

theorem holds_freshTable {t : HashMap K V} {n : Nat} (hn : 2 ≤ n) :
    Holds cb (freshTable t (2 ^ n)) KeyMap.empty where
  inv := inv_freshTable t hn
  loaded := by
    have := Nat.pow_le_pow_right (n := 2) (by omega) hn
    simp only [Loaded, freshTable, allocateTable]
    omega
  held := KeyMap.heldBy_empty.congr fun k v => by simp [not_live_freshTable]

theorem clear_spec {t : HashMap K V} (hI : Inv cb t) : Holds cb (clear t) KeyMap.empty := by
  obtain ⟨n, hn, hcap⟩ := hI.power
  rw [clear, hcap]
  exact holds_freshTable hn

/-! ## Sequences of calls -/

/-- What a call does to the map. -/
def applyMap (hl : cb.Lawful) (m : KeyMap cb.equals V) : Op K V → KeyMap cb.equals V
  | .put key value => m.put hl.eqv key value
  | .tryAdd key value => if (m.lookup key).isSome then m else m.put hl.eqv key value
  | .remove key => m.erase hl.eqv key
  | .set key value => m.put hl.eqv key value
  | .clear => KeyMap.empty

theorem apply_spec (hl : cb.Lawful) {t : HashMap K V} {m : KeyMap cb.equals V}
    (h : Holds cb t m) (op : Op K V) :
    ∃ t', apply cb t op = some t' ∧ Holds cb t' (applyMap hl m op) := by
  cases op with
  | put key value => exact put_spec hl h key value
  | tryAdd key value =>
      obtain ⟨t', hadd, h'⟩ := tryAdd_spec hl h key value
      exact ⟨t', by rw [apply, hadd]; rfl, h'⟩
  | remove key => exact ⟨_, rfl, (remove_spec hl h key).2⟩
  | set key value => exact put_spec hl h key value
  | clear => exact ⟨_, rfl, clear_spec h.inv⟩

theorem applyAll_spec (hl : cb.Lawful) {t : HashMap K V} {m : KeyMap cb.equals V}
    (h : Holds cb t m) (ops : List (Op K V)) :
    ∃ t', applyAll cb t ops = some t' ∧ Holds cb t' (ops.foldl (applyMap hl) m) := by
  induction ops generalizing t m with
  | nil => exact ⟨t, rfl, h⟩
  | cons op ops ih =>
      obtain ⟨t₁, hop, h₁⟩ := apply_spec hl h op
      obtain ⟨t', hops, h'⟩ := ih h₁
      exact ⟨t', by rw [applyAll, List.foldlM_cons, hop]; exact hops, h'⟩

/-- A map as a constructor leaves it. -/
def Fresh (t : HashMap K V) : Prop :=
  t = new ∨ ∃ initialCapacity, newWithCapacity initialCapacity = .ok t

theorem roundUpToPowerOfTwoGo_pow (requested : Nat) : ∀ n {k : Nat}, 2 ≤ k →
    ∃ k', 2 ≤ k' ∧ roundUpToPowerOfTwoGo requested n (2 ^ k) = 2 ^ k'
  | 0, k, hk => ⟨k, hk, rfl⟩
  | n + 1, k, hk => by
      rw [roundUpToPowerOfTwoGo]
      split
      · rw [← Nat.pow_succ]
        exact roundUpToPowerOfTwoGo_pow requested n (by omega)
      · exact ⟨k, hk, rfl⟩

theorem holds_of_fresh {t : HashMap K V} (h : Fresh t) : Holds cb t KeyMap.empty := by
  rcases h with rfl | ⟨c, h⟩
  · exact holds_freshTable (n := 3) (by omega)
  · rw [newWithCapacity] at h
    split at h
    · cases h
    · obtain ⟨k, hk, hround⟩ := roundUpToPowerOfTwoGo_pow
        (if c < 4 then 4 else c.toNat) (if c < 4 then 4 else c.toNat) (Nat.le_refl 2)
      obtain rfl := Except.ok.inj h
      rw [roundUpToPowerOfTwo]
      exact hround ▸ holds_freshTable hk

/-! ## What a table that holds a map answers -/

/-- The live entries in the order of their slots. -/
def entries (slots : List (Slot K V)) : List (K × V) :=
  slots.filterMap fun
    | .occupied key value => some (key, value)
    | _ => none

theorem mem_entries {slots : List (Slot K V)} {k : K} {v : V} :
    (k, v) ∈ entries slots ↔ .occupied k v ∈ slots := by
  rw [entries, List.mem_filterMap]
  constructor
  · rintro ⟨s, hs, heq⟩
    cases s with
    | occupied key value =>
        obtain ⟨rfl, rfl⟩ := Prod.mk.inj (Option.some.inj heq)
        exact hs
    | empty => cases heq
    | removed => cases heq
  · exact fun h => ⟨_, h, rfl⟩

theorem length_entries (slots : List (Slot K V)) :
    (entries slots).length = slots.countP Slot.isOccupied := by
  induction slots with
  | nil => rfl
  | cons s slots ih =>
      cases s with
      | empty | removed =>
          rw [List.countP_cons_of_neg (by simp [Slot.isOccupied]), ← ih]
          rfl
      | occupied key value =>
          rw [List.countP_cons_of_pos (by rfl), ← ih]
          rfl

theorem entries_apart {slots : List (Slot K V)} (h : slots.Pairwise (Apart cb)) :
    (entries slots).Pairwise fun p q => cb.equals p.1 q.1 = false := by
  induction slots with
  | nil => exact .nil
  | cons s slots ih =>
      obtain ⟨hs, hrest⟩ := List.pairwise_cons.mp h
      cases s with
      | empty | removed => exact ih hrest
      | occupied key value =>
          refine .cons (fun q hq => ?_) (ih hrest)
          exact hs _ (mem_entries.mp hq) _ _ _ _ rfl rfl

/-- The copying loop fills the result with the entries, in order. -/
theorem collectGo_eq {β : Type} (entry : K → V → β) {slots : List (Slot K V)}
    (done : List β) {n : Nat} (hn : n = slots.countP Slot.isOccupied) :
    collectGo entry slots done.length (done.map some ++ List.replicate n none)
      = some ((done ++ (entries slots).map fun p => entry p.1 p.2).map some) := by
  induction slots generalizing done n with
  | nil =>
      subst hn
      simp [collectGo, entries]
  | cons s slots ih =>
      cases s with
      | empty | removed =>
          rw [List.countP_cons_of_neg (by simp [Slot.isOccupied])] at hn
          exact ih done hn
      | occupied key value =>
          rw [List.countP_cons_of_pos (by rfl)] at hn
          subst hn
          rw [collectGo, if_pos (by simp), List.replicate_succ]
          have hset : (done.map some ++ none :: List.replicate
                (slots.countP Slot.isOccupied) none).set done.length (some (entry key value))
              = (done ++ [entry key value]).map some
                ++ List.replicate (slots.countP Slot.isOccupied) none := by
            rw [List.set_append_right _ _ (by simp)]
            simp
          have := ih (done ++ [entry key value]) rfl
          rw [List.length_append, List.length_singleton] at this
          rw [hset, this]
          simp [entries]

theorem Inv.collect_eq {β : Type} (entry : K → V → β) {t : HashMap K V} (hI : Inv cb t) :
    collect entry t = some (((entries t.slots).map fun p => entry p.1 p.2).map some) :=
  collectGo_eq entry [] hI.count

/-- Everything the table tells about itself is what `m` says. -/
structure Agrees (cb : Callbacks K) (t : HashMap K V) (m : KeyMap cb.equals V) : Prop where
  containsKey : ∀ key, containsKey cb t key = (m.lookup key).isSome
  get : ∀ key, get cb t key = (m.lookup key).elim (.error "Key not found") .ok
  tryAdd : ∀ key value, (tryAdd cb t key value).map Prod.fst = some (m.lookup key).isNone
  remove : ∀ key, (remove cb t key).1 = (m.lookup key).isSome
  /-- The arrays list one entry for each key class of the map. -/
  arrays : ∃ pairs : List (K × V),
    toArray t = some (pairs.map some) ∧
    keysToArray t = some ((pairs.map Prod.fst).map some) ∧
    valuesToArray t = some ((pairs.map Prod.snd).map some) ∧
    t.count = pairs.length ∧
    pairs.Pairwise (fun p q => cb.equals p.1 q.1 = false) ∧
    ∀ k v, m.lookup k = some v ↔ ∃ p ∈ pairs, p.2 = v ∧ cb.equals p.1 k = true

theorem Agrees.of_held (hl : cb.Lawful) {t : HashMap K V} {m : KeyMap cb.equals V}
    (h : Holds cb t m) : Agrees cb t m where
  containsKey := findIndex_isSome_iff hl h
  get key := by
    have hsome := findIndex_isSome_iff hl h key
    rw [HashMap.get]
    cases hf : findIndex cb t key with
    | none =>
        rw [hf] at hsome
        rw [Option.isNone_iff_eq_none.mp (Option.isSome_eq_false_iff.mp hsome.symm)]
        rfl
    | some i =>
        obtain ⟨k, v, hs, heq⟩ := findIndex_some hf
        dsimp only
        rw [hs, (h.held key v).mpr ⟨k, ⟨i, hs⟩, heq⟩]
        rfl
  tryAdd key value := by
    obtain ⟨t', hadd, -⟩ := tryAdd_spec hl h key value
    rw [hadd]
    rfl
  remove key := (remove_spec hl h key).1
  arrays := by
    refine ⟨entries t.slots, ?_, h.inv.collect_eq _, h.inv.collect_eq _, ?_,
      entries_apart h.inv.apart, fun k v => (h.held k v).trans ?_⟩
    · rw [toArray, h.inv.collect_eq]
      simp
    · rw [h.inv.count, length_entries]
    · constructor
      · rintro ⟨k', hlive, heq⟩
        exact ⟨(k', v), mem_entries.mpr (live_iff_mem.mp hlive), rfl, heq⟩
      · rintro ⟨⟨k', v⟩, hmem, rfl, heq⟩
        exact ⟨k', live_iff_mem.mpr (mem_entries.mp hmem), heq⟩

/-- Any calls on a fresh map go through; the table they leave satisfies the
invariant and the load bound and agrees with the map of the same calls. -/
theorem hashMap_refines (hl : cb.Lawful) {t₀ : HashMap K V} (hfresh : Fresh t₀)
    (ops : List (Op K V)) :
    ∃ t, applyAll cb t₀ ops = some t ∧ Inv cb t ∧ Loaded t ∧
      Agrees cb t (ops.foldl (applyMap hl) KeyMap.empty) := by
  obtain ⟨t, hops, h⟩ := applyAll_spec hl (holds_of_fresh hfresh) ops
  exact ⟨t, hops, h.inv, h.loaded, .of_held hl h⟩

/-- Keys that are their own hash, compared by identity. -/
def natCallbacks : Callbacks Nat := ⟨BitVec.ofNat 64, fun a b => a == b⟩

theorem natCallbacks_lawful : natCallbacks.Lawful where
  eqv := ⟨fun _ => beq_self_eq_true _, fun h => beq_iff_eq.mpr (beq_iff_eq.mp h).symm,
    fun h h' => beq_iff_eq.mpr ((beq_iff_eq.mp h).trans (beq_iff_eq.mp h'))⟩
  hash_eq h := by rw [beq_iff_eq.mp h]

/-- Two colliding keys, one removed, its tombstone taken again. -/
theorem hashMap_refines_collision :
    ∃ t : HashMap Nat Nat,
      applyAll natCallbacks new [.put 1 10, .put 9 90, .remove 1, .put 17 5] = some t ∧
        Inv natCallbacks t ∧ Loaded t ∧
        Agrees natCallbacks t ([.put 1 10, .put 9 90, .remove 1, .put 17 5].foldl
          (applyMap natCallbacks_lawful) KeyMap.empty) :=
  hashMap_refines natCallbacks_lawful (.inl rfl) _

end HashMap

end Collections

end Absolute
