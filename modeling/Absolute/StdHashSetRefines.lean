import Absolute.StdHashMapRefines
import Absolute.StdHashSet
import Mathlib.Data.Finset.Card

/-!
# The hash set holds a finite set

The set's table is the table of a map whose values say nothing (`toMap`), and every loop and
operation of the set is the map's on it: `add`, which probes twice, is `tryAdd`, which probes
once and again after growing. What holds of the map's calls then holds of the set's, with the
finite set of the classes of equal elements in place of the map.
-/

namespace Absolute

namespace Collections

def Place.toSlot {T : Type} : Place T → Slot T Unit
  | .empty => .empty
  | .occupied item => .occupied item ()
  | .removed => .removed

namespace HashSet

variable {T : Type} {cb : Callbacks T}

/-- The set as a map to nothing. -/
def toMap (s : HashSet T) : HashMap T Unit where
  slots := s.places.map Place.toSlot
  count := s.count
  tombstoneCount := s.tombstoneCount
  capacity := s.capacity
  mask := s.mask

/-! ## The loops are the map's -/

theorem slot_toMap (s : HashSet T) (index : Nat) :
    HashMap.slot (toMap s) index = (place s index).toSlot :=
  List.getD_map s.places Place.empty Place.toSlot

theorem findIndexGo_toMap (s : HashSet T) (value : T) (n index : Nat) :
    HashMap.findIndexGo cb (toMap s) value n index = findIndexGo cb s value n index := by
  induction n generalizing index with
  | zero => rfl
  | succ n ih =>
      rw [HashMap.findIndexGo, findIndexGo, slot_toMap]
      cases place s index with
      | empty => rfl
      | occupied item =>
          simp only [Place.toSlot]
          rw [show HashMap.next (toMap s) index = next s index from rfl, ih]
      | removed => exact ih _

theorem findIndex_toMap (s : HashSet T) (value : T) :
    HashMap.findIndex cb (toMap s) value = findIndex cb s value :=
  findIndexGo_toMap s value _ _

theorem findInsertionIndexGo_toMap (s : HashSet T) (n index : Nat) (first : Option Nat) :
    HashMap.findInsertionIndexGo (toMap s) n index first
      = findInsertionIndexGo s n index first := by
  induction n generalizing index first with
  | zero => rfl
  | succ n ih =>
      rw [HashMap.findInsertionIndexGo, findInsertionIndexGo, slot_toMap]
      cases place s index with
      | empty => rfl
      | occupied item => exact ih _ _
      | removed => exact ih _ _

theorem findInsertionIndex_toMap (s : HashSet T) (value : T) :
    HashMap.findInsertionIndex cb (toMap s) value = findInsertionIndex cb s value :=
  findInsertionIndexGo_toMap s _ _ none

/-! ## The operations are the map's -/

theorem freshTable_toMap (t : HashMap T Unit) (n : Nat) :
    HashMap.freshTable t n = toMap (freshTable n) := by
  simp [HashMap.freshTable, HashMap.allocateTable, toMap, freshTable, Place.toSlot]

theorem insertRehashed_toMap (s : HashSet T) (value : T) :
    HashMap.insertRehashed cb (toMap s) value () = (insertRehashed cb s value).map toMap := by
  rw [HashMap.insertRehashed, insertRehashed, findInsertionIndex_toMap, Option.map_map]
  congr 1
  funext index
  simp only [Function.comp_apply, toMap, List.map_set]
  rfl

theorem rehashPlace_toMap (s : HashSet T) (p : Place T) :
    HashMap.rehashSlot cb (toMap s) p.toSlot = (rehashPlace cb s p).map toMap := by
  cases p with
  | empty => rfl
  | occupied item => exact insertRehashed_toMap s item
  | removed => rfl

theorem rehash_fold_toMap (places : List (Place T)) (s : HashSet T) :
    (places.map Place.toSlot).foldlM (HashMap.rehashSlot cb) (toMap s)
      = (places.foldlM (rehashPlace cb) s).map toMap := by
  induction places generalizing s with
  | nil => rfl
  | cons p places ih =>
      rw [List.map_cons, List.foldlM_cons, List.foldlM_cons, rehashPlace_toMap]
      cases rehashPlace cb s p with
      | none => rfl
      | some s' => exact ih s'

theorem rehash_toMap (s : HashSet T) (n : Nat) :
    HashMap.rehash cb (toMap s) n = (rehash cb s n).map toMap := by
  rw [HashMap.rehash, freshTable_toMap]
  exact rehash_fold_toMap s.places (freshTable n)

theorem store_toMap (s : HashSet T) (index : Nat) (value : T) :
    HashMap.store (toMap s) index value () = toMap (store s index value) := by
  rw [HashMap.store, store, slot_toMap]
  simp only [toMap, List.map_set]
  cases place s index <;> rfl

/-- The second probe of `add` ends where the one of `put` does. -/
theorem add_toMap {s : HashSet T} (hI : HashMap.Inv cb (toMap s))
    (hload : HashMap.Loaded (toMap s)) (value : T) :
    HashMap.tryAdd cb (toMap s) value ()
      = (add cb s value).map fun result => (result.1, toMap result.2) := by
  rw [HashMap.tryAdd, add, HashMap.containsKey, contains, findIndex_toMap]
  cases hfind : findIndex cb s value with
  | some index => rfl
  | none =>
      obtain ⟨last, first, hprobe, hfree⟩ :=
        @HashMap.putProbeGo_absent _ _ cb (toMap s) value _ _ none
          ((findIndex_toMap s value).trans hfind) (hI.exists_unused hload.room value)
      have hput : HashMap.put cb (toMap s) value ()
          = (ensureRoomForNewEntry cb s).bind fun room =>
              (findInsertionIndex cb room value).map fun index =>
                toMap (store room index value) := by
        rw [HashMap.put, hprobe, ensureRoomForNewEntry]
        dsimp only
        split
        · -- both grow and probe the new table
          rw [if_pos ‹_›, show (toMap s).capacity = s.capacity from rfl, rehash_toMap]
          cases rehash cb s (s.capacity * 2) with
          | none => rfl
          | some grown =>
              change Option.bind _ _ = _
              rw [Option.map_some, Option.bind_some, Option.bind_some,
                findInsertionIndex_toMap]
              cases findInsertionIndex cb grown value with
              | none => rfl
              | some index => exact congrArg some (store_toMap grown index value)
        · rw [if_neg ‹_›]
          have hindex : findInsertionIndex cb s value = some (first.getD last) :=
            (findInsertionIndex_toMap s value).symm.trans hfree
          rw [Option.bind_some, hindex, store_toMap]
          rfl
      rw [hput]
      cases ensureRoomForNewEntry cb s with
      | none => rfl
      | some room =>
          cases hindex : findInsertionIndex cb room value with
          | none => simp [hindex]
          | some index => simp [hindex]

theorem remove_toMap (s : HashSet T) (value : T) :
    HashMap.remove cb (toMap s) value
      = ((remove cb s value).1, toMap (remove cb s value).2) := by
  rw [HashMap.remove, remove, findIndex_toMap]
  cases findIndex cb s value with
  | none => rfl
  | some index =>
      simp only [toMap, List.map_set]
      rfl

theorem clear_toMap {s : HashSet T} (hI : HashMap.Inv cb (toMap s)) :
    HashMap.clear (toMap s) = toMap (clear s) := by
  have hmask : s.mask = s.capacity - 1 := hI.mask
  rw [HashMap.clear, freshTable_toMap, clear, hmask]
  rfl

theorem toArrayGo_toMap (places : List (Place T)) (i : Nat) (result : List (Option T)) :
    HashMap.collectGo (fun key _ => key) (places.map Place.toSlot) i result
      = toArrayGo places i result := by
  induction places generalizing i result with
  | nil => rfl
  | cons p places ih =>
      cases p with
      | empty => exact ih i result
      | occupied item =>
          simp only [List.map_cons, Place.toSlot, HashMap.collectGo, toArrayGo]
          rw [ih]
      | removed => exact ih i result

theorem toArray_toMap (s : HashSet T) : HashMap.keysToArray (toMap s) = toArray s :=
  toArrayGo_toMap s.places 0 _

/-! ## One call -/

/-- The table is sound, below its load bound, and its live items stand for the classes `S`. -/
def Holds (hl : cb.Lawful) (s : HashSet T) (S : Finset hl.eqv.Class) : Prop :=
  HashMap.Holds cb (toMap s) (KeyMap.ofClasses hl.eqv S)

variable {hl : cb.Lawful} {s : HashSet T} {S : Finset hl.eqv.Class}

theorem add_spec (h : Holds hl s S) (value : T) :
    ∃ s', add cb s value = some (decide (hl.eqv.classOf value ∉ S), s') ∧
      Holds hl s' (insert (hl.eqv.classOf value) S) := by
  obtain ⟨t', hadd, hholds⟩ := HashMap.tryAdd_spec hl h value ()
  rw [add_toMap h.inv h.loaded] at hadd
  obtain ⟨⟨added, s'⟩, hresult, heq⟩ := Option.map_eq_some_iff.mp hadd
  obtain ⟨rfl, rfl⟩ := Prod.mk.inj heq
  refine ⟨s', by rw [hresult, KeyMap.isNone_ofClasses], ?_⟩
  rwa [KeyMap.put_ofClasses_of_absent] at hholds

theorem remove_spec (h : Holds hl s S) (value : T) :
    (remove cb s value).1 = decide (hl.eqv.classOf value ∈ S) ∧
      Holds hl (remove cb s value).2 (S.erase (hl.eqv.classOf value)) := by
  obtain ⟨hresult, hholds⟩ := HashMap.remove_spec hl h value
  rw [remove_toMap, KeyMap.isSome_ofClasses] at hresult
  rw [remove_toMap, KeyMap.erase_ofClasses] at hholds
  exact ⟨hresult, hholds⟩

theorem clear_spec (h : Holds hl s S) : Holds hl (clear s) ∅ := by
  have hclear := HashMap.clear_spec h.inv
  rwa [clear_toMap h.inv, ← KeyMap.ofClasses_empty hl.eqv] at hclear

/-! ## Sequences of calls -/

/-- What a call does to the finite set. -/
noncomputable def applySet (hl : cb.Lawful) (S : Finset hl.eqv.Class) :
    Op T → Finset hl.eqv.Class
  | .add value => insert (hl.eqv.classOf value) S
  | .remove value => S.erase (hl.eqv.classOf value)
  | .clear => ∅

theorem apply_spec (h : Holds hl s S) (op : Op T) :
    ∃ s', apply cb s op = some s' ∧ Holds hl s' (applySet hl S op) := by
  cases op with
  | add value =>
      obtain ⟨s', hadd, h'⟩ := add_spec h value
      exact ⟨s', by rw [apply, hadd]; rfl, h'⟩
  | remove value => exact ⟨_, rfl, (remove_spec h value).2⟩
  | clear => exact ⟨_, rfl, clear_spec h⟩

theorem applyAll_spec (h : Holds hl s S) (ops : List (Op T)) :
    ∃ s', applyAll cb s ops = some s' ∧ Holds hl s' (ops.foldl (applySet hl) S) := by
  induction ops generalizing s S with
  | nil => exact ⟨s, rfl, h⟩
  | cons op ops ih =>
      obtain ⟨s₁, hop, h₁⟩ := apply_spec h op
      obtain ⟨s', hops, h'⟩ := ih h₁
      exact ⟨s', by rw [applyAll, List.foldlM_cons, hop]; exact hops, h'⟩

/-- A set as a constructor leaves it. -/
def Fresh (s : HashSet T) : Prop :=
  s = new ∨ ∃ initialCapacity, newWithCapacity initialCapacity = .ok s

theorem roundUpGo_pow (requested : Nat) : ∀ n {k : Nat}, 2 ≤ k →
    ∃ k', 2 ≤ k' ∧ roundUpGo requested n (2 ^ k) = 2 ^ k'
  | 0, k, hk => ⟨k, hk, rfl⟩
  | n + 1, k, hk => by
      rw [roundUpGo]
      split
      · rw [← Nat.pow_succ]
        exact roundUpGo_pow requested n (by omega)
      · exact ⟨k, hk, rfl⟩

theorem holds_freshTable (hl : cb.Lawful) {n : Nat} (hn : 2 ≤ n) :
    Holds hl (freshTable (2 ^ n)) ∅ := by
  have h := @HashMap.holds_freshTable T Unit cb HashMap.unset n hn
  rwa [freshTable_toMap, ← KeyMap.ofClasses_empty hl.eqv] at h

theorem holds_of_fresh (hl : cb.Lawful) (h : Fresh s) : Holds hl s ∅ := by
  rcases h with rfl | ⟨c, h⟩
  · exact holds_freshTable hl (n := 3) (by omega)
  · rw [newWithCapacity] at h
    split at h
    · cases h
    · obtain ⟨k, hk, hround⟩ := roundUpGo_pow c.toNat c.toNat (Nat.le_refl 2)
      obtain rfl := Except.ok.inj h
      exact hround ▸ holds_freshTable hl hk

/-! ## What a table that holds a set answers -/

/-- Everything the table tells about itself is what `S` says. -/
structure Agrees (hl : cb.Lawful) (s : HashSet T) (S : Finset hl.eqv.Class) : Prop where
  contains : ∀ value, contains cb s value = decide (hl.eqv.classOf value ∈ S)
  count : s.count = S.card
  isEmpty : isEmpty s = decide (S = ∅)
  add : ∀ value, (add cb s value).map Prod.fst = some (decide (hl.eqv.classOf value ∉ S))
  remove : ∀ value, (remove cb s value).1 = decide (hl.eqv.classOf value ∈ S)
  /-- `add` always has a slot to write to. -/
  insertion : ∀ value, HashSet.contains cb s value = false →
    ∃ room, ensureRoomForNewEntry cb s = some room ∧ (findInsertionIndex cb room value).isSome
  /-- The array lists one item for each class of the set. -/
  toArray : ∃ items : List T, toArray s = some (items.map some) ∧
    (items.map hl.eqv.classOf).Nodup ∧ ∀ c, c ∈ items.map hl.eqv.classOf ↔ c ∈ S

theorem contains_eq (h : Holds hl s S) (value : T) :
    contains cb s value = decide (hl.eqv.classOf value ∈ S) := by
  rw [contains, ← findIndex_toMap, HashMap.findIndex_isSome_iff hl h, KeyMap.isSome_ofClasses]

theorem insertion_of_add {value : T} (h : (add cb s value).isSome)
    (habsent : contains cb s value = false) :
    ∃ room, ensureRoomForNewEntry cb s = some room ∧
      (findInsertionIndex cb room value).isSome := by
  rw [add, habsent, if_neg Bool.false_ne_true] at h
  cases hroom : ensureRoomForNewEntry cb s with
  | none => simp [hroom] at h
  | some room =>
      refine ⟨room, rfl, ?_⟩
      cases hindex : findInsertionIndex cb room value with
      | none => simp [hroom, hindex] at h
      | some index => rfl

theorem toArray_spec (h : Holds hl s S) :
    ∃ items : List T, toArray s = some (items.map some) ∧ s.count = items.length ∧
      (items.map hl.eqv.classOf).Nodup ∧ ∀ c, c ∈ items.map hl.eqv.classOf ↔ c ∈ S := by
  obtain ⟨pairs, -, hkeys, -, hcount, hapart, hmem⟩ := (HashMap.Agrees.of_held hl h).arrays
  refine ⟨pairs.map Prod.fst, by rw [← toArray_toMap, hkeys], ?_, ?_, fun c => ?_⟩
  · rw [List.length_map]
    exact hcount
  · rw [List.map_map, List.nodup_iff_pairwise_ne, List.pairwise_map]
    exact hapart.imp fun hne heq => by
      rw [hl.eqv.classOf_eq_iff.mp heq] at hne
      cases hne
  · obtain ⟨value, rfl⟩ := hl.eqv.exists_classOf c
    rw [List.map_map, List.mem_map]
    constructor
    · rintro ⟨p, hp, heq⟩
      have hlookup := (hmem value ()).mpr ⟨p, hp, rfl, hl.eqv.classOf_eq_iff.mp heq⟩
      exact (KeyMap.lookup_ofClasses_eq_some hl.eqv).mp hlookup
    · intro hc
      obtain ⟨p, hp, -, heq⟩ :=
        (hmem value ()).mp ((KeyMap.lookup_ofClasses_eq_some hl.eqv).mpr hc)
      exact ⟨p, hp, hl.eqv.classOf_eq_iff.mpr heq⟩

theorem Agrees.of_holds (h : Holds hl s S) : Agrees hl s S where
  contains := contains_eq h
  count := by
    obtain ⟨items, -, hcount, hnodup, hmem⟩ := toArray_spec h
    have hS : (items.map hl.eqv.classOf).toFinset = S := by
      ext c
      rw [List.mem_toFinset, hmem]
    rw [hcount, ← hS, List.toFinset_card_of_nodup hnodup, List.length_map]
  isEmpty := by
    obtain ⟨items, -, hcount, -, hmem⟩ := toArray_spec h
    rw [HashSet.isEmpty, hcount, decide_eq_decide]
    constructor
    · intro hlength
      obtain rfl := List.eq_nil_of_length_eq_zero hlength
      exact Finset.eq_empty_of_forall_notMem fun c hc => by simpa using (hmem c).mpr hc
    · rintro rfl
      cases items with
      | nil => rfl
      | cons item items => simpa using (hmem _).mp List.mem_cons_self
  add value := by
    obtain ⟨s', hadd, -⟩ := add_spec h value
    rw [hadd]
    rfl
  remove value := (remove_spec h value).1
  insertion value habsent := by
    obtain ⟨s', hadd, -⟩ := add_spec h value
    exact insertion_of_add (by rw [hadd]; rfl) habsent
  toArray := by
    obtain ⟨items, harray, -, hnodup, hmem⟩ := toArray_spec h
    exact ⟨items, harray, hnodup, hmem⟩

/-- Any calls on a fresh set go through; the table they leave satisfies the invariant and the
load bound and agrees with the finite set of the same calls. -/
theorem hashSet_refines (hl : cb.Lawful) {s₀ : HashSet T} (hfresh : Fresh s₀)
    (ops : List (Op T)) :
    ∃ s, applyAll cb s₀ ops = some s ∧ HashMap.Inv cb (toMap s) ∧
      (s.count + s.tombstoneCount) * 10 < s.capacity * 7 ∧
      Agrees hl s (ops.foldl (applySet hl) ∅) := by
  obtain ⟨s, hops, h⟩ := applyAll_spec (holds_of_fresh hl hfresh) ops
  exact ⟨s, hops, h.inv, h.loaded, .of_holds h⟩

/-- Two colliding items, one removed, its tombstone taken again. -/
theorem hashSet_refines_collision :
    ∃ s : HashSet Nat,
      applyAll HashMap.natCallbacks new [.add 1, .add 9, .remove 1, .add 17] = some s ∧
        HashMap.Inv HashMap.natCallbacks (toMap s) ∧
        (s.count + s.tombstoneCount) * 10 < s.capacity * 7 ∧
        Agrees HashMap.natCallbacks_lawful s
          ([.add 1, .add 9, .remove 1, .add 17].foldl
            (applySet HashMap.natCallbacks_lawful) ∅) :=
  hashSet_refines HashMap.natCallbacks_lawful (.inl rfl) _

end HashSet

end Collections

end Absolute
