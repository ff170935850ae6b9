import Absolute.StdHashThrowingKeeps

/-!
# What a throw leaves of a hash set

The set's loops are the map's here too, the world of the callbacks going along (`lift`); `add`
probes with two calls of the hash where `put` makes one.
-/

namespace Absolute

namespace Collections

open Raising (Results Lifts)

namespace HashSet

variable {T W C : Type} {cb : Callbacks T} {calls : Calls T W}

theorem contains_iff (hl : cb.Lawful) {s : HashSet T} (hI : HashMap.Inv cb (toMap s)) {x : T} :
    contains cb s x = true ↔ ∃ k, HashMap.Live (toMap s) k () ∧ cb.equals k x = true := by
  rw [contains, ← findIndex_toMap]
  constructor
  · intro h
    obtain ⟨i, hfind⟩ := Option.isSome_iff_exists.mp h
    obtain ⟨k, v, hs, heq⟩ := HashMap.findIndex_some hfind
    exact ⟨k, ⟨i, hs⟩, heq⟩
  · rintro ⟨k, ⟨i, hs⟩, heq⟩
    rw [HashMap.findIndex_of_live hl hI hs heq]
    rfl

theorem toMap_injective {s s' : HashSet T} (h : toMap s = toMap s') : s = s' := by
  have hslot : Function.Injective (Place.toSlot (T := T)) := by
    intro p p' hp
    cases p <;> cases p' <;> simp [Place.toSlot] at hp ⊢
    exact hp
  cases s
  cases s'
  simp only [toMap, HashMap.mk.injEq] at h
  obtain ⟨hplaces, rfl, rfl, rfl, rfl⟩ := h
  rw [hslot.list_map hplaces]

namespace Throwing

def lift (s : Hashing (HashSet T) W) : Hashing (HashMap T Unit) W := ⟨toMap s.table, s.world⟩

variable {s : Hashing (HashSet T) W}

/-! ## The loops are the map's -/

theorem lifts_calling {β : Type} (c : Callback W β) :
    Lifts (lift (T := T)) (calling c) (calling c) := by
  intro s
  change calling c (⟨toMap s.table, s.world⟩ : Hashing (HashMap T Unit) W) = _
  rw [calling, calling]
  dsimp only
  cases hcall : c s.world with
  | mk answer w => cases answer <;> rfl

theorem lifts_read {α : Type} {f : HashSet T → Hashed (HashSet T) W α}
    {g : HashMap T Unit → Hashed (HashMap T Unit) W α} (h : ∀ t, Lifts lift (f t) (g (toMap t))) :
    Lifts lift (readTable >>= f) (readTable >>= g) :=
  fun s => h s.table s

theorem lifts_write (t : HashSet T) :
    Lifts (lift (W := W)) (writeTable t) (writeTable (toMap t)) := fun _ => rfl

theorem lifts_found {α : Type} (o : Option α) :
    Lifts (lift (T := T) (W := W)) (found o) (found o) := by
  cases o with
  | none => exact .throw _
  | some a => exact .pure a

theorem lifts_bucket (value : T) :
    Lifts lift (bucket calls value) (HashMap.Throwing.bucket calls value) :=
  (lifts_calling _).bind fun _ => lifts_read fun _ => .pure _

theorem lifts_findInsertionIndex (value : T) :
    Lifts lift (findInsertionIndex calls value)
      (HashMap.Throwing.findInsertionIndex calls value) :=
  (lifts_bucket value).bind fun index => lifts_read fun t => by
    rw [findInsertionIndexGo_toMap]
    exact lifts_found _

theorem lifts_insertRehashed (value : T) :
    Lifts lift (insertRehashed calls value)
      (HashMap.Throwing.insertRehashed calls value ()) :=
  (lifts_findInsertionIndex value).bind fun index => lifts_read fun t => by
    have hset : { toMap t with
          slots := (toMap t).slots.set index (.occupied value ()), count := (toMap t).count + 1 }
        = toMap { t with places := t.places.set index (.occupied value), count := t.count + 1 } := by
      simp only [toMap, List.map_set]
      rfl
    rw [hset]
    exact lifts_write _

theorem lifts_reinsert (places : List (Place T)) :
    Lifts lift (reinsert calls places)
      (HashMap.Throwing.reinsert calls (places.map Place.toSlot)) := by
  induction places with
  | nil => exact .pure ()
  | cons p places ih =>
      cases p with
      | empty => exact ih
      | removed => exact ih
      | occupied item => exact (lifts_insertRehashed item).bind fun _ => ih

/-! ## Probing -/

theorem findIndexGo_results (hf : calls.Follows cb) (value : T) (n index : Nat) :
    Results (findIndexGo calls value n index) s
      (fun r t => t.table = s.table ∧ r = HashSet.findIndexGo cb s.table value n index)
      (fun e t => t.table = s.table ∧ e ≠ .stray) := by
  induction n generalizing index s with
  | zero => exact ⟨rfl, rfl⟩
  | succ n ih =>
      rw [findIndexGo, HashSet.findIndexGo]
      refine Results.after (t := s) rfl ?_
      cases hplace : place s.table index with
      | empty => exact ⟨rfl, rfl⟩
      | removed => exact ih _
      | occupied item =>
          dsimp only
          refine Results.bind (calling_results (calls.equals item value) s) ?_
          rintro b t ⟨htable, hcall⟩
          obtain rfl := hf.equals _ _ _ _ hcall
          split
          · exact ⟨htable, rfl⟩
          · have hrest := ih (s := t) (next s.table index)
            rw [htable] at hrest
            exact hrest

theorem findIndex_results (hf : calls.Follows cb) (value : T) :
    Results (findIndex calls value) s
      (fun r t => t.table = s.table ∧ r = HashSet.findIndex cb s.table value)
      (fun e t => t.table = s.table ∧ e ≠ .stray) := by
  rw [findIndex, bucket, bind_assoc]
  refine Results.bind (calling_results (calls.hash value) s) ?_
  rintro hash t ⟨htable, hcall⟩
  obtain rfl := hf.hash _ _ _ hcall
  have hgo := findIndexGo_results (s := t) hf value (t.table.mask + 1)
    (HashSet.bucket cb t.table value)
  rw [htable] at hgo
  refine (Results.after (t := t) rfl (Results.after (t := t) rfl ?_)).mono (fun _ _ => id)
    fun _ _ => id
  exact htable ▸ hgo

/-! ## What a throw leaves -/

/-- A set that a map's invariant and load bound hold of. -/
def Sound (cb : Callbacks T) (s : HashSet T) : Prop := HashMap.Sound cb (toMap s)

/-- The items in the order of their places. -/
def items (places : List (Place T)) : List T := HashMap.Throwing.keys (places.map Place.toSlot)

/-- A new value finds the table full, and the hash throws at one of the items that are there while
they are put into the new table. -/
def RehashThrows (calls : Calls T W) (value : T) (s : Hashing (HashSet T) W) : Prop :=
  ∃ s₁ e s₂, findIndex calls value s = .ok none s₁ ∧
    s.table.capacity * 7 ≤ (s.table.count + s.table.tombstoneCount + 1) * 10 ∧
    hashAll calls (items s.table.places) s₁ = .error e s₂

theorem rehash_isSome (hl : cb.Lawful) {s : HashSet T} (h : Sound cb s) :
    ∃ grown, HashSet.rehash cb s (s.capacity * 2) = some grown := by
  obtain ⟨t, hrehash, -⟩ := HashMap.rehash_spec hl h.inv h.loaded
  obtain ⟨grown, hgrown, -⟩ := Option.map_eq_some_iff.mp ((rehash_toMap s _).symm.trans hrehash)
  exact ⟨grown, hgrown⟩

/-- Reinserting all items of a full table, or those before the one whose hash throws. -/
theorem rehash_results (hl : cb.Lawful) (hf : calls.Follows cb) (h : Sound cb s.table) :
    Results (rehash calls (s.table.capacity * 2)) s
      (fun _ t => HashSet.rehash cb s.table (s.table.capacity * 2) = some t.table ∧
        ∀ (c : C), hashAll calls (items s.table.places) (⟨c, s.world⟩ : Hashing C W)
          = .ok () ⟨c, t.world⟩)
      (fun e t => e ≠ .stray ∧ Sound cb t.table ∧
        (∃ k, HashMap.Live (toMap s.table) k () ∧
          ∀ k', HashMap.Live (toMap t.table) k' () → cb.equals k' k = false) ∧
        ∀ (c : C), hashAll calls (items s.table.places) (⟨c, s.world⟩ : Hashing C W)
          = .error e ⟨c, t.world⟩) := by
  obtain ⟨grown, hrehash⟩ := rehash_isSome hl h
  have hfold : (s.table.places.map Place.toSlot).foldlM (HashMap.rehashSlot cb)
      (toMap (freshTable (s.table.capacity * 2))) = some (toMap grown) := by
    rw [rehash_fold_toMap]
    exact congrArg (Option.map toMap) hrehash
  have hreinsert := (lifts_reinsert s.table.places).results
    (HashMap.Throwing.reinsert_results (C := C) hf
      (s := lift ⟨freshTable (s.table.capacity * 2), s.world⟩) hfold)
  refine Results.after (t := s) rfl (Results.after rfl (hreinsert.mono ?_ ?_))
  · rintro _ t ⟨htable, hhash⟩
    refine ⟨?_, hhash⟩
    rw [hrehash, toMap_injective htable]
  · rintro e t ⟨hne, ⟨done, k, v, rest, hslots, hdone⟩, hhash⟩
    have hpart : done.foldlM (HashMap.rehashSlot cb)
        (HashMap.freshTable (toMap s.table) ((toMap s.table).capacity * 2))
          = some (toMap t.table) := by
      rw [freshTable_toMap]
      exact hdone
    obtain ⟨hsound, hlost⟩ := HashMap.Throwing.partial_spec hl h hslots hpart
    have hmem : Slot.occupied k v ∈ (toMap s.table).slots := by
      rw [toMap, hslots]
      exact List.mem_append_right _ List.mem_cons_self
    exact ⟨hne, hsound, ⟨k, HashMap.live_iff_mem.mpr hmem, fun k' => hlost k' ()⟩, hhash⟩

/-- The table has room for one more entry after `ensureRoomForNewEntry`, and the same items. -/
theorem ensureRoomForNewEntry_results (hl : cb.Lawful) (hf : calls.Follows cb)
    (h : Sound cb s.table) :
    Results (ensureRoomForNewEntry calls) s
      (fun _ t => HashSet.ensureRoomForNewEntry cb s.table = some t.table ∧ Sound cb t.table ∧
        (∀ k, HashMap.Live (toMap t.table) k () ↔ HashMap.Live (toMap s.table) k ()) ∧
        (s.table.capacity * 7 ≤ (s.table.count + s.table.tombstoneCount + 1) * 10 →
          ∀ (c : C), hashAll calls (items s.table.places) (⟨c, s.world⟩ : Hashing C W)
            = .ok () ⟨c, t.world⟩))
      (fun e t => e ≠ .stray ∧ Sound cb t.table ∧
        (∃ k, HashMap.Live (toMap s.table) k () ∧
          ∀ k', HashMap.Live (toMap t.table) k' () → cb.equals k' k = false) ∧
        s.table.capacity * 7 ≤ (s.table.count + s.table.tombstoneCount + 1) * 10 ∧
        ∀ (c : C), hashAll calls (items s.table.places) (⟨c, s.world⟩ : Hashing C W)
          = .error e ⟨c, t.world⟩) := by
  have hensure : HashSet.ensureRoomForNewEntry cb s.table
      = if (s.table.count + s.table.tombstoneCount + 1) * 10 ≥ s.table.capacity * 7 then
          HashSet.rehash cb s.table (s.table.capacity * 2)
        else some s.table := rfl
  refine Results.after (t := s) rfl ?_
  rw [hensure]
  split
  · rename_i hfull
    refine (rehash_results (C := C) hl hf h).mono ?_ ?_
    · rintro _ t ⟨hrehash, hhash⟩
      obtain ⟨grown, hgrown, hG, hliveG, hcapG, hcountG, htombG⟩ :=
        HashMap.rehash_spec hl h.inv h.loaded
      obtain rfl : toMap t.table = grown := by
        rw [← Option.some_inj, ← hgrown, show (toMap s.table).capacity = s.table.capacity from rfl,
          rehash_toMap, hrehash]
        rfl
      refine ⟨hrehash, ⟨hG, ?_⟩, fun k => hliveG k (), fun _ => hhash⟩
      have hload := h.loaded
      rw [HashMap.Loaded] at hload ⊢
      omega
    · rintro e t ⟨hne, hsound, hlost, hhash⟩
      exact ⟨hne, hsound, hlost, hfull, hhash⟩
  · rename_i hfits
    exact ⟨rfl, h, fun _ => Iff.rfl, fun hfull => absurd hfull hfits⟩

/-- A throw leaves a sound table, with all items unless it came while they were hashed again. -/
theorem add_error_cases (hl : cb.Lawful) (hf : calls.Follows cb) {value : T} {e : Fault}
    {t : Hashing (HashSet T) W} (h : Sound cb s.table)
    (herror : add calls value s = .error e t) :
    e ≠ .stray ∧ Sound cb t.table ∧
      ((¬RehashThrows calls value s ∧
          ∀ k, HashMap.Live (toMap s.table) k () → HashMap.Live (toMap t.table) k ()) ∨
        (RehashThrows calls value s ∧ ∃ k, HashMap.Live (toMap s.table) k () ∧
          ∀ k', HashMap.Live (toMap t.table) k' () → cb.equals k' k = false)) := by
  have hprobe := findIndex_results (s := s) hf value
  rcases Raising.bind_eq_error.mp herror with hthrew | ⟨r, s₁, hok, hrest⟩
  · obtain ⟨htable, hne⟩ := hprobe.of_error hthrew
    refine ⟨hne, htable ▸ h, .inl ⟨?_, htable ▸ fun _ => id⟩⟩
    rintro ⟨s₁, -, -, hok, -⟩
    rw [hthrew] at hok
    cases hok
  · obtain ⟨htable, hr⟩ := hprobe.of_ok hok
    cases r with
    | some index => cases hrest
    | none =>
        have hroom := ensureRoomForNewEntry_results (C := HashSet T) (s := s₁) hl hf (htable ▸ h)
        rw [htable] at hroom
        rcases Raising.bind_eq_error.mp hrest with hthrew | ⟨_, u, hdone, hrest⟩
        · obtain ⟨hne, hsound, hlost, hfull, hhash⟩ := hroom.of_error hthrew
          exact ⟨hne, hsound, .inr ⟨⟨s₁, e, _, hok, hfull, hhash s₁.table⟩, hlost⟩⟩
        · obtain ⟨-, hsound, hlive, hhash⟩ := hroom.of_ok hdone
          have hno : ¬RehashThrows calls value s := by
            rintro ⟨s₁', e', s₂, hok', hfull, hthrew⟩
            obtain ⟨-, rfl⟩ := EStateM.Result.ok.inj (hok'.symm.trans hok)
            cases (hhash hfull s₁'.table).symm.trans hthrew
          -- the value is hashed once more
          obtain ⟨i, hindex, -⟩ := @HashMap.Inv.vacant _ _ _ _ hsound.inv hsound.loaded.room value
            fun k v hk => HashMap.findIndex_none hl h.inv
              ((findIndex_toMap s.table value).trans hr.symm) ((hlive k).mp hk)
          rcases Raising.bind_eq_error.mp hrest with hthrew | ⟨_, _, _, hrest⟩
          · have hlifted := @lifts_findInsertionIndex _ _ calls value u
            rw [hthrew] at hlifted
            obtain ⟨hne, hsame⟩ :=
              HashMap.Throwing.findInsertionIndex_error hf (s := lift u) hindex hlifted
            have hsame : t.table = u.table := toMap_injective hsame
            exact ⟨hne, hsame ▸ hsound, .inl ⟨hno, fun k hk => hsame ▸ (hlive k).mpr hk⟩⟩
          · cases hrest

/-- The items before are all found afterwards, unless the throw came while they were hashed
again. -/
theorem add_keeps_iff (hl : cb.Lawful) (hf : calls.Follows cb) {value : T} {e : Fault}
    {t : Hashing (HashSet T) W} (h : Sound cb s.table)
    (herror : add calls value s = .error e t) :
    (∀ x, contains cb s.table x = true → contains cb t.table x = true)
      ↔ ¬RehashThrows calls value s := by
  obtain ⟨-, hsound, ⟨hno, hkeeps⟩ | ⟨hthrows, k, hlive, hlost⟩⟩ :=
    add_error_cases hl hf h herror
  · refine iff_of_true (fun x hx => ?_) hno
    obtain ⟨k, hk, heq⟩ := (contains_iff hl h.inv).mp hx
    exact (contains_iff hl hsound.inv).mpr ⟨k, hkeeps k hk, heq⟩
  · refine iff_of_false (fun hkeeps => ?_) (not_not_intro hthrows)
    have hfound := hkeeps k ((contains_iff hl h.inv).mpr ⟨k, hlive, hl.eqv.refl k⟩)
    obtain ⟨k', hlive', heq⟩ := (contains_iff hl hsound.inv).mp hfound
    rw [hlost k' hlive'] at heq
    cases heq

/-- A call that returns has done what the call without worlds does. -/
theorem add_ok (hl : cb.Lawful) (hf : calls.Follows cb) {value : T} {b : Bool}
    {t : Hashing (HashSet T) W} (h : Sound cb s.table) (hok : add calls value s = .ok b t) :
    HashSet.add cb s.table value = some (b, t.table) := by
  obtain ⟨r, s₁, hprobe, hrest⟩ := Raising.bind_eq_ok.mp hok
  obtain ⟨htable, hr⟩ := (findIndex_results (s := s) hf value).of_ok hprobe
  rw [HashSet.add, contains, ← hr]
  cases r with
  | some index =>
      cases hrest
      rw [htable]
      rfl
  | none =>
      obtain ⟨_, u, hdone, hrest⟩ := Raising.bind_eq_ok.mp hrest
      obtain ⟨i, u₁, hindex, hrest⟩ := Raising.bind_eq_ok.mp hrest
      cases hrest
      have hroom := ensureRoomForNewEntry_results (C := Unit) (s := s₁) hl hf (htable ▸ h)
      rw [htable] at hroom
      obtain ⟨hensure, -⟩ := hroom.of_ok hdone
      obtain ⟨hsame, hi⟩ := ((lifts_findInsertionIndex value).results
        (HashMap.Throwing.findInsertionIndex_results (s := lift u) hf value)).of_ok hindex
      have hsame : u₁.table = u.table := toMap_injective hsame
      have hi : HashSet.findInsertionIndex cb u.table value = some i :=
        (findInsertionIndex_toMap u.table value).symm.trans hi
      rw [hensure]
      simp [hi, hsame]

/-! ## Reachable sets -/

/-- Sets that calls lead to, also calls of `add` that throw. -/
inductive Reached (cb : Callbacks T) : HashSet T → Prop where
  | fresh {s : HashSet T} (h : Fresh s) : Reached cb s
  | add {W : Type} {calls : Calls T W} (hf : calls.Follows cb) {s : Hashing (HashSet T) W}
      (h : Reached cb s.table) (value : T) : Reached cb (Raising.state (add calls value s)).table
  | remove {s : HashSet T} (h : Reached cb s) (value : T) : Reached cb (HashSet.remove cb s value).2
  | clear {s : HashSet T} (h : Reached cb s) : Reached cb (HashSet.clear s)

theorem Reached.sound (hl : cb.Lawful) {s : HashSet T} (h : Reached cb s) : Sound cb s := by
  induction h with
  | fresh h => exact (holds_of_fresh hl h).sound
  | @add W calls hf s _ value ih =>
      cases hcall : Throwing.add calls value s with
      | ok b t =>
          obtain ⟨m, hholds⟩ := ih.holds hl
          obtain ⟨t', htry, h'⟩ := HashMap.tryAdd_spec hl hholds value ()
          rw [add_toMap ih.inv ih.loaded, add_ok hl hf ih hcall] at htry
          obtain ⟨-, rfl⟩ := Prod.mk.inj (Option.some.inj htry)
          exact h'.sound
      | error e t => exact (add_error_cases hl hf ih hcall).2.1
  | @remove s _ value ih =>
      obtain ⟨m, hholds⟩ := ih.holds hl
      have hremove := (HashMap.remove_spec hl hholds value).2.sound
      rw [remove_toMap] at hremove
      exact hremove
  | clear _ ih =>
      have hclear := (HashMap.clear_spec ih.inv).sound
      rw [clear_toMap ih.inv] at hclear
      exact hclear

end Throwing

end HashSet

end Collections

end Absolute
