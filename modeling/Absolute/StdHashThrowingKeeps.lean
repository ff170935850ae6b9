import Absolute.StdHashThrowing

/-!
# What a throw leaves of a hash table

Probing reads the table and changes nothing, so a throw while an entry is looked for, or after the
table has grown, loses nothing. A throw while `rehash` hashes the entries it has taken out loses
the entry it was hashing, and all behind it.
-/

namespace Absolute

namespace Collections

open Raising (Results)

variable {K V T W C : Type}

/-- Where the callbacks answer they answer what `cb` says. -/
structure Calls.Follows (calls : Calls K W) (cb : Callbacks K) : Prop where
  hash : ∀ k w h, (calls.hash k w).1 = .ok h → h = cb.hash k
  equals : ∀ a b w e, (calls.equals a b w).1 = .ok e → e = cb.equals a b

theorem calling_results {β : Type} (c : Callback W β) (s : Hashing C W) :
    Results (calling c) s (fun b t => t.table = s.table ∧ (c s.world).1 = .ok b)
      (fun e t => t.table = s.table ∧ e ≠ .stray) := by
  rw [Results, calling]
  cases hcall : c s.world with
  | mk answer w =>
    cases answer with
    | ok b => exact ⟨rfl, rfl⟩
    | error message => exact ⟨rfl, by simp⟩

/-- An action that makes one call and goes on with the table it found. -/
theorem calling_bind {α β : Type} {c : Callback W β} {f : β → Hashed C W α} {s : Hashing C W} :
    (calling c >>= f) s =
      match c s.world with
      | (.ok b, w) => f b { s with world := w }
      | (.error message, w) => .error (.threw message) { s with world := w } := by
  change EStateM.bind (calling c) f s = _
  rw [EStateM.bind, calling]
  cases hcall : c s.world with
  | mk answer w => cases answer <;> rfl

namespace HashMap

variable {cb : Callbacks K} {calls : Calls K W}

/-- The table is sound and below its load bound. -/
structure Sound (cb : Callbacks K) (t : HashMap K V) : Prop where
  inv : Inv cb t
  loaded : Loaded t

theorem get_eq_ok_iff (hl : cb.Lawful) {t : HashMap K V} (hI : Inv cb t) {key : K} {v : V} :
    get cb t key = .ok v ↔ ∃ k, Live t k v ∧ cb.equals k key = true := by
  rw [get]
  constructor
  · intro h
    cases hfind : findIndex cb t key with
    | none => rw [hfind] at h; cases h
    | some i =>
        obtain ⟨k, v', hs, heq⟩ := findIndex_some hfind
        rw [hfind] at h
        dsimp only at h
        rw [hs] at h
        obtain rfl := Except.ok.inj h
        exact ⟨k, ⟨i, hs⟩, heq⟩
  · rintro ⟨k, ⟨i, hs⟩, heq⟩
    rw [findIndex_of_live hl hI hs heq]
    dsimp only
    rw [hs]

/-- A sound table holds the map of what it answers. -/
theorem Sound.holds (hl : cb.Lawful) {t : HashMap K V} (h : Sound cb t) :
    ∃ m, Holds cb t m := by
  have hcongr : ∀ {a b}, cb.equals a b = true → ∀ v, get cb t a = .ok v → get cb t b = .ok v := by
    intro a b hab v hv
    obtain ⟨k, hlive, heq⟩ := (get_eq_ok_iff hl h.inv).mp hv
    exact (get_eq_ok_iff hl h.inv).mpr ⟨k, hlive, hl.eqv.trans heq hab⟩
  have htoOption : ∀ k v, (get cb t k).toOption = some v ↔ get cb t k = .ok v := fun k v => by
    cases get cb t k <;> simp [Except.toOption]
  refine ⟨⟨fun k => (get cb t k).toOption, fun {a b} hab => Option.ext fun v => ?_⟩, h.inv,
    h.loaded, fun k v => (htoOption k v).trans (get_eq_ok_iff hl h.inv)⟩
  rw [htoOption, htoOption]
  exact ⟨hcongr hab v, hcongr (hl.eqv.symm hab) v⟩

theorem Holds.sound {t : HashMap K V} {m : KeyMap cb.equals V} (h : Holds cb t m) : Sound cb t :=
  ⟨h.inv, h.loaded⟩

namespace Throwing

variable {s : Hashing (HashMap K V) W}

/-! ## Calls of the hash -/

theorem findInsertionIndex_eq (hf : calls.Follows cb) {key : K} {i : Nat}
    (h : HashMap.findInsertionIndex cb s.table key = some i) :
    findInsertionIndex calls key s =
      match calls.hash key s.world with
      | (.ok _, w) => .ok i { s with world := w }
      | (.error message, w) => .error (.threw message) { s with world := w } := by
  change (bucket calls key >>= _) s = _
  rw [bucket, bind_assoc, calling_bind]
  cases hcall : calls.hash key s.world with
  | mk answer w =>
    cases answer with
    | error message => rfl
    | ok hash =>
        have hhash : hash = cb.hash key := hf.hash key s.world hash (by rw [hcall])
        subst hhash
        change found (HashMap.findInsertionIndex cb s.table key) _ = _
        rw [h]
        rfl

theorem findInsertionIndex_error (hf : calls.Follows cb) {key : K} {i : Nat}
    (h : HashMap.findInsertionIndex cb s.table key = some i) {e : Fault}
    {t : Hashing (HashMap K V) W} (herror : findInsertionIndex calls key s = .error e t) :
    e ≠ .stray ∧ t.table = s.table := by
  rw [findInsertionIndex_eq hf h] at herror
  cases hcall : calls.hash key s.world with
  | mk answer w =>
    rw [hcall] at herror
    cases answer with
    | ok hash => cases herror
    | error message =>
        obtain ⟨rfl, rfl⟩ := EStateM.Result.error.inj herror
        exact ⟨by simp, rfl⟩

theorem insertRehashed_eq (hf : calls.Follows cb) {key : K} {value : V} {t' : HashMap K V}
    (h : HashMap.insertRehashed cb s.table key value = some t') :
    insertRehashed calls key value s =
      match calls.hash key s.world with
      | (.ok _, w) => .ok () ⟨t', w⟩
      | (.error message, w) => .error (.threw message) { s with world := w } := by
  obtain ⟨i, hi, rfl⟩ := Option.map_eq_some_iff.mp h
  change EStateM.bind (findInsertionIndex calls key) _ s = _
  rw [EStateM.bind, findInsertionIndex_eq hf hi]
  cases hcall : calls.hash key s.world with
  | mk answer w => cases answer <;> rfl

theorem findInsertionIndex_results (hf : calls.Follows cb) (key : K) :
    Results (findInsertionIndex calls key) s
      (fun i t => t.table = s.table ∧ HashMap.findInsertionIndex cb s.table key = some i)
      (fun _ t => t.table = s.table) := by
  change Results (bucket calls key >>= _) s _ _
  rw [bucket, bind_assoc]
  refine Results.bind ((calling_results (calls.hash key) s).mono (fun _ _ => id)
    fun _ _ he => he.1) ?_
  rintro hash t ⟨htable, hcall⟩
  obtain rfl := hf.hash _ _ _ hcall
  change Results (found (HashMap.findInsertionIndex cb t.table key)) t _ _
  rw [htable]
  cases HashMap.findInsertionIndex cb s.table key with
  | none => exact htable
  | some i => exact ⟨htable, rfl⟩

/-- The keys of the entries in the order of their slots. -/
def keys (slots : List (Slot K V)) : List K := (entries slots).map Prod.fst

/-- Reinserting entries makes the calls of hashing them; a throw comes with the entries before the
one that was hashed. -/
theorem reinsert_results (hf : calls.Follows cb) {slots : List (Slot K V)} {t' : HashMap K V}
    (h : slots.foldlM (rehashSlot cb) s.table = some t') :
    Results (reinsert calls slots) s
      (fun _ t => t.table = t' ∧
        ∀ (c : C), hashAll calls (keys slots) (⟨c, s.world⟩ : Hashing C W) = .ok () ⟨c, t.world⟩)
      (fun e t => e ≠ .stray ∧ (∃ done k v rest, slots = done ++ .occupied k v :: rest ∧
          done.foldlM (rehashSlot cb) s.table = some t.table) ∧
        ∀ (c : C), hashAll calls (keys slots) (⟨c, s.world⟩ : Hashing C W)
          = .error e ⟨c, t.world⟩) := by
  induction slots generalizing s with
  | nil =>
      obtain rfl := Option.some.inj h
      exact ⟨rfl, fun _ => rfl⟩
  | cons slot slots ih =>
      rw [List.foldlM_cons] at h
      cases slot with
      | empty | removed =>
          refine (ih h).mono (fun _ _ => id) ?_
          rintro e t ⟨hne, ⟨done, k, v, rest, rfl, hdone⟩, hhash⟩
          exact ⟨hne, ⟨_ :: done, k, v, rest, rfl, hdone⟩, hhash⟩
      | occupied key value =>
          obtain ⟨t₁, hinsert, hrest⟩ := Option.bind_eq_some_iff.mp h
          have hone := insertRehashed_eq hf hinsert (s := s)
          have hkeys : keys (.occupied key value :: slots) = key :: keys slots := rfl
          rw [hkeys]
          cases hcall : calls.hash key s.world with
          | mk answer w =>
            rw [hcall] at hone
            cases answer with
            | error message =>
                have herror : reinsert calls (.occupied key value :: slots) s
                    = .error (.threw message) { s with world := w } :=
                  Raising.bind_eq_error.mpr (.inl hone)
                rw [Results, herror]
                refine ⟨by simp, ⟨[], key, value, slots, rfl, rfl⟩, fun c => ?_⟩
                rw [hashAll, calling_bind, hcall]
            | ok hash =>
                refine (Results.after (f := fun _ => reinsert calls slots) hone
                  (ih (s := ⟨t₁, w⟩) hrest)).mono ?_ ?_
                · rintro _ t ⟨htable, hhash⟩
                  refine ⟨htable, fun c => ?_⟩
                  rw [hashAll, calling_bind, hcall]
                  exact hhash c
                · rintro e t ⟨hne, ⟨done, k, v, rest, rfl, hdone⟩, hhash⟩
                  refine ⟨hne, ⟨.occupied key value :: done, k, v, rest, rfl, ?_⟩, fun c => ?_⟩
                  · rw [List.foldlM_cons]
                    exact Option.bind_eq_some_iff.mpr ⟨t₁, hinsert, hdone⟩
                  · rw [hashAll, calling_bind, hcall]
                    exact hhash c

/-! ## Probing -/

theorem putProbeGo_results (hf : calls.Follows cb) (key : K) (n index : Nat)
    (first : Option Nat) :
    Results (putProbeGo calls key n index first) s
      (fun r t => t.table = s.table ∧ r = HashMap.putProbeGo cb s.table key n index first)
      (fun e t => t.table = s.table ∧ e ≠ .stray) := by
  induction n generalizing index first s with
  | zero => exact ⟨rfl, rfl⟩
  | succ n ih =>
      rw [putProbeGo, HashMap.putProbeGo]
      refine Results.after (t := s) rfl ?_
      cases hslot : slot s.table index with
      | empty => exact ⟨rfl, rfl⟩
      | removed => exact ih _ _
      | occupied k v =>
          dsimp only
          refine Results.bind (calling_results (calls.equals k key) s) ?_
          rintro b t ⟨htable, hcall⟩
          obtain rfl := hf.equals _ _ _ _ hcall
          split
          · exact ⟨htable, rfl⟩
          · have hrest := ih (s := t) (next s.table index) first
            rw [htable] at hrest
            exact hrest

theorem putProbe_results (hf : calls.Follows cb) (key : K) :
    Results (putProbe calls key) s
      (fun r t => t.table = s.table ∧
        r = HashMap.putProbeGo cb s.table key (s.table.mask + 1)
          (HashMap.bucket cb s.table key) none)
      (fun e t => t.table = s.table ∧ e ≠ .stray) := by
  rw [putProbe, bucket, bind_assoc]
  refine Results.bind (calling_results (calls.hash key) s) ?_
  rintro hash t ⟨htable, hcall⟩
  obtain rfl := hf.hash _ _ _ hcall
  have hgo := putProbeGo_results (s := t) hf key (t.table.mask + 1)
    (HashMap.bucket cb t.table key) none
  rw [htable] at hgo
  refine (Results.after (t := t) rfl (Results.after (t := t) rfl ?_)).mono (fun _ _ => id)
    fun _ _ => id
  exact htable ▸ hgo

/-! ## What a throw leaves -/

/-- A new key finds the table full, and the hash throws at one of the keys that are there while
they are put into the new table. -/
def RehashThrows (calls : Calls K W) (key : K) (s : Hashing (HashMap K V) W) : Prop :=
  ∃ last first s₁ e s₂, putProbe calls key s = .ok (.absent last first) s₁ ∧
    s.table.capacity * 7 ≤ (s.table.count + s.table.tombstoneCount + 1) * 10 ∧
    hashAll calls (keys s.table.slots) s₁ = .error e s₂

/-- The entries that were put back before a throw, and one that was not. -/
theorem partial_spec (hl : cb.Lawful) {t t' : HashMap K V} (h : Sound cb t)
    {done rest : List (Slot K V)} {k : K} {v : V} (hslots : t.slots = done ++ .occupied k v :: rest)
    (hdone : done.foldlM (rehashSlot cb) (freshTable t (t.capacity * 2)) = some t') :
    Sound cb t' ∧ ∀ k' v', Live t' k' v' → cb.equals k' k = false := by
  obtain ⟨n, hn, hcap⟩ := h.inv.power
  have hroom := h.loaded.room
  have hpow : t.capacity * 2 = 2 ^ (n + 1) := by rw [hcap, Nat.pow_succ]
  have hapart := h.inv.apart
  rw [hslots, List.pairwise_append] at hapart
  have hcount : done.countP Slot.isOccupied ≤ t.count := by
    rw [h.inv.count, hslots, List.countP_append]
    exact Nat.le_add_right _ _
  obtain ⟨t'', hfold, hI, hlive, hcapacity, hcount', htomb⟩ :=
    rehash_fold hl (inv_freshTable t (show 2 ≤ n + 1 by omega)) rfl
      (by simp only [freshTable, allocateTable, ← hpow]; omega) hapart.1
      fun k v hk => absurd hk (not_live_freshTable t _ k v)
  rw [← hpow] at hfold
  obtain rfl := Option.some.inj (hdone.symm.trans hfold)
  refine ⟨⟨hI, ?_⟩, fun k' v' hk' => ?_⟩
  · have hfresh : (freshTable t (2 ^ (n + 1))).capacity = t.capacity * 2 := hpow.symm
    have hzero : (freshTable t (2 ^ (n + 1))).count = 0 := rfl
    rw [Loaded, hcapacity, hcount', htomb, hfresh, hzero]
    have hload := h.loaded
    rw [Loaded] at hload
    omega
  · rcases (hlive k' v').mp hk' with hk' | hmem
    · exact absurd hk' (not_live_freshTable t _ k' v')
    · exact hapart.2.2 _ hmem _ List.mem_cons_self _ _ _ _ rfl rfl

/-- A throw leaves a sound table, with all its entries unless they were being hashed again. -/
theorem put_error_cases (hl : cb.Lawful) (hf : calls.Follows cb) {key : K} {value : V} {e : Fault}
    {t : Hashing (HashMap K V) W} (h : Sound cb s.table)
    (herror : put calls key value s = .error e t) :
    e ≠ .stray ∧ Sound cb t.table ∧
      ((¬RehashThrows calls key s ∧ ∀ k v, Live s.table k v → Live t.table k v) ∨
        (RehashThrows calls key s ∧ ∃ k v, Live s.table k v ∧
          ∀ k' v', Live t.table k' v' → cb.equals k' k = false)) := by
  have hprobe := putProbe_results (s := s) hf key
  rcases Raising.bind_eq_error.mp herror with hthrew | ⟨r, s₁, hok, hrest⟩
  · obtain ⟨htable, hne⟩ := hprobe.of_error hthrew
    refine ⟨hne, htable ▸ h, .inl ⟨?_, htable ▸ fun _ _ => id⟩⟩
    rintro ⟨last, first, s₁, -, -, hok, -⟩
    rw [hthrew] at hok
    cases hok
  · obtain ⟨htable, hr⟩ := hprobe.of_ok hok
    cases r with
    | found index => cases hrest
    | absent last first =>
        change (if _ then _ else _ : Hashed (HashMap K V) W Unit) s₁ = _ at hrest
        rw [htable] at hrest
        split at hrest
        · rename_i hfull
          obtain ⟨grown, hrehash, hG, hliveG, hcapG, hcountG, htombG⟩ :=
            rehash_spec hl h.inv h.loaded
          have hreinsert := reinsert_results (C := HashMap K V) hf
            (s := ⟨freshTable s.table (s.table.capacity * 2), s₁.world⟩) hrehash
          have hsame : rehash calls (s.table.capacity * 2) s₁
              = reinsert calls s.table.slots
                ⟨freshTable s.table (s.table.capacity * 2), s₁.world⟩ := by
            rw [← htable]
            rfl
          rcases Raising.bind_eq_error.mp hrest with hthrew | ⟨_, u, hdone, hrest⟩
          · obtain ⟨hne, ⟨done, k, v, rest, hslots, hfold⟩, hhash⟩ :=
              hreinsert.of_error (hsame ▸ hthrew)
            obtain ⟨hsound, hlost⟩ := partial_spec hl h hslots hfold
            refine ⟨hne, hsound, .inr ⟨⟨last, first, s₁, e, _, hok, hfull, hhash s₁.table⟩, k, v,
              ?_, hlost⟩⟩
            rw [live_iff_mem, hslots]
            exact List.mem_append_right _ List.mem_cons_self
          · -- the table has grown, and the key is hashed once more
            obtain ⟨hgrown, hhash⟩ := hreinsert.of_ok (hsame ▸ hdone)
            have hno : ¬RehashThrows calls key s := by
              rintro ⟨last', first', s₁', e', s₂, hok', -, hthrew⟩
              obtain ⟨-, rfl⟩ := EStateM.Result.ok.inj (hok'.symm.trans hok)
              cases (hhash s₁'.table).symm.trans hthrew
            have habsent : HashMap.findIndex cb s.table key = none := by
              cases hfind : HashMap.findIndex cb s.table key with
              | none => rfl
              | some i =>
                  rw [putProbeGo_found hfind] at hr
                  cases hr
            obtain ⟨i, hindex, -⟩ := hG.vacant (by have := h.loaded.room; omega) fun k v hk =>
              findIndex_none hl h.inv habsent ((hliveG k v).mp hk)
            rw [← hgrown] at hindex hG hliveG hcapG hcountG htombG
            have hsound : Sound cb u.table := by
              refine ⟨hG, ?_⟩
              have hload := h.loaded
              rw [Loaded] at hload ⊢
              omega
            rcases Raising.bind_eq_error.mp hrest with hthrew | ⟨_, _, _, hrest⟩
            · obtain ⟨hne, hsame⟩ := findInsertionIndex_error hf hindex hthrew
              exact ⟨hne, hsame ▸ hsound, .inl ⟨hno, fun k v hk => hsame ▸ (hliveG k v).mpr hk⟩⟩
            · cases hrest
        · cases hrest

/-- The entries before are all found afterwards, unless the throw came while they were hashed
again. -/
theorem put_keeps_iff (hl : cb.Lawful) (hf : calls.Follows cb) {key : K} {value : V} {e : Fault}
    {t : Hashing (HashMap K V) W} (h : Sound cb s.table)
    (herror : put calls key value s = .error e t) :
    (∀ k v, get cb s.table k = .ok v → get cb t.table k = .ok v) ↔ ¬RehashThrows calls key s := by
  obtain ⟨-, hsound, ⟨hno, hkeeps⟩ | ⟨hthrows, k, v, hlive, hlost⟩⟩ :=
    put_error_cases hl hf h herror
  · refine iff_of_true (fun k v hget => ?_) hno
    obtain ⟨k', hlive, heq⟩ := (get_eq_ok_iff hl h.inv).mp hget
    exact (get_eq_ok_iff hl hsound.inv).mpr ⟨k', hkeeps k' v hlive, heq⟩
  · refine iff_of_false (fun hkeeps => ?_) (not_not_intro hthrows)
    have hget := hkeeps k v ((get_eq_ok_iff hl h.inv).mpr ⟨k, hlive, hl.eqv.refl k⟩)
    obtain ⟨k', hlive', heq⟩ := (get_eq_ok_iff hl hsound.inv).mp hget
    rw [hlost k' v hlive'] at heq
    cases heq

/-- A call that returns has done what the call without worlds does. -/
theorem put_ok (hl : cb.Lawful) (hf : calls.Follows cb) {key : K} {value : V}
    {t : Hashing (HashMap K V) W} (h : Sound cb s.table) (hok : put calls key value s = .ok () t) :
    HashMap.put cb s.table key value = some t.table := by
  obtain ⟨r, s₁, hprobe, hrest⟩ := Raising.bind_eq_ok.mp hok
  obtain ⟨htable, hr⟩ := (putProbe_results (s := s) hf key).of_ok hprobe
  rw [HashMap.put, ← hr, ← htable]
  cases r with
  | found index =>
      cases hrest
      rfl
  | absent last first =>
      change (if _ then _ else _ : Hashed (HashMap K V) W Unit) s₁ = _ at hrest
      dsimp only
      split at hrest
      · rename_i hfull
        rw [if_pos hfull]
        obtain ⟨_, u, hdone, hrest⟩ := Raising.bind_eq_ok.mp hrest
        obtain ⟨i, u₁, hindex, hrest⟩ := Raising.bind_eq_ok.mp hrest
        cases hrest
        obtain ⟨grown, hrehash, -⟩ := rehash_spec hl (htable ▸ h).inv (htable ▸ h).loaded
        obtain ⟨hgrown, -⟩ := (reinsert_results (C := Unit) hf
          (s := ⟨freshTable s₁.table (s₁.table.capacity * 2), s₁.world⟩) hrehash).of_ok hdone
        obtain ⟨htable₁, hi⟩ := (findInsertionIndex_results hf key).of_ok hindex
        rw [hrehash, ← hgrown]
        simp [hi, htable₁]
      · rename_i hfits
        cases hrest
        rw [if_neg hfits]

/-! ## Reachable maps -/

/-- Maps that calls lead to, also calls of `put` that throw. `tryAdd` and the indexer call `put`;
`remove` and the other calls have changed nothing where a callback throws. -/
inductive Reached (cb : Callbacks K) : HashMap K V → Prop where
  | fresh {t : HashMap K V} (h : Fresh t) : Reached cb t
  | put {W : Type} {calls : Calls K W} (hf : calls.Follows cb) {s : Hashing (HashMap K V) W}
      (h : Reached cb s.table) (key : K) (value : V) :
      Reached cb (Raising.state (put calls key value s)).table
  | remove {t : HashMap K V} (h : Reached cb t) (key : K) : Reached cb (HashMap.remove cb t key).2
  | clear {t : HashMap K V} (h : Reached cb t) : Reached cb (HashMap.clear t)

theorem Reached.sound (hl : cb.Lawful) {t : HashMap K V} (h : Reached cb t) : Sound cb t := by
  induction h with
  | fresh h => exact (holds_of_fresh h).sound
  | @put W calls hf s _ key value ih =>
      cases hcall : Throwing.put calls key value s with
      | ok _ t =>
          obtain ⟨m, hholds⟩ := ih.holds hl
          obtain ⟨t', hput, h'⟩ := put_spec hl hholds key value
          obtain rfl := Option.some.inj (hput.symm.trans (put_ok hl hf ih hcall))
          exact h'.sound
      | error e t => exact (put_error_cases hl hf ih hcall).2.1
  | remove _ key ih =>
      obtain ⟨m, hholds⟩ := ih.holds hl
      exact (remove_spec hl hholds key).2.sound
  | clear _ ih => exact (clear_spec ih.inv).sound

end Throwing

end HashMap

end Collections

end Absolute
