import Absolute.LibRuns
import Absolute.StdHashSetRefines

/-!
# The capacity of hash tables

A table grows where a new key finds it full of live entries and tombstones, and what grows is
always the capacity: an insertion that only needed its tombstones taken away doubles the table
too. Where the live entries are at least as many as the tombstones whenever that happens, the
capacity follows the contents (`capacity_follows_contents`); a single key that comes and goes
takes it to any power of two (`churn_reaches`).
-/

namespace Absolute

namespace Collections

open Runs

namespace HashMap

variable {K V : Type} {cb : Callbacks K}

def step (cb : Callbacks K) (t : HashMap K V) (op : Op K V) (t' : HashMap K V) : Prop :=
  apply cb t op = some t'

/-- The key that a call brings. -/
def Op.inserted : Op K V → Option K
  | .put key _ | .tryAdd key _ | .set key _ => some key
  | .remove _ | .clear => none

/-- A new key finds the table full. -/
structure Grows (cb : Callbacks K) (t : HashMap K V) (op : Op K V) : Prop where
  absent : ∃ key, op.inserted = some key ∧ containsKey cb t key = false
  full : t.capacity * 7 ≤ (t.count + t.tombstoneCount + 1) * 10

/-- A call that leaves at most `n` live entries. -/
def StaysWithin (cb : Callbacks K) (n : Nat) (t : HashMap K V) (op : Op K V) : Prop :=
  ∀ t', apply cb t op = some t' → t'.count ≤ n

/-- A table that is full has no more tombstones than live entries. -/
def Crowded (cb : Callbacks K) (t : HashMap K V) (op : Op K V) : Prop :=
  Grows cb t op → t.tombstoneCount ≤ t.count

/-! ## When the capacity changes -/

theorem setValue_capacity (t : HashMap K V) (index : Nat) (value : V) :
    (setValue t index value).capacity = t.capacity := by
  rw [setValue]
  split <;> rfl

/-- A new key that finds the table full doubles it. -/
theorem put_of_full (hl : cb.Lawful) {t : HashMap K V} {m : KeyMap cb.equals V}
    (h : Holds cb t m) {key : K} (habsent : findIndex cb t key = none)
    (hfull : t.capacity * 7 ≤ (t.count + t.tombstoneCount + 1) * 10) (value : V) :
    ∃ t', put cb t key value = some t' ∧ t'.capacity = t.capacity * 2 ∧
      t'.count = t.count + 1 := by
  obtain ⟨last, first, hprobe, -⟩ :=
    @putProbeGo_absent _ _ cb t key _ _ none habsent (h.inv.exists_unused h.loaded.room key)
  obtain ⟨grown, hrehash, hG, hlive, hcap, hcount, htomb⟩ := rehash_spec hl h.inv h.loaded
  have hroom := h.loaded.room
  obtain ⟨index, hindex, -⟩ := hG.vacant (by omega) fun k v hk =>
    findIndex_none hl h.inv habsent ((hlive k v).mp hk)
  refine ⟨store grown index key value, ?_, hcap, by rw [store, hcount]⟩
  rw [put, hprobe]
  dsimp only
  rw [if_pos hfull, hrehash]
  simp [hindex]

theorem put_capacity (hl : cb.Lawful) {t t' : HashMap K V} {m : KeyMap cb.equals V}
    (h : Holds cb t m) {key : K} {value : V} (hput : put cb t key value = some t') :
    t'.capacity = t.capacity ∨
      (containsKey cb t key = false ∧ t.capacity * 7 ≤ (t.count + t.tombstoneCount + 1) * 10 ∧
        t'.capacity = t.capacity * 2 ∧ t'.count = t.count + 1) := by
  cases hfind : findIndex cb t key with
  | some i =>
      rw [put, putProbeGo_found hfind] at hput
      obtain rfl := Option.some.inj hput
      exact .inl (setValue_capacity t i value)
  | none =>
      by_cases hfull : t.capacity * 7 ≤ (t.count + t.tombstoneCount + 1) * 10
      · obtain ⟨t'', hput', hcap, hcount⟩ := put_of_full hl h hfind hfull value
        obtain rfl := Option.some.inj (hput.symm.trans hput')
        exact .inr ⟨by rw [containsKey, hfind]; rfl, hfull, hcap, hcount⟩
      · obtain ⟨last, first, hprobe, -⟩ :=
          @putProbeGo_absent _ _ cb t key _ _ none hfind
            (h.inv.exists_unused h.loaded.room key)
        rw [put, hprobe] at hput
        dsimp only at hput
        rw [if_neg hfull] at hput
        obtain rfl := Option.some.inj hput
        exact .inl rfl

theorem apply_capacity (hl : cb.Lawful) {t t' : HashMap K V} {m : KeyMap cb.equals V}
    (h : Holds cb t m) {op : Op K V} (hop : apply cb t op = some t') :
    t'.capacity = t.capacity ∨
      (Grows cb t op ∧ t'.capacity = t.capacity * 2 ∧ t'.count = t.count + 1) := by
  cases op with
  | put key value | set key value =>
      refine (put_capacity hl h hop).imp_right ?_
      rintro ⟨habsent, hfull, hcap, hcount⟩
      exact ⟨⟨⟨key, rfl, habsent⟩, hfull⟩, hcap, hcount⟩
  | tryAdd key value =>
      rw [apply, tryAdd] at hop
      split at hop
      · obtain rfl := Option.some.inj hop
        exact .inl rfl
      · rw [Option.map_map] at hop
        obtain ⟨t'', hput, rfl⟩ := Option.map_eq_some_iff.mp hop
        refine (put_capacity hl h hput).imp_right ?_
        rintro ⟨habsent, hfull, hcap, hcount⟩
        exact ⟨⟨⟨key, rfl, habsent⟩, hfull⟩, hcap, hcount⟩
  | remove key =>
      obtain rfl := Option.some.inj hop
      left
      rw [remove]
      split <;> rfl
  | clear =>
      obtain rfl := Option.some.inj hop
      exact .inl rfl

/-! ## Runs that grow for their live entries -/

/-- What a run under the two conditions keeps. -/
theorem bounded_of_run (hl : cb.Lawful) {t₀ t : HashMap K V} {past : List (Op K V)} {n : Nat}
    (h₀ : ∃ m, Holds cb t₀ m)
    (h : RunUnder (step cb) (fun t op => StaysWithin cb n t op ∧ Crowded cb t op) t₀ past t) :
    (∃ m, Holds cb t m) ∧ t.capacity ≤ 6 * max t₀.capacity (n + 1) := by
  refine h.invariant
    (P := fun _ t => (∃ m, Holds cb t m) ∧ t.capacity ≤ 6 * max t₀.capacity (n + 1))
    ⟨h₀, by omega⟩ ?_
  rintro _ t op t' - ⟨⟨m, hm⟩, hbound⟩ ⟨hwithin, hcrowded⟩ hstep
  obtain ⟨t'', happly, hholds⟩ := HashMap.apply_spec hl hm op
  obtain rfl := Option.some.inj (hstep.symm.trans happly)
  refine ⟨⟨_, hholds⟩, ?_⟩
  rcases apply_capacity hl hm hstep with hcap | ⟨hgrows, hcap, hcount⟩
  · rw [hcap]
    exact hbound
  · -- as many live entries as tombstones make up at least a third of the table
    have hlive := hwithin t' hstep
    have htomb := hcrowded hgrows
    have hfull := hgrows.full
    omega

end HashMap

/-! ## Sets -/

namespace HashSet

variable {T : Type} {cb : Callbacks T}

def step (cb : Callbacks T) (s : HashSet T) (op : Op T) (s' : HashSet T) : Prop :=
  apply cb s op = some s'

/-- A new item finds the table full. -/
structure Grows (cb : Callbacks T) (s : HashSet T) (op : Op T) : Prop where
  absent : ∃ value, op = .add value ∧ contains cb s value = false
  full : s.capacity * 7 ≤ (s.count + s.tombstoneCount + 1) * 10

def StaysWithin (cb : Callbacks T) (n : Nat) (s : HashSet T) (op : Op T) : Prop :=
  ∀ s', apply cb s op = some s' → s'.count ≤ n

def Crowded (cb : Callbacks T) (s : HashSet T) (op : Op T) : Prop :=
  Grows cb s op → s.tombstoneCount ≤ s.count

/-- A call of the set as the map's. -/
def Op.toMap : Op T → HashMap.Op T Unit
  | .add value => .tryAdd value ()
  | .remove value => .remove value
  | .clear => .clear

theorem apply_toMap {s : HashSet T} (hI : HashMap.Inv cb (toMap s))
    (hload : HashMap.Loaded (toMap s)) (op : Op T) :
    HashMap.apply cb (toMap s) op.toMap = (apply cb s op).map toMap := by
  cases op with
  | add value =>
      rw [Op.toMap, HashMap.apply, add_toMap hI hload, apply, Option.map_map, Option.map_map]
      rfl
  | remove value =>
      rw [Op.toMap, HashMap.apply, remove_toMap]
      rfl
  | clear =>
      rw [Op.toMap, HashMap.apply, clear_toMap hI]
      rfl

/-- A run of the set is a run of its map, under the map's conditions. -/
theorem run_toMap (hl : cb.Lawful) {s₀ s : HashSet T} {past : List (Op T)} {n : Nat}
    (h₀ : Holds hl s₀ ∅)
    (h : RunUnder (step cb) (fun s op => StaysWithin cb n s op ∧ Crowded cb s op) s₀ past s) :
    (∃ S, Holds hl s S) ∧
      RunUnder (HashMap.step cb)
        (fun t op => HashMap.StaysWithin cb n t op ∧ HashMap.Crowded cb t op)
        (toMap s₀) (past.map Op.toMap) (toMap s) := by
  induction h with
  | nil => exact ⟨⟨∅, h₀⟩, .nil⟩
  | @cons past s s' op _ hcond hstep ih =>
      obtain ⟨⟨S, hS⟩, hrun⟩ := ih
      obtain ⟨s'', happly, hS'⟩ := apply_spec hS op
      obtain rfl := Option.some.inj (hstep.symm.trans happly)
      have hmap := apply_toMap hS.inv hS.loaded op
      rw [happly] at hmap
      refine ⟨⟨_, hS'⟩, hrun.cons ⟨fun t ht => ?_, fun hgrows => ?_⟩ hmap⟩
      · obtain rfl := Option.some.inj (hmap.symm.trans ht)
        exact hcond.1 s' hstep
      · refine hcond.2 ⟨?_, hgrows.full⟩
        obtain ⟨key, hkey, habsent⟩ := hgrows.absent
        rw [HashMap.containsKey, findIndex_toMap] at habsent
        cases op with
        | add value =>
            obtain rfl := Option.some.inj hkey
            exact ⟨value, rfl, habsent⟩
        | remove value => cases hkey
        | clear => cases hkey

end HashSet

/-- Where every growing table has at least as many live entries as tombstones, the capacity is
at most six times the first one or the live entries. -/
theorem capacity_follows_contents {K V : Type} {cb : Callbacks K} (hl : cb.Lawful) :
    (∀ (t₀ t : HashMap K V) (past : List (HashMap.Op K V)) (n : Nat), HashMap.Fresh t₀ →
      RunUnder (HashMap.step cb)
        (fun t op => HashMap.StaysWithin cb n t op ∧ HashMap.Crowded cb t op) t₀ past t →
      t.capacity ≤ 6 * max t₀.capacity (n + 1)) ∧
    (∀ (s₀ s : HashSet K) (past : List (HashSet.Op K)) (n : Nat), HashSet.Fresh s₀ →
      RunUnder (HashSet.step cb)
        (fun s op => HashSet.StaysWithin cb n s op ∧ HashSet.Crowded cb s op) s₀ past s →
      s.capacity ≤ 6 * max s₀.capacity (n + 1)) := by
  refine ⟨fun t₀ t past n hfresh hrun => ?_, fun s₀ s past n hfresh hrun => ?_⟩
  · exact (HashMap.bounded_of_run hl ⟨_, HashMap.holds_of_fresh hfresh⟩ hrun).2
  · have h₀ := HashSet.holds_of_fresh hl hfresh
    exact (HashMap.bounded_of_run hl ⟨_, h₀⟩ (HashSet.run_toMap hl h₀ hrun).2).2

/-- One entry that comes and goes once. -/
theorem capacity_follows_contents_removed :
    ∃ t : HashMap Nat Nat,
      HashMap.applyAll HashMap.natCallbacks HashMap.new [.put 1 10, .remove 1] = some t ∧
        t.capacity ≤ 6 * max (HashMap.new : HashMap Nat Nat).capacity (1 + 1) :=
  ⟨_, rfl, (capacity_follows_contents HashMap.natCallbacks_lawful).1 _ _
    [.remove 1, .put 1 10] 1 (.inl rfl)
    (.cons (.cons .nil
      ⟨fun t ht => by obtain rfl := Option.some.inj ht; decide, fun _ => by decide⟩ rfl)
      ⟨fun t ht => by obtain rfl := Option.some.inj ht; decide, fun _ => by decide⟩ rfl)⟩

/-! ## One key that comes and goes -/

namespace HashMap

theorem bucket_natCallbacks {t : HashMap Nat Nat} (hI : Inv natCallbacks t)
    (hcap : t.capacity ≤ 2 ^ 64) {i : Nat} (hi : i < t.capacity) : bucket natCallbacks t i = i := by
  obtain ⟨k, -, hk⟩ := hI.power
  have hmask : t.mask = 2 ^ k - 1 := by rw [hI.mask, hk]
  rw [bucket, natCallbacks, BitVec.toNat_and, BitVec.toNat_ofNat, BitVec.toNat_ofNat, hmask,
    Nat.mod_eq_of_lt (by omega), Nat.mod_eq_of_lt (by omega), Nat.and_two_pow_sub_one_eq_mod,
    Nat.mod_eq_of_lt (by omega)]

/-- A key whose bucket is empty is put: the slot is taken, or the table doubles. -/
theorem put_empty {t : HashMap Nat Nat} {m : KeyMap natCallbacks.equals Nat}
    (h : Holds natCallbacks t m) (hcap : t.capacity ≤ 2 ^ 64) :
    ∃ key t₁, put natCallbacks t key 0 = some t₁ ∧ t₁.count = t.count + 1 ∧
      (t₁.capacity = t.capacity ∧ t₁.tombstoneCount = t.tombstoneCount ∨
        t₁.capacity = t.capacity * 2) := by
  have hroom := h.loaded.room
  rw [h.inv.count, h.inv.tombstones, ← h.inv.size] at hroom
  obtain ⟨i, hi, hempty⟩ := List.mem_iff_getElem.mp (exists_empty hroom)
  have hslot : slot t i = .empty := (List.getD_eq_getElem _ _ hi).trans hempty
  have hbucket := bucket_natCallbacks h.inv hcap (h.inv.size ▸ hi)
  have hfind : findIndex natCallbacks t i = none := by
    rw [findIndex, hbucket, findIndexGo, hslot]
  by_cases hfull : t.capacity * 7 ≤ (t.count + t.tombstoneCount + 1) * 10
  · obtain ⟨t₁, hput, hdouble, hcount⟩ := put_of_full natCallbacks_lawful h hfind hfull 0
    exact ⟨i, t₁, hput, hcount, .inr hdouble⟩
  · refine ⟨i, store t i i 0, ?_, rfl, .inl ⟨rfl, by rw [store, hslot]⟩⟩
    rw [put, hbucket, putProbeGo, hslot]
    exact if_neg hfull

theorem holds_of_apply {t t' : HashMap K V} (hl : cb.Lawful) (h : ∃ m, Holds cb t m)
    {op : Op K V} (hop : apply cb t op = some t') : ∃ m, Holds cb t' m := by
  obtain ⟨m, hm⟩ := h
  obtain ⟨t'', happly, h'⟩ := apply_spec hl hm op
  obtain rfl := Option.some.inj (hop.symm.trans happly)
  exact ⟨_, h'⟩

/-- The key that was put is removed again: one more slot is a tombstone, or the table has
doubled. -/
theorem churn {t : HashMap Nat Nat} (h : ∃ m, Holds natCallbacks t m)
    (hcap : t.capacity ≤ 2 ^ 64) :
    ∃ key t₁ t₂, apply natCallbacks t (.put key 0) = some t₁ ∧ t₁.count = t.count + 1 ∧
      apply natCallbacks t₁ (.remove key) = some t₂ ∧ t₂.count = t.count ∧
      (t₂.capacity = t.capacity ∧ t₂.tombstoneCount = t.tombstoneCount + 1 ∨
        t₂.capacity = t.capacity * 2) := by
  obtain ⟨m, hm⟩ := h
  obtain ⟨key, t₁, hput, hcount, hgrown⟩ := put_empty hm hcap
  obtain ⟨t₁', hput', h₁⟩ := put_spec natCallbacks_lawful hm key 0
  obtain rfl := Option.some.inj (hput.symm.trans hput')
  have hthere := findIndex_isSome_iff natCallbacks_lawful h₁ key
  rw [KeyMap.lookup_put_self, Option.isSome_some] at hthere
  obtain ⟨index, hindex⟩ := Option.isSome_iff_exists.mp hthere
  have hremove : apply natCallbacks t₁ (.remove key)
      = some (write t₁ index .removed (t₁.count - 1) (t₁.tombstoneCount + 1)) := by
    rw [apply, remove, hindex]
    rfl
  refine ⟨key, t₁, _, hput, hcount, hremove, ?_, ?_⟩
  · rw [write, hcount]
    rfl
  · rcases hgrown with ⟨hsame, htomb⟩ | hdouble
    · exact .inl ⟨hsame, by rw [write, htomb]⟩
    · exact .inr hdouble

/-- A run with at most one live entry that ends with none. -/
structure Reached (t : HashMap Nat Nat) : Prop where
  run : ∃ past, RunUnder (step natCallbacks) (StaysWithin natCallbacks 1) new past t
  holds : ∃ m, Holds natCallbacks t m
  count : t.count = 0

theorem Reached.new : Reached new :=
  ⟨⟨[], .nil⟩, ⟨_, holds_of_fresh (.inl rfl)⟩, rfl⟩

theorem Reached.churn {t : HashMap Nat Nat} (h : Reached t) (hcap : t.capacity ≤ 2 ^ 64) :
    ∃ t', Reached t' ∧
      (t'.capacity = t.capacity ∧ t'.tombstoneCount = t.tombstoneCount + 1 ∨
        t'.capacity = t.capacity * 2) := by
  obtain ⟨⟨past, hrun⟩, hholds, hcount⟩ := h
  obtain ⟨key, t₁, t₂, hput, hcount₁, hremove, hcount₂, hgrown⟩ := HashMap.churn hholds hcap
  have hone : StaysWithin natCallbacks 1 t (.put key 0) := fun t' ht' => by
    obtain rfl := Option.some.inj (hput.symm.trans ht')
    omega
  have hnone : StaysWithin natCallbacks 1 t₁ (.remove key) := fun t' ht' => by
    obtain rfl := Option.some.inj (hremove.symm.trans ht')
    omega
  have h₁ := holds_of_apply natCallbacks_lawful hholds hput
  exact ⟨t₂, ⟨⟨_, (hrun.cons hone hput).cons hnone hremove⟩,
    holds_of_apply natCallbacks_lawful h₁ hremove, by omega⟩, hgrown⟩

/-- Tombstones are not taken away before the table doubles. -/
theorem Reached.double {t : HashMap Nat Nat} (h : Reached t) (hcap : t.capacity ≤ 2 ^ 64) :
    ∃ t', Reached t' ∧ t'.capacity = t.capacity * 2 := by
  induction hleft : t.capacity - t.tombstoneCount generalizing t with
  | zero =>
      obtain ⟨m, hm⟩ := h.holds
      have hroom := hm.loaded.room
      omega
  | succ left ih =>
      obtain ⟨t', h', ⟨hsame, htomb⟩ | hdouble⟩ := h.churn hcap
      · obtain ⟨t'', h'', hdouble⟩ := ih h' (by omega) (by omega)
        exact ⟨t'', h'', by rw [hdouble, hsame]⟩
      · exact ⟨t', h', hdouble⟩

theorem churn_reaches (k : Nat) (hk : k ≤ 61) :
    ∃ t, Reached t ∧ t.capacity = 2 ^ (k + 3) := by
  induction k with
  | zero => exact ⟨new, .new, rfl⟩
  | succ k ih =>
      obtain ⟨t, ht, hcap⟩ := ih (by omega)
      have hle : 2 ^ (k + 3) ≤ 2 ^ 64 := Nat.pow_le_pow_right (by decide) (by omega)
      obtain ⟨t', ht', hdouble⟩ := ht.double (by omega)
      exact ⟨t', ht', by rw [hdouble, hcap, ← Nat.pow_succ, Nat.add_right_comm]⟩

/-- No multiple bounds the capacity of a map with at most one live entry, as far as an `int32`
capacity goes. -/
theorem not_capacity_follows_contents :
    ¬∃ multiple ≤ 2 ^ 26, ∀ (n : Nat) (past : List (Op Nat Nat)) (t : HashMap Nat Nat),
      RunUnder (step natCallbacks) (StaysWithin natCallbacks n) new past t →
        t.capacity ≤ multiple * max (new : HashMap Nat Nat).capacity (n + 1) := by
  rintro ⟨multiple, hmultiple, h⟩
  obtain ⟨t, ⟨⟨past, hrun⟩, -, -⟩, hcap⟩ := churn_reaches 27 (by omega)
  have hbound := h 1 past t hrun
  have hnew : max (new : HashMap Nat Nat).capacity (1 + 1) = 8 := rfl
  rw [hcap, hnew] at hbound
  omega

end HashMap

end Collections

end Absolute
