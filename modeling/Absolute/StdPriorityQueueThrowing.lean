import Absolute.StdHashThrowingSet
import Absolute.StdPriorityQueueOrder

/-!
# What a throw leaves of a priority queue

Sifting moves the new entry through the slots of the old ones while the new one is not counted
yet, and `dequeue` has let go of the first entry before it sifts. A throw of the comparator leaves
the entries where they are at that moment.
-/

namespace Absolute

namespace Collections

namespace PriorityQueue

open HeapOrder (exchange contents parent)
open Raising (Results)

variable {T W : Type} {compare : T → T → Callback W Int} {q : PriorityQueue T}
  {f : Nat → T × Nat} {s t : Running T W}

/-- An entry is an item with its insertion order. -/
def Member (q : PriorityQueue T) (entry : T × Nat) : Prop :=
  ∃ i < q.count, q.items[i]? = some (some entry.1) ∧ q.insertionOrders[i]? = some entry.2

/-- The counted slots hold entries, no two of them the same, and none with a number to come. -/
structure Sound (q : PriorityQueue T) (f : Nat → T × Nat) : Prop where
  capacity : 0 < q.capacity
  paired : Paired q q.count f
  nodup : (contents q.count f).Nodup
  below : ∀ entry ∈ contents q.count f, entry.2 < q.nextInsertionOrder

theorem Sound.member_iff (h : Sound q f) {entry : T × Nat} :
    Member q entry ↔ entry ∈ contents q.count f := by
  rw [HeapOrder.mem_contents]
  constructor
  · rintro ⟨i, hi, hitem, horder⟩
    rw [h.paired.item i hi] at hitem
    rw [h.paired.order i hi] at horder
    exact ⟨i, hi, Prod.ext (Option.some.inj (Option.some.inj hitem)) (Option.some.inj horder)⟩
  · rintro ⟨i, hi, rfl⟩
    exact ⟨i, hi, h.paired.item i hi, h.paired.order i hi⟩

/-- Any comparator follows an order where all are equal as far as what stays goes. -/
theorem isOrder_zero : IsOrder fun _ _ : T => (0 : Int) := ⟨fun _ _ => Iff.rfl, fun _ _ => le_rfl⟩

theorem new_not_mem (h : Sound q f) (value : T) :
    (value, q.nextInsertionOrder) ∉ contents q.count f :=
  fun hmem => Nat.lt_irrefl _ (h.below _ hmem)

/-- Of the entries a call has left in the slots, those that are counted. -/
theorem Sound.changed (h : Sound q f) {q' : PriorityQueue T} {f' : Nat → T × Nat}
    {count slots next : Nat} {entries : Multiset (T × Nat)}
    (hchanged : Changed q q' count next f' entries slots) (hle : count ≤ slots)
    (hnodup : entries.Nodup) (hbelow : ∀ entry ∈ entries, entry.2 < next) : Sound q' f' := by
  have hsub : contents q'.count f' ≤ entries := by
    rw [← hchanged.contents, hchanged.count]
    exact Multiset.map_le_map (Multiset.range_le.mpr hle)
  refine ⟨hchanged.capacity h.capacity, hchanged.paired.mono (hchanged.count.trans_le hle),
    Multiset.nodup_of_le hsub hnodup, fun entry hentry => ?_⟩
  rw [hchanged.next]
  exact hbelow entry (Multiset.mem_of_le hsub hentry)

theorem Sound.nodup_cons (h : Sound q f) (value : T) :
    ((value, q.nextInsertionOrder) ::ₘ contents q.count f).Nodup :=
  Multiset.nodup_cons.mpr ⟨new_not_mem h value, h.nodup⟩

theorem Sound.below_cons (h : Sound q f) (value : T) :
    ∀ entry ∈ (value, q.nextInsertionOrder) ::ₘ contents q.count f,
      entry.2 < q.nextInsertionOrder + 1 := by
  intro entry hentry
  rcases Multiset.mem_cons.mp hentry with rfl | hentry
  · exact Nat.lt_succ_self _
  · exact (h.below entry hentry).trans (Nat.lt_succ_self _)

theorem Sound.carried (h : Sound q f) {m : Nat} (hcount : q.count = m + 1) :
    f 0 ∉ contents m (exchange f 0 m) ∧ (contents m (exchange f 0 m)).Nodup ∧
      ∀ entry ∈ contents m (exchange f 0 m), entry.2 < q.nextInsertionOrder := by
  have hnodup := h.nodup
  have hbelow := h.below
  rw [hcount, contents_carry] at hnodup hbelow
  obtain ⟨hfirst, hrest⟩ := Multiset.nodup_cons.mp hnodup
  exact ⟨hfirst, hrest, fun entry hentry => hbelow entry (Multiset.mem_cons_of_mem hentry)⟩

/-! ## Reachable queues -/

/-- Queues that calls lead to, also calls that throw; each call may be given another comparator. -/
inductive Reached : PriorityQueue T → Prop where
  | new {initialCapacity : Int} {q : PriorityQueue T}
      (h : PriorityQueue.new T initialCapacity = .ok q) : Reached q
  | enqueue {W : Type} {s : Running T W} (h : Reached s.queue)
      (compare : T → T → Callback W Int) (value : T) :
      Reached (Raising.state (PriorityQueue.enqueue compare value s)).queue
  | dequeue {W : Type} {s : Running T W} (h : Reached s.queue)
      (compare : T → T → Callback W Int) :
      Reached (Raising.state (PriorityQueue.dequeue compare s)).queue
  | clear {W : Type} {s : Running T W} (h : Reached s.queue) :
      Reached (Raising.state (PriorityQueue.clear s)).queue

theorem new_sound [Inhabited T] {initialCapacity : Int}
    (hnew : PriorityQueue.new T initialCapacity = .ok q) : ∃ f, Sound q f := by
  rw [PriorityQueue.new] at hnew
  split at hnew
  · cases hnew
  · rename_i hpos
    obtain rfl := Except.ok.inj hnew
    refine ⟨fun _ => (default, 0), ?_, ⟨fun i hi => ?_, fun i hi => ?_, List.length_replicate,
      List.length_replicate⟩, Multiset.nodup_zero, fun entry hentry => ?_⟩
    · change 0 < initialCapacity.toNat
      omega
    · exact absurd hi (Nat.not_lt_zero i)
    · exact absurd hi (Nat.not_lt_zero i)
    · exact absurd hentry (Multiset.notMem_zero entry)

theorem enqueue_sound (compare : T → T → Callback W Int) (h : Sound s.queue f) (value : T) :
    ∃ f', Sound (Raising.state (enqueue compare value s)).queue f' := by
  have hresults := enqueue_results compare isOrder_zero h.paired h.capacity value
  cases hcall : enqueue compare value s with
  | ok _ t =>
      obtain ⟨f', hchanged, -⟩ := hresults.of_ok hcall
      exact ⟨f', h.changed hchanged le_rfl (h.nodup_cons value) (h.below_cons value)⟩
  | error e t =>
      obtain ⟨-, f', hchanged⟩ := hresults.of_error hcall
      exact ⟨f', h.changed hchanged (Nat.le_succ _) (h.nodup_cons value) (h.below_cons value)⟩

theorem dequeue_sound (compare : T → T → Callback W Int) (h : Sound s.queue f) :
    ∃ f', Sound (Raising.state (dequeue compare s)).queue f' := by
  cases hcount : s.queue.count with
  | zero =>
      rw [dequeue_empty hcount]
      exact ⟨f, h⟩
  | succ m =>
      obtain ⟨-, hnodup, hbelow⟩ := h.carried hcount
      have hresults := dequeue_results compare isOrder_zero h.paired hcount
      cases hcall : dequeue compare s with
      | ok x t =>
          obtain ⟨-, f', hchanged, -⟩ := hresults.of_ok hcall
          exact ⟨f', h.changed hchanged le_rfl hnodup hbelow⟩
      | error e t =>
          obtain ⟨-, f', hchanged⟩ := hresults.of_error hcall
          exact ⟨f', h.changed hchanged le_rfl hnodup hbelow⟩

theorem clear_sound (h : Sound s.queue f) :
    ∃ f', Sound (Raising.state (clear s)).queue f' := by
  obtain ⟨items', hdrop, hlength⟩ := @drop_returns _ s.queue.count 0 s.queue.items
    fun i _ hi => ⟨_, h.paired.item i (by omega)⟩
  refine ⟨f, ?_⟩
  rw [clear, onQueue, hdrop]
  refine ⟨h.capacity, ⟨fun i hi => ?_, fun i hi => ?_, hlength.trans h.paired.items_length,
    h.paired.orders_length⟩, Multiset.nodup_zero, fun entry hentry => ?_⟩
  · exact absurd hi (Nat.not_lt_zero i)
  · exact absurd hi (Nat.not_lt_zero i)
  · exact absurd hentry (Multiset.notMem_zero entry)

theorem Reached.sound [Inhabited T] (h : Reached q) : ∃ f, Sound q f := by
  induction h with
  | new h => exact new_sound h
  | enqueue _ compare value ih => exact ih.elim fun f h => enqueue_sound compare h value
  | dequeue _ compare ih => exact ih.elim fun f h => dequeue_sound compare h
  | clear _ ih => exact ih.elim fun f h => clear_sound h

/-! ## Throws -/

/-- The comparator throws at the first call of `siftUp`, the new value against its parent. -/
def FirstThrows (compare : T → T → Callback W Int) (value : T) (s : Running T W) : Prop :=
  0 < s.queue.count ∧ ∃ parent message w,
    s.queue.items[(s.queue.count - 1) / 2]? = some (some parent) ∧
      compare value parent s.world = (.error message, w)

/-- `siftUp` of an entry that is not the first: what its first comparison decides. -/
theorem siftUp_error_cases (compare : T → T → Callback W Int) {m : Nat} {g : Nat → T × Nat}
    (h : Paired s.queue (m + 1) g) {e : Fault} (hpos : 0 < m)
    (herror : siftUp compare m s = .error e t) :
    (t.queue = s.queue ∧ ∃ message w,
        compare (g m).1 (g (parent m)).1 s.world = (.error message, w)) ∨
      ((∃ order w, compare (g m).1 (g (parent m)).1 s.world = (.ok order, w)) ∧
        ∃ f', Sifted s.queue t.queue (m + 1) g f' ∧ f' m = g (parent m)) := by
  have hlt : parent m < m := HeapOrder.parent_lt hpos
  obtain ⟨n, rfl⟩ := Nat.exists_eq_succ_of_ne_zero (Nat.ne_of_gt hpos)
  rw [siftUp, siftUpGo, if_pos hpos] at herror
  have hcompare := @comesBefore_eq _ _ _ _ s compare h (n + 1) (parent (n + 1)) (Nat.lt_succ_self _)
    (hlt.trans (Nat.lt_succ_self _))
  change (comesBefore compare (n + 1) (parent (n + 1)) >>= _) s = _ at herror
  cases hcall : compare (g (n + 1)).1 (g (parent (n + 1))).1 s.world with
  | mk answer w =>
    rw [hcall] at hcompare
    cases answer with
    | error message =>
        rcases Raising.bind_eq_error.mp herror with hthrew | ⟨_, _, hok, -⟩
        · obtain ⟨-, rfl⟩ := EStateM.Result.error.inj (hcompare.symm.trans hthrew)
          exact .inl ⟨rfl, message, w, rfl⟩
        · cases hcompare.symm.trans hok
    | ok order =>
        refine .inr ⟨⟨order, w, rfl⟩, ?_⟩
        rw [Raising.bind_of_ok hcompare] at herror
        generalize (if order < 0 then true else if order > 0 then false
          else decide ((g (n + 1)).2 < (g (parent (n + 1))).2)) = before at herror
        cases before with
        | false => cases herror
        | true =>
            -- the entry has gone up, and its parent down to where it was
            obtain ⟨q', hswap, hcounters, hpaired⟩ := swap_eq (s := ⟨s.queue, w⟩) h
              (Nat.lt_succ_self _) (hlt.trans (Nat.lt_succ_self _))
            change (swap (n + 1) (parent (n + 1)) >>= _) _ = _ at herror
            rw [Raising.bind_of_ok hswap] at herror
            obtain ⟨-, f', hsifted, hbehind⟩ :=
              (siftUpGo_results compare isOrder_zero (Nat.le_of_lt_succ hlt)
                (hlt.trans (Nat.lt_succ_self _)) (s := ⟨q', w⟩) hpaired).of_error herror
            refine ⟨f', hsifted.of_exchange (Nat.lt_succ_self _) (hlt.trans (Nat.lt_succ_self _))
              hcounters, ?_⟩
            rw [hbehind _ hlt, HeapOrder.exchange_left]

/-- After its first step up the new entry stands in a counted slot, and an old one behind the
count. -/
theorem enqueue_error_cases (h : Sound s.queue f) {value : T} {e : Fault}
    (herror : enqueue compare value s = .error e t) :
    (FirstThrows compare value s ∧ ∀ entry, Member s.queue entry → Member t.queue entry) ∨
      (¬FirstThrows compare value s ∧ ∃ f', Changed s.queue t.queue s.queue.count
        (s.queue.nextInsertionOrder + 1) f'
        ((value, s.queue.nextInsertionOrder) ::ₘ contents s.queue.count f) (s.queue.count + 1) ∧
        f' s.queue.count ∈ contents s.queue.count f) := by
  obtain ⟨q₁, hplace, hcount, hnext, hcapacity, hpaired⟩ := place_eq h.paired h.capacity value
  have hfirst : onQueue (place value) s = .ok () { s with queue := q₁ } := by
    rw [onQueue, hplace]
  have hget : (get : Action T W (Running T W)) { s with queue := q₁ } = .ok _ _ := rfl
  rw [enqueue, Raising.bind_of_ok hfirst, Raising.bind_of_ok hget] at herror
  dsimp only at herror
  rw [hcount] at herror
  have hsift : siftUp compare s.queue.count { s with queue := q₁ } = .error e t := by
    rcases Raising.bind_eq_error.mp herror with hsift | ⟨_, _, _, hlast⟩
    · exact hsift
    · cases hlast
  rcases Nat.eq_zero_or_pos s.queue.count with hzero | hpos
  · rw [hzero] at hsift
    cases hsift
  have hlt : parent s.queue.count < s.queue.count := HeapOrder.parent_lt hpos
  have hcases := siftUp_error_cases compare (s := { s with queue := q₁ }) hpaired hpos hsift
  rw [Function.update_self, Function.update_of_ne hlt.ne] at hcases
  have hparent := h.paired.item _ hlt
  rcases hcases with ⟨hqueue, message, w, hcall⟩ | ⟨⟨order, w, hcall⟩, f', hsifted, hlast⟩
  · refine .inl ⟨⟨hpos, _, message, w, hparent, hcall⟩, fun entry hentry => ?_⟩
    obtain ⟨i, hi, hitem⟩ := HeapOrder.mem_contents.mp (h.member_iff.mp hentry)
    rw [hqueue]
    refine ⟨i, hcount.symm ▸ hi, ?_⟩
    rw [hpaired.item i (by omega), hpaired.order i (by omega), Function.update_of_ne (by omega)]
    exact hitem ▸ ⟨rfl, rfl⟩
  · refine .inr ⟨?_, f', ⟨hsifted.paired, hsifted.contents.trans (contents_place _ _ _),
      hsifted.counters.count.trans hcount, hsifted.counters.next.trans hnext,
      fun _ => hsifted.counters.capacity ▸ hcapacity⟩,
      HeapOrder.mem_contents.mpr ⟨_, hlt, hlast.symm⟩⟩
    rintro ⟨-, p, message, w', hitem, hthrew⟩
    obtain rfl := Option.some.inj (Option.some.inj (hparent.symm.trans hitem))
    cases hcall.symm.trans hthrew

/-- The entries before stay exactly where the first comparison is the one that throws. -/
theorem enqueue_keeps_iff (h : Sound s.queue f) {value : T} {e : Fault}
    (herror : enqueue compare value s = .error e t) :
    (∀ entry, Member s.queue entry → Member t.queue entry) ↔ FirstThrows compare value s := by
  rcases enqueue_error_cases h herror with ⟨hthrows, hkeeps⟩ | ⟨hno, f', hchanged, hlast⟩
  · exact iff_of_true hkeeps hthrows
  · refine iff_of_false (fun hkeeps => ?_) hno
    have hsound := h.changed hchanged (Nat.le_succ _) (h.nodup_cons value) (h.below_cons value)
    have hnodup := h.nodup_cons value
    rw [← hchanged.contents, HeapOrder.contents_succ] at hnodup
    have hmember := hsound.member_iff.mp (hkeeps _ (h.member_iff.mpr hlast))
    rw [hchanged.count] at hmember
    exact (Multiset.nodup_cons.mp hnodup).1 hmember

/-- The first entry is gone before `siftDown` compares. -/
theorem dequeue_loses (h : Sound s.queue f) (hpos : 0 < s.queue.count) {e : Fault}
    (herror : dequeue compare s = .error e t) :
    ∃ entry, Member s.queue entry ∧ ¬Member t.queue entry := by
  obtain ⟨m, hcount⟩ := Nat.exists_eq_succ_of_ne_zero (Nat.ne_of_gt hpos)
  obtain ⟨hfirst, hnodup, hbelow⟩ := h.carried hcount
  obtain ⟨-, f', hchanged⟩ :=
    (dequeue_results compare isOrder_zero h.paired hcount).of_error herror
  have hsound := h.changed hchanged le_rfl hnodup hbelow
  refine ⟨f 0, h.member_iff.mpr (HeapOrder.mem_contents.mpr ⟨0, hpos, rfl⟩), fun hmember => ?_⟩
  have hmem := hsound.member_iff.mp hmember
  rw [hchanged.count, hchanged.contents] at hmem
  exact hfirst hmem

end PriorityQueue

end Collections

end Absolute
