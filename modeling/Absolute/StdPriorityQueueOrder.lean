import Absolute.StdPriorityQueueSifts

/-!
# The priority queue is stable

With a comparator that orders and does not throw, the queue is the list of its elements in the
order they came: what is taken out is the first of the least ones. `Holds` is what every operation
keeps: the heap in order, the arrays paired, and as entries the elements with their numbers.
-/

namespace Absolute

namespace Collections

namespace PriorityQueue

open HeapOrder (exchange contents Ordered UpReady DownReady parent)
open Raising (Results)

variable {T W : Type} {cmp : T → T → Int} {compare : T → T → Callback W Int}

/-- The comparator answers, and by the order. -/
def Always (compare : T → T → Callback W Int) (cmp : T → T → Int) : Prop :=
  ∀ a b w, (compare a b w).1 = .ok (cmp a b)

theorem Always.compares (h : Always compare cmp) : Compares compare cmp := fun a b w order ho => by
  rw [h a b w] at ho
  exact (Except.ok.inj ho).symm

/-! ## The invariant -/

/-- The entries in the order they came. -/
structure Holds (cmp : T → T → Int) (q : PriorityQueue T) (arrivals : List (T × Nat)) : Prop where
  capacity : 0 < q.capacity
  entries : ∃ f, Paired q q.count f ∧ Ordered (le cmp) q.count f ∧ contents q.count f = arrivals
  numbered : arrivals.Pairwise fun a b => a.2 < b.2
  below : ∀ a ∈ arrivals, a.2 < q.nextInsertionOrder

variable {q : PriorityQueue T} {arrivals : List (T × Nat)} {s : Running T W}

theorem Holds.count (h : Holds cmp q arrivals) : q.count = arrivals.length := by
  obtain ⟨f, -, -, hcontents⟩ := h.entries
  rw [← Multiset.coe_card, ← hcontents, contents, Multiset.card_map, Multiset.card_range]

theorem Always.not_thrown (h : Always compare cmp) {e : Fault} : ¬Thrown compare e := by
  rintro ⟨a, b, w, message, hcall, -⟩
  rw [h a b w] at hcall
  cases hcall

/-! ## Adding -/

theorem Holds.changed {q' : PriorityQueue T} {f' : Nat → T × Nat} {arrivals' : List (T × Nat)}
    {count next : Nat} (h : Holds cmp q arrivals)
    (hchanged : Changed q q' count next f' arrivals' count) (hordered : Ordered (le cmp) count f')
    (hnumbered : arrivals'.Pairwise fun a b => a.2 < b.2) (hbelow : ∀ a ∈ arrivals', a.2 < next) :
    Holds cmp q' arrivals' where
  capacity := hchanged.capacity h.capacity
  entries := by
    rw [hchanged.count]
    exact ⟨f', hchanged.paired, hordered, hchanged.contents⟩
  numbered := hnumbered
  below a ha := by
    rw [hchanged.next]
    exact hbelow a ha

theorem enqueue_spec (hcmp : IsOrder cmp) (hall : Always compare cmp)
    (h : Holds cmp s.queue arrivals) (value : T) :
    ∃ t, enqueue compare value s = .ok () t ∧
      Holds cmp t.queue (arrivals ++ [(value, s.queue.nextInsertionOrder)]) := by
  obtain ⟨f, hpaired, hordered, hcontents⟩ := h.entries
  obtain ⟨_, t, hresult, f', hchanged, horder⟩ :=
    (enqueue_results compare hcmp hpaired h.capacity value).exists_ok
      fun e t he => hall.not_thrown he.1
  have hperm : ((value, s.queue.nextInsertionOrder) ::ₘ (arrivals : Multiset (T × Nat)))
      = (arrivals ++ [(value, s.queue.nextInsertionOrder)] : List (T × Nat)) :=
    Multiset.coe_eq_coe.mpr (List.perm_append_singleton _ _).symm
  rw [hcontents, hperm] at hchanged
  refine ⟨t, hresult, h.changed hchanged (horder hall.compares hordered) ?_ fun a ha => ?_⟩
  · refine List.pairwise_append.mpr ⟨h.numbered, List.pairwise_singleton _ _, fun a ha b hb => ?_⟩
    rw [List.mem_singleton.mp hb]
    exact h.below a ha
  · rcases List.mem_append.mp ha with ha | ha
    · exact Nat.lt_succ_of_lt (h.below a ha)
    · rw [List.mem_singleton.mp ha]
      exact Nat.lt_succ_self _

theorem enqueueAll_spec (hcmp : IsOrder cmp) (hall : Always compare cmp) (values : List T)
    (h : Holds cmp s.queue arrivals) :
    ∃ t stamped, enqueueAll compare values s = .ok () t ∧ stamped.map Prod.fst = values ∧
      Holds cmp t.queue (arrivals ++ stamped) := by
  induction values generalizing s arrivals with
  | nil => exact ⟨s, [], rfl, rfl, by rwa [List.append_nil]⟩
  | cons value values ih =>
      obtain ⟨t₁, hone, h₁⟩ := enqueue_spec hcmp hall h value
      obtain ⟨t, stamped, hrest, hvalues, h'⟩ := ih h₁
      refine ⟨t, (value, s.queue.nextInsertionOrder) :: stamped, ?_, by rw [List.map_cons, hvalues],
        by rwa [List.append_assoc] at h'⟩
      rw [enqueueAll, Raising.bind_of_ok hone, hrest]

/-! ## Taking -/

/-- The first entry of the heap, among those that came before and after it. -/
theorem split_least {entry : T × Nat}
    (hnumbered : arrivals.Pairwise fun a b => a.2 < b.2) (hmem : entry ∈ arrivals)
    (hleast : ∀ a ∈ arrivals, le cmp entry a) :
    ∃ earlier later, arrivals = earlier ++ entry :: later ∧
      (∀ a ∈ earlier, cmp entry.1 a.1 < 0) ∧ ∀ a ∈ later, cmp entry.1 a.1 ≤ 0 := by
  obtain ⟨earlier, later, rfl⟩ := List.append_of_mem hmem
  refine ⟨earlier, later, rfl, fun a ha => ?_, fun a ha => ?_⟩
  · have hlt : a.2 < entry.2 :=
      (List.pairwise_append.mp hnumbered).2.2 a ha entry List.mem_cons_self
    rcases hleast a (List.mem_append_left _ ha) with hless | ⟨-, hge⟩
    · exact hless
    · omega
  · rcases hleast a (List.mem_append_right _ (List.mem_cons_of_mem _ ha)) with hless | ⟨heq, -⟩
    · omega
    · omega

theorem dequeue_spec (hcmp : IsOrder cmp) (hall : Always compare cmp)
    (h : Holds cmp s.queue arrivals) (hne : arrivals ≠ []) :
    ∃ t earlier entry later, dequeue compare s = .ok entry.1 t ∧
      arrivals = earlier ++ entry :: later ∧ (∀ a ∈ earlier, cmp entry.1 a.1 < 0) ∧
      (∀ a ∈ later, cmp entry.1 a.1 ≤ 0) ∧ Holds cmp t.queue (earlier ++ later) := by
  obtain ⟨f, hpaired, hordered, hcontents⟩ := h.entries
  obtain ⟨m, hcount⟩ : ∃ m, s.queue.count = m + 1 := by
    have := h.count
    have := List.length_pos_iff.mpr hne
    exact ⟨arrivals.length - 1, by omega⟩
  obtain ⟨x, t, hresult, rfl, f', hchanged, horder⟩ :=
    (dequeue_results compare hcmp hpaired hcount).exists_ok
      fun e t he => hall.not_thrown he.1
  rw [hcount] at hordered hcontents
  have hmem : ∀ i < m + 1, f i ∈ arrivals := fun i hi => by
    rw [← Multiset.mem_coe, ← hcontents]
    exact HeapOrder.mem_contents.mpr ⟨i, hi, rfl⟩
  obtain ⟨earlier, later, rfl, hearlier, hlater⟩ :=
    split_least h.numbered (hmem 0 (Nat.zero_lt_succ m)) fun a ha => by
      rw [← Multiset.mem_coe, ← hcontents, HeapOrder.mem_contents] at ha
      obtain ⟨i, hi, rfl⟩ := ha
      exact hordered.root hi (le_refl hcmp) (le_trans hcmp)
  have hrest : contents m (exchange f 0 m) = (earlier ++ later : List (T × Nat)) := by
    rw [contents_carry, Multiset.coe_eq_coe.mpr List.perm_middle, ← Multiset.cons_coe] at hcontents
    exact (Multiset.cons_inj_right _).mp hcontents
  rw [hrest] at hchanged
  refine ⟨t, earlier, f 0, later, hresult, rfl, hearlier, hlater,
    h.changed hchanged (horder hall.compares hordered) ?_ fun a ha => h.below a ?_⟩
  · exact h.numbered.sublist (List.Sublist.append_left (List.sublist_cons_self _ _) _)
  · rcases List.mem_append.mp ha with ha | ha
    · exact List.mem_append_left _ ha
    · exact List.mem_append_right _ (List.mem_cons_of_mem _ ha)

/-! ## Clearing -/

theorem drop_returns {n start : Nat} {items : Storage T}
    (h : ∀ i, start ≤ i → i < start + n → ∃ x, items[i]? = some (some x)) :
    ∃ items', unsafeArrayDrop items start n = .returned items' ∧ items'.length = items.length := by
  induction n generalizing start items with
  | zero => exact ⟨items, rfl, rfl⟩
  | succ n ih =>
      obtain ⟨x, hx⟩ := h start (Nat.le_refl _) (by omega)
      obtain ⟨items', hdrop, hlength⟩ := @ih (start + 1) (items.set start none) fun i hle hlt => by
        rw [List.getElem?_set_ne (by omega)]
        exact h i (by omega) (by omega)
      rw [unsafeArrayDrop, unsafeArrayTake_eq hx, Result.returned_bind]
      exact ⟨items', hdrop, by rw [hlength, List.length_set]⟩

theorem clear_spec (h : Holds cmp s.queue arrivals) :
    ∃ t, clear s = .ok () t ∧ Holds cmp t.queue [] := by
  obtain ⟨f, hpaired, -⟩ := h.entries
  obtain ⟨items', hdrop, hlength⟩ := @drop_returns _ s.queue.count 0 s.queue.items
    fun i _ hi => ⟨_, hpaired.item i (by omega)⟩
  refine ⟨{ s with queue := { s.queue with items := items', count := 0, nextInsertionOrder := 0 } },
    ?_, h.capacity, ⟨f, ⟨fun i hi => ?_, fun i hi => ?_, hlength.trans hpaired.items_length,
      hpaired.orders_length⟩, fun k _ hk => ?_, rfl⟩, .nil, fun a ha => ?_⟩
  · rw [clear, onQueue, hdrop]
  · exact absurd hi (Nat.not_lt_zero i)
  · exact absurd hi (Nat.not_lt_zero i)
  · exact absurd hk (Nat.not_lt_zero k)
  · cases ha

/-! ## Sequences of calls -/

inductive Op (T : Type) where
  | enqueue (value : T)
  | enqueueAll (values : List T)
  | dequeue
  | clear
deriving DecidableEq, Repr

def call (compare : T → T → Callback W Int) : Op T → Action T W (Answer T)
  | .enqueue value => do
      enqueue compare value
      return .done
  | .enqueueAll values => do
      enqueueAll compare values
      return .done
  | .dequeue => return .value (← dequeue compare)
  | .clear => do
      clear
      return .done

def run (compare : T → T → Callback W Int) (s : Running T W) (op : Op T) :
    Option (Answer T × Running T W) :=
  match call compare op s with
  | .ok answer t => some (answer, t)
  | .error (.threw message) t => some (.threw message, t)
  | .error .stray _ => none

/-- The answers of the calls in order, and the queue after them. -/
def runAll (compare : T → T → Callback W Int) :
    Running T W → List (Op T) → Option (List (Answer T) × Running T W)
  | s, [] => some ([], s)
  | s, op :: ops => do
      let (answer, s) ← run compare s op
      let (answers, s) ← runAll compare s ops
      return (answer :: answers, s)

/-- What a call answers and leaves of the elements in the order they came: what is taken is less
than all before it and not more than any behind it. -/
inductive Serves (cmp : T → T → Int) : List T → Op T → Answer T → List T → Prop where
  | enqueue (xs : List T) (value : T) : Serves cmp xs (.enqueue value) .done (xs ++ [value])
  | enqueueAll (xs values : List T) : Serves cmp xs (.enqueueAll values) .done (xs ++ values)
  | dequeue {earlier later : List T} {x : T} (hearlier : ∀ y ∈ earlier, cmp x y < 0)
      (hlater : ∀ y ∈ later, cmp x y ≤ 0) :
      Serves cmp (earlier ++ x :: later) .dequeue (.value x) (earlier ++ later)
  | empty : Serves cmp [] .dequeue (.threw "PriorityQueue is empty") []
  | clear (xs : List T) : Serves cmp xs .clear .done []

inductive ServesAll (cmp : T → T → Int) :
    List T → List (Op T) → List (Answer T) → List T → Prop where
  | nil (xs : List T) : ServesAll cmp xs [] [] xs
  | cons {xs xs' xs'' : List T} {op : Op T} {ops : List (Op T)} {answer : Answer T}
      {answers : List (Answer T)} (h : Serves cmp xs op answer xs')
      (hrest : ServesAll cmp xs' ops answers xs'') :
      ServesAll cmp xs (op :: ops) (answer :: answers) xs''

theorem run_spec (hcmp : IsOrder cmp) (hall : Always compare cmp)
    (h : Holds cmp s.queue arrivals) (op : Op T) :
    ∃ answer t arrivals', run compare s op = some (answer, t) ∧ Holds cmp t.queue arrivals' ∧
      Serves cmp (arrivals.map Prod.fst) op answer (arrivals'.map Prod.fst) := by
  cases op with
  | enqueue value =>
      obtain ⟨t, hresult, h'⟩ := enqueue_spec hcmp hall h value
      refine ⟨.done, t, _, ?_, h', ?_⟩
      · rw [run, call, Raising.bind_of_ok hresult]
        rfl
      · rw [List.map_append]
        exact .enqueue _ value
  | enqueueAll values =>
      obtain ⟨t, stamped, hresult, rfl, h'⟩ := enqueueAll_spec hcmp hall values h
      refine ⟨.done, t, _, ?_, h', ?_⟩
      · rw [run, call, Raising.bind_of_ok hresult]
        rfl
      · rw [List.map_append]
        exact .enqueueAll _ _
  | dequeue =>
      by_cases hne : arrivals = []
      · subst hne
        refine ⟨_, s, [], ?_, h, .empty⟩
        have herror : call compare .dequeue s = .error (.threw "PriorityQueue is empty") s :=
          Raising.bind_eq_error.mpr (.inl (dequeue_empty h.count))
        rw [run, herror]
      · obtain ⟨t, earlier, entry, later, hresult, rfl, hearlier, hlater, h'⟩ :=
          dequeue_spec hcmp hall h hne
        refine ⟨.value entry.1, t, _, ?_, h', ?_⟩
        · rw [run, call, Raising.bind_of_ok hresult]
          rfl
        · rw [List.map_append, List.map_append, List.map_cons]
          refine .dequeue (fun y hy => ?_) fun y hy => ?_
          · obtain ⟨a, ha, rfl⟩ := List.mem_map.mp hy
            exact hearlier a ha
          · obtain ⟨a, ha, rfl⟩ := List.mem_map.mp hy
            exact hlater a ha
  | clear =>
      obtain ⟨t, hresult, h'⟩ := clear_spec h
      refine ⟨.done, t, [], ?_, h', .clear _⟩
      rw [run, call, Raising.bind_of_ok hresult]
      rfl

theorem runAll_spec (hcmp : IsOrder cmp) (hall : Always compare cmp)
    (h : Holds cmp s.queue arrivals) (ops : List (Op T)) :
    ∃ answers t arrivals', runAll compare s ops = some (answers, t) ∧
      Holds cmp t.queue arrivals' ∧
      ServesAll cmp (arrivals.map Prod.fst) ops answers (arrivals'.map Prod.fst) := by
  induction ops generalizing s arrivals with
  | nil => exact ⟨[], s, arrivals, rfl, h, .nil _⟩
  | cons op ops ih =>
      obtain ⟨answer, t₁, arrivals₁, hop, h₁, hserves⟩ := run_spec hcmp hall h op
      obtain ⟨answers, t, arrivals', hops, h', hrest⟩ := ih h₁
      exact ⟨answer :: answers, t, arrivals', by rw [runAll, hop]; simp [hops], h',
        .cons hserves hrest⟩

/-- A new queue; an array of elements has a default one. -/
theorem holds_new [Inhabited T] {initialCapacity : Int} (hpos : 1 ≤ initialCapacity) :
    ∃ q, new T initialCapacity = .ok q ∧ Holds cmp q [] := by
  refine ⟨_, if_neg (by omega), ?_, ⟨fun _ => (default, 0), ⟨fun i hi => ?_, fun i hi => ?_,
    List.length_replicate, List.length_replicate⟩, fun k _ hk => ?_, rfl⟩, .nil, fun a ha => ?_⟩
  · change 0 < initialCapacity.toNat
    omega
  · exact absurd hi (Nat.not_lt_zero i)
  · exact absurd hi (Nat.not_lt_zero i)
  · exact absurd hk (Nat.not_lt_zero k)
  · cases ha

/-! ## What a queue that holds elements answers -/

theorem containsGo_spec [BEq T] {f : Nat → T × Nat} (h : Paired q q.count f) (target : T)
    {n index : Nat} (hn : index + n = q.count) :
    containsGo q target n index
      = .returned ((List.range' index n).any fun i => (f i).1 == target) := by
  induction n generalizing index with
  | zero => rfl
  | succ n ih =>
      rw [containsGo, unsafeArrayGet_eq (h.item index (by omega)), Result.returned_bind,
        List.range'_succ, List.any_cons]
      cases hfound : (f index).1 == target with
      | true => rfl
      | false =>
          rw [if_neg Bool.false_ne_true, ih (by omega)]
          rfl

/-- Everything the queue tells about itself is what the elements say. -/
structure Agrees [BEq T] (cmp : T → T → Int) (q : PriorityQueue T) (xs : List T) : Prop where
  count : q.count = xs.length
  isEmpty : isEmpty q = xs.isEmpty
  peek : xs = [] ∧ peek q = .threw "PriorityQueue is empty" ∨
    ∃ earlier x later, xs = earlier ++ x :: later ∧ (∀ y ∈ earlier, cmp x y < 0) ∧
      (∀ y ∈ later, cmp x y ≤ 0) ∧ peek q = .returned x
  contains : ∀ target, contains q target = .returned (xs.any (· == target))

theorem Agrees.of_holds [BEq T] (hcmp : IsOrder cmp) (h : Holds cmp q arrivals) :
    Agrees cmp q (arrivals.map Prod.fst) := by
  obtain ⟨f, hpaired, hordered, hcontents⟩ := h.entries
  have hcount := h.count
  refine ⟨by rw [hcount, List.length_map], ?_, ?_, fun target => ?_⟩
  · rw [PriorityQueue.isEmpty, hcount]
    cases arrivals <;> rfl
  · by_cases hempty : q.count = 0
    · obtain rfl := List.eq_nil_of_length_eq_zero (hcount ▸ hempty)
      exact .inl ⟨rfl, if_pos hempty⟩
    · have hmem : f 0 ∈ arrivals := by
        rw [← Multiset.mem_coe, ← hcontents]
        exact HeapOrder.mem_contents.mpr ⟨0, by omega, rfl⟩
      obtain ⟨earlier, later, rfl, hearlier, hlater⟩ :=
        split_least h.numbered hmem fun a ha => by
          rw [← Multiset.mem_coe, ← hcontents, HeapOrder.mem_contents] at ha
          obtain ⟨i, hi, rfl⟩ := ha
          exact hordered.root hi (le_refl hcmp) (le_trans hcmp)
      refine .inr ⟨earlier.map Prod.fst, (f 0).1, later.map Prod.fst, by simp, ?_, ?_, ?_⟩
      · intro y hy
        obtain ⟨a, ha, rfl⟩ := List.mem_map.mp hy
        exact hearlier a ha
      · intro y hy
        obtain ⟨a, ha, rfl⟩ := List.mem_map.mp hy
        exact hlater a ha
      · rw [PriorityQueue.peek, if_neg hempty]
        exact unsafeArrayGet_eq (hpaired.item 0 (by omega))
  · rw [PriorityQueue.contains, containsGo_spec hpaired target (Nat.zero_add _)]
    congr 1
    rw [Bool.eq_iff_iff, List.any_eq_true, List.any_eq_true]
    constructor
    · rintro ⟨i, hi, hfound⟩
      refine ⟨(f i).1, List.mem_map_of_mem ?_, hfound⟩
      rw [← Multiset.mem_coe, ← hcontents]
      exact HeapOrder.mem_contents.mpr ⟨i, by simpa using hi, rfl⟩
    · rintro ⟨x, hx, hfound⟩
      obtain ⟨a, ha, rfl⟩ := List.mem_map.mp hx
      rw [← Multiset.mem_coe, ← hcontents, HeapOrder.mem_contents] at ha
      obtain ⟨i, hi, rfl⟩ := ha
      exact ⟨i, by simpa using hi, hfound⟩

/-- Any calls on a new queue answer as a list does from which the first of the least elements is
taken; afterwards the heap is in order and the arrays hold the elements, each with its number. -/
theorem priorityQueue_stable [Inhabited T] [BEq T] (hcmp : IsOrder cmp)
    (hall : Always compare cmp) {initialCapacity : Int} (hpos : 1 ≤ initialCapacity)
    (world : W) (ops : List (Op T)) :
    ∃ q₀ answers t arrivals, new T initialCapacity = .ok q₀ ∧
      runAll compare ⟨q₀, world⟩ ops = some (answers, t) ∧
      ServesAll cmp [] ops answers (arrivals.map Prod.fst) ∧ Holds cmp t.queue arrivals ∧
      Agrees cmp t.queue (arrivals.map Prod.fst) := by
  obtain ⟨q₀, hnew, h₀⟩ := @holds_new T cmp _ _ hpos
  obtain ⟨answers, t, arrivals, hrun, h, hserves⟩ :=
    @runAll_spec T W cmp compare [] ⟨q₀, world⟩ hcmp hall h₀ ops
  exact ⟨q₀, answers, t, arrivals, hnew, hrun, hserves, h, .of_holds hcmp h⟩

/-- The difference of numbers, as a comparator without a world. -/
def ascending (a b : Int) : Callback Unit Int := fun w => (.ok (a - b), w)

theorem isOrder_sub : IsOrder fun a b : Int => a - b :=
  ⟨fun a b => by omega, fun {a b c} hab hbc => by omega⟩

/-- Two equal elements among others. -/
theorem priorityQueue_stable_equal :
    ∃ q₀ answers t arrivals, new Int 1 = .ok q₀ ∧
      runAll ascending ⟨q₀, ()⟩ [.enqueue 2, .enqueueAll [1, 3, 1], .dequeue, .dequeue]
        = some (answers, t) ∧
      ServesAll (fun a b => a - b) [] [.enqueue 2, .enqueueAll [1, 3, 1], .dequeue, .dequeue]
        answers (arrivals.map Prod.fst) ∧
      Holds (fun a b => a - b) t.queue arrivals ∧
      Agrees (fun a b => a - b) t.queue (arrivals.map Prod.fst) :=
  priorityQueue_stable isOrder_sub (fun _ _ _ => rfl) (by decide) () _

end PriorityQueue

end Collections

end Absolute
