import Absolute.LibHeapOrder
import Absolute.StdPriorityQueue

/-!
# What sifting does to the queue

The two arrays are read as one sequence of entries, an item with its insertion order (`Paired`).
Sifting exchanges entries, whatever the comparator answers and wherever it throws; where it
answers by an order, sifting puts the heap in order.
-/

namespace Absolute

namespace Collections

namespace PriorityQueue

open HeapOrder (exchange contents Ordered UpReady DownReady parent)
open Raising (Results)

variable {T W : Type}

/-- The first `m` slots of both arrays hold the entries `f`. -/
structure Paired (q : PriorityQueue T) (m : Nat) (f : Nat → T × Nat) : Prop where
  item : ∀ i < m, q.items[i]? = some (some (f i).1)
  order : ∀ i < m, q.insertionOrders[i]? = some (f i).2
  items_length : q.items.length = q.capacity
  orders_length : q.insertionOrders.length = q.capacity

/-- Nothing but the two arrays differs, and those not in length. -/
structure SameCounters (q q' : PriorityQueue T) : Prop where
  count : q'.count = q.count
  capacity : q'.capacity = q.capacity
  next : q'.nextInsertionOrder = q.nextInsertionOrder

theorem SameCounters.refl (q : PriorityQueue T) : SameCounters q q := ⟨rfl, rfl, rfl⟩

theorem SameCounters.trans {q q' q'' : PriorityQueue T} (h : SameCounters q q')
    (h' : SameCounters q' q'') : SameCounters q q'' :=
  ⟨h'.count.trans h.count, h'.capacity.trans h.capacity, h'.next.trans h.next⟩

variable {q : PriorityQueue T} {m : Nat} {f : Nat → T × Nat} {s : Running T W}

theorem Paired.lt_items (h : Paired q m f) {i : Nat} (hi : i < m) : i < q.items.length :=
  (List.getElem?_eq_some_iff.mp (h.item i hi)).1

theorem Paired.lt_capacity (h : Paired q m f) {i : Nat} (hi : i < m) : i < q.capacity :=
  h.items_length ▸ h.lt_items hi

theorem Paired.congr (h : Paired q m f) {g : Nat → T × Nat} (hg : ∀ i < m, g i = f i) :
    Paired q m g where
  item i hi := by rw [hg i hi, h.item i hi]
  order i hi := by rw [hg i hi, h.order i hi]
  items_length := h.items_length
  orders_length := h.orders_length

theorem Paired.mono (h : Paired q m f) {m' : Nat} (hle : m' ≤ m) : Paired q m' f where
  item i hi := h.item i (by omega)
  order i hi := h.order i (by omega)
  items_length := h.items_length
  orders_length := h.orders_length

/-! ## Order -/

/-- A comparator that orders: its sign turns around with its arguments, and it is transitive. -/
structure IsOrder (cmp : T → T → Int) : Prop where
  swap : ∀ a b, cmp a b < 0 ↔ 0 < cmp b a
  trans : ∀ {a b c}, cmp a b ≤ 0 → cmp b c ≤ 0 → cmp a c ≤ 0

/-- The order of entries: equal items in insertion order. -/
def le (cmp : T → T → Int) (a b : T × Nat) : Prop :=
  cmp a.1 b.1 < 0 ∨ cmp a.1 b.1 = 0 ∧ a.2 ≤ b.2

variable {cmp : T → T → Int}

theorem IsOrder.refl (h : IsOrder cmp) (a : T) : cmp a a = 0 := by
  have := h.swap a a
  omega

theorem IsOrder.eq_zero (h : IsOrder cmp) {a b : T} : cmp a b = 0 ↔ cmp b a = 0 := by
  have hab := h.swap a b
  have hba := h.swap b a
  omega

theorem le_refl (h : IsOrder cmp) (a : T × Nat) : le cmp a a :=
  .inr ⟨h.refl a.1, Nat.le_refl _⟩

theorem le_trans (h : IsOrder cmp) {a b c : T × Nat} (hab : le cmp a b) (hbc : le cmp b c) :
    le cmp a c := by
  have hle : cmp a.1 c.1 ≤ 0 := by
    refine h.trans ?_ ?_ (b := b.1)
    · rcases hab with hab | ⟨hab, -⟩ <;> omega
    · rcases hbc with hbc | ⟨hbc, -⟩ <;> omega
  by_cases hzero : cmp a.1 c.1 = 0
  · -- equal items: neither step is strict
    have hca : cmp c.1 a.1 ≤ 0 := by
      have := h.eq_zero.mp hzero
      omega
    have hba : cmp b.1 a.1 ≤ 0 := h.trans (by rcases hbc with hbc | ⟨hbc, -⟩ <;> omega) hca
    have hcb : cmp c.1 b.1 ≤ 0 := h.trans hca (by rcases hab with hab | ⟨hab, -⟩ <;> omega)
    have hab' := h.swap a.1 b.1
    have hbc' := h.swap b.1 c.1
    refine .inr ⟨hzero, ?_⟩
    rcases hab with hab | ⟨-, hab⟩
    · omega
    · rcases hbc with hbc | ⟨-, hbc⟩
      · omega
      · omega
  · exact .inl (by omega)

/-- What `comesBefore` answers. -/
def before (cmp : T → T → Int) (a b : T × Nat) : Bool :=
  if cmp a.1 b.1 < 0 then true else if cmp a.1 b.1 > 0 then false else decide (a.2 < b.2)

theorem before_iff (h : IsOrder cmp) {a b : T × Nat} : before cmp a b = true ↔ ¬le cmp b a := by
  have hab := h.swap a.1 b.1
  have hba := h.swap b.1 a.1
  have hzero := h.eq_zero (a := a.1) (b := b.1)
  unfold before le
  split
  · simp only [true_iff]
    omega
  · split
    · simp only [Bool.false_eq_true, false_iff]
      omega
    · rw [decide_eq_true_iff]
      omega

theorem le_of_before (h : IsOrder cmp) {a b : T × Nat} (hbefore : before cmp a b = true) :
    le cmp a b := by
  have hnot := (before_iff h).mp hbefore
  have hab := h.swap a.1 b.1
  have hba := h.swap b.1 a.1
  have hzero := h.eq_zero (a := a.1) (b := b.1)
  unfold le at hnot ⊢
  omega

/-- The comparator answers by the order where it answers. -/
def Compares (compare : T → T → Callback W Int) (cmp : T → T → Int) : Prop :=
  ∀ a b w order, (compare a b w).1 = .ok order → order = cmp a b

/-- What the comparator throws somewhere. -/
def Thrown (compare : T → T → Callback W Int) (e : Fault) : Prop :=
  ∃ a b w message, (compare a b w).1 = .error message ∧ e = .threw message

/-! ## Comparing and exchanging -/

variable {compare : T → T → Callback W Int}

/-- The comparator is called once on the two items; the queue stays as it is. -/
theorem comesBefore_eq (h : Paired s.queue m f) {left right : Nat} (hleft : left < m)
    (hright : right < m) :
    comesBefore compare left right s =
      match compare (f left).1 (f right).1 s.world with
      | (.ok order, w) =>
          .ok (if order < 0 then true else if order > 0 then false
            else decide ((f left).2 < (f right).2)) { s with world := w }
      | (.error message, w) => .error (.threw message) { s with world := w } := by
  have hitem : ∀ {i}, i < m → itemAt i s = .ok (f i).1 s := fun hi => by
    rw [itemAt, onQueue, h.item _ hi]
  have horder : ∀ {i} (w : W), i < m → orderAt i { s with world := w }
      = .ok (f i).2 { s with world := w } := fun w hi => by
    rw [orderAt, onQueue, h.order _ hi]
    rfl
  rw [comesBefore, Raising.bind_of_ok (hitem hleft), Raising.bind_of_ok (hitem hright)]
  cases hcall : compare (f left).1 (f right).1 s.world with
  | mk answer w =>
    cases answer with
    | error message =>
        refine Raising.bind_eq_error.mpr (.inl ?_)
        rw [callback, hcall]
    | ok order =>
        have hcallback : callback (compare (f left).1 (f right).1) s
            = .ok order { s with world := w } := by
          rw [callback, hcall]
        rw [Raising.bind_of_ok hcallback]
        dsimp only
        split
        · rfl
        · split
          · rfl
          · rw [Raising.bind_of_ok (horder w hleft), Raising.bind_of_ok (horder w hright)]
            rfl

/-- A call that only reads: what is thrown is the comparator's. -/
theorem comesBefore_results (cmp : T → T → Int) (h : Paired s.queue m f) {left right : Nat}
    (hleft : left < m) (hright : right < m) :
    Results (comesBefore compare left right) s
      (fun b t => t.queue = s.queue ∧
        (Compares compare cmp → b = before cmp (f left) (f right)))
      (fun e t => t.queue = s.queue ∧ Thrown compare e) := by
  rw [Results, comesBefore_eq h hleft hright]
  cases hcall : compare (f left).1 (f right).1 s.world with
  | mk answer w =>
    cases answer with
    | error message => exact ⟨rfl, _, _, s.world, message, by rw [hcall], rfl⟩
    | ok order =>
        refine ⟨rfl, fun hcompares => ?_⟩
        rw [hcompares _ _ s.world order (by rw [hcall])]
        rfl

/-- Two values of a list exchanged. -/
theorem getElem?_exchange {β : Type} {l : List β} {g : Nat → β} {left right i : Nat}
    (h : ∀ i < m, l[i]? = some (g i)) (hleft : left < m) (hright : right < m) (hi : i < m) :
    ((l.set left (g right)).set right (g left))[i]? = some (exchange g left right i) := by
  have hlength : ∀ {i}, i < m → i < l.length := fun hi =>
    (List.getElem?_eq_some_iff.mp (h _ hi)).1
  by_cases hir : i = right
  · subst hir
    rw [List.getElem?_set_self (by rw [List.length_set]; exact hlength hi),
      HeapOrder.exchange_right]
  · rw [List.getElem?_set_ne (Ne.symm hir)]
    by_cases hil : i = left
    · subst hil
      rw [List.getElem?_set_self (hlength hi), HeapOrder.exchange_left]
    · rw [List.getElem?_set_ne (Ne.symm hil), HeapOrder.exchange_other hil hir, h i hi]

theorem swap_eq (h : Paired s.queue m f) {left right : Nat} (hleft : left < m)
    (hright : right < m) :
    ∃ q, swap left right s = .ok () { s with queue := q } ∧ SameCounters s.queue q ∧
      Paired q m (exchange f left right) := by
  refine ⟨{ s.queue with
    items := (s.queue.items.set left (some (f right).1)).set right (some (f left).1)
    insertionOrders := (s.queue.insertionOrders.set left (f right).2).set right (f left).2 },
    ?_, ⟨rfl, rfl, rfl⟩, ?_, ?_, ?_, ?_⟩
  · rw [swap, onQueue, h.item _ hleft, h.item _ hright, h.order _ hleft, h.order _ hright]
  · exact fun i hi => getElem?_exchange (g := fun i => some (f i).1) h.item hleft hright hi
  · exact fun i hi => getElem?_exchange (g := fun i => (f i).2) h.order hleft hright hi
  · rw [List.length_set, List.length_set]
    exact h.items_length
  · rw [List.length_set, List.length_set]
    exact h.orders_length

/-! ## Sifting up -/

/-- What sifting leaves: the entries in another order. -/
structure Sifted (q q' : PriorityQueue T) (m : Nat) (f f' : Nat → T × Nat) : Prop where
  paired : Paired q' m f'
  counters : SameCounters q q'
  contents : contents m f' = contents m f

theorem Sifted.refl (h : Paired q m f) : Sifted q q m f f := ⟨h, .refl q, rfl⟩

theorem Sifted.of_exchange {q' q'' : PriorityQueue T} {left right : Nat}
    {f' : Nat → T × Nat} (hleft : left < m) (hright : right < m) (hcounters : SameCounters q q')
    (h : Sifted q' q'' m (exchange f left right) f') : Sifted q q'' m f f' :=
  ⟨h.paired, hcounters.trans h.counters,
    h.contents.trans (HeapOrder.contents_exchange hleft hright)⟩

/-- The entries behind `index` are not touched, and what is thrown is the comparator's. -/
theorem siftUpGo_results (compare : T → T → Callback W Int) (hcmp : IsOrder cmp) {n index : Nat}
    (hn : index ≤ n) (hindex : index < m) (h : Paired s.queue m f) :
    Results (siftUpGo compare n index) s
      (fun _ t => ∃ f', Sifted s.queue t.queue m f f' ∧ (∀ k, index < k → f' k = f k) ∧
        (Compares compare cmp → UpReady (le cmp) m f index → Ordered (le cmp) m f'))
      (fun e t => Thrown compare e ∧
        ∃ f', Sifted s.queue t.queue m f f' ∧ ∀ k, index < k → f' k = f k) := by
  induction n generalizing index f s with
  | zero =>
      obtain rfl := Nat.le_zero.mp hn
      exact ⟨f, .refl h, fun _ _ => rfl, fun _ hready => hready.stop fun hpos => by omega⟩
  | succ n ih =>
      rw [siftUpGo]
      by_cases hpos : index > 0
      · have hlt : parent index < index := HeapOrder.parent_lt hpos
        rw [if_pos hpos]
        refine Results.bind ((comesBefore_results cmp h hindex (hlt.trans hindex)).mono
          (fun _ _ => id) ?_) ?_
        · rintro e ⟨tq, tw⟩ ⟨rfl, hne⟩
          exact ⟨hne, f, .refl h, fun _ _ => rfl⟩
        rintro b ⟨tq, tw⟩ ⟨rfl, hanswer⟩
        cases b with
        | false =>
            rw [if_neg Bool.false_ne_true]
            refine ⟨f, .refl h, fun _ _ => rfl, fun hcompares hready => hready.stop fun _ => ?_⟩
            by_contra hle
            have := (before_iff hcmp).mpr hle
            rw [← hanswer hcompares] at this
            cases this
        | true =>
            obtain ⟨q', hswap, hcounters, hpaired⟩ :=
              swap_eq (s := ⟨s.queue, tw⟩) h hindex (hlt.trans hindex)
            have hbelow := ih (by omega) (hlt.trans hindex) (s := ⟨q', tw⟩) hpaired
            rw [if_pos rfl]
            refine (Results.after hswap hbelow).mono ?_ ?_
            · rintro _ t ⟨f', hsifted, hkeep, horder⟩
              refine ⟨f', hsifted.of_exchange hindex (hlt.trans hindex) hcounters,
                fun k hk => ?_, fun hcompares hready => horder hcompares ?_⟩
              · rw [hkeep k (by omega), HeapOrder.exchange_other (by omega) (by omega)]
              · exact hready.exchange hpos hindex (le_of_before hcmp (hanswer hcompares).symm)
                  (le_trans hcmp)
            · rintro e t ⟨hne, f', hsifted, hkeep⟩
              refine ⟨hne, f', hsifted.of_exchange hindex (hlt.trans hindex) hcounters,
                fun k hk => ?_⟩
              rw [hkeep k (by omega), HeapOrder.exchange_other (by omega) (by omega)]
      · rw [if_neg hpos]
        exact ⟨f, .refl h, fun _ _ => rfl, fun _ hready => hready.stop fun hpos' => by omega⟩

/-! ## Sifting down -/

theorem bestChild_results (hcmp : IsOrder cmp) {index : Nat} (hleft : index * 2 + 1 < m)
    (h : Paired s.queue m f) :
    Results (bestChild compare m index) s
      (fun best t => t.queue = s.queue ∧ 0 < best ∧ best < m ∧ parent best = index ∧
        (Compares compare cmp → ∀ k, 0 < k → k < m → parent k = index → le cmp (f best) (f k)))
      (fun e t => t.queue = s.queue ∧ Thrown compare e) := by
  have hparent : parent (index * 2 + 1) = index ∧ parent (index * 2 + 1 + 1) = index := by
    unfold parent
    omega
  rw [bestChild]
  split
  · rename_i hright
    refine Results.bind (comesBefore_results cmp h hright hleft) ?_
    rintro b t ⟨hqueue, hanswer⟩
    cases b with
    | true =>
        refine ⟨hqueue, by omega, hright, hparent.2, fun hcompares k hk _ hkp => ?_⟩
        rcases HeapOrder.child_cases hk hkp with rfl | rfl
        · exact le_of_before hcmp (hanswer hcompares).symm
        · exact le_refl hcmp _
    | false =>
        refine ⟨hqueue, by omega, hleft, hparent.1, fun hcompares k hk _ hkp => ?_⟩
        rcases HeapOrder.child_cases hk hkp with rfl | rfl
        · exact le_refl hcmp _
        · by_contra hle
          have := (before_iff hcmp).mpr hle
          rw [← hanswer hcompares] at this
          cases this
  · refine ⟨rfl, by omega, hleft, hparent.1, fun _ k hk hkm hkp => ?_⟩
    rcases HeapOrder.child_cases hk hkp with rfl | rfl
    · exact le_refl hcmp _
    · omega

theorem siftDownGo_results (compare : T → T → Callback W Int) (hcmp : IsOrder cmp)
    {n index : Nat} (hn : m ≤ index + n) (hindex : index < m) (h : Paired s.queue m f) :
    Results (siftDownGo compare m n index) s
      (fun _ t => ∃ f', Sifted s.queue t.queue m f f' ∧
        (Compares compare cmp → DownReady (le cmp) m f index → Ordered (le cmp) m f'))
      (fun e t => Thrown compare e ∧ ∃ f', Sifted s.queue t.queue m f f') := by
  induction n generalizing index f s with
  | zero => omega
  | succ n ih =>
      have hnone : index * 2 + 1 ≥ m → ∀ k, 0 < k → k < m → parent k = index → False :=
        fun hge k hk hkm hkp => by
          rcases HeapOrder.child_cases hk hkp with rfl | rfl <;> omega
      rw [siftDownGo]
      split
      · rename_i hge
        exact ⟨f, .refl h, fun _ hready => hready.stop fun k hk hkm hkp =>
          (hnone hge k hk hkm hkp).elim⟩
      · rename_i hleft
        refine Results.bind ((bestChild_results hcmp (by omega) h).mono
          (fun _ _ => id) ?_) ?_
        · rintro e ⟨tq, tw⟩ ⟨rfl, hne⟩
          exact ⟨hne, f, .refl h⟩
        rintro best ⟨tq, tw⟩ ⟨rfl, hpos, hbest, hparent, hleast⟩
        refine Results.bind ((comesBefore_results cmp (s := ⟨s.queue, tw⟩) h hbest
          hindex).mono (fun _ _ => id) ?_) ?_
        · rintro e ⟨tq, tw'⟩ ⟨rfl, hne⟩
          exact ⟨hne, f, .refl h⟩
        rintro b ⟨tq, tw'⟩ ⟨rfl, hanswer⟩
        cases b with
        | false =>
            rw [if_neg Bool.false_ne_true]
            refine ⟨f, .refl h, fun hcompares hready => hready.stop fun k hk hkm hkp => ?_⟩
            have hle : le cmp (f index) (f best) := by
              by_contra hle
              have := (before_iff hcmp).mpr hle
              rw [← hanswer hcompares] at this
              cases this
            exact le_trans hcmp hle (hleast hcompares k hk hkm hkp)
        | true =>
            obtain ⟨q', hswap, hcounters, hpaired⟩ :=
              swap_eq (s := ⟨s.queue, tw'⟩) h hindex hbest
            have hlt : index < best := HeapOrder.lt_of_parent hpos hparent
            have hbelow := ih (by omega) hbest (s := ⟨q', tw'⟩) hpaired
            rw [if_pos rfl]
            refine (Results.after hswap hbelow).mono ?_ ?_
            · rintro _ t ⟨f', hsifted, horder⟩
              refine ⟨f', hsifted.of_exchange hindex hbest hcounters,
                fun hcompares hready => horder hcompares ?_⟩
              exact hready.exchange hpos hbest hparent (hleast hcompares)
                (le_of_before hcmp (hanswer hcompares).symm)
            · rintro e t ⟨hne, f', hsifted⟩
              exact ⟨hne, f', hsifted.of_exchange hindex hbest hcounters⟩

/-! ## Adding and taking an entry -/

theorem Paired.le_capacity (h : Paired q m f) : m ≤ q.capacity := by
  cases m with
  | zero => exact Nat.zero_le _
  | succ m => exact h.lt_capacity (Nat.lt_succ_self m)

theorem grow_paired (h : Paired q q.count f) : Paired (grow q) q.count f := by
  have hle := h.le_capacity
  have hitems : (q.items.take q.count).length = q.count := by
    rw [List.length_take, h.items_length]
    omega
  have horders : (q.insertionOrders.take q.count).length = q.count := by
    rw [List.length_take, h.orders_length]
    omega
  refine ⟨fun i hi => ?_, fun i hi => ?_, ?_, ?_⟩
  · rw [grow, List.getElem?_append_left (by omega), List.getElem?_take_of_lt hi, h.item i hi]
  · rw [grow, List.getElem?_append_left (by omega), List.getElem?_take_of_lt hi, h.order i hi]
  · rw [grow, List.length_append, newArray, List.length_replicate, hitems]
    exact Nat.add_sub_of_le (by omega)
  · rw [grow, List.length_append, List.length_replicate, horders]
    exact Nat.add_sub_of_le (by omega)

/-- The new entry behind the last one. -/
theorem place_eq (h : Paired q q.count f) (hpos : 0 < q.capacity) (value : T) :
    ∃ q', place value q = some ((), q') ∧ q'.count = q.count ∧
      q'.nextInsertionOrder = q.nextInsertionOrder + 1 ∧ 0 < q'.capacity ∧
      Paired q' (q.count + 1) (Function.update f q.count (value, q.nextInsertionOrder)) := by
  have hle := h.le_capacity
  obtain ⟨room, hroom, hcount, hnext, hlt, hpaired⟩ : ∃ room,
      (if q.count = q.capacity then grow q else q) = room ∧ room.count = q.count ∧
        room.nextInsertionOrder = q.nextInsertionOrder ∧ room.count < room.capacity ∧
        Paired room q.count f := by
    by_cases hfull : q.count = q.capacity
    · refine ⟨grow q, if_pos hfull, rfl, rfl, ?_, grow_paired h⟩
      change q.count < q.capacity * 2
      omega
    · exact ⟨q, if_neg hfull, rfl, rfl, by omega, h⟩
  have hitems : room.count < room.items.length := hpaired.items_length ▸ hlt
  have horders : room.count < room.insertionOrders.length := hpaired.orders_length ▸ hlt
  refine ⟨{ room with
    items := room.items.set room.count (some value)
    insertionOrders := room.insertionOrders.set room.count room.nextInsertionOrder
    nextInsertionOrder := room.nextInsertionOrder + 1 }, ?_, hcount, by rw [hnext],
    Nat.zero_lt_of_lt hlt, fun i hi => ?_, fun i hi => ?_, ?_, ?_⟩
  · rw [place, hroom]
    exact if_pos ⟨hitems, horders⟩
  · by_cases hlast : i = q.count
    · subst hlast
      rw [Function.update_self, ← hcount]
      exact List.getElem?_set_self hitems
    · rw [Function.update_of_ne hlast, ← hpaired.item i (by omega)]
      exact List.getElem?_set_ne (by omega)
  · by_cases hlast : i = q.count
    · subst hlast
      rw [Function.update_self, ← hcount, ← hnext]
      exact List.getElem?_set_self horders
    · rw [Function.update_of_ne hlast, ← hpaired.order i (by omega)]
      exact List.getElem?_set_ne (by omega)
  · rw [List.length_set]
    exact hpaired.items_length
  · rw [List.length_set]
    exact hpaired.orders_length

/-- The last entry in the place of the first, which is handed out. -/
theorem carry_eq (h : Paired q q.count f) (hcount : q.count = m + 1) :
    ∃ q', carry q = some ((f 0).1, q') ∧ q'.count = m ∧
      q'.nextInsertionOrder = q.nextInsertionOrder ∧ q'.capacity = q.capacity ∧
      Paired q' m (exchange f 0 m) := by
  rw [hcount] at h
  have hlt : 0 < q.items.length := h.lt_items (Nat.zero_lt_succ m)
  have hlast : m < q.items.length := h.lt_items (Nat.lt_succ_self m)
  have hcounter : q.count - 1 = m := by omega
  rw [carry, h.item 0 (Nat.zero_lt_succ m)]
  dsimp only
  rw [hcounter]
  by_cases hm : m > 0
  · rw [if_pos hm, List.getElem?_set_ne (by omega), h.item m (Nat.lt_succ_self m),
      h.order m (Nat.lt_succ_self m)]
    refine ⟨_, rfl, rfl, rfl, rfl, fun i hi => ?_, fun i hi => ?_, ?_, ?_⟩
    · dsimp only
      by_cases hzero : i = 0
      · subst hzero
        rw [HeapOrder.exchange_left,
          List.getElem?_set_self (by rwa [List.length_set, List.length_set])]
      · rw [HeapOrder.exchange_other hzero (by omega), List.getElem?_set_ne (by omega),
          List.getElem?_set_ne (by omega), List.getElem?_set_ne (by omega), h.item i (by omega)]
    · dsimp only
      by_cases hzero : i = 0
      · subst hzero
        rw [HeapOrder.exchange_left, List.getElem?_set_self]
        rw [h.orders_length, ← h.items_length]
        exact hlt
      · rw [HeapOrder.exchange_other hzero (by omega), List.getElem?_set_ne (by omega),
          h.order i (by omega)]
    · dsimp only
      rw [List.length_set, List.length_set, List.length_set]
      exact h.items_length
    · dsimp only
      rw [List.length_set]
      exact h.orders_length
  · obtain rfl : m = 0 := by omega
    rw [if_neg hm]
    refine ⟨_, rfl, rfl, rfl, rfl, fun i hi => by omega, fun i hi => by omega, ?_, h.orders_length⟩
    dsimp only
    rw [List.length_set]
    exact h.items_length

/-- What is handed out and what stays are the entries there were. -/
theorem contents_carry (m : Nat) (f : Nat → T × Nat) :
    contents (m + 1) f = f 0 ::ₘ contents m (exchange f 0 m) := by
  rw [← HeapOrder.contents_exchange (f := f) (Nat.zero_lt_succ m) (Nat.lt_succ_self m),
    HeapOrder.contents_succ, HeapOrder.exchange_right]

theorem contents_place (m : Nat) (f : Nat → T × Nat) (entry : T × Nat) :
    contents (m + 1) (Function.update f m entry) = entry ::ₘ contents m f := by
  rw [HeapOrder.contents_succ, Function.update_self]
  congr 1
  exact HeapOrder.contents_congr fun i hi => Function.update_of_ne (by omega) _ _

/-! ## Operations -/

/-- The queue has the entries `f'` where it had `f`, up to its counters. -/
structure Changed (q q' : PriorityQueue T) (count next : Nat) (f' : Nat → T × Nat)
    (entries : Multiset (T × Nat)) (slots : Nat) : Prop where
  paired : Paired q' slots f'
  contents : contents slots f' = entries
  count : q'.count = count
  next : q'.nextInsertionOrder = next
  capacity : 0 < q.capacity → 0 < q'.capacity

theorem enqueue_results (compare : T → T → Callback W Int) (hcmp : IsOrder cmp)
    (h : Paired s.queue s.queue.count f) (hpos : 0 < s.queue.capacity) (value : T) :
    Results (enqueue compare value) s
      (fun _ t => ∃ f', Changed s.queue t.queue (s.queue.count + 1)
        (s.queue.nextInsertionOrder + 1) f'
        ((value, s.queue.nextInsertionOrder) ::ₘ contents s.queue.count f) (s.queue.count + 1) ∧
        (Compares compare cmp → Ordered (le cmp) s.queue.count f →
          Ordered (le cmp) (s.queue.count + 1) f'))
      (fun e t => Thrown compare e ∧ ∃ f', Changed s.queue t.queue s.queue.count
        (s.queue.nextInsertionOrder + 1) f'
        ((value, s.queue.nextInsertionOrder) ::ₘ contents s.queue.count f)
        (s.queue.count + 1)) := by
  obtain ⟨q₁, hplace, hcount, hnext, hcapacity, hpaired⟩ := place_eq h hpos value
  have hfirst : onQueue (place value) s = .ok () { s with queue := q₁ } := by
    rw [onQueue, hplace]
  have hready : Ordered (le cmp) s.queue.count f → UpReady (le cmp) (s.queue.count + 1)
      (Function.update f s.queue.count (value, s.queue.nextInsertionOrder)) s.queue.count := by
    intro hordered
    refine ⟨fun k hk hkn hne => ?_, fun k hk hkn hparent _ => ?_⟩
    · have hlt := HeapOrder.parent_lt hk
      rw [Function.update_of_ne (by omega), Function.update_of_ne hne]
      exact hordered k hk (by omega)
    · have hlt := HeapOrder.lt_of_parent hk hparent
      omega
  have hsift := @siftUpGo_results _ _ _ _ { s with queue := q₁ } _ compare hcmp _ _
    (Nat.le_refl s.queue.count) (Nat.lt_succ_self _) hpaired
  refine Results.after hfirst (Results.after rfl ?_)
  dsimp only
  rw [hcount]
  refine Results.bind (hsift.mono (fun _ _ => id) ?_) ?_
  · rintro e t ⟨hthrown, f', hsifted, -⟩
    exact ⟨hthrown, f', hsifted.paired, hsifted.contents.trans (contents_place _ _ _),
      hsifted.counters.count.trans hcount, hsifted.counters.next.trans hnext,
      fun _ => hsifted.counters.capacity ▸ hcapacity⟩
  · rintro _ t ⟨f', hsifted, -, horder⟩
    refine ⟨f', ⟨?_, hsifted.contents.trans (contents_place _ _ _),
      congrArg (· + 1) (hsifted.counters.count.trans hcount), hsifted.counters.next.trans hnext,
      fun _ => hsifted.counters.capacity ▸ hcapacity⟩,
      fun hcompares hordered => horder hcompares (hready hordered)⟩
    exact ⟨hsifted.paired.item, hsifted.paired.order, hsifted.paired.items_length,
      hsifted.paired.orders_length⟩

theorem dequeue_empty (h : s.queue.count = 0) :
    dequeue compare s = .error (.threw "PriorityQueue is empty") s := by
  have hget : (get : Action T W (Running T W)) s = .ok s s := rfl
  rw [dequeue, Raising.bind_of_ok hget, if_pos h]
  rfl

theorem dequeue_results (compare : T → T → Callback W Int) (hcmp : IsOrder cmp)
    (h : Paired s.queue s.queue.count f) (hcount : s.queue.count = m + 1) :
    Results (dequeue compare) s
      (fun x t => x = (f 0).1 ∧ ∃ f', Changed s.queue t.queue m s.queue.nextInsertionOrder f'
        (contents m (exchange f 0 m)) m ∧
        (Compares compare cmp → Ordered (le cmp) (m + 1) f → Ordered (le cmp) m f'))
      (fun e t => Thrown compare e ∧ ∃ f', Changed s.queue t.queue m
        s.queue.nextInsertionOrder f' (contents m (exchange f 0 m)) m) := by
  obtain ⟨q₁, hcarry, hcount₁, hnext, hcapacity, hpaired⟩ := carry_eq h hcount
  have hfirst : onQueue carry s = .ok (f 0).1 { s with queue := q₁ } := by
    rw [onQueue, hcarry]
  have hready : Ordered (le cmp) (m + 1) f → DownReady (le cmp) m (exchange f 0 m) 0 := by
    intro hordered
    refine ⟨fun k hk hkm hne => ?_, fun k _ _ _ hzero => absurd hzero (Nat.lt_irrefl 0)⟩
    have hlt := HeapOrder.parent_lt hk
    rw [HeapOrder.exchange_other hne (by omega), HeapOrder.exchange_other (by omega) (by omega)]
    exact hordered k hk (by omega)
  refine Results.after rfl ?_
  rw [if_neg (by omega)]
  refine Results.after hfirst (Results.after rfl ?_)
  dsimp only
  rw [hcount₁]
  split
  · have hsift := @siftDownGo_results _ _ _ _ { s with queue := q₁ } _ compare hcmp _ _
      (Nat.le_of_eq (Nat.zero_add m).symm) ‹m > 0› hpaired
    refine Results.bind (hsift.mono (fun _ _ => id) ?_) ?_
    · rintro e t ⟨hthrown, f', hsifted⟩
      exact ⟨hthrown, f', hsifted.paired, hsifted.contents, hsifted.counters.count.trans hcount₁,
        hsifted.counters.next.trans hnext, fun hpos => by
          rw [hsifted.counters.capacity, hcapacity]
          exact hpos⟩
    · rintro _ t ⟨f', hsifted, horder⟩
      exact ⟨rfl, f', ⟨hsifted.paired, hsifted.contents, hsifted.counters.count.trans hcount₁,
        hsifted.counters.next.trans hnext, fun hpos => by
          rw [hsifted.counters.capacity, hcapacity]
          exact hpos⟩, fun hcompares hordered => horder hcompares (hready hordered)⟩
  · exact ⟨rfl, _, ⟨hpaired, rfl, hcount₁, hnext, fun hpos => hcapacity ▸ hpos⟩,
      fun _ _ k _ _ => by omega⟩

end PriorityQueue

end Collections

end Absolute
