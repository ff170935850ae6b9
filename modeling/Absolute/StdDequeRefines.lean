import Absolute.LibRing
import Absolute.StdDeque

/-!
# The deque is a list

The slots are a ring that holds the list (`Represents`); every operation finds what it reads,
writes or takes where the ring has it, and changes the list the way the list operation does. A
call never strays, so `clear`, which would stray from a slot that holds nothing, drops the live
slots and no others.
-/

namespace Absolute

namespace Collections

namespace Deque

variable {T : Type}

/-- The live elements are those of `xs`, in the slots from `head` on. -/
structure Represents (d : Deque T) (xs : List T) : Prop where
  cells : Ring.Holds d.items d.head xs
  capacity : d.items.length = d.capacity
  count : d.count = xs.length

variable {d : Deque T} {xs : List T}

theorem Represents.capacity_pos (h : Represents d xs) : 0 < d.capacity :=
  h.capacity ▸ Nat.zero_lt_of_lt h.cells.start_lt

theorem Represents.length_le (h : Represents d xs) : xs.length ≤ d.capacity :=
  h.capacity ▸ h.cells.length_le

/-! ## Reading -/

theorem Represents.slot (h : Represents d xs) {i : Nat} (hi : i < xs.length) :
    unsafeArrayGet d.items ((d.head + i) % d.capacity) = .returned xs[i] := by
  rw [← h.capacity]
  exact unsafeArrayGet_eq (h.cells.get hi)

theorem front_spec (h : Represents d xs) :
    front d = xs.head?.elim (.threw "Deque is empty") .returned := by
  rw [front, h.count]
  cases xs with
  | nil => rfl
  | cons x xs =>
      rw [if_neg (show (x :: xs).length ≠ 0 from Nat.succ_ne_zero _)]
      exact unsafeArrayGet_eq h.cells.get_start

theorem back_spec (h : Represents d xs) :
    back d = xs.getLast?.elim (.threw "Deque is empty") .returned := by
  rw [back, h.count]
  cases hlast : xs.getLast? with
  | none =>
      rw [List.getLast?_eq_none_iff.mp hlast]
      rfl
  | some x =>
      have hne : xs ≠ [] := by
        rintro rfl
        cases hlast
      have hpos := List.length_pos_iff.mpr hne
      rw [if_neg (by omega), Nat.add_sub_assoc hpos, h.slot (by omega)]
      rw [List.getLast?_eq_getElem?, List.getElem?_eq_getElem (by omega)] at hlast
      rw [Option.some.inj hlast]
      rfl

theorem get_spec (h : Represents d xs) (index : Int) :
    get d index = if index < 0 then .threw "Deque index out of bounds"
      else xs[index.toNat]?.elim (.threw "Deque index out of bounds") .returned := by
  rw [get, h.count]
  by_cases hneg : index < 0
  · rw [if_pos (.inl hneg), if_pos hneg]
  · rw [if_neg hneg]
    by_cases hlt : index.toNat < xs.length
    · rw [if_neg (by omega), h.slot hlt, List.getElem?_eq_getElem hlt]
      rfl
    · rw [if_pos (by omega), List.getElem?_eq_none (by omega)]
      rfl

theorem containsGo_spec [BEq T] (h : Represents d xs) (target : T) {n index : Nat}
    (hn : index + n = xs.length) :
    containsGo d target n index = .returned ((xs.drop index).any (· == target)) := by
  induction n generalizing index with
  | zero =>
      rw [List.drop_eq_nil_of_le (by omega)]
      rfl
  | succ n ih =>
      have hlt : index < xs.length := by omega
      rw [containsGo, h.slot hlt, Result.returned_bind, List.drop_eq_getElem_cons hlt,
        List.any_cons]
      cases hfound : xs[index] == target with
      | true => rfl
      | false =>
          rw [if_neg Bool.false_ne_true, ih (by omega)]
          rfl

theorem toArrayGo_spec (h : Represents d xs) {n index : Nat} (hn : index + n = xs.length) :
    toArrayGo d n index (Ring.row xs.length (xs.take index)) = .returned (xs.map some) := by
  induction n generalizing index with
  | zero =>
      rw [toArrayGo, List.take_of_length_le (by omega), Ring.row_full]
  | succ n ih =>
      have hlt : index < xs.length := by omega
      have hlength : (xs.take index).length = index := by
        rw [List.length_take]
        omega
      have hset := @Ring.row_set T (xs.take index) xs.length (by omega) xs[index]
      rw [hlength, ← List.take_succ_eq_append_getElem hlt] at hset
      rw [toArrayGo, h.slot hlt, Result.returned_bind,
        unsafeArraySet_eq (by rw [Ring.length_row (by omega)]; omega), Result.returned_bind, hset,
        ih (by omega)]

/-! ## Writing -/

theorem growGo_spec {done rest : List T} {items : Storage T} {m : Nat}
    (hitems : Ring.Holds items ((d.head + done.length) % d.capacity) rest)
    (hcapacity : items.length = d.capacity) (hm : done.length + rest.length ≤ m) :
    growGo d rest.length done.length items (Ring.row m done)
      = .returned (Ring.row m (done ++ rest)) := by
  induction rest generalizing done items with
  | nil => rw [List.append_nil]; rfl
  | cons x rest ih =>
      rw [List.length_cons] at hm
      have hset := @Ring.row_set T done m (by omega) x
      have hbehind := hitems.popFront
      rw [hcapacity, Nat.mod_add_mod, Nat.add_assoc] at hbehind
      have hlength : (done ++ [x]).length = done.length + 1 := by
        rw [List.length_append, List.length_singleton]
      rw [List.length_cons, growGo, unsafeArrayTake_eq hitems.get_start, Result.returned_bind]
      dsimp only
      rw [unsafeArraySet_eq (by rw [Ring.length_row (by omega)]; omega), Result.returned_bind,
        hset, ← hlength, ih (by rwa [hlength]) (by rwa [List.length_set]) (by omega),
        List.append_assoc]
      rfl

/-- There is a free slot then. -/
theorem makeRoom_spec (h : Represents d xs) :
    ∃ d', makeRoom d = .returned d' ∧ Represents d' xs ∧ xs.length < d'.capacity := by
  have hpos := h.capacity_pos
  have hle := h.length_le
  rw [makeRoom, h.count]
  by_cases hfull : xs.length = d.capacity
  · have hstart : (d.head + ([] : List T).length) % d.capacity = d.head := by
      rw [List.length_nil, Nat.add_zero, Nat.mod_eq_of_lt (h.capacity ▸ h.cells.start_lt)]
    have hgrow := @growGo_spec T d [] xs d.items (d.capacity * 2) (by rw [hstart]; exact h.cells)
      h.capacity (by rw [List.length_nil]; omega)
    rw [if_pos hfull, grow, h.count]
    rw [List.length_nil, Ring.row_nil, List.nil_append] at hgrow
    rw [newArray, hgrow]
    refine ⟨_, rfl, ⟨?_, ?_, rfl⟩, ?_⟩
    · exact Ring.holds_row (by omega) (by omega)
    · exact Ring.length_row (by omega)
    · dsimp only
      omega
  · exact ⟨d, if_neg hfull, h, by omega⟩

theorem pushFront_spec (h : Represents d xs) (value : T) :
    ∃ d', pushFront d value = .returned d' ∧ Represents d' (value :: xs) := by
  obtain ⟨room, hroom, hr, hlt⟩ := makeRoom_spec h
  have hpos := hr.capacity_pos
  rw [pushFront, hroom, Result.returned_bind]
  dsimp only
  rw [unsafeArraySet_eq (by rw [hr.capacity]; exact Nat.mod_lt _ hpos)]
  refine ⟨_, rfl, ?_, ?_, ?_⟩
  · have := hr.cells.pushFront (by rw [hr.capacity]; exact hlt) value
    rwa [hr.capacity] at this
  · rw [List.length_set]
    exact hr.capacity
  · rw [hr.count, List.length_cons]

theorem pushBack_spec (h : Represents d xs) (value : T) :
    ∃ d', pushBack d value = .returned d' ∧ Represents d' (xs ++ [value]) := by
  obtain ⟨room, hroom, hr, hlt⟩ := makeRoom_spec h
  have hpos := hr.capacity_pos
  rw [pushBack, hroom, Result.returned_bind,
    unsafeArraySet_eq (by rw [hr.capacity]; exact Nat.mod_lt _ hpos)]
  refine ⟨_, rfl, ?_, ?_, ?_⟩
  · have := hr.cells.pushBack (by rw [hr.capacity]; exact hlt) value
    rwa [hr.capacity, ← hr.count] at this
  · rw [List.length_set]
    exact hr.capacity
  · rw [hr.count, List.length_append, List.length_singleton]

theorem resetHead_spec (h : Represents d xs) : Represents (resetHead d) xs := by
  rw [resetHead]
  by_cases hempty : d.count = 0
  · rw [if_pos hempty]
    obtain rfl : xs = [] := List.eq_nil_of_length_eq_zero (h.count ▸ hempty)
    exact ⟨h.cells.rebase (Nat.zero_lt_of_lt h.cells.start_lt), h.capacity, h.count⟩
  · rw [if_neg hempty]
    exact h

theorem popFront_spec {x : T} (h : Represents d (x :: xs)) :
    ∃ d', popFront d = .returned (x, d') ∧ Represents d' xs := by
  rw [popFront, h.count, if_neg (show (x :: xs).length ≠ 0 from Nat.succ_ne_zero _),
    unsafeArrayTake_eq h.cells.get_start]
  refine ⟨_, rfl, resetHead_spec ⟨?_, ?_, ?_⟩⟩
  · have := h.cells.popFront
    rwa [h.capacity] at this
  · rw [List.length_set]
    exact h.capacity
  · rfl

theorem popBack_spec {x : T} (h : Represents d (xs ++ [x])) :
    ∃ d', popBack d = .returned (x, d') ∧ Represents d' xs := by
  have hlength : (xs ++ [x]).length = xs.length + 1 := by
    rw [List.length_append, List.length_singleton]
  have hlast : d.items[(d.head + xs.length) % d.capacity]? = some (some x) := by
    have := h.cells.get (i := xs.length) (by omega)
    rwa [h.capacity, List.getElem_concat_length rfl] at this
  rw [popBack, h.count, hlength, if_neg (Nat.succ_ne_zero _), Nat.add_sub_assoc (by omega),
    Nat.add_sub_cancel, unsafeArrayTake_eq hlast]
  refine ⟨_, rfl, resetHead_spec ⟨?_, ?_, rfl⟩⟩
  · have := h.cells.popBack
    rwa [h.capacity] at this
  · rw [List.length_set]
    exact h.capacity

theorem set_spec (h : Represents d xs) {index : Int} (hnonneg : 0 ≤ index)
    (hlt : index.toNat < xs.length) (value : T) :
    ∃ d', set d index value = .returned d' ∧ Represents d' (xs.set index.toNat value) := by
  have hpos := h.capacity_pos
  rw [set, h.count, if_neg (by omega),
    unsafeArraySet_eq (by rw [h.capacity]; exact Nat.mod_lt _ hpos)]
  refine ⟨_, rfl, ?_, ?_, ?_⟩
  · have := h.cells.set hlt value
    rwa [h.capacity] at this
  · rw [List.length_set]
    exact h.capacity
  · rw [List.length_set]

/-! ## Clearing -/

/-- A run of live slots is dropped, if it does not reach around. -/
theorem drop_spec {n start : Nat} {items : Storage T} (h : Ring.Holds items start xs)
    (hn : n ≤ xs.length) (hend : start + n ≤ items.length) :
    ∃ items', unsafeArrayDrop items start n = .returned items' ∧ items'.length = items.length ∧
      Ring.Holds items' ((start + n) % items.length) (xs.drop n) := by
  induction n generalizing start items xs with
  | zero =>
      refine ⟨items, rfl, rfl, ?_⟩
      rw [Nat.add_zero, Nat.mod_eq_of_lt h.start_lt]
      exact h
  | succ n ih =>
      cases xs with
      | nil => cases hn
      | cons x xs =>
          have hbehind := h.popFront
          rw [unsafeArrayDrop, unsafeArrayTake_eq h.get_start, Result.returned_bind]
          dsimp only
          cases n with
          | zero => exact ⟨_, rfl, List.length_set, hbehind⟩
          | succ n =>
              rw [Nat.mod_eq_of_lt (by omega)] at hbehind
              obtain ⟨items', hdrop, hlength, hrest⟩ := ih hbehind (Nat.le_of_succ_le_succ hn)
                (by rw [List.length_set]; omega)
              rw [List.length_set] at hlength hrest
              refine ⟨items', hdrop, hlength, ?_⟩
              rw [Nat.add_assoc, Nat.add_comm 1] at hrest
              exact hrest

theorem clear_spec (h : Represents d xs) :
    ∃ d', clear d = .returned d' ∧ Represents d' [] := by
  have hstart := h.cells.start_lt
  have hcap := h.capacity
  rw [clear, h.count]
  by_cases hwrap : d.capacity - d.head > xs.length
  · -- one run
    obtain ⟨items', hdrop, hlength, hrest⟩ := drop_spec h.cells (Nat.le_refl _) (by omega)
    rw [List.drop_length] at hrest
    rw [if_pos hwrap, hdrop, Result.returned_bind, Nat.sub_self]
    exact ⟨_, rfl, hrest.rebase (show 0 < items'.length by omega), hlength.trans hcap, rfl⟩
  · obtain ⟨items₁, hdrop₁, hlength₁, hrest₁⟩ :=
      drop_spec h.cells (n := d.capacity - d.head) (by omega) (by omega)
    rw [show d.head + (d.capacity - d.head) = d.items.length by omega, Nat.mod_self] at hrest₁
    have hleft : (xs.drop (d.capacity - d.head)).length = xs.length - (d.capacity - d.head) :=
      List.length_drop
    have hle := h.length_le
    obtain ⟨items₂, hdrop₂, hlength₂, hrest₂⟩ :=
      drop_spec hrest₁ (Nat.le_of_eq hleft.symm) (by omega)
    rw [List.drop_eq_nil_of_le (Nat.le_of_eq hleft)] at hrest₂
    rw [if_neg hwrap, hdrop₁, Result.returned_bind, hdrop₂]
    exact ⟨_, rfl, hrest₂.rebase (show 0 < items₂.length by omega),
      (hlength₂.trans hlength₁).trans hcap, rfl⟩

/-! ## Sequences of calls -/

/-- What a call answers and does on a list. -/
def listRun (xs : List T) : Op T → Answer T × List T
  | .pushFront value => (.done, value :: xs)
  | .pushBack value => (.done, xs ++ [value])
  | .popFront =>
      match xs with
      | [] => (.threw "Deque is empty", [])
      | x :: xs => (.value x, xs)
  | .popBack =>
      match xs.getLast? with
      | none => (.threw "Deque is empty", xs)
      | some x => (.value x, xs.dropLast)
  | .set index value =>
      if index < 0 ∨ index ≥ xs.length then (.threw "Deque index out of bounds", xs)
      else (.done, xs.set index.toNat value)
  | .clear => (.done, [])

def listRunAll : List T → List (Op T) → List (Answer T) × List T
  | xs, [] => ([], xs)
  | xs, op :: ops =>
      let (answer, xs) := listRun xs op
      let (answers, xs) := listRunAll xs ops
      (answer :: answers, xs)

theorem run_spec (h : Represents d xs) (op : Op T) :
    ∃ d', run d op = some ((listRun xs op).1, d') ∧ Represents d' (listRun xs op).2 := by
  cases op with
  | pushFront value =>
      obtain ⟨d', hd', h'⟩ := pushFront_spec h value
      exact ⟨d', by rw [run, call, hd']; rfl, h'⟩
  | pushBack value =>
      obtain ⟨d', hd', h'⟩ := pushBack_spec h value
      exact ⟨d', by rw [run, call, hd']; rfl, h'⟩
  | popFront =>
      cases xs with
      | nil =>
          have hthrew : popFront d = .threw "Deque is empty" := if_pos h.count
          exact ⟨d, by rw [run, call, hthrew]; rfl, h⟩
      | cons x xs =>
          obtain ⟨d', hd', h'⟩ := popFront_spec h
          exact ⟨d', by rw [run, call, hd']; rfl, h'⟩
  | popBack =>
      rw [listRun]
      cases hlast : xs.getLast? with
      | none =>
          obtain rfl := List.getLast?_eq_none_iff.mp hlast
          have hthrew : popBack d = .threw "Deque is empty" := if_pos h.count
          exact ⟨d, by rw [run, call, hthrew]; rfl, h⟩
      | some x =>
          obtain ⟨front, rfl⟩ := List.getLast?_eq_some_iff.mp hlast
          obtain ⟨d', hd', h'⟩ := popBack_spec h
          refine ⟨d', by rw [run, call, hd']; rfl, ?_⟩
          rwa [List.dropLast_concat]
  | set index value =>
      rw [listRun]
      by_cases hbounds : index < 0 ∨ index ≥ xs.length
      · have hthrew : set d index value = .threw "Deque index out of bounds" :=
          if_pos (h.count ▸ hbounds)
        rw [if_pos hbounds]
        exact ⟨d, by rw [run, call, hthrew]; rfl, h⟩
      · obtain ⟨d', hd', h'⟩ := @set_spec T d xs h index (by omega) (by omega) value
        rw [if_neg hbounds]
        exact ⟨d', by rw [run, call, hd']; rfl, h'⟩
  | clear =>
      obtain ⟨d', hd', h'⟩ := clear_spec h
      exact ⟨d', by rw [run, call, hd']; rfl, h'⟩

theorem runAll_spec (h : Represents d xs) (ops : List (Op T)) :
    ∃ d', runAll d ops = some ((listRunAll xs ops).1, d') ∧
      Represents d' (listRunAll xs ops).2 := by
  induction ops generalizing d xs with
  | nil => exact ⟨d, rfl, h⟩
  | cons op ops ih =>
      obtain ⟨d₁, hop, h₁⟩ := run_spec h op
      obtain ⟨d', hops, h'⟩ := ih h₁
      exact ⟨d', by rw [runAll, hop]; simp [hops, listRunAll], h'⟩

theorem represents_new {initialCapacity : Int} (hpos : 1 ≤ initialCapacity) :
    ∃ d, new T initialCapacity = .returned d ∧ Represents d [] := by
  have hn : 0 < initialCapacity.toNat := by omega
  exact ⟨_, if_neg (by omega), Ring.holds_empty hn, List.length_replicate, rfl⟩

/-- Everything the deque tells about itself is what the list says. -/
structure Agrees [BEq T] (d : Deque T) (xs : List T) : Prop where
  count : d.count = xs.length
  isEmpty : isEmpty d = xs.isEmpty
  front : front d = xs.head?.elim (.threw "Deque is empty") .returned
  back : back d = xs.getLast?.elim (.threw "Deque is empty") .returned
  get : ∀ index, get d index = if index < 0 then .threw "Deque index out of bounds"
    else xs[index.toNat]?.elim (.threw "Deque index out of bounds") .returned
  contains : ∀ target, contains d target = .returned (xs.any (· == target))
  toArray : toArray d = .returned (xs.map some)

theorem Agrees.of_represents [BEq T] (h : Represents d xs) : Agrees d xs where
  count := h.count
  isEmpty := by
    rw [Deque.isEmpty, h.count]
    cases xs <;> rfl
  front := front_spec h
  back := back_spec h
  get := get_spec h
  contains target := by
    rw [Deque.contains, h.count, containsGo_spec h target (Nat.zero_add _)]
    rfl
  toArray := by
    rw [Deque.toArray, h.count]
    exact toArrayGo_spec h (Nat.zero_add _)

/-- Any calls on a new deque answer what they answer on a list; the live slots are then the
`count` ones from `head` on, and clearing drops them and no others. -/
theorem deque_refines [BEq T] {initialCapacity : Int} (hpos : 1 ≤ initialCapacity)
    (ops : List (Op T)) :
    ∃ d₀ d xs, new T initialCapacity = .returned d₀ ∧
      runAll d₀ ops = some ((listRunAll [] ops).1, d) ∧ xs = (listRunAll [] ops).2 ∧
      Agrees d xs ∧ d.head < d.capacity ∧ d.count ≤ d.capacity ∧ d.items.length = d.capacity ∧
      (∀ i < d.capacity, d.items[(d.head + i) % d.capacity]? = some xs[i]?) ∧
      ∃ cleared, clear d = .returned cleared ∧ ∀ slot ∈ cleared.items, slot = none := by
  obtain ⟨d₀, hnew, h₀⟩ := represents_new (T := T) hpos
  obtain ⟨d, hrun, h⟩ := runAll_spec h₀ ops
  obtain ⟨cleared, hclear, hc⟩ := clear_spec h
  refine ⟨d₀, d, _, hnew, hrun, rfl, .of_represents h, h.capacity ▸ h.cells.start_lt,
    h.count ▸ h.length_le, h.capacity, h.capacity ▸ h.cells.cell, cleared, hclear, ?_⟩
  exact hc.cells.forall_none

/-- Two elements around the end of the slots, and a third that makes them grow. -/
theorem deque_refines_wrapped :
    ∃ (d₀ d : Deque Nat) (xs : List Nat), new Nat 2 = .returned d₀ ∧
      runAll d₀ [.pushFront 1, .pushBack 2, .popFront, .pushBack 3, .pushFront 4]
        = some ((listRunAll [] [.pushFront 1, .pushBack 2, .popFront, .pushBack 3,
            .pushFront 4]).1, d) ∧
      xs = (listRunAll [] [.pushFront 1, .pushBack 2, .popFront, .pushBack 3, .pushFront 4]).2 ∧
      Agrees d xs ∧ d.head < d.capacity ∧ d.count ≤ d.capacity ∧ d.items.length = d.capacity ∧
      (∀ i < d.capacity, d.items[(d.head + i) % d.capacity]? = some xs[i]?) ∧
      ∃ cleared, clear d = .returned cleared ∧ ∀ slot ∈ cleared.items, slot = none :=
  deque_refines (by decide) _

end Deque

end Collections

end Absolute
