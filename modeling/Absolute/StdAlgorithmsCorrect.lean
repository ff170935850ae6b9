import Mathlib.Algebra.Group.Nat.Defs
import Absolute.StdAlgorithms

/-!
# Sorting and searching are right

Both inner loops put an element where `StableSort.place` does, whatever the test, so the sorts of
arrays and of vectors do the same. The search keeps the elements in front of its interval below
the target and the ones behind it above.
-/

namespace Absolute

namespace Collections

open StableSort While

variable {T : Type}

/-! ## Access -/

/-- The slots that hold a list. -/
def full (xs : List T) : Storage T := xs.map some

@[simp] theorem full_nil : full ([] : List T) = [] := rfl

@[simp] theorem full_cons (x : T) (xs : List T) : full (x :: xs) = some x :: full xs := rfl

@[simp] theorem full_append (xs ys : List T) : full (xs ++ ys) = full xs ++ full ys :=
  List.map_append

@[simp] theorem length_full (xs : List T) : (full xs).length = xs.length := List.length_map _

theorem itemAt_of_getElem? {items : Storage T} {i : Nat} {x : T} (h : items[i]? = some (some x)) :
    itemAt items i = .returned x := by
  rw [itemAt, if_pos (Int.natCast_nonneg i), Int.toNat_natCast, unsafeArrayGet_eq h]

theorem setItem_of_lt {items : Storage T} {i : Nat} (h : i < items.length) (x : T) :
    setItem items i x = .returned (items.set i (some x)) := by
  rw [setItem, if_pos (Int.natCast_nonneg i), Int.toNat_natCast, unsafeArraySet_eq h]

theorem getElem?_middle (front : List T) (slot : Option T) (rest : Storage T) :
    (full front ++ slot :: rest)[front.length]? = some slot := by
  rw [List.getElem?_append_right (by rw [length_full]), length_full, Nat.sub_self]
  rfl

theorem set_middle (front : List T) (slot slot' : Option T) (rest : Storage T) :
    (full front ++ slot :: rest).set front.length slot' = full front ++ slot' :: rest := by
  rw [List.set_append_right _ _ (by rw [length_full]), length_full, Nat.sub_self]
  rfl

theorem getElem?_second (front : List T) (slot slot' : Option T) (rest : Storage T) :
    (full front ++ slot :: slot' :: rest)[front.length + 1]? = some slot' := by
  rw [List.getElem?_append_right (by rw [length_full]; omega), length_full, Nat.add_sub_cancel_left]
  rfl

theorem set_second (front : List T) (slot slot₁ slot₂ : Option T) (rest : Storage T) :
    (full front ++ slot :: slot₁ :: rest).set (front.length + 1) slot₂
      = full front ++ slot :: slot₂ :: rest := by
  rw [List.set_append_right _ _ (by rw [length_full]; omega), length_full, Nat.add_sub_cancel_left]
  rfl

theorem itemAt_middle (front : List T) (x : T) (rest : Storage T) :
    itemAt (full front ++ some x :: rest) front.length = .returned x :=
  itemAt_of_getElem? (getElem?_middle front (some x) rest)

theorem setItem_middle (front : List T) (slot : Option T) (x : T) (rest : Storage T) :
    setItem (full front ++ slot :: rest) front.length x
      = .returned (full front ++ some x :: rest) := by
  rw [setItem_of_lt (by simp), set_middle]

/-! ## The inner loops -/

section Sorting

variable (after : T → T → Bool) {n : Nat}

/-- The slot behind `front` may hold anything: it is written with the key, or with the last
element of `front`. -/
theorem shift_eq (key : T) (front : List T) (slot : Option T) (rest : Storage T) :
    (do
      let (next, items) ← shiftGo after key front.length (full front ++ slot :: rest)
      setItem items next key) = .returned (full (place after front key) ++ rest) := by
  induction front using List.reverseRecOn generalizing slot rest with
  | nil => exact setItem_middle [] slot key rest
  | append_singleton front x ih =>
      have hitems : full (front ++ [x]) ++ slot :: rest = full front ++ some x :: slot :: rest := by
        rw [full_append, List.append_assoc]
        rfl
      rw [List.length_append, List.length_singleton, shiftGo, hitems, itemAt_middle]
      simp only [Result.returned_bind]
      by_cases hx : after x key = true
      · have hset := setItem_middle (front ++ [x]) slot x rest
        rw [List.length_append, List.length_singleton, hitems] at hset
        push_cast at hset
        rw [if_pos hx, hset, Result.returned_bind]
        have hfull : full (front ++ [x]) ++ some x :: rest
            = full front ++ some x :: some x :: rest := by
          rw [full_append, List.append_assoc]
          rfl
        rw [hfull, ih, place_concat_of_after hx, full_append, List.append_assoc]
        rfl
      · have hset := setItem_middle (front ++ [x]) slot key rest
        rw [List.length_append, List.length_singleton, hitems] at hset
        rw [if_neg hx, Result.pure_eq, Result.returned_bind, hset,
          place_concat_of_not_after (eq_false_of_ne_true hx)]
        simp only [full_append, full_cons, full_nil, List.append_assoc, List.cons_append,
          List.nil_append]

theorem insertKey_eq (front : List T) (key : T) (rest : Storage T) :
    insertKey after (full front ++ some key :: rest) front.length
      = .returned (full (place after front key) ++ rest) := by
  rw [insertKey, itemAt_middle, Result.returned_bind]
  exact shift_eq after key front (some key) rest

/-- A vector with slots behind what it holds. -/
def holding (vec : Vector T) (items : Storage T) : Vector T := { vec with items := items }

theorem Vector.get_middle (vec : Vector T) (front : List T) (x : T) (rest : Storage T)
    (h : front.length < vec.count) :
    (holding vec (full front ++ some x :: rest)).get front.length = .returned x := by
  rw [Vector.get, if_pos ⟨Int.natCast_nonneg _, Int.ofNat_lt.mpr h⟩, Int.toNat_natCast]
  exact unsafeArrayGet_eq (getElem?_middle front (some x) rest)

theorem Vector.swap_middle (vec : Vector T) (front : List T) (x y : T) (rest : Storage T)
    (h : front.length + 1 < vec.count) :
    (holding vec (full front ++ some x :: some y :: rest)).swap front.length (front.length + 1)
      = .returned (holding vec (full front ++ some y :: some x :: rest)) := by
  have hnot : ¬((front.length : Int) < 0 ∨ (front.length : Int) ≥ vec.count ∨
      (front.length : Int) + 1 < 0 ∨ (front.length : Int) + 1 ≥ vec.count) := by omega
  have hne : (front.length : Int) ≠ front.length + 1 := by omega
  have hleft := unsafeArrayTake_eq (getElem?_middle front (some x) (some y :: rest))
  have hright := unsafeArrayTake_eq (getElem?_second front none (some y) rest)
  have hstoreRight : unsafeArraySet (full front ++ none :: none :: rest) front.length y
      = .returned (full front ++ some y :: none :: rest) := by
    rw [unsafeArraySet_eq (by simp), set_middle]
  have hstoreLeft : unsafeArraySet (full front ++ some y :: none :: rest) (front.length + 1) x
      = .returned (full front ++ some y :: some x :: rest) := by
    rw [unsafeArraySet_eq (by simp), set_second]
  rw [set_middle] at hleft
  rw [set_second] at hright
  have hnext : ((front.length : Int) + 1).toNat = front.length + 1 := rfl
  rw [Vector.swap, holding, if_neg hnot, if_neg hne, Int.toNat_natCast, hnext, hleft]
  simp only [Result.returned_bind, hright, hstoreRight, hstoreLeft]
  rfl

/-- Exchanging neighbours gets `key` to where holding it out does. -/
theorem sink_eq (vec : Vector T) (key : T) (front : List T) (rest : Storage T)
    (h : front.length < vec.count) :
    sinkGo after front.length (holding vec (full front ++ some key :: rest))
      = .returned (holding vec (full (place after front key) ++ rest)) := by
  induction front using List.reverseRecOn generalizing rest with
  | nil => rfl
  | append_singleton front x ih =>
      rw [List.length_append, List.length_singleton] at h ⊢
      have hitems : full (front ++ [x]) ++ some key :: rest
          = full front ++ some x :: some key :: rest := by
        rw [full_append, List.append_assoc]
        rfl
      have hx := Vector.get_middle vec front x (some key :: rest) (by omega)
      have hkey := Vector.get_middle vec (front ++ [x]) key rest (by simpa using h)
      rw [List.length_append, List.length_singleton, hitems] at hkey
      push_cast at hkey
      rw [sinkGo, hitems, hx, Result.returned_bind, hkey, Result.returned_bind]
      by_cases hafter : after x key = true
      · rw [if_pos hafter, Vector.swap_middle vec front x key rest h, Result.returned_bind,
          ih (some x :: rest) (by omega), place_concat_of_after hafter, full_append,
          List.append_assoc]
        rfl
      · rw [if_neg hafter, place_concat_of_not_after (eq_false_of_ne_true hafter), full_append,
          List.append_assoc]
        rfl

/-! ## The outer loops -/

/-- A loop over the elements behind `front` whose turns put them in their places. -/
theorem outer_eq {σ : Type} (turn : σ → Nat → Result σ) (state : List T → List T → σ)
    (hturn : ∀ front x xs, front.length + (x :: xs).length = n →
      turn (state front (x :: xs)) front.length = .returned (state (place after front x) xs))
    (front xs : List T) (hn : front.length + xs.length = n) :
    (List.range' front.length xs.length).foldlM turn (state front xs)
      = .returned (state (xs.foldl (place after) front) []) := by
  induction xs generalizing front with
  | nil => rfl
  | cons x xs ih =>
      have hlength : (place after front x).length = front.length + 1 := by
        rw [(place_perm front x).length_eq, List.length_append, List.length_singleton]
      have hrest : (place after front x).length + xs.length = n := by
        rw [hlength, ← hn, List.length_cons]
        omega
      rw [List.length_cons, List.range'_succ, List.foldlM_cons, hturn front x xs hn,
        Result.returned_bind, ← hlength, ih _ hrest, List.foldl_cons]

theorem sortArray_eq (xs : List T) :
    sortArray after (full xs) = .returned (full (StableSort.sort after xs)) := by
  cases xs with
  | nil => rfl
  | cons x xs =>
      have h := outer_eq after (insertKey after) (fun front xs => full front ++ full xs)
        (fun front x xs _ => insertKey_eq after front x (full xs)) [x] xs rfl
      rw [sortArray, length_full, List.length_cons, Nat.add_sub_cancel]
      simpa [StableSort.sort] using h

/-- The vector holds a list, with slots behind it. -/
structure Vector.Holds (vec : Vector T) (xs : List T) : Prop where
  count : vec.count = xs.length
  items : vec.items.take vec.count = full xs

theorem sortVector_eq {vec : Vector T} {xs : List T} (h : vec.Holds xs) :
    sortVector after vec = .returned
      (holding vec (full (StableSort.sort after xs) ++ vec.items.drop vec.count)) := by
  have hvec : vec = holding vec (full xs ++ vec.items.drop vec.count) := by
    rw [← h.items, List.take_append_drop]
    rfl
  cases xs with
  | nil =>
      have hcount : vec.count - 1 = 0 := by rw [h.count]; rfl
      rw [sortVector, hcount]
      exact congrArg Result.returned hvec
  | cons x xs =>
      have hloop := outer_eq after (n := vec.count) (fun vec i => sinkGo after i vec)
        (fun front xs => holding vec (full front ++ (full xs ++ vec.items.drop vec.count)))
        (fun front x xs hn => sink_eq after vec x front _ (by
          rw [← hn, List.length_cons]
          omega)) [x] xs (by rw [h.count, List.length_cons]; simp; omega)
      have hlen : vec.count - 1 = xs.length := by rw [h.count, List.length_cons]; rfl
      rw [sortVector, hlen]
      conv_lhs => rw [hvec]
      simpa [StableSort.sort] using hloop

theorem holds_sorted {vec : Vector T} {xs : List T} (h : vec.Holds xs) {ys : List T}
    (hys : ys.Perm xs) : (holding vec (full ys ++ vec.items.drop vec.count)).Holds ys where
  count := h.count.trans hys.length_eq.symm
  items := by
    have hcount : vec.count = (full ys).length := by
      rw [length_full, h.count, hys.length_eq]
    rw [holding, hcount, List.take_left]

end Sorting

/-! ## The search -/

section Searching

/-- `<` leaves a total preorder, and `==` is the equality that it induces. -/
structure Induced (eq lt : T → T → Bool) : Prop where
  preorder : TotalPreorder fun a b => lt b a
  induced : ∀ a b, eq a b = true ↔ lt a b = false ∧ lt b a = false

/-- The index of an element equal to the target, or -1 where there is none. -/
def Found (eq : T → T → Bool) (xs : List T) (target : T) (index : Int) : Prop :=
  (∃ (i : Nat) (x : T), index = i ∧ xs[i]? = some x ∧ eq x target = true) ∨
    index = -1 ∧ ∀ x ∈ xs, eq x target = false

/-- What is equal to the target lies between the bounds. -/
structure Between (eq : T → T → Bool) (xs : List T) (target : T) (bounds : Int × Int) : Prop where
  low_nonneg : 0 ≤ bounds.1
  high_lt : bounds.2 < xs.length
  low_le : bounds.1 ≤ bounds.2 + 1
  within : ∀ (i : Nat) (x : T), xs[i]? = some x → eq x target = true → bounds.1 ≤ i ∧ i ≤ bounds.2

variable {eq lt : T → T → Bool} {get : Int → Result T} {xs : List T} {target : T}
  {bounds : Int × Int}

theorem searchTurn_eq (hlen : xs.length < 2 ^ 31)
    (hget : ∀ (i : Nat) (x : T), xs[i]? = some x → get i = .returned x)
    (hb : Between eq xs target bounds) (hle : bounds.1 ≤ bounds.2) :
    ∃ (mid : Nat) (x : T), xs[mid]? = some x ∧ bounds.1 ≤ mid ∧ mid ≤ bounds.2 ∧
      searchTurn eq lt get target bounds =
        if eq x target then .done (.returned mid)
        else if lt x target then .next (mid + 1, bounds.2)
        else .next (bounds.1, mid - 1) := by
  obtain ⟨low, high⟩ := bounds
  have hlow := hb.low_nonneg
  have hhigh := hb.high_lt
  dsimp only at hlow hhigh hle ⊢
  have hhalf : (high - low).tdiv 2 = (high - low) / 2 :=
    Int.tdiv_eq_ediv_of_nonneg (by omega)
  obtain ⟨mid, hmid⟩ := Int.eq_ofNat_of_zero_le (a := low + (high - low).tdiv 2) (by omega)
  have hlt : mid < xs.length := by omega
  refine ⟨mid, xs[mid], List.getElem?_eq_getElem hlt, by omega, by omega, ?_⟩
  rw [searchTurn, if_pos hle, int32_eq (by omega) (by omega), Result.returned_bind, hmid,
    int32_eq (by omega) (by omega), Result.returned_bind,
    hget mid _ (List.getElem?_eq_getElem hlt), Result.returned_bind]
  split
  · rfl
  · split
    · rw [int32_eq (by omega) (by omega)]
      rfl
    · rw [int32_eq (by omega) (by omega)]
      rfl

/-- The half that is cut off holds nothing equal to the target. -/
theorem Between.next (ho : Induced eq lt) (hsorted : Sorted (fun a b => lt b a) xs)
    (hb : Between eq xs target bounds) {mid : Nat} {x : T} (hx : xs[mid]? = some x)
    (hlow : bounds.1 ≤ mid) (hhigh : mid ≤ bounds.2) (hne : ¬eq x target = true) :
    Between eq xs target (if lt x target then (mid + 1, bounds.2) else (bounds.1, mid - 1)) := by
  have horder : ∀ {i j : Nat} {y z : T}, i < j → xs[i]? = some y → xs[j]? = some z →
      lt z y = false := by
    intro i j y z hij hy hz
    obtain ⟨hi, rfl⟩ := List.getElem?_eq_some_iff.mp hy
    obtain ⟨hj, rfl⟩ := List.getElem?_eq_some_iff.mp hz
    exact List.pairwise_iff_getElem.mp hsorted i j hi hj hij
  split
  · rename_i hless
    refine ⟨by have := hb.low_nonneg; dsimp only; omega, hb.high_lt, by dsimp only; omega, ?_⟩
    intro i y hy heq
    refine ⟨?_, (hb.within i y hy heq).2⟩
    by_contra hbelow
    rcases Nat.lt_or_eq_of_le (show i ≤ mid by dsimp only at hbelow; omega) with hlt | rfl
    · have hle := ho.preorder.trans ((ho.induced y target).mp heq).1 (horder hlt hy hx)
      rw [hless] at hle
      cases hle
    · rw [hx] at hy
      exact hne (Option.some.inj hy ▸ heq)
  · rename_i hless
    have hgreater : lt target x = true := by
      by_contra hnot
      exact hne ((ho.induced x target).mpr
        ⟨eq_false_of_ne_true hless, eq_false_of_ne_true hnot⟩)
    refine ⟨hb.low_nonneg, by have := hb.high_lt; dsimp only; omega, by dsimp only; omega, ?_⟩
    intro i y hy heq
    refine ⟨(hb.within i y hy heq).1, ?_⟩
    by_contra habove
    rcases Nat.lt_or_eq_of_le (show mid ≤ i by dsimp only at habove; omega) with hlt | rfl
    · have hle := ho.preorder.trans (horder hlt hx hy) ((ho.induced y target).mp heq).2
      rw [hgreater] at hle
      cases hle
    · rw [hx] at hy
      exact hne (Option.some.inj hy ▸ heq)

/-- A turn that another follows has cut part of the interval off. -/
theorem Between.turn_next (ho : Induced eq lt) (hsorted : Sorted (fun a b => lt b a) xs)
    (hlen : xs.length < 2 ^ 31)
    (hget : ∀ (i : Nat) (x : T), xs[i]? = some x → get i = .returned x)
    (hb : Between eq xs target bounds) {bounds' : Int × Int}
    (hturn : searchTurn eq lt get target bounds = .next bounds') :
    Between eq xs target bounds' ∧ bounds'.2 - bounds'.1 < bounds.2 - bounds.1 := by
  by_cases hle : bounds.1 ≤ bounds.2
  · obtain ⟨mid, x, hx, hlow, hhigh, hstep⟩ := searchTurn_eq hlen hget hb hle
    rw [hstep] at hturn
    split at hturn
    · cases hturn
    · rename_i hne
      have hnext := hb.next ho hsorted hx hlow hhigh hne
      split at hturn
      · rename_i hless
        cases hturn
        rw [if_pos hless] at hnext
        exact ⟨hnext, by dsimp only; omega⟩
      · rename_i hless
        cases hturn
        rw [if_neg hless] at hnext
        exact ⟨hnext, by dsimp only; omega⟩
  · rw [searchTurn, if_neg hle] at hturn
    cases hturn

/-- The last turn has found the target, or the interval is empty. -/
theorem Between.turn_done (hlen : xs.length < 2 ^ 31)
    (hget : ∀ (i : Nat) (x : T), xs[i]? = some x → get i = .returned x)
    (hb : Between eq xs target bounds) {result : Result Int}
    (hturn : searchTurn eq lt get target bounds = .done result) :
    ∃ index, result = .returned index ∧ Found eq xs target index := by
  by_cases hle : bounds.1 ≤ bounds.2
  · obtain ⟨mid, x, hx, -, -, hstep⟩ := searchTurn_eq hlen hget hb hle
    rw [hstep] at hturn
    split at hturn
    · rename_i heq
      cases hturn
      exact ⟨mid, rfl, .inl ⟨mid, x, rfl, hx, heq⟩⟩
    · split at hturn <;> cases hturn
  · rw [searchTurn, if_neg hle] at hturn
    cases hturn
    refine ⟨-1, rfl, .inr ⟨rfl, fun x hx => ?_⟩⟩
    obtain ⟨i, hi, rfl⟩ := List.mem_iff_getElem.mp hx
    by_contra heq
    have hwithin := hb.within i _ (List.getElem?_eq_getElem hi) (eq_true_of_ne_false heq)
    omega

/-- The search is over after some number of turns, and it has found the target. -/
theorem search_found (ho : Induced eq lt) (hsorted : Sorted (fun a b => lt b a) xs)
    (hlen : xs.length < 2 ^ 31)
    (hget : ∀ (i : Nat) (x : T), xs[i]? = some x → get i = .returned x) :
    ∃ turns index, search eq lt get target xs.length turns = some (.returned index) ∧
      Found eq xs target index := by
  have hstart : Between eq xs target (0, (xs.length : Int) - 1) := by
    refine ⟨by dsimp only; omega, by dsimp only; omega, by dsimp only; omega, ?_⟩
    intro i x hx _
    obtain ⟨hi, -⟩ := List.getElem?_eq_some_iff.mp hx
    dsimp only
    omega
  obtain ⟨r, ⟨turns, hrun⟩, index, rfl, hfound⟩ := Ends.of_measure
    (fun bounds : Int × Int => (bounds.2 + 1 - bounds.1).toNat)
    (fun bounds bounds' hb hturn => by
      obtain ⟨hb', hlt⟩ := hb.turn_next ho hsorted hlen hget hturn
      have hle := hb'.low_le
      exact ⟨hb', by omega⟩)
    (fun bounds r hb hturn => hb.turn_done hlen hget hturn) hstart
  refine ⟨turns, index, ?_, hfound⟩
  rw [search, int32_eq (by omega) (by omega)]
  exact hrun

end Searching

/-! ## The library functions -/

open Algorithms

section Calls

variable {after eq lt : T → T → Bool} {xs : List T} {vec : Vector T}

theorem sorts_alike (h : TotalPreorder after) (hvec : vec.Holds xs) :
    ∃ ys vec', StablySorts after xs ys ∧ sortArray after (full xs) = .returned (full ys) ∧
      sortVector after vec = .returned vec' ∧ vec'.Holds ys := by
  have hsorts := sort_stablySorts h xs
  exact ⟨_, _, hsorts, sortArray_eq after xs, sortVector_eq after hvec,
    holds_sorted hvec hsorts.perm⟩

theorem itemAt_full {i : Nat} {x : T} (h : xs[i]? = some x) :
    itemAt (full xs) i = .returned x := by
  refine itemAt_of_getElem? ?_
  rw [full, List.getElem?_map, h]
  rfl

theorem Vector.Holds.get (hvec : vec.Holds xs) {i : Nat} {x : T} (h : xs[i]? = some x) :
    vec.get i = .returned x := by
  obtain ⟨hi, -⟩ := List.getElem?_eq_some_iff.mp h
  have hcount : i < vec.count := by rw [hvec.count]; exact hi
  have hslot : (full xs)[i]? = some (some x) := by
    rw [full, List.getElem?_map, h]
    rfl
  rw [← hvec.items, List.getElem?_take_of_lt hcount] at hslot
  rw [Vector.get, if_pos ⟨Int.natCast_nonneg i, Int.ofNat_lt.mpr hcount⟩, Int.toNat_natCast]
  exact unsafeArrayGet_eq hslot

theorem binarySearch_found (ho : Induced eq lt) (hsorted : Sorted (fun a b => lt b a) xs)
    (hlen : xs.length < 2 ^ 31) (target : T) :
    ∃ turns index, binarySearch eq lt target (full xs) turns = some (.returned index) ∧
      Found eq xs target index := by
  obtain ⟨turns, index, hrun, hfound⟩ := search_found (T := T) ho hsorted hlen
    (fun i x h => itemAt_full h)
  refine ⟨turns, index, ?_, hfound⟩
  rw [binarySearch, length_full]
  exact hrun

theorem binarySearchVec_found (ho : Induced eq lt) (hsorted : Sorted (fun a b => lt b a) xs)
    (hlen : xs.length < 2 ^ 31) (hvec : vec.Holds xs) (target : T) :
    ∃ turns index, binarySearchVec eq lt target vec turns = some (.returned index) ∧
      Found eq xs target index := by
  obtain ⟨turns, index, hrun, hfound⟩ := search_found (T := T) ho hsorted hlen
    (fun i x h => hvec.get h)
  refine ⟨turns, index, ?_, hfound⟩
  rw [binarySearchVec, hvec.count]
  exact hrun

end Calls

/-- Arrays and vectors are sorted stably, and alike, whether by `>` or by a comparator; a search
of what is sorted finds the target where it occurs. -/
theorem sort_and_search (T : Type) :
    (∀ gt : T → T → Bool, TotalPreorder gt → ∀ (xs : List T) (vec : Vector T), vec.Holds xs →
      ∃ ys vec', StablySorts gt xs ys ∧ sort gt (full xs) = .returned (full ys) ∧
        sortVec gt vec = .returned vec' ∧ vec'.Holds ys) ∧
    (∀ comparator : T → T → Int32, TotalPreorder (afterBy comparator) →
      ∀ (xs : List T) (vec : Vector T), vec.Holds xs →
      ∃ ys vec', StablySorts (afterBy comparator) xs ys ∧
        sortBy (full xs) comparator = .returned (full ys) ∧
        sortVecBy vec comparator = .returned vec' ∧ vec'.Holds ys) ∧
    (∀ eq lt : T → T → Bool, Induced eq lt → ∀ (xs : List T) (vec : Vector T) (target : T),
      Sorted (fun a b => lt b a) xs → xs.length < 2 ^ 31 → vec.Holds xs →
      (∃ turns index, binarySearch eq lt target (full xs) turns = some (.returned index) ∧
        Found eq xs target index) ∧
      (∃ turns index, binarySearchVec eq lt target vec turns = some (.returned index) ∧
        Found eq xs target index)) := by
  refine ⟨?_, ?_, ?_⟩
  · intro gt h xs vec hvec
    exact sorts_alike h hvec
  · intro comparator h xs vec hvec
    exact sorts_alike h hvec
  · intro eq lt ho xs vec target hsorted hlen hvec
    exact ⟨binarySearch_found ho hsorted hlen target,
      binarySearchVec_found ho hsorted hlen hvec target⟩

/-- By the first component, where two elements are tied. -/
def byFirst (a b : Nat × Nat) : Int32 := if a.1 < b.1 then -1 else if b.1 < a.1 then 1 else 0

theorem afterBy_byFirst (a b : Nat × Nat) : afterBy byFirst a b = false ↔ a.1 ≤ b.1 := by
  rw [afterBy, byFirst]
  split
  · exact iff_of_true (by decide) (by omega)
  · split
    · exact iff_of_false (by decide) (by omega)
    · exact iff_of_true (by decide) (by omega)

theorem sort_pairs : ∃ ys vec', StablySorts (afterBy byFirst) [(2, 0), (1, 1), (2, 2)] ys ∧
    sortBy (full [(2, 0), (1, 1), (2, 2)]) byFirst = .returned (full ys) ∧
    sortVecBy ⟨full [(2, 0), (1, 1), (2, 2)] ++ [none], 3, 4⟩ byFirst = .returned vec' ∧
    vec'.Holds ys := by
  refine (sort_and_search (Nat × Nat)).2.1 byFirst ⟨?_, ?_⟩ _ _ ⟨rfl, rfl⟩
  · intro a b
    rw [afterBy_byFirst, afterBy_byFirst]
    exact Nat.le_total a.1 b.1
  · intro a b c hab hbc
    rw [afterBy_byFirst] at hab hbc ⊢
    exact Nat.le_trans hab hbc

example : sortBy (full [(2, 0), (1, 1), (2, 2)]) byFirst
    = .returned (full [(1, 1), (2, 0), (2, 2)]) := by
  decide

end Collections

end Absolute
