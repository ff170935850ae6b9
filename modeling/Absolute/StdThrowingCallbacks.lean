import Absolute.StdPriorityQueueThrowing

/-!
# Containers whose callbacks throw

What each container keeps of its elements when the caller's hash, equality or comparator throws.
A throw while a hash table is rebuilt loses entries, and so do a throw of the comparator after the
first step of `siftUp` and any throw in `siftDown`.
-/

namespace Absolute

namespace Collections

/-- In reachable containers, the throws that leave all elements where they can be found. -/
theorem throw_keeps_iff {K V T Q : Type} [Inhabited Q] {keys : Callbacks K} {values : Callbacks T}
    (hkeys : keys.Lawful) (hvalues : values.Lawful) :
    (∀ {W : Type} {s t : Hashing (HashMap K V) W} {calls : Calls K W} {e : Fault}
        (key : K) (value : V), HashMap.Throwing.Reached keys s.table → calls.Follows keys →
      HashMap.Throwing.put calls key value s = .error e t →
      ((∀ k v, HashMap.get keys s.table k = .ok v → HashMap.get keys t.table k = .ok v)
        ↔ ¬HashMap.Throwing.RehashThrows calls key s)) ∧
    (∀ {W : Type} {s t : Hashing (HashSet T) W} {calls : Calls T W} {value : T} {e : Fault},
      HashSet.Throwing.Reached values s.table → calls.Follows values →
      HashSet.Throwing.add calls value s = .error e t →
      ((∀ x, HashSet.contains values s.table x = true → HashSet.contains values t.table x = true)
        ↔ ¬HashSet.Throwing.RehashThrows calls value s)) ∧
    (∀ {W : Type} {s t : PriorityQueue.Running Q W} {compare : Q → Q → Callback W Int} {value : Q}
        {e : Fault}, PriorityQueue.Reached s.queue →
      PriorityQueue.enqueue compare value s = .error e t →
      ((∀ entry, PriorityQueue.Member s.queue entry → PriorityQueue.Member t.queue entry)
        ↔ PriorityQueue.FirstThrows compare value s)) ∧
    (∀ {W : Type} {s t : PriorityQueue.Running Q W} {compare : Q → Q → Callback W Int} {e : Fault},
      PriorityQueue.Reached s.queue → 0 < s.queue.count →
      PriorityQueue.dequeue compare s = .error e t →
      ∃ entry, PriorityQueue.Member s.queue entry ∧ ¬PriorityQueue.Member t.queue entry) := by
  refine ⟨fun _ _ hreached hf herror => ?_, fun hreached hf herror => ?_, fun hreached herror => ?_,
    fun hreached hpos herror => ?_⟩
  · exact HashMap.Throwing.put_keeps_iff hkeys hf (hreached.sound hkeys) herror
  · exact HashSet.Throwing.add_keeps_iff hvalues hf (hreached.sound hvalues) herror
  · obtain ⟨f, hsound⟩ := hreached.sound
    exact PriorityQueue.enqueue_keeps_iff hsound herror
  · obtain ⟨f, hsound⟩ := hreached.sound
    exact PriorityQueue.dequeue_loses hsound hpos herror

/-- A hash that throws at the call of a number, the world being the number of the next call. -/
def interrupted (call : Nat) : Calls Nat Nat where
  hash key n := (if n = call then .error "hash" else .ok (HashMap.natCallbacks.hash key), n + 1)
  equals a b n := (.ok (HashMap.natCallbacks.equals a b), n)

theorem interrupted_follows (call : Nat) : (interrupted call).Follows HashMap.natCallbacks where
  hash k w h hcall := by
    rw [interrupted] at hcall
    dsimp only at hcall
    split at hcall
    · cases hcall
    · exact (Except.ok.inj hcall).symm
  equals a b w e hcall := (Except.ok.inj hcall).symm

def unfilled : Hashing (HashMap Nat Nat) Nat := ⟨HashMap.freshTable HashMap.unset 4, 0⟩

/-- Two entries in a table of four: the next new key rebuilds it. -/
def filled : Hashing (HashMap Nat Nat) Nat :=
  Raising.state (HashMap.Throwing.put (interrupted 4) 2 20
    (Raising.state (HashMap.Throwing.put (interrupted 4) 1 10 unfilled)))

theorem filled_reached : HashMap.Throwing.Reached HashMap.natCallbacks filled.table := by
  have hfresh : HashMap.Throwing.Reached HashMap.natCallbacks unfilled.table :=
    .fresh (.inr ⟨4, rfl⟩)
  exact .put (interrupted_follows 4) (.put (interrupted_follows 4) hfresh 1 10) 2 20

/-- The hash throws at the second entry that goes into the new table. -/
theorem throw_keeps_iff_interrupted :
    (∀ k v, HashMap.get HashMap.natCallbacks filled.table k = .ok v →
      HashMap.get HashMap.natCallbacks
        (Raising.state (HashMap.Throwing.put (interrupted 4) 3 30 filled)).table k = .ok v)
      ↔ ¬HashMap.Throwing.RehashThrows (interrupted 4) 3 filled :=
  (throw_keeps_iff HashMap.natCallbacks_lawful HashMap.natCallbacks_lawful (Q := Nat)).1
    3 30 filled_reached (interrupted_follows 4) (e := .threw "hash") rfl

/-- A key that was there is not found after the throw. -/
theorem not_throw_keeps :
    ∃ s t : Hashing (HashMap Nat Nat) Nat,
      HashMap.Throwing.Reached HashMap.natCallbacks s.table ∧
      (interrupted 4).Follows HashMap.natCallbacks ∧
      HashMap.Throwing.put (interrupted 4) 3 30 s = .error (.threw "hash") t ∧
      HashMap.get HashMap.natCallbacks s.table 2 = .ok 20 ∧
      HashMap.get HashMap.natCallbacks t.table 2 = .error "Key not found" :=
  ⟨filled, Raising.state (HashMap.Throwing.put (interrupted 4) 3 30 filled), filled_reached,
    interrupted_follows 4, rfl, rfl, rfl⟩

end Collections

end Absolute
