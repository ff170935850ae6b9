import Absolute.LibFolds
import Absolute.RtPointersInv

/-!
# The slot table of the WebAssembly runtime

`Absolute-Runtime/wasm/absolute_wasm_runtime.c` has a managed pointer table of its own: a static
array of slots, a count of those in use, and a stack of the free ids. It is written for the same
callers as the table of `Absolute-Runtime/src/pointers.cpp`, and answers them alike: the same calls
get the same handles, pointers and types and release the same blocks, as long as the array is large
enough (`runs_agree`).

Arrays are functions of the index. A call that aborts returns nothing.
-/

namespace Absolute

namespace Wasm

open Managed (Handle makeHandle handleId handleGeneration nextGeneration Reply)

structure ManagedSlot (Ptr : Type) where
  pointer : Option Ptr := none
  generation : UInt32 := 0
  type : UInt64 := 0

def ABSOLUTE_MANAGED_CAPACITY : ℕ := 4096

/-- `g_slots`, `g_slot_count`, `g_free_slots` and `g_free_count`. -/
structure SlotTable (Ptr : Type) where
  slots : ℕ → ManagedSlot Ptr := fun _ => {}
  slotCount : ℕ := 0
  freeSlots : ℕ → UInt32 := fun _ => 0
  freeCount : ℕ := 0

variable {Ptr Fn : Type}

namespace SlotTable

variable (w : SlotTable Ptr)

def findSlot (handle : Handle) : Option (ManagedSlot Ptr) :=
  if handle = 0 then none
  else
    let id := (handleId handle).toNat
    if id ≥ w.slotCount then none
    else
      let slot := w.slots id
      if slot.generation = handleGeneration handle then some slot else none

def setSlot (id : ℕ) (slot : ManagedSlot Ptr) : SlotTable Ptr :=
  { w with slots := Function.update w.slots id slot }

/-- `allocation` is what `calloc` answers. -/
def absoluteManagedCreate (allocation : Option Ptr) : Option (SlotTable Ptr × Handle) :=
  match allocation with
  | none => none
  | some allocation =>
      if w.freeCount > 0 then
        let id := w.freeSlots (w.freeCount - 1)
        let slot := { w.slots id.toNat with pointer := some allocation, type := 0 }
        some ({ w.setSlot id.toNat slot with freeCount := w.freeCount - 1 },
          makeHandle id slot.generation)
      else if w.slotCount ≥ ABSOLUTE_MANAGED_CAPACITY then none
      else
        let id := w.slotCount
        let slot : ManagedSlot Ptr := ⟨some allocation, 1, 0⟩
        some ({ w.setSlot id slot with slotCount := w.slotCount + 1 },
          makeHandle (UInt32.ofNat id) slot.generation)

def absoluteManagedGet (handle : Handle) : Option Ptr :=
  match w.findSlot handle with
  | some slot => slot.pointer
  | none => none

def absoluteManagedType (handle : Handle) : UInt64 :=
  match w.findSlot handle with
  | some slot => slot.type
  | none => 0

def absoluteManagedSetType (handle : Handle) (type : UInt64) : SlotTable Ptr :=
  match w.findSlot handle with
  | some slot => w.setSlot (handleId handle).toNat { slot with type := type }
  | none => w

/-- The second component is the block that is freed. -/
def absoluteManagedDestroy (handle : Handle) : SlotTable Ptr × Option Ptr :=
  match w.findSlot handle with
  | none => (w, none)
  | some slot =>
      match slot.pointer with
      | none => (w, none)
      | some pointer =>
          let id := handleId handle
          let w := w.setSlot id.toNat ⟨none, nextGeneration slot.generation, 0⟩
          if w.freeCount < ABSOLUTE_MANAGED_CAPACITY then
            ({ w with
                freeSlots := Function.update w.freeSlots w.freeCount id
                freeCount := w.freeCount + 1 }, some pointer)
          else (w, some pointer)

def absoluteManagedTransfer (handle : Handle) : Option (SlotTable Ptr × Handle) :=
  match w.findSlot handle with
  | none => none
  | some slot =>
      match slot.pointer with
      | none => none
      | some _ =>
          let id := handleId handle
          let slot := { slot with generation := nextGeneration slot.generation }
          some (w.setSlot id.toNat slot, makeHandle id slot.generation)

end SlotTable

/-! ## Calls -/

/-- What both runtimes can be asked for. -/
inductive SlotCall (Ptr : Type) where
  | create (size : UInt64) (allocation : Option Ptr)
  | transfer (handle : Handle)
  | destroy (handle : Handle)
  | setType (handle : Handle) (type : UInt64)
  | get (handle : Handle)
  | type (handle : Handle)
deriving Repr, DecidableEq

namespace SlotCall

def native : SlotCall Ptr → Managed.Call Ptr Fn
  | .create size allocation => .create size allocation
  | .transfer handle => .transfer handle
  | .destroy handle => .destroy handle
  | .setType handle newType => .setType handle newType
  | .get handle => .get handle
  | .type handle => .type handle

/-- What a call answers; `free` is the deleter of the blocks that are released. -/
def exec (w : SlotTable Ptr) : SlotCall Ptr → Option (SlotTable Ptr × Reply Ptr Fn)
  | .create _ allocation => (w.absoluteManagedCreate allocation).map fun r => (r.1, .handle r.2)
  | .transfer handle => (w.absoluteManagedTransfer handle).map fun r => (r.1, .handle r.2)
  | .destroy handle =>
      let r := w.absoluteManagedDestroy handle
      some (r.1, .released (r.2.map (Managed.Deleter.DefaultDeleter, ·)))
  | .setType handle newType => some (w.absoluteManagedSetType handle newType, .done)
  | .get handle => some (w, .pointer (w.absoluteManagedGet handle))
  | .type handle => some (w, .type (w.absoluteManagedType handle))

/-- The calls one after the other, with what they answer. -/
def execAll (w : SlotTable Ptr) :
    List (SlotCall Ptr) → Option (SlotTable Ptr × List (Reply Ptr Fn))
  | [] => some (w, [])
  | call :: calls => do
      let (w, reply) ← call.exec w
      let (w, replies) ← execAll w calls
      return (w, reply :: replies)

/-- The same calls of the other runtime. -/
def nativeAll (t : Managed.Table Ptr Fn) :
    List (SlotCall Ptr) → Except Managed.Abort (Managed.Table Ptr Fn × List (Reply Ptr Fn))
  | [] => .ok (t, [])
  | call :: calls => do
      let (t, reply) ← Managed.exec t call.native
      let (t, replies) ← nativeAll t calls
      return (t, reply :: replies)

end SlotCall

/-! ## Tables that are alike -/

/-- A slot without its deleter. -/
def wasmSlot (slot : Managed.Slot Ptr Fn) : ManagedSlot Ptr :=
  ⟨slot.pointer, slot.generation, slot.type⟩

structure Alike (t : Managed.Table Ptr Fn) (w : SlotTable Ptr) : Prop where
  count : t.slots.length = w.slotCount
  small : w.slotCount ≤ ABSOLUTE_MANAGED_CAPACITY
  slot : ∀ i slot, t.slots[i]? = some slot →
    w.slots i = wasmSlot slot ∧ slot.deleter.getD .DefaultDeleter = .DefaultDeleter
  free : t.freeSlots = ((List.range w.freeCount).map w.freeSlots).reverse
  nodup : t.freeSlots.Nodup
  empty : ∀ id ∈ t.freeSlots, ∃ slot, t.slots[id.toNat]? = some slot ∧ slot.pointer = none

/-- What two runtimes answer: the same, or nothing where one of them aborts, which the one with
the array does too when it is full. -/
inductive Agree : Except Managed.Abort (Managed.Table Ptr Fn × Reply Ptr Fn) →
    Option (SlotTable Ptr × Reply Ptr Fn) → Prop where
  | both {t : Managed.Table Ptr Fn} {w : SlotTable Ptr} {reply : Reply Ptr Fn} (h : Alike t w) :
      Agree (.ok (t, reply)) (some (w, reply))
  | neither (abort : Managed.Abort) : Agree (.error abort) none
  | full {t : Managed.Table Ptr Fn} {reply : Reply Ptr Fn}
      (h : ABSOLUTE_MANAGED_CAPACITY < t.slots.length) : Agree (.ok (t, reply)) none

section Steps

variable {t : Managed.Table Ptr Fn} {w : SlotTable Ptr}

theorem Alike.slotAt (h : Alike t w) (id : UInt32) : Managed.slotAt t id = t.slots[id.toNat]? := by
  refine Managed.slotAt_of_small ?_ id
  rw [h.count]
  exact h.small.trans (by decide)

theorem Alike.find (h : Alike t w) (handle : Handle) :
    w.findSlot handle = (Managed.find t handle).map wasmSlot := by
  rw [SlotTable.findSlot, Managed.find, h.slotAt, ← h.count]
  dsimp only
  by_cases h0 : handle = 0
  · rw [if_pos h0, if_pos h0]
    rfl
  rw [if_neg h0, if_neg h0]
  by_cases hlt : t.slots.length ≤ (handleId handle).toNat
  · rw [if_pos hlt, if_pos hlt]
    rfl
  rw [if_neg hlt, if_neg hlt]
  have hget := List.getElem?_eq_getElem (Nat.lt_of_not_le hlt)
  rw [hget, (h.slot _ _ hget).1]
  dsimp only
  by_cases hg : t.slots[(handleId handle).toNat].generation = handleGeneration handle
  · rw [if_pos hg]
    exact if_pos hg
  · rw [if_neg hg]
    exact if_neg hg

/-- A slot found is there. -/
theorem Alike.found (h : Alike t w) {handle : Handle} {slot : Managed.Slot Ptr Fn}
    (hfind : Managed.find t handle = some slot) : t.slots[(handleId handle).toNat]? = some slot := by
  rw [Managed.find, h.slotAt] at hfind
  split at hfind
  · cases hfind
  split at hfind
  · cases hfind
  split at hfind
  case h_1 => cases hfind
  case h_2 found hget =>
    split at hfind
    · rw [hget, hfind]
    · cases hfind

/-- The same change of a slot in both. -/
theorem Alike.set (h : Alike t w) {i : ℕ} {slot : Managed.Slot Ptr Fn}
    (slot' : Managed.Slot Ptr Fn) (hslot : t.slots[i]? = some slot)
    (hdeleter : slot'.deleter.getD .DefaultDeleter = .DefaultDeleter)
    (hfree : slot'.pointer = slot.pointer ∨ ∀ id ∈ t.freeSlots, id.toNat ≠ i) :
    Alike { t with slots := t.slots.set i slot' } (w.setSlot i (wasmSlot slot')) where
  count := (List.length_set).trans h.count
  small := h.small
  slot := by
    intro j s hs
    rcases Nat.decEq i j with hij | rfl
    · rw [List.getElem?_set_ne hij] at hs
      exact (h.slot j s hs).imp_left (Function.update_of_ne (Ne.symm hij) _ _).trans
    · rw [List.getElem?_set_self (List.getElem?_eq_some_iff.mp hslot).1] at hs
      obtain rfl := Option.some.inj hs
      exact ⟨Function.update_self .., hdeleter⟩
  free := h.free
  nodup := h.nodup
  empty := by
    intro id hid
    obtain ⟨s, hs, hp⟩ := h.empty id hid
    rcases Nat.decEq i id.toNat with hne | rfl
    · exact ⟨s, by rw [List.getElem?_set_ne hne, hs], hp⟩
    · have hsame := hfree.resolve_right fun hnot => hnot id hid rfl
      refine ⟨slot', List.getElem?_set_self (List.getElem?_eq_some_iff.mp hs).1, ?_⟩
      rw [hsame, Option.some.inj (hslot.symm.trans hs), hp]

/-- A slot that is in use is not in the free list. -/
theorem Alike.not_free (h : Alike t w) {i : ℕ} {slot : Managed.Slot Ptr Fn}
    (hslot : t.slots[i]? = some slot) (hp : slot.pointer ≠ none) :
    ∀ id ∈ t.freeSlots, id.toNat ≠ i := by
  rintro id hid rfl
  obtain ⟨s, hs, hnone⟩ := h.empty id hid
  rw [hslot] at hs
  exact hp (Option.some.inj hs ▸ hnone)

theorem Alike.freeCount (h : Alike t w) : w.freeCount = t.freeSlots.length := by
  have hlen := congrArg List.length h.free
  simpa using hlen.symm

/-- The free ids without the last one. -/
theorem Alike.free_cons (h : Alike t w) {id : UInt32} {rest : List UInt32}
    (hfree : t.freeSlots = id :: rest) :
    w.freeCount = rest.length + 1 ∧ w.freeSlots rest.length = id ∧
      rest = ((List.range rest.length).map w.freeSlots).reverse := by
  have heq := h.free
  have hlen : w.freeCount = rest.length + 1 := by rw [h.freeCount, hfree, List.length_cons]
  rw [hfree, hlen, List.range_succ, List.map_append, List.reverse_append] at heq
  obtain ⟨hid, hrest⟩ := List.cons.inj heq
  exact ⟨hlen, hid.symm, hrest⟩

/-- A slot that is not free leaves room in the array for its id. -/
theorem Alike.free_lt (h : Alike t w) {id : UInt32} {slot : Managed.Slot Ptr Fn}
    (hslot : t.slots[id.toNat]? = some slot) (hout : id ∉ t.freeSlots) :
    w.freeCount < ABSOLUTE_MANAGED_CAPACITY := by
  have hnodup : ((id :: t.freeSlots).map UInt32.toNat).Nodup :=
    (List.nodup_cons.mpr ⟨hout, h.nodup⟩).map fun a b => UInt32.toNat_inj.mp
  have hsub : (id :: t.freeSlots).map UInt32.toNat ⊆ List.range t.slots.length := by
    intro n hn
    obtain ⟨id', hid', rfl⟩ := List.mem_map.mp hn
    rw [List.mem_range]
    rcases List.mem_cons.mp hid' with rfl | hid'
    · exact (List.getElem?_eq_some_iff.mp hslot).1
    · obtain ⟨s, hs, -⟩ := h.empty id' hid'
      exact (List.getElem?_eq_some_iff.mp hs).1
  have hle := (List.subperm_of_subset hnodup hsub).length_le
  rw [List.length_map, List.length_cons, List.length_range, h.count] at hle
  rw [h.freeCount]
  exact Nat.lt_of_lt_of_le hle h.small

theorem Alike.create (h : Alike t w) (size : UInt64) (allocation : Option Ptr) :
    Agree (Managed.exec t (.create size allocation)) (SlotCall.exec w (.create size allocation)) := by
  cases allocation with
  | none => exact .neither _
  | some p =>
      rw [Managed.exec, Managed.absoluteManagedCreate, Managed.registerAllocation, SlotCall.exec,
        SlotTable.absoluteManagedCreate]
      cases hfree : t.freeSlots with
      | cons id rest =>
          obtain ⟨hcount, hid, hrest⟩ := h.free_cons hfree
          obtain ⟨slot, hslot, hp⟩ := h.empty id (by simp [hfree])
          have hnodup : id ∉ rest ∧ rest.Nodup := List.nodup_cons.mp (hfree ▸ h.nodup)
          have halike : Alike { t with freeSlots := rest } { w with freeCount := rest.length } :=
            { count := h.count
              small := h.small
              slot := h.slot
              free := hrest
              nodup := hnodup.2
              empty := fun id' hid' => h.empty id' (by rw [hfree]; exact .tail _ hid') }
          have hset := halike.set { slot with
            type := 0, deleter := some .DefaultDeleter, pointer := some p } hslot rfl
            (.inr fun id' hid' heq => hnodup.1 (UInt32.toNat_inj.mp heq ▸ hid'))
          have hnative : Managed.publish { t with freeSlots := rest } id p (some .DefaultDeleter) =
              .ok ({ slots := t.slots.set id.toNat { slot with
                      type := 0, deleter := some .DefaultDeleter, pointer := some p }
                     freeSlots := rest }, makeHandle id slot.generation) := by
            rw [Managed.publish, halike.slotAt, hslot]
            rfl
          dsimp only
          rw [hnative, hcount, if_pos (Nat.succ_pos _), Nat.add_sub_cancel, hid, (h.slot _ _ hslot).1]
          exact .both hset
      | nil =>
          have hcount : w.freeCount = 0 := by rw [h.freeCount, hfree, List.length_nil]
          have hsmall := h.small
          have hlen := h.count
          rw [ABSOLUTE_MANAGED_CAPACITY] at hsmall
          have hid : (UInt32.ofNat t.slots.length).toNat = t.slots.length := by
            rw [UInt32.toNat_ofNat']
            omega
          have hnative : Managed.publish { slots := t.slots ++ [{}], freeSlots := [] }
              (UInt32.ofNat t.slots.length) p (some .DefaultDeleter) =
              .ok ({ slots := t.slots ++ [⟨some p, 1, 0, some .DefaultDeleter⟩], freeSlots := [] },
                makeHandle (UInt32.ofNat t.slots.length) 1) := by
            have hslot : Managed.slotAt { slots := t.slots ++ [{}], freeSlots := [] }
                (UInt32.ofNat t.slots.length) = some ({} : Managed.Slot Ptr Fn) := by
              rw [Managed.slotAt_of_small (by
                simp only [List.length_append, List.length_singleton, Managed.SlotsPerChunk,
                  Managed.MaxChunks]
                omega), hid, List.getElem?_append_right le_rfl, Nat.sub_self]
              rfl
            rw [Managed.publish, hslot]
            dsimp only
            rw [hid, List.set_append_right _ _ le_rfl, Nat.sub_self]
            rfl
          dsimp only
          rw [hcount, if_neg (Nat.lt_irrefl 0), hnative,
            if_neg (by simp only [Managed.SlotsPerChunk, Managed.MaxChunks]; omega)]
          by_cases hfull : w.slotCount ≥ ABSOLUTE_MANAGED_CAPACITY
          · rw [if_pos hfull]
            exact .full (by rw [List.length_append, hlen]; exact Nat.lt_succ_of_le hfull)
          · rw [if_neg hfull]
            rw [← hlen] at hfull ⊢
            refine .both
              { count := List.length_append
                small := Nat.lt_of_not_le hfull
                slot := fun i slot hslot => ?_
                free := by rw [SlotTable.setSlot, hcount]; rfl
                nodup := List.nodup_nil
                empty := fun id hid => by cases hid }
            rcases Nat.lt_trichotomy i t.slots.length with hi | rfl | hi
            · rw [List.getElem?_append_left hi] at hslot
              exact (h.slot i slot hslot).imp_left (Function.update_of_ne hi.ne _ _).trans
            · rw [List.getElem?_append_right le_rfl, Nat.sub_self] at hslot
              obtain rfl := Option.some.inj hslot
              exact ⟨Function.update_self .., rfl⟩
            · rw [List.getElem?_eq_none (by simp; omega)] at hslot
              cases hslot

theorem Alike.transfer (h : Alike t w) (handle : Handle) :
    Agree (Managed.exec t (.transfer handle)) (SlotCall.exec w (.transfer handle)) := by
  rw [Managed.exec, Managed.absoluteManagedTransfer, SlotCall.exec, SlotTable.absoluteManagedTransfer,
    h.find]
  cases hfind : Managed.find t handle with
  | none => exact .neither _
  | some slot =>
      obtain ⟨pointer, generation, type, deleter⟩ := slot
      cases pointer with
      | none => exact .neither _
      | some p =>
          have hget := h.found hfind
          exact .both (h.set _ hget (h.slot _ _ hget).2 (.inl rfl))

theorem Alike.destroy (h : Alike t w) (handle : Handle) :
    Agree (Managed.exec t (.destroy handle)) (SlotCall.exec w (.destroy handle)) := by
  rw [Managed.exec, Managed.absoluteManagedDestroy, SlotCall.exec, SlotTable.absoluteManagedDestroy,
    h.find]
  cases hfind : Managed.find t handle with
  | none => exact .both h
  | some slot =>
      obtain ⟨pointer, generation, type, deleter⟩ := slot
      cases pointer with
      | none => exact .both h
      | some p =>
          have hget := h.found hfind
          have hnot := h.not_free hget (by simp)
          have hset := h.set {
            pointer := none, type := 0, deleter := none, generation := nextGeneration generation }
            hget rfl (.inr hnot)
          have hout : handleId handle ∉ t.freeSlots := fun hmem => hnot _ hmem rfl
          have hdeleter := (h.slot _ _ hget).2
          dsimp only [Option.map_some, wasmSlot, SlotTable.setSlot] at hdeleter ⊢
          rw [if_pos (h.free_lt hget hout), hdeleter]
          exact .both
            { count := hset.count
              small := hset.small
              slot := hset.slot
              free := by
                have hsame : ∀ n ∈ List.range w.freeCount,
                    Function.update w.freeSlots w.freeCount (handleId handle) n = w.freeSlots n :=
                  fun n hn => Function.update_of_ne (List.mem_range.mp hn).ne _ _
                dsimp only
                rw [h.free, List.range_succ, List.map_append, List.reverse_append,
                  List.map_congr_left hsame, List.map_singleton, Function.update_self]
                rfl
              nodup := List.nodup_cons.mpr ⟨hout, h.nodup⟩
              empty := fun id hid => by
                rcases List.mem_cons.mp hid with rfl | hid
                · exact ⟨_, List.getElem?_set_self (List.getElem?_eq_some_iff.mp hget).1, rfl⟩
                · exact hset.empty id hid }

theorem Alike.setType (h : Alike t w) (handle : Handle) (type : UInt64) :
    Agree (Managed.exec t (.setType handle type)) (SlotCall.exec w (.setType handle type)) := by
  rw [Managed.exec, Managed.absoluteManagedSetType, SlotCall.exec, SlotTable.absoluteManagedSetType,
    h.find]
  cases hfind : Managed.find t handle with
  | none => exact .both h
  | some slot =>
      have hget := h.found hfind
      exact .both (h.set _ hget (h.slot _ _ hget).2 (.inl rfl))

theorem absoluteManagedType_eq (t : Managed.Table Ptr Fn) (handle : Handle) :
    Managed.absoluteManagedType t handle = ((Managed.find t handle).map (·.type)).getD 0 := by
  rw [Managed.absoluteManagedType, Managed.find]
  split
  · rfl
  · split
    · rfl
    · split
      · rfl
      · rename_i slot _
        by_cases hg : slot.generation = handleGeneration handle <;> simp [hg]

/-- Whatever is called, tables that are alike stay so. -/
theorem Alike.exec (h : Alike t w) (call : SlotCall Ptr) :
    Agree (Managed.exec t call.native) (call.exec w) := by
  cases call with
  | create size allocation => exact h.create size allocation
  | transfer handle => exact h.transfer handle
  | destroy handle => exact h.destroy handle
  | setType handle type => exact h.setType handle type
  | get handle =>
      have hget : w.absoluteManagedGet handle = Managed.absoluteManagedGet t handle := by
        rw [Managed.absoluteManagedGet_eq, SlotTable.absoluteManagedGet, h.find]
        cases Managed.find t handle <;> rfl
      rw [SlotCall.exec, hget]
      exact .both h
  | type handle =>
      have htype : w.absoluteManagedType handle = Managed.absoluteManagedType t handle := by
        rw [absoluteManagedType_eq, SlotTable.absoluteManagedType, h.find]
        cases Managed.find t handle <;> rfl
      rw [SlotCall.exec, htype]
      exact .both h

end Steps

/-! ## Runs -/

/-- The table of slots does not shrink. -/
theorem length_exec {t t' : Managed.Table Ptr Fn} {call : Managed.Call Ptr Fn}
    {reply : Reply Ptr Fn} (h : Managed.exec t call = .ok (t', reply)) :
    t.slots.length ≤ t'.slots.length := by
  cases Managed.Step.effect (e := ⟨call, reply⟩) h <;> simp

theorem length_nativeAll {t t' : Managed.Table Ptr Fn} {calls : List (SlotCall Ptr)}
    {replies : List (Reply Ptr Fn)} (h : SlotCall.nativeAll t calls = .ok (t', replies)) :
    t.slots.length ≤ t'.slots.length := by
  induction calls generalizing t replies with
  | nil => cases h; exact le_rfl
  | cons call calls ih =>
      obtain ⟨⟨t₁, reply⟩, hcall, h⟩ := Iff.mp Folded.bind_eq_ok h
      obtain ⟨⟨t₂, replies'⟩, hcalls, h⟩ := Iff.mp Folded.bind_eq_ok h
      cases h
      exact (length_exec hcall).trans (ih hcalls)

theorem Alike.nil : Alike ({} : Managed.Table Ptr Fn) ({} : SlotTable Ptr) where
  count := rfl
  small := Nat.zero_le _
  slot := fun i slot hslot => by cases hslot
  free := rfl
  nodup := List.nodup_nil
  empty := fun id hid => by cases hid

theorem execAll_agree {t : Managed.Table Ptr Fn} {w : SlotTable Ptr} (h : Alike t w)
    (calls : List (SlotCall Ptr)) (replies : List (Reply Ptr Fn)) :
    (∃ w', SlotCall.execAll w calls = some (w', replies)) ↔
      ∃ t', SlotCall.nativeAll t calls = .ok (t', replies) ∧
        t'.slots.length ≤ ABSOLUTE_MANAGED_CAPACITY := by
  induction calls generalizing t w replies with
  | nil =>
      constructor
      · rintro ⟨w', hw⟩
        cases hw
        exact ⟨t, rfl, h.count.trans_le h.small⟩
      · rintro ⟨t', ht, -⟩
        cases ht
        exact ⟨w, rfl⟩
  | cons call calls ih =>
      have hcall := h.exec call
      rw [SlotCall.execAll, SlotCall.nativeAll]
      generalize Managed.exec t call.native = native at hcall ⊢
      generalize call.exec w = wasm at hcall ⊢
      cases hcall with
      | @both t₁ w₁ reply h₁ =>
          constructor
          · rintro ⟨w', hw⟩
            obtain ⟨_, hfirst, hw⟩ := Option.bind_eq_some_iff.mp hw
            cases hfirst
            obtain ⟨⟨w₂, rest⟩, hrest, hw⟩ := Option.bind_eq_some_iff.mp hw
            cases hw
            obtain ⟨t', ht, hlen⟩ := (ih h₁ rest).mp ⟨w', hrest⟩
            exact ⟨t', Iff.mpr Folded.bind_eq_ok ⟨_, rfl, Iff.mpr Folded.bind_eq_ok
              ⟨(t', rest), ht, rfl⟩⟩, hlen⟩
          · rintro ⟨t', ht, hlen⟩
            obtain ⟨_, hfirst, ht⟩ := Iff.mp Folded.bind_eq_ok ht
            cases hfirst
            obtain ⟨⟨t₂, rest⟩, hrest, ht⟩ := Iff.mp Folded.bind_eq_ok ht
            cases ht
            obtain ⟨w', hw⟩ := (ih h₁ rest).mpr ⟨t', hrest, hlen⟩
            exact ⟨w', Option.bind_eq_some_iff.mpr ⟨_, rfl, Option.bind_eq_some_iff.mpr
              ⟨(w', rest), hw, rfl⟩⟩⟩
      | neither abort =>
          constructor
          · rintro ⟨w', hw⟩
            cases hw
          · rintro ⟨t', ht, -⟩
            cases ht
      | @full t₁ reply hfull =>
          constructor
          · rintro ⟨w', hw⟩
            cases hw
          · rintro ⟨t', ht, hlen⟩
            obtain ⟨_, hfirst, ht⟩ := Iff.mp Folded.bind_eq_ok ht
            cases hfirst
            obtain ⟨⟨t₂, rest⟩, hrest, ht⟩ := Iff.mp Folded.bind_eq_ok ht
            cases ht
            exact absurd (hfull.trans_le (length_nativeAll hrest)) (Nat.not_lt.mpr hlen)

/-- The two runtimes answer the same calls with the same, up to where the array is full. -/
theorem runs_agree (Ptr Fn : Type) (calls : List (SlotCall Ptr)) (replies : List (Reply Ptr Fn)) :
    (∃ w : SlotTable Ptr, SlotCall.execAll {} calls = some (w, replies)) ↔
      ∃ t : Managed.Table Ptr Fn, SlotCall.nativeAll {} calls = .ok (t, replies) ∧
        t.slots.length ≤ ABSOLUTE_MANAGED_CAPACITY :=
  execAll_agree Alike.nil calls replies

end Wasm

end Absolute
