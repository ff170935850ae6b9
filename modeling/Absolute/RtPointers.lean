import Mathlib.Data.UInt
import Mathlib.Tactic.Common
import Mathlib.Data.List.Count
import Absolute.LibRuns

/-!
# The managed pointer slot table

`Absolute-Runtime/src/pointers.cpp`: every managed allocation lives in a slot,
and a handle is a slot id with the generation the slot had when the handle was
made. Freed slots are recycled last in, first out; `destroy` and `transfer`
both bump the generation, which is what retires the handles given out before.

The chunked storage is a list indexed by slot id (a chunk is allocated before
the count that makes its slots visible, so a slot below the count always has
storage), and `std::calloc` is the environment's answer carried by the call.
The abstract side is `holder`, read off the history of calls alone: which
allocation a handle stands for, if it is still the current handle of its slot.
-/

namespace Absolute

namespace Managed

open Runs

/-! ## Handles -/

abbrev Handle := UInt64

def makeHandle (id generation : UInt32) : Handle :=
  (generation.toUInt64 <<< 32) ||| id.toUInt64

def handleId (handle : Handle) : UInt32 := handle.toUInt32

def handleGeneration (handle : Handle) : UInt32 := (handle >>> 32).toUInt32

theorem makeHandle_toNat (id generation : UInt32) :
    (makeHandle id generation).toNat = generation.toNat * 2 ^ 32 + id.toNat := by
  have hg := generation.toNat_lt
  have hi := id.toNat_lt
  have hlt : generation.toNat * 2 ^ 32 < 2 ^ 64 := by omega
  simp only [makeHandle, UInt64.toNat_or, UInt64.toNat_shiftLeft,
    UInt32.toNat_toUInt64, Nat.shiftLeft_eq]
  rw [show (32 : UInt64).toNat % 64 = 32 from rfl, Nat.mod_eq_of_lt hlt,
    ← Nat.shiftLeft_eq, Nat.shiftLeft_add_eq_or_of_lt hi, Nat.shiftLeft_eq]

@[simp] theorem handleId_makeHandle (id generation : UInt32) :
    handleId (makeHandle id generation) = id := by
  apply UInt32.toNat_inj.mp
  have hi := id.toNat_lt
  simp only [handleId, UInt64.toNat_toUInt32, makeHandle_toNat]
  omega

@[simp] theorem handleGeneration_makeHandle (id generation : UInt32) :
    handleGeneration (makeHandle id generation) = generation := by
  apply UInt32.toNat_inj.mp
  have hi := id.toNat_lt
  have hg := generation.toNat_lt
  simp only [handleGeneration, UInt64.toNat_toUInt32, UInt64.toNat_shiftRight,
    makeHandle_toNat, Nat.shiftRight_eq_div_pow]
  rw [show (32 : UInt64).toNat % 64 = 32 from rfl]
  omega

/-- A handle is its id and generation and nothing else. -/
theorem makeHandle_eta (handle : Handle) :
    makeHandle (handleId handle) (handleGeneration handle) = handle := by
  apply UInt64.toNat_inj.mp
  have hh := handle.toNat_lt
  simp only [makeHandle_toNat, handleId, handleGeneration, UInt64.toNat_toUInt32,
    UInt64.toNat_shiftRight, Nat.shiftRight_eq_div_pow]
  rw [show (32 : UInt64).toNat % 64 = 32 from rfl]
  omega

theorem handle_ext {h₁ h₂ : Handle} (hid : handleId h₁ = handleId h₂)
    (hgen : handleGeneration h₁ = handleGeneration h₂) : h₁ = h₂ := by
  rw [← makeHandle_eta h₁, ← makeHandle_eta h₂, hid, hgen]

theorem handleGeneration_zero : handleGeneration 0 = 0 := rfl

/-! ## The table -/

/-- What a slot releases its allocation with: the runtime's own `free`, or the
function an adopting caller gave. -/
inductive Deleter (Fn : Type) where
  | DefaultDeleter
  | custom (fn : Fn)
deriving Repr, DecidableEq

structure Slot (Ptr Fn : Type) where
  pointer : Option Ptr := none
  generation : UInt32 := 1
  type : UInt64 := 0
  deleter : Option (Deleter Fn) := none
deriving Repr, DecidableEq

def SlotsPerChunk : Nat := 4096
def MaxChunks : Nat := 65536

/-- `slots` holds the first `slotCount` slots; `freeSlots` is the vector of
free ids with its back first, since only `back`, `push_back` and `pop_back`
touch it. -/
structure Table (Ptr Fn : Type) where
  slots : List (Slot Ptr Fn) := []
  freeSlots : List UInt32 := []
deriving Repr, DecidableEq

/-- The ways the runtime stops the program here. `noSlot` is not one of them:
it stands for the null `Slot*` that `registerAllocation` does not test for. -/
inductive Abort where
  | tableFull
  | allocationFailed
  | transferDead
  | noSlot
deriving Repr, DecidableEq

variable {Ptr Fn : Type}

def slotAt (t : Table Ptr Fn) (id : UInt32) : Option (Slot Ptr Fn) :=
  if id.toNat / SlotsPerChunk ≥ MaxChunks then none else t.slots[id.toNat]?

/-- The locked lookup, for everything that changes a slot. -/
def find (t : Table Ptr Fn) (handle : Handle) : Option (Slot Ptr Fn) :=
  if handle = 0 then none
  else if (handleId handle).toNat ≥ t.slots.length then none
  else match slotAt t (handleId handle) with
    | none => none
    | some slot =>
        if slot.generation = handleGeneration handle then some slot else none

/-- `generation + 1`, with 0 skipped when it wraps. -/
def nextGeneration (generation : UInt32) : UInt32 :=
  let next := generation + 1
  if next = 0 then 1 else next

/-- The end of `RegisterAllocation`, once the slot id is chosen. -/
def publish (t : Table Ptr Fn) (id : UInt32) (allocation : Ptr)
    (deleter : Option (Deleter Fn)) : Except Abort (Table Ptr Fn × Handle) :=
  match slotAt t id with
  | none => .error .noSlot
  | some slot =>
      let slot' := { slot with
        type := 0
        deleter := some (deleter.getD .DefaultDeleter)
        pointer := some allocation }
      .ok ({ t with slots := t.slots.set id.toNat slot' },
        makeHandle id slot.generation)

def registerAllocation (t : Table Ptr Fn) (allocation : Ptr)
    (deleter : Option (Deleter Fn)) : Except Abort (Table Ptr Fn × Handle) :=
  match t.freeSlots with
  | id :: rest => publish { t with freeSlots := rest } id allocation deleter
  | [] =>
      let id := t.slots.length
      if id / SlotsPerChunk ≥ MaxChunks then .error .tableFull
      else publish { t with slots := t.slots ++ [{}] } (UInt32.ofNat id)
        allocation deleter

/-! ## The entry points -/

/-- `allocation` is what `std::calloc` answers for `size` (1 when 0). -/
def absoluteManagedCreate (t : Table Ptr Fn) (_size : UInt64)
    (allocation : Option Ptr) : Except Abort (Table Ptr Fn × Handle) :=
  match allocation with
  | none => .error .allocationFailed
  | some p => registerAllocation t p (some .DefaultDeleter)

def absoluteManagedAdoptRaw (t : Table Ptr Fn) (ptr : Option Ptr)
    (deleter : Option Fn) : Except Abort (Table Ptr Fn × Handle) :=
  match ptr with
  | none => .ok (t, 0)
  | some p => registerAllocation t p
      (some (match deleter with
        | some fn => .custom fn
        | none => .DefaultDeleter))

/-- The lock-free read. Between calls the two reads of the generation agree;
the second one is the source's guard against a destroy in between. -/
def absoluteManagedGet (t : Table Ptr Fn) (handle : Handle) : Option Ptr :=
  if handle = 0 then none
  else if (handleId handle).toNat ≥ t.slots.length then none
  else match slotAt t (handleId handle) with
    | none => none
    | some slot =>
        if slot.generation ≠ handleGeneration handle then none
        else if slot.generation ≠ handleGeneration handle then none
        else slot.pointer

def absoluteManagedType (t : Table Ptr Fn) (handle : Handle) : UInt64 :=
  if handle = 0 then 0
  else if (handleId handle).toNat ≥ t.slots.length then 0
  else match slotAt t (handleId handle) with
    | none => 0
    | some slot =>
        if slot.generation ≠ handleGeneration handle then 0
        else if slot.generation ≠ handleGeneration handle then 0
        else slot.type

def absoluteManagedSetType (t : Table Ptr Fn) (handle : Handle) (type : UInt64) :
    Table Ptr Fn :=
  match find t handle with
  | none => t
  | some slot =>
      let slot' := { slot with type := type }
      { t with slots := t.slots.set (handleId handle).toNat slot' }

/-- The second component is the deleter call made after the lock is released. -/
def absoluteManagedDestroy (t : Table Ptr Fn) (handle : Handle) :
    Table Ptr Fn × Option (Deleter Fn × Ptr) :=
  match find t handle with
  | none => (t, none)
  | some slot =>
      match slot.pointer with
      | none => (t, none)
      | some pointer =>
          let slot' :=
            { pointer := none
              type := 0
              deleter := none
              generation := nextGeneration slot.generation }
          ({ slots := t.slots.set (handleId handle).toNat slot'
             freeSlots := handleId handle :: t.freeSlots },
            some (slot.deleter.getD .DefaultDeleter, pointer))

def absoluteManagedTransfer (t : Table Ptr Fn) (handle : Handle) :
    Except Abort (Table Ptr Fn × Handle) :=
  match find t handle with
  | none => .error .transferDead
  | some slot =>
      match slot.pointer with
      | none => .error .transferDead
      | some _ =>
          let slot' := { slot with generation := nextGeneration slot.generation }
          .ok ({ t with slots := t.slots.set (handleId handle).toNat slot' },
            makeHandle (handleId handle) (nextGeneration slot.generation))

/-! ## Calls and histories -/

inductive Call (Ptr Fn : Type) where
  | create (size : UInt64) (allocation : Option Ptr)
  | adoptRaw (ptr : Option Ptr) (deleter : Option Fn)
  | transfer (handle : Handle)
  | destroy (handle : Handle)
  | setType (handle : Handle) (type : UInt64)
  | get (handle : Handle)
  | type (handle : Handle)
deriving Repr, DecidableEq

inductive Reply (Ptr Fn : Type) where
  | handle (handle : Handle)
  | released (deleterCall : Option (Deleter Fn × Ptr))
  | done
  | pointer (pointer : Option Ptr)
  | type (type : UInt64)
deriving Repr, DecidableEq

def exec (t : Table Ptr Fn) : Call Ptr Fn → Except Abort (Table Ptr Fn × Reply Ptr Fn)
  | .create size allocation =>
      (absoluteManagedCreate t size allocation).map fun r => (r.1, .handle r.2)
  | .adoptRaw ptr deleter =>
      (absoluteManagedAdoptRaw t ptr deleter).map fun r => (r.1, .handle r.2)
  | .transfer h => (absoluteManagedTransfer t h).map fun r => (r.1, .handle r.2)
  | .destroy h => let r := absoluteManagedDestroy t h; .ok (r.1, .released r.2)
  | .setType h type => .ok (absoluteManagedSetType t h type, .done)
  | .get h => .ok (t, .pointer (absoluteManagedGet t h))
  | .type h => .ok (t, .type (absoluteManagedType t h))

structure Event (Ptr Fn : Type) where
  call : Call Ptr Fn
  reply : Reply Ptr Fn
deriving Repr, DecidableEq

/-- A call that returned, with its reply. -/
def Step (t : Table Ptr Fn) (e : Event Ptr Fn) (t' : Table Ptr Fn) : Prop :=
  exec t e.call = .ok (t', e.reply)

instance [DecidableEq Ptr] [DecidableEq Fn] (t : Table Ptr Fn) (e : Event Ptr Fn)
    (t' : Table Ptr Fn) : Decidable (Step t e t') :=
  inferInstanceAs (Decidable (exec t e.call = .ok (t', e.reply)))

/-- Histories, newest event first, of a program that starts with no slots. -/
abbrev History (Ptr Fn : Type) := List (Event Ptr Fn)

/-! ## What the history says about a handle -/

/-- An allocation handed to the table: `serial` is its place in the history, so
two registrations of one address are two allocations. -/
structure Allocation (Ptr Fn : Type) where
  serial : Nat
  pointer : Ptr
  deleter : Deleter Fn
deriving Repr, DecidableEq

namespace Event

/-- The block and deleter an event registers, with the handle it returned. -/
def registers (e : Event Ptr Fn) : Option (Handle × Ptr × Deleter Fn) :=
  match e.call, e.reply with
  | .create _ (some p), .handle h => some (h, p, .DefaultDeleter)
  | .adoptRaw (some p) none, .handle h => some (h, p, .DefaultDeleter)
  | .adoptRaw (some p) (some fn), .handle h => some (h, p, .custom fn)
  | _, _ => none

/-- The handle an event transfers from, with the handle it returned. -/
def transfers (e : Event Ptr Fn) : Option (Handle × Handle) :=
  match e.call, e.reply with
  | .transfer old, .handle new => some (old, new)
  | _, _ => none

/-- The handle an event returned for a slot. -/
def returns (e : Event Ptr Fn) : Option Handle :=
  match e.registers with
  | some (h, _) => some h
  | none => e.transfers.map Prod.snd

/-- The event destroys `handle` or transfers from it. -/
def Ends (e : Event Ptr Fn) (handle : Handle) : Prop :=
  e.call = .destroy handle ∨ e.call = .transfer handle

end Event

/-- The allocation `handle` stands for after `past`: the newest event about its
slot returned this very handle, and nothing destroyed it or transferred from it
since. -/
def holder : History Ptr Fn → Handle → Option (Allocation Ptr Fn)
  | [], _ => none
  | e :: past, handle =>
      match e.registers, e.transfers with
      | some (h, p, d), _ =>
          if h = handle then some ⟨past.length, p, d⟩
          else if handleId h = handleId handle then none
          else holder past handle
      | none, some (old, new) =>
          if new = handle then holder past old
          else if handleId new = handleId handle then none
          else holder past handle
      | none, none =>
          match e.call with
          | .destroy h => if h = handle then none else holder past handle
          | _ => holder past handle

/-- `handle` is the most recent handle returned for its slot, and it has not
been destroyed or transferred from since it was returned. -/
def Current (past : History Ptr Fn) (handle : Handle) : Prop :=
  ∃ newer e older, past = newer ++ e :: older ∧ e.returns = some handle
    ∧ (∀ e' ∈ newer, ∀ h, e'.returns = some h → handleId h ≠ handleId handle)
    ∧ ∀ e' ∈ newer, ¬e'.Ends handle

/-- The handle whose slot's generation an event bumped. -/
def Event.bumped (e : Event Ptr Fn) : Option Handle :=
  match e.call, e.reply with
  | .transfer h, .handle _ => some h
  | .destroy h, .released (some _) => some h
  | _, _ => none

/-- How often the generation of slot `id` was bumped. -/
def bumps (past : History Ptr Fn) (id : UInt32) : Nat :=
  past.countP fun e => decide (e.bumped.map handleId = some id)

/-- The allocations handed to the table, newest first. -/
def registered : History Ptr Fn → List (Allocation Ptr Fn)
  | [] => []
  | e :: past =>
      match e.registers with
      | some (_, p, d) => ⟨past.length, p, d⟩ :: registered past
      | none => registered past

/-- The deleter calls the table made, newest first, each with the allocation
the destroyed handle stood for. -/
def deleterRuns : History Ptr Fn → List (Option (Allocation Ptr Fn))
  | [] => []
  | e :: past =>
      match e.call, e.reply with
      | .destroy h, .released (some _) => holder past h :: deleterRuns past
      | _, _ => deleterRuns past

/-- What the allocator and an adopting caller promise: a block handed to the
table is not one that a live handle still manages. -/
def BlocksDistinct : History Ptr Fn → Prop
  | [] => True
  | e :: past => BlocksDistinct past
      ∧ ∀ h p d, e.registers = some (h, p, d) →
          ∀ h' a, holder past h' = some a → a.pointer ≠ p

/-! ## One lemma for what a call can do -/

/-- Every way a call can return, with its effect on the table. -/
inductive Effect (t : Table Ptr Fn) (e : Event Ptr Fn) : Table Ptr Fn → Prop where
  | recycle {id : UInt32} {rest : List UInt32} {slot : Slot Ptr Fn} {p : Ptr}
      {d : Deleter Fn} :
      t.freeSlots = id :: rest → slotAt t id = some slot →
      e.registers = some (makeHandle id slot.generation, p, d) →
      Effect t e
        { slots := t.slots.set id.toNat
            { slot with type := 0, deleter := some d, pointer := some p }
          freeSlots := rest }
  | grow {p : Ptr} {d : Deleter Fn} :
      t.freeSlots = [] → t.slots.length < SlotsPerChunk * MaxChunks →
      e.registers = some (makeHandle (UInt32.ofNat t.slots.length) 1, p, d) →
      Effect t e
        { slots := t.slots ++ [{ pointer := some p, deleter := some d }]
          freeSlots := [] }
  | transfer {h : Handle} {slot : Slot Ptr Fn} {p : Ptr} :
      find t h = some slot → slot.pointer = some p → e.registers = none →
      e.call = .transfer h →
      e.transfers = some (h, makeHandle (handleId h) (nextGeneration slot.generation)) →
      Effect t e
        { slots := t.slots.set (handleId h).toNat
            { slot with generation := nextGeneration slot.generation }
          freeSlots := t.freeSlots }
  | destroy {h : Handle} {slot : Slot Ptr Fn} {p : Ptr} :
      find t h = some slot → slot.pointer = some p →
      e = ⟨.destroy h, .released (some (slot.deleter.getD .DefaultDeleter, p))⟩ →
      Effect t e
        { slots := t.slots.set (handleId h).toNat
            { pointer := none, type := 0, deleter := none
              generation := nextGeneration slot.generation }
          freeSlots := handleId h :: t.freeSlots }
  | stale {h : Handle} :
      (∀ slot, find t h = some slot → slot.pointer = none) →
      e = ⟨.destroy h, .released none⟩ → Effect t e t
  | setType {h : Handle} {slot : Slot Ptr Fn} {type : UInt64} :
      find t h = some slot → e = ⟨.setType h type, .done⟩ →
      Effect t e
        { slots := t.slots.set (handleId h).toNat { slot with type := type }
          freeSlots := t.freeSlots }
  | quiet : e.registers = none → e.transfers = none → e.bumped = none →
      (∀ h, e.call ≠ .destroy h) → (∀ h, e.call ≠ .transfer h) → Effect t e t

theorem publish_eq_ok {t t' : Table Ptr Fn} {id : UInt32} {p : Ptr}
    {d : Option (Deleter Fn)} {h : Handle}
    (hp : publish t id p d = .ok (t', h)) :
    ∃ slot, slotAt t id = some slot ∧ h = makeHandle id slot.generation
      ∧ t' =
        { slots := t.slots.set id.toNat
            { slot with
              type := 0, deleter := some (d.getD .DefaultDeleter), pointer := some p }
          freeSlots := t.freeSlots } := by
  unfold publish at hp
  split at hp
  · cases hp
  · rename_i slot hs
    cases hp
    exact ⟨slot, hs, rfl, rfl⟩

theorem slotAt_of_small {t : Table Ptr Fn}
    (hsmall : t.slots.length ≤ SlotsPerChunk * MaxChunks) (id : UInt32) :
    slotAt t id = t.slots[id.toNat]? := by
  unfold slotAt
  split
  · rename_i hbig
    simp only [SlotsPerChunk, MaxChunks] at hsmall hbig
    rw [List.getElem?_eq_none (by omega)]
  · rfl

theorem registerAllocation_effect {t t' : Table Ptr Fn} {e : Event Ptr Fn} {p : Ptr}
    {d : Deleter Fn} {h : Handle}
    (hr : registerAllocation t p (some d) = .ok (t', h))
    (he : e.registers = some (h, p, d)) : Effect t e t' := by
  unfold registerAllocation at hr
  dsimp only at hr
  split at hr
  · rename_i id rest hfree
    obtain ⟨slot, hslot, rfl, rfl⟩ := publish_eq_ok hr
    exact .recycle hfree hslot he
  · rename_i hfree
    split at hr
    · cases hr
    · rename_i hroom
      have hlt : t.slots.length < SlotsPerChunk * MaxChunks := by
        simp only [SlotsPerChunk, MaxChunks] at hroom ⊢; omega
      obtain ⟨slot, hslot, rfl, rfl⟩ := publish_eq_ok hr
      have hid : (UInt32.ofNat t.slots.length).toNat = t.slots.length := by
        simp only [SlotsPerChunk, MaxChunks] at hlt
        simp only [UInt32.toNat_ofNat']; omega
      rw [slotAt_of_small (by simp only [List.length_append, List.length_singleton]; omega),
        hid, List.getElem?_append_right (Nat.le_refl _)] at hslot
      obtain rfl : slot = {} := by simpa using hslot.symm
      simp only [hid, List.set_append_right _ _ (Nat.le_refl _), Nat.sub_self,
        List.set_cons_zero, Option.getD_some, hfree]
      exact .grow hfree hlt he

theorem Step.effect {t t' : Table Ptr Fn} {e : Event Ptr Fn} (hs : Step t e t') :
    Effect t e t' := by
  obtain ⟨call, reply⟩ := e
  unfold Step at hs
  cases call with
  | create size allocation =>
      cases allocation with
      | none => cases hs
      | some p =>
          cases hr : registerAllocation t p (some .DefaultDeleter) with
          | error _ => simp [exec, absoluteManagedCreate, hr, Except.map] at hs
          | ok r =>
              simp only [exec, absoluteManagedCreate, hr, Except.map] at hs
              cases hs
              exact registerAllocation_effect hr rfl
  | adoptRaw ptr deleter =>
      cases ptr with
      | none =>
          cases hs
          exact .quiet rfl rfl rfl (fun _ => nofun) (fun _ => nofun)
      | some p =>
          simp only [exec, absoluteManagedAdoptRaw] at hs
          split at hs
          all_goals
            cases hr : registerAllocation t p _ with
            | error _ => rw [hr] at hs; cases hs
            | ok r =>
                rw [hr] at hs
                cases hs
                exact registerAllocation_effect hr rfl
  | transfer h =>
      simp only [exec, absoluteManagedTransfer] at hs
      split at hs
      · cases hs
      · rename_i slot hfind
        split at hs
        · cases hs
        · rename_i p hp
          cases hs
          exact .transfer hfind hp rfl rfl rfl
  | destroy h =>
      simp only [exec, absoluteManagedDestroy] at hs
      split at hs
      · rename_i hfind
        cases hs
        exact .stale (by simp [hfind]) rfl
      · rename_i slot hfind
        split at hs
        · rename_i hp
          cases hs
          exact .stale (by simpa [hfind] using hp) rfl
        · rename_i p hp
          cases hs
          exact .destroy hfind hp rfl
  | setType h type =>
      simp only [exec, absoluteManagedSetType] at hs
      split at hs
      · cases hs
        exact .quiet rfl rfl rfl (fun _ => nofun) (fun _ => nofun)
      · rename_i slot hfind
        cases hs
        exact .setType hfind rfl
  | get h => cases hs; exact .quiet rfl rfl rfl (fun _ => nofun) (fun _ => nofun)
  | type h => cases hs; exact .quiet rfl rfl rfl (fun _ => nofun) (fun _ => nofun)

end Managed

end Absolute
