import Absolute.RtPointers

/-!
# The slot invariant

What every reachable slot table satisfies as long as no generation has wrapped:
a slot's generation counts its bumps, the free list is the empty slots without
repetition, and a slot is live for exactly the handle the history says holds it
(`Inv.held`). `Inv.register`, `Inv.bump` and `Inv.same` keep it through the
three things a call can do to a slot, and `Inv.step` assembles them.
-/

namespace Absolute

namespace Managed

open Runs

variable {Ptr Fn : Type}

/-! ## The slot invariant -/

/-- The slot `handle` names holds `p` to be released with `d`, and `handle` is
of the slot's current generation. -/
def LiveSlot (t : Table Ptr Fn) (handle : Handle) (p : Ptr) (d : Deleter Fn) : Prop :=
  ∃ slot, t.slots[(handleId handle).toNat]? = some slot
    ∧ slot.generation = handleGeneration handle
    ∧ slot.pointer = some p ∧ slot.deleter = some d

/-- What every reachable table satisfies, as long as no generation has wrapped.
`returned` is the freshness fact: the handles given out for a slot never run
ahead of its generation, and are behind it while the slot is free. -/
structure Inv (past : History Ptr Fn) (t : Table Ptr Fn) : Prop where
  small : t.slots.length ≤ SlotsPerChunk * MaxChunks
  generation : ∀ id : UInt32, ∀ slot, t.slots[id.toNat]? = some slot →
    slot.generation.toNat = 1 + bumps past id
  deleter : ∀ id : UInt32, ∀ slot p, t.slots[id.toNat]? = some slot →
    slot.pointer = some p → ∃ d, slot.deleter = some d
  unborn : ∀ id : UInt32, t.slots[id.toNat]? = none → bumps past id = 0
  free_nodup : t.freeSlots.Nodup
  mem_free : ∀ id : UInt32, id ∈ t.freeSlots ↔
    ∃ slot, t.slots[id.toNat]? = some slot ∧ slot.pointer = none
  held : ∀ h p d, LiveSlot t h p d ↔
    ∃ a, holder past h = some a ∧ a.pointer = p ∧ a.deleter = d
  returned : ∀ e ∈ past, ∀ h, e.returns = some h →
    ∃ slot, t.slots[(handleId h).toNat]? = some slot
      ∧ (handleGeneration h).toNat ≤ slot.generation.toNat
      ∧ (slot.pointer = none → (handleGeneration h).toNat < slot.generation.toNat)

theorem find_eq_some {past : History Ptr Fn} {t : Table Ptr Fn} (hI : Inv past t)
    {handle : Handle} {slot : Slot Ptr Fn} :
    find t handle = some slot ↔ t.slots[(handleId handle).toNat]? = some slot
      ∧ slot.generation = handleGeneration handle := by
  unfold find
  rw [slotAt_of_small hI.small]
  constructor
  · intro h
    split at h
    · cases h
    · split at h
      · cases h
      · split at h
        · cases h
        · rename_i s hs
          split at h
          · rename_i hg
            cases h
            exact ⟨hs, hg⟩
          · cases h
  · rintro ⟨hs, hg⟩
    have hne : handle ≠ 0 := by
      rintro rfl
      have := hI.generation _ _ hs
      rw [hg, handleGeneration_zero] at this
      simp at this
      omega
    have hlt := (List.getElem?_eq_some_iff.mp hs).1
    rw [if_neg hne, if_neg (by omega), hs]
    simp [hg]

theorem absoluteManagedGet_eq (t : Table Ptr Fn) (handle : Handle) :
    absoluteManagedGet t handle = (find t handle).bind (·.pointer) := by
  unfold absoluteManagedGet find
  split
  · rfl
  · split
    · rfl
    · split
      · rfl
      · rename_i slot _
        by_cases hg : slot.generation = handleGeneration handle <;> simp [hg]

theorem nextGeneration_toNat {g : UInt32} (h : g.toNat + 1 < 2 ^ 32) :
    (nextGeneration g).toNat = g.toNat + 1 := by
  have hn : (g + 1).toNat = g.toNat + 1 := by
    rw [UInt32.toNat_add, UInt32.toNat_one, Nat.mod_eq_of_lt h]
  have h0 : g + 1 ≠ 0 := by
    intro h0
    rw [h0] at hn
    simp at hn
  simp only [nextGeneration, if_neg h0, hn]

theorem bumps_cons (e : Event Ptr Fn) (past : History Ptr Fn) (id : UInt32) :
    bumps (e :: past) id
      = bumps past id + if e.bumped.map handleId = some id then 1 else 0 := by
  simp [bumps, List.countP_cons]

theorem bumps_cons_none {e : Event Ptr Fn} (he : e.bumped = none)
    (past : History Ptr Fn) (id : UInt32) : bumps (e :: past) id = bumps past id := by
  simp [bumps_cons, he]

theorem Event.bumped_of_registers {e : Event Ptr Fn} {r}
    (he : e.registers = some r) : e.bumped = none := by
  obtain ⟨call, reply⟩ := e
  cases call <;> cases reply <;> simp_all [Event.registers, Event.bumped]

theorem Event.returns_of_registers {e : Event Ptr Fn} {h p d}
    (he : e.registers = some (h, p, d)) : e.returns = some h := by
  simp [Event.returns, he]

theorem Event.bumped_of_transfers {e : Event Ptr Fn} {old new : Handle}
    (he : e.transfers = some (old, new)) : e.bumped = some old := by
  obtain ⟨call, reply⟩ := e
  cases call <;> cases reply <;> simp_all [Event.transfers, Event.bumped]

theorem Event.returns_of_transfers {e : Event Ptr Fn} {old new : Handle}
    (hr : e.registers = none) (he : e.transfers = some (old, new)) :
    e.returns = some new := by
  simp [Event.returns, hr, he]

theorem Event.returns_eq_none {e : Event Ptr Fn} (hr : e.registers = none)
    (he : e.transfers = none) : e.returns = none := by
  simp [Event.returns, hr, he]

theorem holder_registers {e : Event Ptr Fn} {h : Handle} {p : Ptr} {d : Deleter Fn}
    (he : e.registers = some (h, p, d)) (past : History Ptr Fn) (handle : Handle) :
    holder (e :: past) handle =
      if h = handle then some ⟨past.length, p, d⟩
      else if handleId h = handleId handle then none
      else holder past handle := by
  simp only [holder, he]

theorem holder_transfers {e : Event Ptr Fn} {old new : Handle}
    (hr : e.registers = none) (he : e.transfers = some (old, new))
    (past : History Ptr Fn) (handle : Handle) :
    holder (e :: past) handle =
      if new = handle then holder past old
      else if handleId new = handleId handle then none
      else holder past handle := by
  simp only [holder, hr, he]

theorem holder_destroy (h : Handle) (r : Option (Deleter Fn × Ptr))
    (past : History Ptr Fn) (handle : Handle) :
    holder (⟨.destroy h, .released r⟩ :: past) handle =
      if h = handle then none else holder past handle := rfl

theorem holder_quiet {e : Event Ptr Fn} (hr : e.registers = none)
    (he : e.transfers = none) (hd : ∀ h, e.call ≠ .destroy h)
    (past : History Ptr Fn) (handle : Handle) :
    holder (e :: past) handle = holder past handle := by
  cases hc : e.call with
  | destroy h => exact absurd hc (hd h)
  | _ => simp only [holder, hr, he, hc]

/-- A table in which one slot was replaced. -/
theorem getElem?_set_id {slots : List (Slot Ptr Fn)} {id : UInt32}
    {old : Slot Ptr Fn} (hid : slots[id.toNat]? = some old) (new : Slot Ptr Fn)
    (id' : UInt32) :
    (slots.set id.toNat new)[id'.toNat]? =
      if id = id' then some new else slots[id'.toNat]? := by
  have hlt := (List.getElem?_eq_some_iff.mp hid).1
  rw [List.getElem?_set]
  by_cases h : id = id'
  · simp [h, h ▸ hlt]
  · have : id.toNat ≠ id'.toNat := fun hn => h (UInt32.toNat_inj.mp hn)
    simp [h, this]

theorem liveSlot_congr {t t' : Table Ptr Fn} {h : Handle} {p : Ptr} {d : Deleter Fn}
    (hs : t'.slots[(handleId h).toNat]? = t.slots[(handleId h).toNat]?) :
    LiveSlot t' h p d ↔ LiveSlot t h p d := by
  unfold LiveSlot
  rw [hs]

theorem Inv.nil : Inv [] ({} : Table Ptr Fn) where
  small := Nat.zero_le _
  generation id slot h := by simp at h
  deleter id slot p h := by simp at h
  unborn _ _ := rfl
  free_nodup := List.nodup_nil
  mem_free id := by simp
  held h p d := by simp [LiveSlot, holder]
  returned e he := by simp at he

/-- Registering at a free or new slot `id` of generation `g`. -/
theorem Inv.register {past : History Ptr Fn} {t t' : Table Ptr Fn}
    {e : Event Ptr Fn} {id g : UInt32} {p : Ptr} {d : Deleter Fn}
    (hI : Inv past t) (he : e.registers = some (makeHandle id g, p, d))
    (hsmall : t'.slots.length ≤ SlotsPerChunk * MaxChunks)
    (hold : (∃ slot, t.slots[id.toNat]? = some slot ∧ slot.pointer = none
        ∧ slot.generation = g) ∨ (t.slots[id.toNat]? = none ∧ g = 1))
    (hnew : ∀ id' : UInt32, t'.slots[id'.toNat]? =
      if id = id' then
        some { pointer := some p, generation := g, type := 0, deleter := some d }
      else t.slots[id'.toNat]?)
    (hnodup : t'.freeSlots.Nodup)
    (hfree : ∀ id', id' ∈ t'.freeSlots ↔ id' ∈ t.freeSlots ∧ id' ≠ id) :
    Inv (e :: past) t' := by
  have hbump := bumps_cons_none (Event.bumped_of_registers he) past
  have hg : g.toNat = 1 + bumps past id := by
    rcases hold with ⟨slot, hs, -, rfl⟩ | ⟨hn, rfl⟩
    · exact hI.generation _ _ hs
    · simp [hI.unborn _ hn]
  refine ⟨hsmall, ?_, ?_, ?_, hnodup, ?_, ?_, ?_⟩
  · intro id' slot hs
    rw [hbump]
    rw [hnew] at hs
    split at hs
    · rename_i hid
      obtain rfl := Option.some.inj hs
      exact hid ▸ hg
    · exact hI.generation _ _ hs
  · intro id' slot q hs hq
    rw [hnew] at hs
    split at hs
    · obtain rfl := Option.some.inj hs
      exact ⟨d, rfl⟩
    · exact hI.deleter _ _ _ hs hq
  · intro id' hs
    rw [hbump]
    rw [hnew] at hs
    split at hs
    · cases hs
    · exact hI.unborn _ hs
  · intro id'
    rw [hfree, hI.mem_free, hnew]
    by_cases hid : id = id'
    · simp [hid]
    · simp [hid, Ne.symm hid]
  · intro h q d'
    rw [holder_registers he]
    by_cases hid : id = handleId h
    · subst hid
      by_cases hgen : g = handleGeneration h
      · subst hgen
        rw [makeHandle_eta, if_pos rfl]
        simp [LiveSlot, hnew]
      · have hne : makeHandle (handleId h) g ≠ h := fun heq =>
          hgen (by rw [← handleGeneration_makeHandle (handleId h) g, heq])
        simp [LiveSlot, hnew, hgen, hne]
    · have hne : makeHandle id g ≠ h := fun heq => hid (by rw [← heq, handleId_makeHandle])
      have hl : LiveSlot t' h q d' ↔ LiveSlot t h q d' :=
        liveSlot_congr (by rw [hnew, if_neg hid])
      rw [hl, if_neg hne, handleId_makeHandle, if_neg hid]
      exact hI.held h q d'
  · intro e' he' h hr
    rw [hnew]
    rcases List.mem_cons.mp he' with rfl | hmem
    · obtain rfl := Option.some.inj (hr.symm.trans (Event.returns_of_registers he))
      exact ⟨_, by rw [handleId_makeHandle, if_pos rfl], by simp, by simp⟩
    · obtain ⟨slot, hs, hle, hlt⟩ := hI.returned e' hmem h hr
      by_cases hid : id = handleId h
      · refine ⟨_, if_pos hid, ?_, by simp⟩
        rcases hold with ⟨slot', hs', -, rfl⟩ | ⟨hn, -⟩
        · rw [hid] at hs'
          obtain rfl := Option.some.inj (hs.symm.trans hs')
          exact hle
        · rw [hid, hs] at hn; cases hn
      · exact ⟨slot, by rw [if_neg hid, hs], hle, hlt⟩

/-- Bumping the generation of the live slot behind `h`: a transfer keeps the
block in the slot (`kept = true`), a destroy empties it. -/
theorem Inv.bump {past : History Ptr Fn} {t t' : Table Ptr Fn} {e : Event Ptr Fn}
    {h : Handle} {slot slot' : Slot Ptr Fn} (hI : Inv past t)
    (hslot : t.slots[(handleId h).toNat]? = some slot)
    (hgen : slot.generation = handleGeneration h)
    (he : e.bumped = some h) (hwrap : bumps (e :: past) (handleId h) < 2 ^ 32 - 1)
    (hgen' : slot'.generation = nextGeneration slot.generation)
    (hslots : t'.slots = t.slots.set (handleId h).toNat slot')
    (hdel : ∀ p, slot'.pointer = some p → ∃ d, slot'.deleter = some d)
    (hnodup : t'.freeSlots.Nodup)
    (hfree : ∀ id', id' ∈ t'.freeSlots ↔
      if handleId h = id' then slot'.pointer = none else id' ∈ t.freeSlots)
    (hheld : ∀ h', holder (e :: past) h' =
      if makeHandle (handleId h) slot'.generation = h' ∧ slot'.pointer.isSome then
        holder past h
      else if handleId h = handleId h' then none else holder past h')
    (hkept : ∀ p, slot'.pointer = some p →
      slot.pointer = some p ∧ slot'.deleter = slot.deleter)
    (hret : ∀ h', e.returns = some h' →
      h' = makeHandle (handleId h) slot'.generation ∧ slot'.pointer.isSome) :
    Inv (e :: past) t' := by
  have hnew : ∀ id' : UInt32, t'.slots[id'.toNat]? =
      if handleId h = id' then some slot' else t.slots[id'.toNat]? :=
    fun id' => by rw [hslots, getElem?_set_id hslot]
  have hbump : ∀ id', bumps (e :: past) id'
      = bumps past id' + if handleId h = id' then 1 else 0 :=
    fun id' => by simp [bumps_cons, he]
  have hg := hI.generation _ _ hslot
  have hg' : slot'.generation.toNat = slot.generation.toNat + 1 := by
    rw [hbump, if_pos rfl] at hwrap
    rw [hgen', nextGeneration_toNat (by omega)]
  refine ⟨?_, ?_, ?_, ?_, hnodup, ?_, ?_, ?_⟩
  · rw [hslots, List.length_set]; exact hI.small
  · intro id' s hs
    rw [hbump]
    rw [hnew] at hs
    split at hs
    · rename_i hid
      obtain rfl := Option.some.inj hs
      subst hid
      rw [if_pos rfl]; omega
    · rename_i hid
      rw [if_neg hid]
      exact hI.generation _ _ hs
  · intro id' s q hs hq
    rw [hnew] at hs
    split at hs
    · obtain rfl := Option.some.inj hs
      exact hdel q hq
    · exact hI.deleter _ _ _ hs hq
  · intro id' hs
    rw [hnew] at hs
    rw [hbump]
    split at hs
    · cases hs
    · rename_i hid
      rw [if_neg hid]
      exact hI.unborn _ hs
  · intro id'
    rw [hfree, hnew]
    split
    · simp
    · exact hI.mem_free id'
  · intro h' q d
    rw [hheld]
    by_cases hid : handleId h = handleId h'
    · have hl : LiveSlot t' h' q d ↔ slot'.generation = handleGeneration h'
          ∧ slot'.pointer = some q ∧ slot'.deleter = some d := by
        simp [LiveSlot, hnew, hid]
      rw [hl]
      by_cases heq : makeHandle (handleId h) slot'.generation = h' ∧ slot'.pointer.isSome
      · rw [if_pos heq]
        obtain ⟨rfl, hsome⟩ := heq
        obtain ⟨p, hp⟩ := Option.isSome_iff_exists.mp hsome
        obtain ⟨hsp, hsd⟩ := hkept p hp
        rw [← hI.held h q d, handleGeneration_makeHandle]
        simp [LiveSlot, hslot, hgen, hp, hsp, hsd]
      · rw [if_neg heq, if_pos hid]
        simp only [reduceCtorEq, false_and, exists_false, iff_false]
        rintro ⟨hg1, hp1, -⟩
        exact heq ⟨by rw [hid, hg1, makeHandle_eta], by rw [hp1]; rfl⟩
    · have hne : ¬(makeHandle (handleId h) slot'.generation = h'
          ∧ slot'.pointer.isSome) := by
        rintro ⟨rfl, -⟩
        simp at hid
      have hl : LiveSlot t' h' q d ↔ LiveSlot t h' q d :=
        liveSlot_congr (by rw [hnew, if_neg hid])
      rw [hl, if_neg hne, if_neg hid]
      exact hI.held h' q d
  · intro e' he' h' hr
    rw [hnew]
    rcases List.mem_cons.mp he' with rfl | hmem
    · obtain ⟨rfl, hsome⟩ := hret h' hr
      refine ⟨slot', by simp, by simp, fun hn => ?_⟩
      rw [hn] at hsome; cases hsome
    · obtain ⟨s, hs, hle, hlt⟩ := hI.returned e' hmem h' hr
      by_cases hid : handleId h = handleId h'
      · rw [← hid, hslot] at hs
        obtain rfl := Option.some.inj hs
        exact ⟨slot', if_pos hid, by omega, fun _ => by omega⟩
      · exact ⟨s, by rw [if_neg hid, hs], hle, hlt⟩

/-- A step that keeps every slot's pointer, generation and deleter. -/
theorem Inv.same {past : History Ptr Fn} {t t' : Table Ptr Fn} {e : Event Ptr Fn}
    (hI : Inv past t) (hbumped : e.bumped = none) (hret : e.returns = none)
    (hheld : ∀ h, holder (e :: past) h = holder past h)
    (hlen : t'.slots.length = t.slots.length) (hfree : t'.freeSlots = t.freeSlots)
    (hslots : ∀ id : UInt32,
      (t'.slots[id.toNat]?).map (fun s => (s.pointer, s.generation, s.deleter))
        = (t.slots[id.toNat]?).map (fun s => (s.pointer, s.generation, s.deleter))) :
    Inv (e :: past) t' := by
  have hback : ∀ id : UInt32, ∀ s', t'.slots[id.toNat]? = some s' →
      ∃ s, t.slots[id.toNat]? = some s ∧ s'.pointer = s.pointer
        ∧ s'.generation = s.generation ∧ s'.deleter = s.deleter := by
    intro id s' hs'
    have := hslots id
    rw [hs', Option.map_some, eq_comm, Option.map_eq_some_iff] at this
    obtain ⟨s, hs, heq⟩ := this
    simp only [Prod.mk.injEq] at heq
    exact ⟨s, hs, heq.1.symm, heq.2.1.symm, heq.2.2.symm⟩
  have hforth : ∀ id : UInt32, ∀ s, t.slots[id.toNat]? = some s →
      ∃ s', t'.slots[id.toNat]? = some s' ∧ s'.pointer = s.pointer
        ∧ s'.generation = s.generation ∧ s'.deleter = s.deleter := by
    intro id s hs
    have := hslots id
    rw [hs, Option.map_some, Option.map_eq_some_iff] at this
    obtain ⟨s', hs', heq⟩ := this
    simp only [Prod.mk.injEq] at heq
    exact ⟨s', hs', heq.1, heq.2.1, heq.2.2⟩
  refine ⟨by rw [hlen]; exact hI.small, ?_, ?_, ?_, by rw [hfree]; exact hI.free_nodup,
    ?_, ?_, ?_⟩
  · intro id s' hs'
    obtain ⟨s, hs, -, hg, -⟩ := hback id s' hs'
    rw [bumps_cons_none hbumped, hg]
    exact hI.generation _ _ hs
  · intro id s' q hs' hq
    obtain ⟨s, hs, hp, -, hd⟩ := hback id s' hs'
    rw [hd]
    exact hI.deleter _ _ q hs (hp ▸ hq)
  · intro id hs'
    rw [bumps_cons_none hbumped]
    cases hs : t.slots[id.toNat]? with
    | none => exact hI.unborn _ hs
    | some s =>
        obtain ⟨s', hs'', -⟩ := hforth id s hs
        rw [hs'] at hs''; cases hs''
  · intro id
    rw [hfree, hI.mem_free]
    constructor
    · rintro ⟨s, hs, hp⟩
      obtain ⟨s', hs', hp', -⟩ := hforth id s hs
      exact ⟨s', hs', hp'.trans hp⟩
    · rintro ⟨s', hs', hp'⟩
      obtain ⟨s, hs, hp, -⟩ := hback id s' hs'
      exact ⟨s, hs, hp.symm.trans hp'⟩
  · intro h q d
    rw [hheld, ← hI.held]
    constructor
    · rintro ⟨s', hs', hg', hp', hd'⟩
      obtain ⟨s, hs, hp, hg, hd⟩ := hback _ s' hs'
      exact ⟨s, hs, hg.symm.trans hg', hp.symm.trans hp', hd.symm.trans hd'⟩
    · rintro ⟨s, hs, hg, hp, hd⟩
      obtain ⟨s', hs', hp', hg', hd'⟩ := hforth _ s hs
      exact ⟨s', hs', hg'.trans hg, hp'.trans hp, hd'.trans hd⟩
  · intro e' he' h hr
    rcases List.mem_cons.mp he' with rfl | hmem
    · rw [hret] at hr; cases hr
    · obtain ⟨s, hs, hle, hlt⟩ := hI.returned e' hmem h hr
      obtain ⟨s', hs', hp', hg', -⟩ := hforth _ s hs
      exact ⟨s', hs', hg' ▸ hle, fun hn => hg' ▸ hlt (hp' ▸ hn)⟩

/-- A handle that resolves is the one `holder` knows the allocation of. -/
theorem Inv.holder_of_slot {past : History Ptr Fn} {t : Table Ptr Fn} (hI : Inv past t)
    {h : Handle} {slot : Slot Ptr Fn} {p : Ptr} (hfind : find t h = some slot)
    (hp : slot.pointer = some p) :
    ∃ a, holder past h = some a ∧ a.pointer = p ∧ slot.deleter = some a.deleter := by
  obtain ⟨hs, hg⟩ := (find_eq_some hI).mp hfind
  obtain ⟨d, hd⟩ := hI.deleter _ _ _ hs hp
  obtain ⟨a, ha, hap, had⟩ := (hI.held h p d).mp ⟨slot, hs, hg, hp, hd⟩
  exact ⟨a, ha, hap, by rw [had, hd]⟩

theorem Inv.slot_of_holder {past : History Ptr Fn} {t : Table Ptr Fn} (hI : Inv past t)
    {h : Handle} {a : Allocation Ptr Fn} (ha : holder past h = some a) :
    ∃ slot, find t h = some slot ∧ slot.pointer = some a.pointer
      ∧ slot.deleter = some a.deleter := by
  obtain ⟨slot, hs, hg, hp, hd⟩ := (hI.held h _ _).mpr ⟨a, ha, rfl, rfl⟩
  exact ⟨slot, (find_eq_some hI).mpr ⟨hs, hg⟩, hp, hd⟩

/-- A call keeps the slot invariant, unless it wraps a generation. -/
theorem Inv.step {past : History Ptr Fn} {t t' : Table Ptr Fn} {e : Event Ptr Fn}
    (hI : Inv past t) (hs : Step t e t')
    (hwrap : ∀ id, bumps (e :: past) id < 2 ^ 32 - 1) : Inv (e :: past) t' := by
  cases hs.effect with
  | @recycle id rest slot p d hfree hslot he =>
      rw [slotAt_of_small hI.small] at hslot
      have hnodup := hI.free_nodup
      rw [hfree, List.nodup_cons] at hnodup
      obtain ⟨slot', hs', hp'⟩ := (hI.mem_free id).mp (by rw [hfree]; simp)
      obtain rfl := Option.some.inj (hslot.symm.trans hs')
      refine hI.register he (by rw [List.length_set]; exact hI.small)
        (.inl ⟨slot, hslot, hp', rfl⟩) (fun id' => getElem?_set_id hslot _ id')
        hnodup.2 (fun id' => ?_)
      rw [hfree, List.mem_cons]
      constructor
      · intro hmem
        exact ⟨.inr hmem, fun heq => hnodup.1 (heq ▸ hmem)⟩
      · rintro ⟨hor, hne⟩
        exact hor.resolve_left hne
  | @grow p d hfree hlt he =>
      have hid : (UInt32.ofNat t.slots.length).toNat = t.slots.length := by
        simp only [SlotsPerChunk, MaxChunks] at hlt
        simp only [UInt32.toNat_ofNat']; omega
      refine hI.register he (by simp only [List.length_append, List.length_singleton]; omega)
        (.inr ⟨by rw [hid]; simp, rfl⟩) (fun id' => ?_) List.nodup_nil (fun id' => by simp [hfree])
      rw [List.getElem?_append]
      by_cases heq : UInt32.ofNat t.slots.length = id'
      · subst heq; simp [hid]
      · have hne : id'.toNat ≠ t.slots.length := fun hn =>
          heq (UInt32.toNat_inj.mp (hid.trans hn.symm))
        rw [if_neg heq]
        split
        · rfl
        · rw [List.getElem?_eq_none (by simp; omega), List.getElem?_eq_none (by omega)]
  | @transfer h slot p hfind hp hreg hcall htr =>
      obtain ⟨hslot, hgen⟩ := (find_eq_some hI).mp hfind
      refine hI.bump hslot hgen (Event.bumped_of_transfers htr) (hwrap _) rfl rfl
        (fun q hq => hI.deleter _ slot q hslot hq) hI.free_nodup (fun id' => ?_) (fun h' => ?_)
        (fun q hq => ⟨hq, rfl⟩) (fun h' hr => ?_)
      · split
        · rename_i hid
          rw [← hid, hI.mem_free, hslot]
          simp
        · rfl
      · simp [holder_transfers hreg htr, hp]
      · rw [Event.returns_of_transfers hreg htr] at hr
        exact ⟨(Option.some.inj hr).symm, by simp [hp]⟩
  | @destroy h slot p hfind hp he =>
      obtain ⟨hslot, hgen⟩ := (find_eq_some hI).mp hfind
      have hmem : handleId h ∉ t.freeSlots := by
        rw [hI.mem_free, hslot]
        simp [hp]
      refine hI.bump hslot hgen (by rw [he]; rfl) (hwrap _) rfl rfl (fun q hq => by cases hq)
        (List.nodup_cons.mpr ⟨hmem, hI.free_nodup⟩) (fun id' => ?_) (fun h' => ?_)
        (fun q hq => by cases hq) (fun h' hr => by rw [he] at hr; cases hr)
      · by_cases hid : handleId h = id'
        · simp [hid]
        · simp [hid, Ne.symm hid]
      · rw [he, holder_destroy]
        by_cases hid : handleId h = handleId h'
        · by_cases heq : h = h'
          · simp [heq]
          · have hnone : holder past h' = none := by
              by_contra hsome
              obtain ⟨a, ha⟩ := Option.ne_none_iff_exists'.mp hsome
              obtain ⟨s, hs, -⟩ := hI.slot_of_holder ha
              obtain ⟨hs1, hs2⟩ := (find_eq_some hI).mp hs
              rw [← hid, hslot] at hs1
              obtain rfl := Option.some.inj hs1
              exact heq (handle_ext hid (hgen.symm.trans hs2))
            simp [hid, heq, hnone]
        · have hne : h ≠ h' := fun heq => hid (heq ▸ rfl)
          simp [hid, hne]
  | @stale h hdead he =>
      refine hI.same (by rw [he]; rfl) (by rw [he]; rfl) (fun h' => ?_) rfl rfl (fun _ => rfl)
      rw [he, holder_destroy]
      split
      · rename_i heq
        subst heq
        by_contra hsome
        obtain ⟨a, ha⟩ := Option.ne_none_iff_exists'.mp (Ne.symm hsome)
        obtain ⟨slot, hs, hp, -⟩ := hI.slot_of_holder ha
        rw [hdead slot hs] at hp; cases hp
      · rfl
  | @setType h slot type hfind he =>
      obtain ⟨hslot, -⟩ := (find_eq_some hI).mp hfind
      refine hI.same (by rw [he]; rfl) (by rw [he]; rfl) (fun h' => by rw [he]; rfl)
        (List.length_set ..) rfl (fun id => ?_)
      rw [getElem?_set_id hslot]
      split
      · rename_i hid
        simp [← hid, hslot]
      · rfl
  | quiet hreg htr hbump hd _ =>
      exact hI.same hbump (Event.returns_eq_none hreg htr) (holder_quiet hreg htr hd past)
        rfl rfl (fun _ => rfl)

/-! ## Whole histories -/

theorem bumps_le_cons (e : Event Ptr Fn) (past : History Ptr Fn) (id : UInt32) :
    bumps past id ≤ bumps (e :: past) id := by
  rw [bumps_cons]; omega

/-- Every reachable table satisfies the invariant until a generation wraps. -/
theorem inv_of_run {past : History Ptr Fn} {t : Table Ptr Fn} (hrun : Run Step {} past t)
    (hwrap : ∀ id, bumps past id < 2 ^ 32 - 1) : Inv past t :=
  hrun.invariant (P := fun past t => (∀ id, bumps past id < 2 ^ 32 - 1) → Inv past t)
    (fun _ => Inv.nil)
    (fun _ _ e _ _ ih hs hw =>
      (ih fun id => Nat.lt_of_le_of_lt (bumps_le_cons e _ id) (hw id)).step hs hw) hwrap

theorem holder_serial_lt {past : History Ptr Fn} {h : Handle} {a : Allocation Ptr Fn}
    (ha : holder past h = some a) : a.serial < past.length := by
  induction past generalizing h with
  | nil => cases ha
  | cons e past ih =>
      have hlt : ∀ {h'}, holder past h' = some a → a.serial < (e :: past).length :=
        fun h' => Nat.lt_succ_of_lt (ih h')
      cases hreg : e.registers with
      | some r =>
          obtain ⟨h', p, d⟩ := r
          rw [holder_registers hreg] at ha
          split at ha
          · cases ha; exact Nat.lt_succ_self _
          · split at ha
            · cases ha
            · exact hlt ha
      | none =>
          cases htr : e.transfers with
          | some r =>
              rw [holder_transfers hreg htr] at ha
              split at ha
              · exact hlt ha
              · split at ha
                · cases ha
                · exact hlt ha
          | none =>
              simp only [holder, hreg, htr] at ha
              split at ha
              · split at ha
                · cases ha
                · exact hlt ha
              · exact hlt ha

/-- The handle a registration or a transfer returns is new: no call returned
it before. -/
theorem returns_fresh {past : History Ptr Fn} {t t' : Table Ptr Fn} {e : Event Ptr Fn}
    {h : Handle} (hI : Inv past t) (hI' : Inv (e :: past) t') (he : Effect t e t')
    (hr : e.returns = some h) : ∀ e' ∈ past, e'.returns ≠ some h := by
  intro e' hmem hr'
  obtain ⟨slot, hs, hle, hlt⟩ := hI.returned e' hmem h hr'
  cases he with
  | @recycle id rest slot' p d hfree hslot hreg =>
      obtain rfl := Option.some.inj (hr.symm.trans (Event.returns_of_registers hreg))
      rw [slotAt_of_small hI.small] at hslot
      rw [handleId_makeHandle, hslot] at hs
      obtain rfl := Option.some.inj hs
      obtain ⟨s, hs', hp⟩ := (hI.mem_free id).mp (by rw [hfree]; simp)
      obtain rfl := Option.some.inj (hslot.symm.trans hs')
      have := hlt hp
      rw [handleGeneration_makeHandle] at this
      omega
  | @grow p d hfree hlen hreg =>
      obtain rfl := Option.some.inj (hr.symm.trans (Event.returns_of_registers hreg))
      have hid : (UInt32.ofNat t.slots.length).toNat = t.slots.length := by
        simp only [SlotsPerChunk, MaxChunks] at hlen
        simp only [UInt32.toNat_ofNat']; omega
      rw [handleId_makeHandle, hid] at hs
      simp at hs
  | @transfer h' slot' p hfind hp hreg _ htr =>
      obtain rfl := Option.some.inj (hr.symm.trans (Event.returns_of_transfers hreg htr))
      obtain ⟨hslot, -⟩ := (find_eq_some hI).mp hfind
      rw [handleId_makeHandle, hslot] at hs
      obtain rfl := Option.some.inj hs
      rw [handleGeneration_makeHandle] at hle
      have h1 := hI.generation _ _ hslot
      have h2 := hI'.generation (handleId h') _ (by rw [getElem?_set_id hslot, if_pos rfl])
      rw [bumps_cons, Event.bumped_of_transfers htr] at h2
      simp at h2
      omega
  | destroy _ _ he => rw [he] at hr; cases hr
  | stale _ he => rw [he] at hr; cases hr
  | setType _ he => rw [he] at hr; cases hr
  | quiet hreg htr => rw [Event.returns_eq_none hreg htr] at hr; cases hr

end Managed

end Absolute
