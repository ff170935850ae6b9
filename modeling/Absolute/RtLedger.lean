import Absolute.RtPointersInv

/-!
# The ledger behind the slot table

The purpose of the table, with slots and generations gone: a partial map from
handles to allocations, in which a call acquires a handle for a new allocation,
moves an allocation from one handle to another, or releases it. The slot table
refines it (`ledgerStep_of_effect`), and the facts about whole histories
of handles are inductions over ledger steps.
-/

namespace Absolute

namespace Managed

open Runs

variable {Ptr Fn : Type}

/-! ## Ledger steps -/

/-- One step of the ledger at history length `n`. -/
inductive LedgerStep (n : Nat) (m : Handle → Option (Allocation Ptr Fn))
    (e : Event Ptr Fn) : (Handle → Option (Allocation Ptr Fn)) → Prop where
  | acquire {h : Handle} {p : Ptr} {d : Deleter Fn} :
      e.registers = some (h, p, d) →
      (∀ h', handleId h' = handleId h → m h' = none) →
      LedgerStep n m e (Function.update m h (some ⟨n, p, d⟩))
  | move {old new : Handle} {a : Allocation Ptr Fn} :
      e.registers = none → e.transfers = some (old, new) → e.call = .transfer old →
      m old = some a → handleId new = handleId old → new ≠ old →
      (∀ h', handleId h' = handleId old → h' ≠ old → m h' = none) →
      LedgerStep n m e (Function.update (Function.update m old none) new (some a))
  | release {h : Handle} {a : Allocation Ptr Fn} :
      e = ⟨.destroy h, .released (some (a.deleter, a.pointer))⟩ → m h = some a →
      LedgerStep n m e (Function.update m h none)
  | idle : e.registers = none → e.transfers = none → e.bumped = none →
      (∀ h, e.Ends h → m h = none) → LedgerStep n m e m

theorem Inv.holder_none_of_free {past : History Ptr Fn} {t : Table Ptr Fn}
    (hI : Inv past t) {h : Handle}
    (hfree : ∀ slot, t.slots[(handleId h).toNat]? = some slot → slot.pointer = none) :
    holder past h = none := by
  by_contra hsome
  obtain ⟨a, ha⟩ := Option.ne_none_iff_exists'.mp hsome
  obtain ⟨slot, hs, -, hp, -⟩ := (hI.held h _ _).mpr ⟨a, ha, rfl, rfl⟩
  rw [hfree slot hs] at hp; cases hp

/-- Two handles of one slot are not both live. -/
theorem Inv.holder_unique {past : History Ptr Fn} {t : Table Ptr Fn} (hI : Inv past t)
    {h h' : Handle} {a : Allocation Ptr Fn} (ha : holder past h = some a)
    (hid : handleId h' = handleId h) (hne : h' ≠ h) : holder past h' = none := by
  by_contra hsome
  obtain ⟨a', ha'⟩ := Option.ne_none_iff_exists'.mp hsome
  obtain ⟨slot, hs, hg, -, -⟩ := (hI.held h _ _).mpr ⟨a, ha, rfl, rfl⟩
  obtain ⟨slot', hs', hg', -, -⟩ := (hI.held h' _ _).mpr ⟨a', ha', rfl, rfl⟩
  rw [hid, hs] at hs'
  obtain rfl := Option.some.inj hs'
  exact hne (handle_ext hid (hg'.symm.trans hg))

/-- The table refines the ledger: whatever a call does to the slots, it makes
one ledger step on what the handles stand for. -/
theorem ledgerStep_of_effect {past : History Ptr Fn} {t t' : Table Ptr Fn}
    {e : Event Ptr Fn} (hI : Inv past t) (he : Effect t e t')
    (hwrap : ∀ id, bumps (e :: past) id < 2 ^ 32 - 1) :
    LedgerStep past.length (holder past) e (holder (e :: past)) := by
  have acquire : ∀ {h p d}, e.registers = some (h, p, d) →
      (∀ h', handleId h' = handleId h → holder past h' = none) →
      LedgerStep past.length (holder past) e (holder (e :: past)) := by
    intro h p d hreg hnone
    have heq : holder (e :: past)
        = Function.update (holder past) h (some ⟨past.length, p, d⟩) := by
      funext h'
      rw [holder_registers hreg, Function.update_apply]
      by_cases hh : h = h'
      · simp [hh]
      · rw [if_neg hh, if_neg (Ne.symm hh)]
        split
        · rename_i hid; rw [hnone h' hid.symm]
        · rfl
    rw [heq]
    exact .acquire hreg hnone
  cases he with
  | @recycle id rest slot p d hfree hslot hreg =>
      refine acquire hreg fun h' hid => hI.holder_none_of_free fun s hs => ?_
      rw [handleId_makeHandle] at hid
      obtain ⟨s', hs', hp'⟩ := (hI.mem_free id).mp (by rw [hfree]; simp)
      rw [hid, hs'] at hs
      exact Option.some.inj hs ▸ hp'
  | @grow p d hfree hlt hreg =>
      refine acquire hreg fun h' hid => hI.holder_none_of_free fun s hs => ?_
      have hlen : (UInt32.ofNat t.slots.length).toNat = t.slots.length := by
        simp only [SlotsPerChunk, MaxChunks] at hlt
        simp only [UInt32.toNat_ofNat']; omega
      rw [hid, handleId_makeHandle, hlen] at hs
      simp at hs
  | @transfer h slot p hfind hp hreg hcall htr =>
      obtain ⟨a, ha, -⟩ := hI.holder_of_slot hfind hp
      obtain ⟨hslot, hgen⟩ := (find_eq_some hI).mp hfind
      have hg := hI.generation _ _ hslot
      have hw := hwrap (handleId h)
      rw [bumps_cons, Event.bumped_of_transfers htr, Option.map_some, if_pos rfl] at hw
      have hnew : makeHandle (handleId h) (nextGeneration slot.generation) ≠ h := by
        intro heq
        have h1 := nextGeneration_toNat (g := slot.generation) (by omega)
        rw [← heq, handleGeneration_makeHandle] at hgen
        rw [← hgen] at h1
        omega
      have hother := fun h' hid (hne : h' ≠ _) => hI.holder_unique ha hid hne
      have heq : holder (e :: past) = Function.update (Function.update (holder past) h none)
          (makeHandle (handleId h) (nextGeneration slot.generation)) (some a) := by
        funext h'
        rw [holder_transfers hreg htr, Function.update_apply, Function.update_apply,
          handleId_makeHandle]
        by_cases hh : makeHandle (handleId h) (nextGeneration slot.generation) = h'
        · simp [hh, ha]
        · rw [if_neg hh, if_neg (Ne.symm hh)]
          by_cases hold : h' = h
          · simp [hold]
          · rw [if_neg hold]
            split
            · rename_i hid; rw [hother h' hid.symm hold]
            · rfl
      rw [heq]
      exact .move hreg htr hcall ha (handleId_makeHandle ..) hnew hother
  | @destroy h slot p hfind hp he =>
      obtain ⟨a, ha, hap, had⟩ := hI.holder_of_slot hfind hp
      have heq : holder (e :: past) = Function.update (holder past) h none := by
        funext h'
        rw [he, holder_destroy, Function.update_apply]
        by_cases hh : h = h'
        · simp [hh]
        · simp [hh, Ne.symm hh]
      rw [heq]
      exact .release (by rw [he, hap, had]; rfl) ha
  | @stale h hdead he =>
      have hnone : holder past h = none := by
        by_contra hsome
        obtain ⟨a, ha⟩ := Option.ne_none_iff_exists'.mp hsome
        obtain ⟨slot, hs, hp, -⟩ := hI.slot_of_holder ha
        rw [hdead slot hs] at hp; cases hp
      have heq : holder (e :: past) = holder past := by
        funext h'
        rw [he, holder_destroy]
        split
        · rename_i hh; rw [← hh, hnone]
        · rfl
      rw [heq]
      refine .idle (by rw [he]; rfl) (by rw [he]; rfl) (by rw [he]; rfl) fun h' hends => ?_
      rw [he] at hends
      rcases hends with hc | hc
      · cases hc; exact hnone
      · cases hc
  | @setType h slot type hfind he =>
      have heq : holder (e :: past) = holder past := by
        funext h'
        rw [he]
        rfl
      rw [heq]
      refine .idle (by rw [he]; rfl) (by rw [he]; rfl) (by rw [he]; rfl) fun h' hends => ?_
      rw [he] at hends
      rcases hends with hc | hc <;> cases hc
  | quiet hreg htr hbump hd ht =>
      rw [funext (holder_quiet hreg htr hd past)]
      exact .idle hreg htr hbump fun h' hends =>
        hends.elim (fun hc => absurd hc (hd h')) (fun hc => absurd hc (ht h'))

/-- Run induction over ledger steps: what the slots do is behind
`ledgerStep_of_effect`, so a fact about the history is one case for each kind
of ledger step. -/
theorem Run.ledgerInduction {P : History Ptr Fn → Prop} (hinit : P [])
    (hstep : ∀ e past, P past →
      LedgerStep past.length (holder past) e (holder (e :: past)) → P (e :: past))
    {past : History Ptr Fn} {t : Table Ptr Fn} (hrun : Run Step {} past t)
    (hwrap : ∀ id, bumps past id < 2 ^ 32 - 1) : P past :=
  hrun.invariant (P := fun past _ => (∀ id, bumps past id < 2 ^ 32 - 1) → P past)
    (fun _ => hinit)
    (fun _ _ e _ hr ih hs hw =>
      have hw' := fun id => Nat.lt_of_le_of_lt (bumps_le_cons e _ id) (hw id)
      hstep _ _ (ih hw') (ledgerStep_of_effect (inv_of_run hr hw') hs.effect hw)) hwrap

/-! ## Current handles -/

theorem current_cons (e : Event Ptr Fn) (past : History Ptr Fn) (h : Handle) :
    Current (e :: past) h ↔ e.returns = some h
      ∨ (Current past h ∧ (∀ h', e.returns = some h' → handleId h' ≠ handleId h)
          ∧ ¬e.Ends h) := by
  constructor
  · rintro ⟨newer, e₀, older, hsplit, hret, hids, hends⟩
    cases newer with
    | nil =>
        obtain ⟨rfl, rfl⟩ := List.cons.inj hsplit
        exact .inl hret
    | cons e₁ newer =>
        obtain ⟨rfl, rfl⟩ := List.cons.inj hsplit
        exact .inr ⟨⟨newer, e₀, older, rfl, hret,
            fun e' hm => hids e' (List.mem_cons_of_mem _ hm),
            fun e' hm => hends e' (List.mem_cons_of_mem _ hm)⟩,
          hids e (List.mem_cons_self ..), hends e (List.mem_cons_self ..)⟩
  · rintro (hret | ⟨⟨newer, e₀, older, rfl, hret, hids, hends⟩, hid, hend⟩)
    · exact ⟨[], e, past, rfl, hret, by simp, by simp⟩
    · exact ⟨e :: newer, e₀, older, rfl, hret,
        List.forall_mem_cons.mpr ⟨hid, hids⟩, List.forall_mem_cons.mpr ⟨hend, hends⟩⟩

theorem Event.not_ends_of_registers {e : Event Ptr Fn} {r}
    (he : e.registers = some r) (h : Handle) : ¬e.Ends h := by
  obtain ⟨call, reply⟩ := e
  rintro (hc | hc) <;> (dsimp only at hc; subst hc; cases reply <;> cases he)

/-- A handle stands for an allocation exactly while it is current. -/
theorem holder_isSome_iff_current {past : History Ptr Fn} {t : Table Ptr Fn}
    (hrun : Run Step {} past t) (hwrap : ∀ id, bumps past id < 2 ^ 32 - 1) (h : Handle) :
    (holder past h).isSome ↔ Current past h := by
  refine Run.ledgerInduction
    (P := fun past => ∀ h, (holder past h).isSome ↔ Current past h)
    (fun h => ?_) (fun e past ih hl h => ?_) hrun hwrap h
  · simp only [holder, Option.isSome_none, Bool.false_eq_true, false_iff]
    rintro ⟨newer, e, older, hsplit, -⟩
    simp at hsplit
  · rw [current_cons]
    generalize hm : holder (e :: past) = m' at hl ⊢
    cases hl with
    | @acquire h₀ p d hreg hnone =>
        rw [Function.update_apply, Event.returns_of_registers hreg]
        by_cases hh : h = h₀
        · simp [hh]
        · rw [if_neg hh, ih h]
          simp only [Option.some.injEq, Ne.symm hh, false_or]
          refine ⟨fun hc => ⟨hc, ?_, Event.not_ends_of_registers hreg h⟩, And.left⟩
          rintro _ rfl hid
          rw [← ih h, hnone h hid.symm] at hc
          cases hc
    | @move old new a hreg htr hcall ha hid hne hnone =>
        rw [Function.update_apply, Function.update_apply,
          Event.returns_of_transfers hreg htr]
        by_cases hh : h = new
        · simp [hh]
        · rw [if_neg hh]
          simp only [Option.some.injEq, Ne.symm hh, false_or]
          by_cases hold : h = old
          · simp [hold, hid]
          · rw [if_neg hold, ih h]
            refine ⟨fun hc => ⟨hc, ?_, ?_⟩, And.left⟩
            · rintro _ rfl hid'
              rw [← ih h, hnone h (hid'.symm.trans hid) hold] at hc
              cases hc
            · rintro (hc' | hc') <;> rw [hcall] at hc' <;> cases hc'
              exact hold rfl
    | @release h₀ a he ha =>
        have hret : e.returns = none := by rw [he]; rfl
        rw [Function.update_apply, hret]
        by_cases hh : h = h₀
        · simp [hh, he, Event.Ends]
        · simp [hh, Ne.symm hh, ih h, he, Event.Ends]
    | idle hreg htr _ hends =>
        rw [Event.returns_eq_none hreg htr, ih h]
        simp only [reduceCtorEq, false_implies, implies_true, true_and, false_or]
        refine ⟨fun hc => ⟨hc, fun he => ?_⟩, And.left⟩
        rw [← ih h, hends h he] at hc
        cases hc

/-! ## Allocations -/

theorem holder_mem_registered {past : History Ptr Fn} {t : Table Ptr Fn}
    (hrun : Run Step {} past t) (hwrap : ∀ id, bumps past id < 2 ^ 32 - 1) :
    ∀ h a, holder past h = some a → a ∈ registered past := by
  refine Run.ledgerInduction (P := fun past => ∀ h a, holder past h = some a →
    a ∈ registered past) (fun h a ha => by cases ha) (fun e past ih hl h a ha => ?_)
    hrun hwrap
  have hmono : a ∈ registered past → a ∈ registered (e :: past) := by
    intro hmem
    unfold registered
    split
    · exact List.mem_cons_of_mem _ hmem
    · exact hmem
  generalize hm : holder (e :: past) = m' at hl ha
  cases hl with
  | @acquire h₀ p d hreg hnone =>
      rw [Function.update_apply] at ha
      split at ha
      · obtain rfl := Option.some.inj ha
        simp [registered, hreg]
      · exact hmono (ih h a ha)
  | @move old new a₀ hreg htr hcall ha₀ hid hne hnone =>
      rw [Function.update_apply, Function.update_apply] at ha
      split at ha
      · exact hmono (ih old a (ha₀.trans ha))
      · split at ha
        · cases ha
        · exact hmono (ih h a ha)
  | @release h₀ a₀ he ha₀ =>
      rw [Function.update_apply] at ha
      split at ha
      · cases ha
      · exact hmono (ih h a ha)
  | idle => exact hmono (ih h a ha)

/-- A key that every registration takes fresh, while the history is `Good`,
tells the live handles apart. -/
theorem holder_key_injective {κ : Type} (Good : History Ptr Fn → Prop)
    (key : Allocation Ptr Fn → κ)
    (hgood : ∀ e past, Good (e :: past) → Good past ∧
      ∀ h p d, e.registers = some (h, p, d) →
        ∀ h' a, holder past h' = some a → key a ≠ key ⟨past.length, p, d⟩)
    {past : History Ptr Fn} {t : Table Ptr Fn}
    (hrun : Run Step {} past t) (hwrap : ∀ id, bumps past id < 2 ^ 32 - 1) :
    Good past → ∀ h₁ h₂ a₁ a₂, holder past h₁ = some a₁ →
      holder past h₂ = some a₂ → key a₁ = key a₂ → h₁ = h₂ := by
  refine Run.ledgerInduction (P := fun past => Good past → ∀ h₁ h₂ a₁ a₂,
    holder past h₁ = some a₁ → holder past h₂ = some a₂ → key a₁ = key a₂ → h₁ = h₂)
    (fun _ _ _ _ _ ha => by cases ha) (fun e past ih hl hb h₁ h₂ a₁ a₂ ha₁ ha₂ heq => ?_)
    hrun hwrap
  obtain ⟨hb, hfresh⟩ := hgood e past hb
  generalize hm : holder (e :: past) = m' at hl ha₁ ha₂
  cases hl with
  | @acquire h₀ p d hreg hnone =>
      rw [Function.update_apply] at ha₁ ha₂
      split at ha₁ <;> split at ha₂
      · simp_all
      · obtain rfl := Option.some.inj ha₁
        exact absurd heq.symm (hfresh _ _ _ hreg _ _ ha₂)
      · obtain rfl := Option.some.inj ha₂
        exact absurd heq (hfresh _ _ _ hreg _ _ ha₁)
      · exact ih hb _ _ _ _ ha₁ ha₂ heq
  | @move old new a hreg htr hcall ha hid hne hnone =>
      rw [Function.update_apply, Function.update_apply] at ha₁ ha₂
      split at ha₁ <;> split at ha₂
      · simp_all
      · split at ha₂
        · cases ha₂
        · exact absurd (ih hb _ _ _ _ (ha.trans ha₁) ha₂ heq).symm ‹_›
      · split at ha₁
        · cases ha₁
        · exact absurd (ih hb _ _ _ _ ha₁ (ha.trans ha₂) heq) ‹_›
      · split at ha₁
        · cases ha₁
        · split at ha₂
          · cases ha₂
          · exact ih hb _ _ _ _ ha₁ ha₂ heq
  | @release h₀ a he ha =>
      rw [Function.update_apply] at ha₁ ha₂
      split at ha₁
      · cases ha₁
      · split at ha₂
        · cases ha₂
        · exact ih hb _ _ _ _ ha₁ ha₂ heq
  | idle => exact ih hb _ _ _ _ ha₁ ha₂ heq

/-- Two handles never stand for one allocation. -/
theorem holder_serial_injective {past : History Ptr Fn} {t : Table Ptr Fn}
    (hrun : Run Step {} past t) (hwrap : ∀ id, bumps past id < 2 ^ 32 - 1)
    {h₁ h₂ : Handle} {a₁ a₂ : Allocation Ptr Fn} (h₁a : holder past h₁ = some a₁)
    (h₂a : holder past h₂ = some a₂) (heq : a₁.serial = a₂.serial) : h₁ = h₂ :=
  holder_key_injective (fun _ => True) Allocation.serial
    (fun _ _ _ => ⟨trivial, fun _ _ _ _ _ _ ha =>
      Nat.ne_of_lt (holder_serial_lt ha)⟩) hrun hwrap trivial _ _ _ _ h₁a h₂a heq

/-- Where no block is handed over again while it is managed, two handles never
resolve to one address. -/
theorem holder_pointer_injective {past : History Ptr Fn} {t : Table Ptr Fn}
    (hrun : Run Step {} past t) (hwrap : ∀ id, bumps past id < 2 ^ 32 - 1)
    (hb : BlocksDistinct past) {h₁ h₂ : Handle} {a₁ a₂ : Allocation Ptr Fn}
    (h₁a : holder past h₁ = some a₁) (h₂a : holder past h₂ = some a₂)
    (heq : a₁.pointer = a₂.pointer) : h₁ = h₂ :=
  holder_key_injective BlocksDistinct Allocation.pointer
    (fun _ _ hb => ⟨hb.1, fun h p d hreg => hb.2 h p d hreg⟩)
    hrun hwrap hb _ _ _ _ h₁a h₂a heq

/-! ## Deleters -/

/-- Some handle still stands for the allocation `serial`. -/
def Held (past : History Ptr Fn) (serial : Nat) : Prop :=
  ∃ h a, holder past h = some a ∧ a.serial = serial

/-- How often the deleter of the allocation `serial` ran. -/
def runsOf (past : History Ptr Fn) (serial : Nat) : Nat :=
  (deleterRuns past).countP fun r => decide (r.map Allocation.serial = some serial)

theorem runsOf_cons_of_not_released {e : Event Ptr Fn}
    (he : ∀ h r, e ≠ ⟨.destroy h, .released (some r)⟩)
    (past : History Ptr Fn) (n : Nat) : runsOf (e :: past) n = runsOf past n := by
  obtain ⟨call, reply⟩ := e
  have : deleterRuns (⟨call, reply⟩ :: past) = deleterRuns past := by
    rw [deleterRuns]
    split
    · rename_i h r hc hr
      exact absurd (congrArg₂ Event.mk hc hr) (he h r)
    · rfl
  rw [runsOf, this, runsOf]

theorem Event.not_released_of_bumped {e : Event Ptr Fn} (he : e.bumped = none)
    (h : Handle) (r : Deleter Fn × Ptr) : e ≠ ⟨.destroy h, .released (some r)⟩ := by
  rintro rfl
  cases he

theorem runsOf_release (h : Handle) (r : Deleter Fn × Ptr) (past : History Ptr Fn)
    (n : Nat) : runsOf (⟨.destroy h, .released (some r)⟩ :: past) n
      = runsOf past n
        + if (holder past h).map Allocation.serial = some n then 1 else 0 := by
  simp [runsOf, deleterRuns, List.countP_cons]

theorem runsOf_eq_zero_of_le {past : History Ptr Fn} {n : Nat} (hn : past.length ≤ n) :
    runsOf past n = 0 := by
  induction past with
  | nil => rfl
  | cons e past ih =>
      have hle : past.length ≤ n := Nat.le_of_succ_le hn
      by_cases hrel : ∃ h r, e = ⟨.destroy h, .released (some r)⟩
      · obtain ⟨h, r, rfl⟩ := hrel
        rw [runsOf_release, ih hle, Nat.zero_add, if_neg]
        intro hs
        obtain ⟨a, ha, rfl⟩ := Option.map_eq_some_iff.mp hs
        exact absurd (holder_serial_lt ha) (Nat.not_lt.mpr hle)
      · rw [runsOf_cons_of_not_released fun h r he => hrel ⟨h, r, he⟩, ih hle]

theorem registered_serial_lt {past : History Ptr Fn} {a : Allocation Ptr Fn}
    (ha : a ∈ registered past) : a.serial < past.length := by
  induction past with
  | nil => cases ha
  | cons e past ih =>
      unfold registered at ha
      split at ha
      · rcases List.mem_cons.mp ha with rfl | hmem
        · exact Nat.lt_succ_self _
        · exact Nat.lt_succ_of_lt (ih hmem)
      · exact Nat.lt_succ_of_lt (ih ha)

/-- An allocation handed to the table is held by a handle and its deleter has
not run, or is held by none and its deleter ran once. -/
theorem deleter_once {past : History Ptr Fn} {t : Table Ptr Fn}
    (hrun : Run Step {} past t) (hwrap : ∀ id, bumps past id < 2 ^ 32 - 1) :
    ∀ a ∈ registered past, (Held past a.serial ∧ runsOf past a.serial = 0)
      ∨ (¬Held past a.serial ∧ runsOf past a.serial = 1) := by
  refine hrun.invariant (P := fun past _ => (∀ id, bumps past id < 2 ^ 32 - 1) →
    ∀ a ∈ registered past, (Held past a.serial ∧ runsOf past a.serial = 0)
      ∨ (¬Held past a.serial ∧ runsOf past a.serial = 1))
    (fun _ a ha => by cases ha) (fun past t e t' hr ih hs hw a ha => ?_) hwrap
  have hw' := fun id => Nat.lt_of_le_of_lt (bumps_le_cons e past id) (hw id)
  have hl := ledgerStep_of_effect (inv_of_run hr hw') hs.effect hw
  generalize hm : holder (e :: past) = m' at hl
  have hheld : ∀ n, Held (e :: past) n ↔ ∃ h a, m' h = some a ∧ a.serial = n :=
    fun n => by rw [Held, hm]
  cases hl with
  | @acquire h₀ p d hreg hnone =>
      rw [runsOf_cons_of_not_released (Event.not_released_of_bumped
        (Event.bumped_of_registers hreg)), hheld]
      simp only [registered, hreg, List.mem_cons] at ha
      rcases ha with rfl | hmem
      · exact .inl ⟨⟨h₀, _, Function.update_self .., rfl⟩,
          runsOf_eq_zero_of_le (Nat.le_refl _)⟩
      · have hlt := registered_serial_lt hmem
        have hiff : (∃ h a', Function.update (holder past) h₀ (some ⟨past.length, p, d⟩) h
            = some a' ∧ a'.serial = a.serial) ↔ Held past a.serial := by
          constructor
          · rintro ⟨h, a', ha', hser⟩
            rw [Function.update_apply] at ha'
            split at ha'
            · obtain rfl := Option.some.inj ha'
              exact absurd hser.symm (Nat.ne_of_lt hlt)
            · exact ⟨h, a', ha', hser⟩
          · rintro ⟨h, a', ha', hser⟩
            refine ⟨h, a', ?_, hser⟩
            rw [Function.update_of_ne]
            · exact ha'
            · rintro rfl
              rw [hnone h rfl] at ha'; cases ha'
        rw [hiff]
        exact ih hw' a hmem
  | @move old new a₀ hreg htr hcall ha₀ hid hne hnone =>
      have hmem : a ∈ registered past := by simpa [registered, hreg] using ha
      have hruns : runsOf (e :: past) a.serial = runsOf past a.serial :=
        runsOf_cons_of_not_released (fun h r he => by rw [he] at hcall; cases hcall) ..
      have hiff : Held (e :: past) a.serial ↔ Held past a.serial := by
        rw [hheld]
        constructor
        · rintro ⟨h, a', ha', hser⟩
          rw [Function.update_apply, Function.update_apply] at ha'
          split at ha'
          · obtain rfl := Option.some.inj ha'
            exact ⟨old, _, ha₀, hser⟩
          · split at ha'
            · cases ha'
            · exact ⟨h, a', ha', hser⟩
        · rintro ⟨h, a', ha', hser⟩
          by_cases hold : h = old
          · subst hold
            obtain rfl := Option.some.inj (ha₀.symm.trans ha')
            exact ⟨new, _, Function.update_self .., hser⟩
          · refine ⟨h, a', ?_, hser⟩
            rw [Function.update_of_ne, Function.update_of_ne hold]
            · exact ha'
            · rintro rfl
              rw [hnone h hid hold] at ha'; cases ha'
      rw [hruns, hiff]
      exact ih hw' a hmem
  | @release h₀ a₀ he ha₀ =>
      have hmem : a ∈ registered past := by rw [he] at ha; exact ha
      rw [hheld, he, runsOf_release, ha₀, Option.map_some]
      by_cases hser : a₀.serial = a.serial
      · refine .inr ⟨?_, ?_⟩
        · rintro ⟨h, a', ha', hser'⟩
          rw [Function.update_apply] at ha'
          split at ha'
          · cases ha'
          · rename_i hne
            exact hne (holder_serial_injective hr hw' ha' ha₀ (hser'.trans hser.symm))
        · rcases ih hw' a hmem with ⟨-, h0⟩ | ⟨hn, -⟩
          · simp [h0, hser]
          · exact absurd ⟨h₀, a₀, ha₀, hser⟩ hn
      · have hiff : (∃ h a', Function.update (holder past) h₀ none h = some a'
            ∧ a'.serial = a.serial) ↔ Held past a.serial := by
          constructor
          · rintro ⟨h, a', ha', hs'⟩
            rw [Function.update_apply] at ha'
            split at ha'
            · cases ha'
            · exact ⟨h, a', ha', hs'⟩
          · rintro ⟨h, a', ha', hs'⟩
            refine ⟨h, a', ?_, hs'⟩
            rw [Function.update_of_ne]
            · exact ha'
            · rintro rfl
              obtain rfl := Option.some.inj (ha₀.symm.trans ha')
              exact hser hs'
        rw [hiff, if_neg (by simpa using hser), Nat.add_zero]
        exact ih hw' a hmem
  | idle hreg htr hbump =>
      have hmem : a ∈ registered past := by simpa [registered, hreg] using ha
      rw [runsOf_cons_of_not_released (Event.not_released_of_bumped hbump), hheld]
      exact ih hw' a hmem

/-! ## The contract of the table -/

theorem absoluteManagedGet_eq_holder {past : History Ptr Fn} {t : Table Ptr Fn}
    (hI : Inv past t) (h : Handle) :
    absoluteManagedGet t h = (holder past h).map Allocation.pointer := by
  rw [absoluteManagedGet_eq]
  cases hh : holder past h with
  | some a =>
      obtain ⟨slot, hs, hp, -⟩ := hI.slot_of_holder hh
      simp [hs, hp]
  | none =>
      cases hf : find t h with
      | none => rfl
      | some slot =>
          cases hp : slot.pointer with
          | none => simp [hp]
          | some p =>
              obtain ⟨a, ha, -⟩ := hI.holder_of_slot hf hp
              rw [hh] at ha; cases ha

/-- A destroy runs the deleter of the allocation its handle stands for, and a
stale one runs none. -/
theorem absoluteManagedDestroy_eq {past : History Ptr Fn} {t : Table Ptr Fn}
    (hI : Inv past t) (h : Handle) :
    (absoluteManagedDestroy t h).2
      = (holder past h).map (fun a => (a.deleter, a.pointer)) := by
  unfold absoluteManagedDestroy
  cases hh : holder past h with
  | some a =>
      obtain ⟨slot, hs, hp, hd⟩ := hI.slot_of_holder hh
      simp [hs, hp, hd]
  | none =>
      cases hf : find t h with
      | none => rfl
      | some slot =>
          cases hp : slot.pointer with
          | none => simp [hp]
          | some p =>
              obtain ⟨a, ha, -⟩ := hI.holder_of_slot hf hp
              rw [hh] at ha; cases ha

theorem absoluteManagedDestroy_stale {past : History Ptr Fn} {t : Table Ptr Fn}
    (hI : Inv past t) {h : Handle} (hh : holder past h = none) :
    absoluteManagedDestroy t h = (t, none) := by
  have h2 := absoluteManagedDestroy_eq hI h
  rw [hh] at h2
  unfold absoluteManagedDestroy at h2 ⊢
  cases hf : find t h with
  | none => rfl
  | some slot =>
      cases hp : slot.pointer with
      | none => simp [hp]
      | some p => simp [hf, hp] at h2

/-- After every sequence of calls that wraps no generation: a handle resolves
exactly while it is current, to the block of the allocation it stands for; two
handles stand for different allocations (and resolve to different addresses,
if no block is handed over again while it is managed); every allocation is
held with its deleter not run or released with its deleter run once, by the
destroy of the handle that held it, while a stale destroy changes nothing; and
the free list is the empty slots, each once. -/
theorem managed_slot_table {past : History Ptr Fn} {t : Table Ptr Fn}
    (hrun : Run Step {} past t) (hwrap : ∀ id, bumps past id < 2 ^ 32 - 1) :
    (∀ h, (absoluteManagedGet t h).isSome ↔ Current past h)
    ∧ (∀ h, absoluteManagedGet t h = (holder past h).map Allocation.pointer)
    ∧ (∀ h₁ h₂ a₁ a₂, holder past h₁ = some a₁ → holder past h₂ = some a₂ → h₁ ≠ h₂ →
        a₁.serial ≠ a₂.serial ∧ (BlocksDistinct past →
          absoluteManagedGet t h₁ ≠ absoluteManagedGet t h₂))
    ∧ (∀ h, (absoluteManagedDestroy t h).2
        = (holder past h).map (fun a => (a.deleter, a.pointer)))
    ∧ (∀ h, ¬Current past h → absoluteManagedDestroy t h = (t, none))
    ∧ (∀ h a, holder past h = some a → a ∈ registered past)
    ∧ (∀ a ∈ registered past, (Held past a.serial ∧ runsOf past a.serial = 0)
        ∨ (¬Held past a.serial ∧ runsOf past a.serial = 1))
    ∧ t.freeSlots.Nodup
    ∧ (∀ id : UInt32, id ∈ t.freeSlots ↔
        ∃ slot, t.slots[id.toNat]? = some slot ∧ slot.pointer = none) := by
  have hI := inv_of_run hrun hwrap
  refine ⟨fun h => ?_, absoluteManagedGet_eq_holder hI, fun h₁ h₂ a₁ a₂ ha₁ ha₂ hne => ?_,
    absoluteManagedDestroy_eq hI, fun h hh => ?_, holder_mem_registered hrun hwrap,
    deleter_once hrun hwrap, hI.free_nodup, hI.mem_free⟩
  · rw [absoluteManagedGet_eq_holder hI, Option.isSome_map]
    exact holder_isSome_iff_current hrun hwrap h
  · refine ⟨fun heq => hne (holder_serial_injective hrun hwrap ha₁ ha₂ heq),
      fun hb heq => hne ?_⟩
    rw [absoluteManagedGet_eq_holder hI, absoluteManagedGet_eq_holder hI, ha₁, ha₂] at heq
    exact holder_pointer_injective hrun hwrap hb ha₁ ha₂ (Option.some.inj heq)
  · rw [← holder_isSome_iff_current hrun hwrap, Option.not_isSome_iff_eq_none] at hh
    exact absoluteManagedDestroy_stale hI hh

/-- A block is created, its handle transferred, and the old handle destroyed:
the stale destroy changes nothing and the new handle still resolves. -/
theorem managed_slot_table_transferred :
    let past : History Nat Unit :=
      [⟨.destroy (makeHandle 0 1), .released none⟩,
       ⟨.transfer (makeHandle 0 1), .handle (makeHandle 0 2)⟩,
       ⟨.create 8 (some 40), .handle (makeHandle 0 1)⟩]
    let t : Table Nat Unit :=
      { slots := [{ pointer := some 40, generation := 2, deleter := some .DefaultDeleter }] }
    absoluteManagedGet t (makeHandle 0 2) = some 40 ∧ Current past (makeHandle 0 2)
      ∧ runsOf past 0 = 0 := by
  have hrun : Run Step ({} : Table Nat Unit)
      [⟨.destroy (makeHandle 0 1), .released none⟩,
       ⟨.transfer (makeHandle 0 1), .handle (makeHandle 0 2)⟩,
       ⟨.create 8 (some 40), .handle (makeHandle 0 1)⟩]
      { slots := [{ pointer := some 40, generation := 2,
                    deleter := some .DefaultDeleter }] } :=
    .cons (.cons (.cons .nil rfl) rfl) rfl
  have h := managed_slot_table hrun (fun id =>
    Nat.lt_of_le_of_lt List.countP_le_length (by decide))
  exact ⟨by decide, (h.1 _).mp (by decide), by decide⟩

end Managed

end Absolute
