import Mathlib.Algebra.Order.BigOperators.Group.List
import Mathlib.Algebra.Order.Ring.Nat
import Mathlib.Data.Finset.Card
import Mathlib.Data.Finset.Max
import Mathlib.Data.Finset.Range
import Mathlib.Logic.Function.Basic
import Mathlib.Logic.Relation
import Mathlib.Tactic.Common

/-!
# A heap of nodes that own their children

The cells of a heap hold the addresses of their children, and the deletion of a node
deletes them with it. To delete a node whose life has ended is undefined, so that a
deletion which is defined deletes each node once.

`Owned O h`: each live node is in one place, among the owners outside (the list `O`) or
in one slot of one live node, and these places hold no other addresses. It is kept by the
creation of a node (`Owned.alloc`), by giving a node that is owned outside to another one
(`Owned.give`), and by a deletion (`Owned.delete`), which is then defined.
-/

namespace OwnedHeap

variable {κ : Type*}

/-- Cells by their addresses; what is not created yet is not live. -/
@[ext] structure Heap (κ : Type*) where
  cells : ℕ → Option κ
  next : ℕ
  fresh : ∀ p, next ≤ p → cells p = none

namespace Heap

def empty : Heap κ := ⟨fun _ => none, 0, fun _ _ => rfl⟩

def Live (h : Heap κ) (p : ℕ) : Prop := ∃ c, h.cells p = some c

theorem lt_of_live {h : Heap κ} {p : ℕ} (hp : h.Live p) : p < h.next := by
  obtain ⟨c, hc⟩ := hp
  by_contra hle
  rw [h.fresh p (not_lt.mp hle)] at hc
  cases hc

/-- A new node. -/
def alloc (h : Heap κ) (c : κ) : Heap κ × ℕ :=
  (⟨Function.update h.cells h.next (some c), h.next + 1, fun p hp => by
    rw [Function.update_of_ne (by omega)]
    exact h.fresh p (by omega)⟩, h.next)

/-- The cell of a live node is changed. -/
def store (h : Heap κ) (p : ℕ) (c : κ) : Heap κ :=
  ⟨fun q => if q = p ∧ (h.cells p).isSome then some c else h.cells q, h.next, fun q hq => by
    rw [if_neg, h.fresh q hq]
    rintro ⟨rfl, hp⟩
    rw [h.fresh q hq] at hp
    cases hp⟩

/-- The life of a node ends. -/
def kill (h : Heap κ) (p : ℕ) : Heap κ :=
  ⟨Function.update h.cells p none, h.next, fun q hq => by
    by_cases hqp : q = p
    · rw [hqp, Function.update_self]
    · rw [Function.update_of_ne hqp, h.fresh q hq]⟩

variable {h : Heap κ} {p q : ℕ} {c : κ}

theorem kill_self : (h.kill p).cells p = none := Function.update_self ..

theorem kill_of_ne (hq : q ≠ p) : (h.kill p).cells q = h.cells q := Function.update_of_ne hq ..

theorem live_kill : (h.kill p).Live q ↔ h.Live q ∧ q ≠ p := by
  by_cases hq : q = p
  · subst hq
    exact ⟨fun ⟨c, hc⟩ => absurd (kill_self.symm.trans hc) (by simp), fun hl => absurd rfl hl.2⟩
  · exact ⟨fun ⟨c, hc⟩ => ⟨⟨c, kill_of_ne hq ▸ hc⟩, hq⟩,
      fun ⟨⟨c, hc⟩, _⟩ => ⟨c, (kill_of_ne hq).trans hc⟩⟩

theorem store_self (hp : h.Live p) : (h.store p c).cells p = some c := by
  obtain ⟨c', hc'⟩ := hp
  exact if_pos ⟨rfl, by rw [hc']; rfl⟩

theorem store_of_ne (hq : q ≠ p) : (h.store p c).cells q = h.cells q :=
  if_neg fun hqp => hq hqp.1

theorem live_store : (h.store p c).Live q ↔ h.Live q := by
  by_cases hq : q = p
  · subst hq
    constructor
    · rintro ⟨c', hc'⟩
      by_contra hdead
      have hnone : h.cells q = none := by
        cases hcell : h.cells q with
        | none => rfl
        | some c => exact absurd ⟨c, hcell⟩ hdead
      simp only [store, hnone] at hc'
      cases hc'
    · exact fun hl => ⟨c, store_self hl⟩
  · exact ⟨fun ⟨c, hc⟩ => ⟨c, store_of_ne hq ▸ hc⟩,
      fun ⟨c, hc⟩ => ⟨c, (store_of_ne hq).trans hc⟩⟩

theorem alloc_self : (h.alloc c).1.cells h.next = some c := Function.update_self ..

theorem alloc_of_ne (hq : q ≠ h.next) : (h.alloc c).1.cells q = h.cells q :=
  Function.update_of_ne hq ..

theorem live_alloc : (h.alloc c).1.Live q ↔ h.Live q ∨ q = h.next := by
  by_cases hq : q = h.next
  · subst hq
    exact ⟨fun _ => .inr rfl, fun _ => ⟨c, alloc_self⟩⟩
  · exact ⟨fun ⟨c, hc⟩ => .inl ⟨c, alloc_of_ne hq ▸ hc⟩,
      fun hl => (hl.resolve_right hq).elim fun c hc => ⟨c, (alloc_of_ne hq).trans hc⟩⟩

theorem store_store (hp : h.Live p) (c c' : κ) : (h.store p c).store p c' = h.store p c' := by
  refine Heap.ext (funext fun q => ?_) rfl
  by_cases hq : q = p
  · rw [hq, store_self (live_store.mpr hp), store_self hp]
  · rw [store_of_ne hq, store_of_ne hq, store_of_ne hq]

theorem store_same (hc : h.cells p = some c) : h.store p c = h := by
  refine Heap.ext (funext fun q => ?_) rfl
  by_cases hq : q = p
  · rw [hq, store_self ⟨c, hc⟩, hc]
  · rw [store_of_ne hq]

theorem kill_store (hqp : p ≠ q) (hq : h.Live q) :
    (h.store q c).kill p = (h.kill p).store q c := by
  have hq' : (h.kill p).Live q := live_kill.mpr ⟨hq, hqp.symm⟩
  refine Heap.ext (funext fun x => ?_) rfl
  by_cases hx : x = q
  · rw [hx, kill_of_ne hqp.symm, store_self hq, store_self hq']
  · rw [store_of_ne hx]
    by_cases hxp : x = p
    · rw [hxp, kill_self, kill_self]
    · rw [kill_of_ne hxp, kill_of_ne hxp, store_of_ne hx]

/-- How many nodes are live. -/
def size (h : Heap κ) : ℕ := ((Finset.range h.next).filter fun p => (h.cells p).isSome).card

theorem size_kill_lt (hp : h.Live p) : (h.kill p).size < h.size := by
  refine Finset.card_lt_card ((Finset.ssubset_iff_of_subset fun q hq => ?_).mpr ⟨p, ?_, ?_⟩)
  · obtain ⟨hlt, hlive⟩ := Finset.mem_filter.mp hq
    rw [Option.isSome_iff_exists] at hlive
    exact Finset.mem_filter.mpr
      ⟨hlt, Option.isSome_iff_exists.mpr (live_kill.mp hlive).1⟩
  · exact Finset.mem_filter.mpr
      ⟨Finset.mem_range.mpr (lt_of_live hp), Option.isSome_iff_exists.mpr hp⟩
  · intro hmem
    have hlive := Option.isSome_iff_exists.mp (Finset.mem_filter.mp hmem).2
    exact (live_kill.mp hlive).2 rfl

theorem size_le (h : Heap κ) : h.size ≤ h.next := by
  have := Finset.card_filter_le (Finset.range h.next) fun p => (h.cells p).isSome
  rwa [Finset.card_range] at this

/-- `h'` is what is left of `h` after deletions. -/
structure Remains (h h' : Heap κ) : Prop where
  cells : ∀ p, h'.cells p = h.cells p ∨ h'.cells p = none
  next : h'.next = h.next

theorem Remains.refl (h : Heap κ) : Remains h h := ⟨fun _ => .inl rfl, rfl⟩

theorem Remains.trans {h₁ h₂ h₃ : Heap κ} (h₁₂ : Remains h₁ h₂) (h₂₃ : Remains h₂ h₃) :
    Remains h₁ h₃ where
  cells := fun p => (h₂₃.cells p).elim (fun heq => heq ▸ h₁₂.cells p) .inr
  next := h₂₃.next.trans h₁₂.next

theorem remains_kill (h : Heap κ) (p : ℕ) : Remains h (h.kill p) where
  cells := fun q => by
    by_cases hq : q = p
    · exact .inr (hq ▸ kill_self)
    · exact .inl (kill_of_ne hq)
  next := rfl

theorem Remains.cell {h' : Heap κ} (hr : Remains h h') (hc : h'.cells p = some c) :
    h.cells p = some c := by
  rcases hr.cells p with heq | hnone
  · rwa [← heq]
  · cases hnone.symm.trans hc

theorem Remains.live {h' : Heap κ} (hr : Remains h h') (hp : h'.Live p) : h.Live p :=
  hp.imp fun _ => hr.cell

theorem Remains.size_le {h' : Heap κ} (hr : Remains h h') : h'.size ≤ h.size := by
  refine Finset.card_le_card fun q hq => ?_
  obtain ⟨hlt, hlive⟩ := Finset.mem_filter.mp hq
  rw [Option.isSome_iff_exists] at hlive
  rw [hr.next] at hlt
  exact Finset.mem_filter.mpr ⟨hlt, Option.isSome_iff_exists.mpr (hr.live hlive)⟩

end Heap

/-! ## Owned heaps -/

section Owned

variable (children : κ → List ℕ)

/-- `c` is in a slot of `p`. -/
def Child (h : Heap κ) (p c : ℕ) : Prop := ∃ cell, h.cells p = some cell ∧ c ∈ children cell

/-- Each live node is in one place, among the addresses `O` or in one slot of a live node. -/
structure Owned (O : List ℕ) (h : Heap κ) : Prop where
  slot_live : ∀ p c, Child children h p c → h.Live c
  outside_live : ∀ p ∈ O, h.Live p
  outside_nodup : O.Nodup
  slot_nodup : ∀ p cell, h.cells p = some cell → (children cell).Nodup
  slot_unique : ∀ p q c, Child children h p c → Child children h q c → p = q
  slot_inside : ∀ p c, Child children h p c → c ∉ O
  placed : ∀ c, h.Live c → c ∈ O ∨ ∃ p, Child children h p c

/-- The slots go down in some rank. -/
def Decreases (rank : ℕ → ℕ) (h : Heap κ) : Prop :=
  ∀ p c, Child children h p c → rank c < rank p

/-- The deletion of a node and of all that it owns. Its life ends before its children are
deleted. -/
def delete : ℕ → Heap κ → ℕ → Option (Heap κ)
  | 0, _, _ => none
  | fuel + 1, h, p =>
    match h.cells p with
    | none => none
    | some cell => (children cell).foldlM (delete fuel) (h.kill p)

variable {children} {O O' : List ℕ} {h h' : Heap κ} {p r : ℕ} {cell cell' : κ}

theorem owned_empty : Owned children [] (Heap.empty : Heap κ) where
  slot_live := fun _ _ ⟨_, hc, _⟩ => by cases hc
  outside_live := List.forall_mem_nil _
  outside_nodup := List.nodup_nil
  slot_nodup := fun _ _ hc => by cases hc
  slot_unique := fun _ _ _ ⟨_, hc, _⟩ => by cases hc
  slot_inside := fun _ _ _ => List.not_mem_nil
  placed := fun _ ⟨_, hc⟩ => by cases hc

theorem Owned.perm (hO : O.Perm O') (h₁ : Owned children O h) : Owned children O' h where
  slot_live := h₁.slot_live
  outside_live := fun p hp => h₁.outside_live p (hO.mem_iff.mpr hp)
  outside_nodup := hO.nodup_iff.mp h₁.outside_nodup
  slot_nodup := h₁.slot_nodup
  slot_unique := h₁.slot_unique
  slot_inside := fun p c hc hmem => h₁.slot_inside p c hc (hO.mem_iff.mpr hmem)
  placed := fun c hc => (h₁.placed c hc).imp_left hO.mem_iff.mp

theorem child_of_remains (hr : Heap.Remains h h') {p c : ℕ} (hc : Child children h' p c) :
    Child children h p c := hc.imp fun _ ⟨hcell, hmem⟩ => ⟨hr.cell hcell, hmem⟩

theorem Decreases.remains {rank : ℕ → ℕ} (hd : Decreases children rank h)
    (hr : Heap.Remains h h') : Decreases children rank h' :=
  fun p c hc => hd p c (child_of_remains hr hc)

/-- When the life of a node ends its children are owned outside. -/
theorem Owned.kill (ho : Owned children (p :: O) h) (hp : h.cells p = some cell) :
    Owned children (children cell ++ O) (h.kill p) := by
  have hchild {q c : ℕ} (hc : Child children (h.kill p) q c) : Child children h q c ∧ q ≠ p :=
    ⟨child_of_remains (Heap.remains_kill h p) hc,
      (Heap.live_kill.mp (hc.imp fun _ hcell => hcell.1)).2⟩
  have hown : ∀ c ∈ children cell, Child children h p c := fun c hc => ⟨cell, hp, hc⟩
  have hne {q c : ℕ} (hc : Child children h q c) : c ≠ p := by
    rintro rfl
    exact ho.slot_inside q c hc List.mem_cons_self
  obtain ⟨hpO, hO⟩ := List.nodup_cons.mp ho.outside_nodup
  constructor
  · exact fun q c hc => Heap.live_kill.mpr
      ⟨ho.slot_live q c (hchild hc).1, hne (hchild hc).1⟩
  · intro c hc
    rcases List.mem_append.mp hc with hc | hc
    · exact Heap.live_kill.mpr ⟨ho.slot_live p c (hown c hc), hne (hown c hc)⟩
    · exact Heap.live_kill.mpr ⟨ho.outside_live c (List.mem_cons_of_mem _ hc),
        fun heq => hpO (heq ▸ hc)⟩
  · refine List.nodup_append'.mpr ⟨ho.slot_nodup p cell hp, hO, fun c hc hcO => ?_⟩
    exact ho.slot_inside p c (hown c hc) (List.mem_cons_of_mem _ hcO)
  · exact fun q c hc => ho.slot_nodup q c ((Heap.remains_kill h p).cell hc)
  · exact fun q q' c hc hc' => ho.slot_unique q q' c (hchild hc).1 (hchild hc').1
  · intro q c hc hmem
    obtain ⟨hc, hq⟩ := hchild hc
    rcases List.mem_append.mp hmem with hmem | hmem
    · exact hq (ho.slot_unique q p c hc (hown c hmem))
    · exact ho.slot_inside q c hc (List.mem_cons_of_mem _ hmem)
  · intro c hc
    obtain ⟨hlive, hcp⟩ := Heap.live_kill.mp hc
    rcases ho.placed c hlive with hmem | ⟨q, hq⟩
    · exact .inl (List.mem_append_right _ ((List.mem_cons.mp hmem).resolve_left hcp))
    · by_cases hqp : q = p
      · subst hqp
        obtain ⟨cell', hcell, hmem⟩ := hq
        obtain rfl := Option.some.inj (hp.symm.trans hcell)
        exact .inl (List.mem_append_left _ hmem)
      · obtain ⟨cell', hcell, hmem⟩ := hq
        exact .inr ⟨q, cell', (Heap.kill_of_ne hqp).trans hcell, hmem⟩

variable (children) in
/-- What the deletion of the nodes `cs` leaves: the others in their places, and the nodes
that no one of `cs` can own as they were. -/
structure Deleted (cs O : List ℕ) (h h' : Heap κ) : Prop where
  owned : Owned children O h'
  remains : Heap.Remains h h'
  above : ∀ rank, Decreases children rank h → ∀ q, (∀ c ∈ cs, rank c < rank q) →
    h'.cells q = h.cells q

theorem Deleted.cons {c : ℕ} {cs : List ℕ} {h₁ h₂ : Heap κ}
    (h₁₂ : Deleted children [c] (cs ++ O) h h₁) (h₂₃ : Deleted children cs O h₁ h₂) :
    Deleted children (c :: cs) O h h₂ where
  owned := h₂₃.owned
  remains := h₁₂.remains.trans h₂₃.remains
  above := fun rank hd q hq => by
    obtain ⟨hc, hcs⟩ := List.forall_mem_cons.mp hq
    rw [h₂₃.above rank (hd.remains h₁₂.remains) q hcs,
      h₁₂.above rank hd q (List.forall_mem_singleton.mpr hc)]

theorem Owned.deleteAll {fuel : ℕ}
    (ih : ∀ {h : Heap κ} {p : ℕ} {O : List ℕ}, Owned children (p :: O) h → h.size < fuel →
      ∃ h', delete children fuel h p = some h' ∧ Deleted children [p] O h h')
    {cs : List ℕ} (ho : Owned children (cs ++ O) h) (hfuel : h.size < fuel) :
    ∃ h', cs.foldlM (delete children fuel) h = some h' ∧ Deleted children cs O h h' := by
  induction cs generalizing h with
  | nil => exact ⟨h, rfl, ho, .refl h, fun _ _ _ _ => rfl⟩
  | cons c cs ihcs =>
    obtain ⟨h₁, hdel, hfirst⟩ := ih ho hfuel
    obtain ⟨h₂, hrest, hlast⟩ := ihcs hfirst.owned (hfirst.remains.size_le.trans_lt hfuel)
    refine ⟨h₂, ?_, hfirst.cons hlast⟩
    rw [List.foldlM_cons, hdel]
    exact hrest

/-- The deletion of a node that is owned outside is defined. -/
theorem Owned.delete (ho : Owned children (p :: O) h) {fuel : ℕ} (hfuel : h.size < fuel) :
    ∃ h', delete children fuel h p = some h' ∧ Deleted children [p] O h h' := by
  induction fuel generalizing h p O with
  | zero => exact absurd hfuel (Nat.not_lt_zero _)
  | succ fuel ih =>
    obtain ⟨cell, hcell⟩ := ho.outside_live p List.mem_cons_self
    have hlt : (h.kill p).size < fuel := by
      have := Heap.size_kill_lt ⟨cell, hcell⟩
      omega
    obtain ⟨h', hdel, hchildren⟩ := (ho.kill hcell).deleteAll ih hlt
    have hremains := Heap.remains_kill h p
    refine ⟨h', by rw [OwnedHeap.delete, hcell]; exact hdel, hchildren.owned,
      hremains.trans hchildren.remains, fun rank hd q hq => ?_⟩
    have hpq := hq p List.mem_cons_self
    have hne : q ≠ p := by
      rintro rfl
      exact absurd hpq (lt_irrefl _)
    rw [hchildren.above rank (hd.remains hremains) q fun c hc => ?_, Heap.kill_of_ne hne]
    exact (hd p c ⟨cell, hcell, hc⟩).trans hpq

/-! ### What a deletion does not look at -/

theorem foldlM_remains {f : Heap κ → ℕ → Option (Heap κ)}
    (hf : ∀ {h h' p}, f h p = some h' → Heap.Remains h h') {cs : List ℕ}
    (hfold : cs.foldlM f h = some h') : Heap.Remains h h' := by
  induction cs generalizing h with
  | nil =>
    cases hfold
    exact .refl _
  | cons c cs ih =>
    rw [List.foldlM_cons] at hfold
    obtain ⟨h₁, hfirst, hrest⟩ := Option.bind_eq_some_iff.mp hfold
    exact (hf hfirst).trans (ih hrest)

theorem delete_remains {fuel : ℕ} (hdel : OwnedHeap.delete children fuel h p = some h') :
    Heap.Remains h h' := by
  induction fuel generalizing h h' p with
  | zero => cases hdel
  | succ fuel ih =>
    rw [OwnedHeap.delete] at hdel
    split at hdel
    · cases hdel
    · exact (Heap.remains_kill h p).trans (foldlM_remains ih hdel)

/-- The cell of a node that is left does not matter. -/
theorem delete_store {fuel : ℕ} {c : κ} (hr : h'.Live r)
    (hdel : OwnedHeap.delete children fuel h p = some h') :
    OwnedHeap.delete children fuel (h.store r c) p = some (h'.store r c) := by
  induction fuel generalizing h h' p with
  | zero => cases hdel
  | succ fuel ih =>
    have hlive := (delete_remains hdel).live hr
    rw [OwnedHeap.delete] at hdel
    split at hdel
    · cases hdel
    next cell hcell =>
      have hpr : p ≠ r := by
        rintro rfl
        exact (Heap.live_kill.mp ((foldlM_remains delete_remains hdel).live hr)).2 rfl
      rw [OwnedHeap.delete, Heap.store_of_ne hpr, hcell]
      simp only [Heap.kill_store hpr hlive]
      generalize children cell = cs at hdel
      generalize h.kill p = h₀ at hdel ⊢
      induction cs generalizing h₀ with
      | nil =>
        cases hdel
        rfl
      | cons c cs ihcs =>
        rw [List.foldlM_cons] at hdel
        obtain ⟨h₁, hfirst, hrest⟩ := Option.bind_eq_some_iff.mp hdel
        have hleft := (foldlM_remains delete_remains hrest).live hr
        rw [List.foldlM_cons, ih hleft hfirst]
        exact ihcs h₁ hrest

/-! ### Changing owners -/

/-- A new node takes its children over. -/
theorem Owned.alloc (ho : Owned children (children cell ++ O) h) :
    Owned children (h.next :: O) (h.alloc cell).1 := by
  have hnew {q : ℕ} (hq : h.Live q) : q ≠ h.next := (Heap.lt_of_live hq).ne
  have hchild {q c : ℕ} : Child children (h.alloc cell).1 q c ↔
      Child children h q c ∨ q = h.next ∧ c ∈ children cell := by
    by_cases hq : q = h.next
    · subst hq
      have hnone : h.cells h.next = none := h.fresh _ le_rfl
      simp [Child, Heap.alloc_self, hnone]
    · simp [Child, Heap.alloc_of_ne hq, hq]
  obtain ⟨hnodup, hO, hdisjoint⟩ := List.nodup_append'.mp ho.outside_nodup
  have houtside {c : ℕ} (hc : c ∈ O) : c ∈ children cell ++ O := List.mem_append_right _ hc
  have hinside {c : ℕ} (hc : c ∈ children cell) : c ∈ children cell ++ O :=
    List.mem_append_left _ hc
  constructor
  · intro q c hc
    refine Heap.live_alloc.mpr (.inl ?_)
    rcases hchild.mp hc with hc | ⟨-, hc⟩
    · exact ho.slot_live q c hc
    · exact ho.outside_live c (hinside hc)
  · exact List.forall_mem_cons.mpr ⟨Heap.live_alloc.mpr (.inr rfl),
      fun c hc => Heap.live_alloc.mpr (.inl (ho.outside_live c (houtside hc)))⟩
  · exact List.nodup_cons.mpr ⟨fun hc => hnew (ho.outside_live _ (houtside hc)) rfl, hO⟩
  · intro q c hc
    by_cases hq : q = h.next
    · subst hq
      obtain rfl := Option.some.inj (Heap.alloc_self.symm.trans hc)
      exact hnodup
    · exact ho.slot_nodup q c ((Heap.alloc_of_ne hq).symm.trans hc)
  · intro q q' c hc hc'
    rcases hchild.mp hc with hold | ⟨rfl, hown⟩ <;>
      rcases hchild.mp hc' with hold' | ⟨rfl, hown'⟩
    · exact ho.slot_unique q q' c hold hold'
    · exact absurd (hinside hown') (ho.slot_inside q c hold)
    · exact absurd (hinside hown) (ho.slot_inside q' c hold')
    · rfl
  · intro q c hc hmem
    rcases List.mem_cons.mp hmem with rfl | hmem <;> rcases hchild.mp hc with hc | ⟨-, hc⟩
    · exact hnew (ho.slot_live q _ hc) rfl
    · exact hnew (ho.outside_live _ (hinside hc)) rfl
    · exact ho.slot_inside q c hc (houtside hmem)
    · exact hdisjoint hc hmem
  · intro c hc
    rcases Heap.live_alloc.mp hc with hc | rfl
    · rcases ho.placed c hc with hmem | ⟨q, hq⟩
      · rcases List.mem_append.mp hmem with hmem | hmem
        · exact .inr ⟨h.next, hchild.mpr (.inr ⟨rfl, hmem⟩)⟩
        · exact .inl (List.mem_cons_of_mem _ hmem)
      · exact .inr ⟨q, hchild.mpr (.inl hq)⟩
    · exact .inl List.mem_cons_self

/-- The cell of a node is changed so that its slots and the owners outside hold together
what they held before. -/
theorem Owned.store (ho : Owned children O h) (hr : h.cells r = some cell)
    (hperm : (children cell' ++ O').Perm (children cell ++ O)) :
    Owned children O' (h.store r cell') := by
  have hlive : h.Live r := ⟨cell, hr⟩
  have hchild {q c : ℕ} : Child children (h.store r cell') q c ↔
      q ≠ r ∧ Child children h q c ∨ q = r ∧ c ∈ children cell' := by
    by_cases hq : q = r
    · subst hq
      simp [Child, Heap.store_self hlive]
    · simp [Child, Heap.store_of_ne hq, hq]
  have hbefore : (children cell ++ O).Nodup := by
    refine List.nodup_append'.mpr ⟨ho.slot_nodup r cell hr, ho.outside_nodup, fun c hc => ?_⟩
    exact ho.slot_inside r c ⟨cell, hr, hc⟩
  obtain ⟨hnodup, hO', hdisjoint⟩ := List.nodup_append'.mp (hperm.nodup_iff.mpr hbefore)
  have hheld {c : ℕ} (hc : c ∈ children cell' ++ O') : h.Live c ∧ ∀ q, Child children h q c →
      q = r := by
    rcases List.mem_append.mp (hperm.mem_iff.mp hc) with hc | hc
    · have hrc : Child children h r c := ⟨cell, hr, hc⟩
      exact ⟨ho.slot_live r c hrc, fun q hq => ho.slot_unique q r c hq hrc⟩
    · exact ⟨ho.outside_live c hc, fun q hq => absurd hc (ho.slot_inside q c hq)⟩
  have hinside {c : ℕ} (hc : c ∈ children cell') := hheld (List.mem_append_left O' hc)
  have houtside {c : ℕ} (hc : c ∈ O') := hheld (List.mem_append_right (children cell') hc)
  constructor
  · intro q c hc
    refine Heap.live_store.mpr ?_
    rcases hchild.mp hc with ⟨-, hc⟩ | ⟨-, hc⟩
    · exact ho.slot_live q c hc
    · exact (hinside hc).1
  · exact fun c hc => Heap.live_store.mpr (houtside hc).1
  · exact hO'
  · intro q c hc
    by_cases hq : q = r
    · subst hq
      obtain rfl := Option.some.inj ((Heap.store_self hlive).symm.trans hc)
      exact hnodup
    · exact ho.slot_nodup q c ((Heap.store_of_ne hq).symm.trans hc)
  · intro q q' c hc hc'
    rcases hchild.mp hc with ⟨hq, hold⟩ | ⟨rfl, hnew⟩ <;>
      rcases hchild.mp hc' with ⟨hq', hold'⟩ | ⟨rfl, hnew'⟩
    · exact ho.slot_unique q q' c hold hold'
    · exact absurd ((hinside hnew').2 q hold) hq
    · exact absurd ((hinside hnew).2 q' hold') hq'
    · rfl
  · intro q c hc hmem
    rcases hchild.mp hc with ⟨hq, hold⟩ | ⟨-, hnew⟩
    · exact hq ((houtside hmem).2 q hold)
    · exact hdisjoint hnew hmem
  · intro c hc
    have hstill (hc : c ∈ children cell ++ O) :
        c ∈ O' ∨ ∃ q, Child children (h.store r cell') q c := by
      rcases List.mem_append.mp (hperm.mem_iff.mpr hc) with hc | hc
      · exact .inr ⟨r, hchild.mpr (.inr ⟨rfl, hc⟩)⟩
      · exact .inl hc
    rcases ho.placed c (Heap.live_store.mp hc) with hmem | ⟨q, hq⟩
    · exact hstill (List.mem_append_right _ hmem)
    · by_cases hqr : q = r
      · subst hqr
        obtain ⟨cell₁, hcell₁, hmem⟩ := hq
        obtain rfl := Option.some.inj (hr.symm.trans hcell₁)
        exact hstill (List.mem_append_left _ hmem)
      · exact .inr ⟨q, hchild.mpr (.inl ⟨hqr, hq⟩)⟩

/-! ## No node owns itself -/

variable (children) in
def Acyclic (h : Heap κ) : Prop := ∃ rank, Decreases children rank h

variable (children) in
/-- The nodes that are deleted with `p`. -/
def Reaches (h : Heap κ) : ℕ → ℕ → Prop := Relation.ReflTransGen (Child children h)

theorem Acyclic.not_transGen (ha : Acyclic children h) (p : ℕ) :
    ¬Relation.TransGen (Child children h) p p := by
  obtain ⟨rank, hd⟩ := ha
  have hlt {q c : ℕ} (hc : Relation.TransGen (Child children h) q c) : rank c < rank q := by
    induction hc with
    | single hc => exact hd _ _ hc
    | tail _ hc ih => exact (hd _ _ hc).trans ih
  exact fun hc => lt_irrefl _ (hlt hc)

theorem rank_le_sum {rank : ℕ → ℕ} {cs : List ℕ} {c : ℕ} (hc : c ∈ cs) :
    rank c ≤ (cs.map rank).sum :=
  List.single_le_sum (fun _ _ => Nat.zero_le _) _ (List.mem_map_of_mem hc)

theorem Acyclic.remains (ha : Acyclic children h) (hr : Heap.Remains h h') :
    Acyclic children h' := ha.imp fun _ hd => hd.remains hr

theorem Acyclic.alloc (ha : Acyclic children h) (ho : Owned children (children cell ++ O) h) :
    Acyclic children (h.alloc cell).1 := by
  obtain ⟨rank, hd⟩ := ha
  refine ⟨Function.update rank h.next (((children cell).map rank).sum + 1), ?_⟩
  rintro q c ⟨cell₁, hcell₁, hc⟩
  by_cases hq : q = h.next
  · subst hq
    obtain rfl := Option.some.inj (Heap.alloc_self.symm.trans hcell₁)
    have hlive := ho.outside_live c (List.mem_append_left _ hc)
    rw [Function.update_self, Function.update_of_ne (Heap.lt_of_live hlive).ne]
    exact Nat.lt_succ_of_le (rank_le_sum hc)
  · have hold : Child children h q c := ⟨cell₁, Heap.alloc_of_ne hq ▸ hcell₁, hc⟩
    have hlive := ho.slot_live q c hold
    rw [Function.update_of_ne hq, Function.update_of_ne (Heap.lt_of_live hlive).ne]
    exact hd q c hold

/-- A node may be given to another one that it does not own. -/
theorem Acyclic.store (ha : Acyclic children h) (hr : h.cells r = some cell)
    (hnew : ∀ c ∈ children cell', c ∈ children cell ∨ ¬Reaches children h c r) :
    Acyclic children (h.store r cell') := by
  classical
  obtain ⟨rank, hd⟩ := ha
  -- what owns `r` is lifted above all that `r` owns now
  let lift := ((children cell').map rank).sum + 1
  refine ⟨fun q => if Reaches children h q r then rank q + lift else rank q, ?_⟩
  have hold {q c : ℕ} (hc : Child children h q c) :
      (if Reaches children h c r then rank c + lift else rank c) <
        if Reaches children h q r then rank q + lift else rank q := by
    have hlt := hd q c hc
    by_cases hcr : Reaches children h c r
    · have hqr : Reaches children h q r := Relation.ReflTransGen.head hc hcr
      rw [if_pos hcr, if_pos hqr]
      omega
    · rw [if_neg hcr]
      split_ifs <;> omega
  rintro q c ⟨cell₁, hcell₁, hc⟩
  by_cases hq : q = r
  · subst hq
    obtain rfl := Option.some.inj ((Heap.store_self ⟨cell, hr⟩).symm.trans hcell₁)
    rcases hnew c hc with hmem | hreach
    · exact hold ⟨cell, hr, hmem⟩
    · have hle : rank c ≤ ((children cell').map rank).sum := rank_le_sum hc
      have hself : Reaches children h q q := Relation.ReflTransGen.refl
      simp only [if_neg hreach, if_pos hself]
      omega
  · exact hold ⟨cell₁, Heap.store_of_ne hq ▸ hcell₁, hc⟩

/-- In a heap without owners outside there is no node. -/
theorem Owned.not_live_of_nil (ho : Owned children [] h) (ha : Acyclic children h) (p : ℕ) :
    ¬h.Live p := by
  intro hp
  obtain ⟨rank, hd⟩ := ha
  have hmem {q : ℕ} : q ∈ (Finset.range h.next).filter (fun q => (h.cells q).isSome) ↔
      h.Live q := by
    rw [Finset.mem_filter, Option.isSome_iff_exists]
    exact ⟨And.right, fun hq => ⟨Finset.mem_range.mpr (Heap.lt_of_live hq), hq⟩⟩
  obtain ⟨top, htop, hmax⟩ := Finset.exists_max_image _ rank ⟨p, hmem.mpr hp⟩
  obtain ⟨q, hq⟩ := (ho.placed top (hmem.mp htop)).resolve_left List.not_mem_nil
  have hle := hmax q (hmem.mpr (hq.imp fun _ hcell => hcell.1))
  exact absurd (hd q top hq) (not_lt.mpr hle)

end Owned

end OwnedHeap
