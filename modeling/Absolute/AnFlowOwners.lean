import Absolute.AnFlowJoin

/-!
# The owner after a merge

The owner of a pointer is taken from the next path while the pointer may be null and has none,
kept over a path where it may be null, and dropped at any other owner.
-/

namespace Absolute

namespace Flow

open JoinFold

namespace ValueFlowState

def nullable (s : ValueFlowState) : Bool := s.pointerValidity.nullable

def soft (s : ValueFlowState) : Bool := s.pointerValidity.soft

/-- Null, or possibly, and without an owner. -/
def Open (s : ValueFlowState) : Prop := s.soft = true ∧ s.pointerOwner = InvalidSymbolId

variable {a s : ValueFlowState}

theorem nullable_of_soft (h : s.soft = true) : s.nullable = true :=
  PointerValidity.nullable_of_soft h

/-! ## One step -/

theorem nullable_merge (a s : ValueFlowState) :
    (mergeState a s).nullable = (a.nullable && s.nullable) :=
  PointerValidity.nullable_merge _ _

theorem owner_of_eq (h : a.pointerOwner = s.pointerOwner) :
    (mergeState a s).pointerOwner = a.pointerOwner :=
  if_neg (not_not.mpr h)

theorem owner_of_open (h : a.Open) : (mergeState a s).pointerOwner = s.pointerOwner := by
  by_cases heq : a.pointerOwner = s.pointerOwner
  · rw [owner_of_eq heq, heq]
  · exact (if_pos heq).trans (if_pos h)

theorem owner_of_soft (ha : ¬a.Open) (hs : s.soft = true) :
    (mergeState a s).pointerOwner = a.pointerOwner := by
  by_cases heq : a.pointerOwner = s.pointerOwner
  · exact owner_of_eq heq
  · exact (if_pos heq).trans ((if_neg ha).trans (if_neg (not_not.mpr hs)))

theorem owner_of_ne (ha : ¬a.Open) (hs : s.soft = false) (hne : a.pointerOwner ≠ s.pointerOwner) :
    (mergeState a s).pointerOwner = InvalidSymbolId := by
  have hs' : ¬s.pointerValidity.soft = true := by
    rw [show s.pointerValidity.soft = false from hs]
    exact Bool.false_ne_true
  exact (if_pos hne).trans ((if_neg ha).trans (if_pos hs'))

end ValueFlowState

open ValueFlowState

variable {b : ValueFlowState} {w v : List ValueFlowState}

theorem nullable_foldState (hw : w ≠ []) :
    (foldFrom mergeState b w).nullable = true ↔ ∀ s ∈ w, s.nullable = true := by
  rw [ValueFlowState.nullable, fold_validity, nullable_fold (by simpa using hw),
    List.forall_mem_map]
  rfl

theorem soft_foldState (hw : w ≠ []) : (foldFrom mergeState b w).soft = true ↔
    (∀ s ∈ w, s.nullable = true) ∧ ∃ s ∈ w, s.soft = true := by
  rw [ValueFlowState.soft, fold_validity, soft_fold (by simpa using hw), List.forall_mem_map]
  simp only [List.mem_map, exists_exists_and_eq_and]
  rfl

theorem not_nullable_foldState (hw : w ≠ []) :
    (foldFrom mergeState b w).nullable = false ↔ ∃ s ∈ w, s.nullable = false := by
  rw [← Bool.not_eq_true, nullable_foldState hw]
  simp only [not_forall, exists_prop, Bool.not_eq_true]

/-! ## States whose order does not matter -/

/-- No pointer that may be null. -/
def AllFirm (w : List ValueFlowState) : Prop := ∀ s ∈ w, s.soft = false

/-- Pointers that are not nullable, of different owners or of none. -/
def Scattered (w : List ValueFlowState) : Prop :=
  ∃ s ∈ w, s.nullable = false ∧ (s.pointerOwner = InvalidSymbolId ∨
    ∃ t ∈ w, t.nullable = false ∧ t.pointerOwner ≠ s.pointerOwner)

/-- One owner, where there is any. -/
def OneOwner (u : SymbolId) (w : List ValueFlowState) : Prop :=
  ∀ s ∈ w, ¬s.Open → s.pointerOwner = u

/-- One owner of the nullable ones, live somewhere, and another one of what is not nullable. -/
def Split (l : SymbolId) (w : List ValueFlowState) : Prop :=
  (∃ s ∈ w, s.pointerValidity = .live) ∧
    (∀ s ∈ w, s.nullable = true → ¬s.Open → s.pointerOwner = l) ∧
      ∃ s ∈ w, s.nullable = false ∧ s.pointerOwner ≠ l

def OwnersSettled (w : List ValueFlowState) : Prop :=
  AllFirm w ∨ Scattered w ∨ (∃ u, OneOwner u w) ∨ ∃ l, l ≠ InvalidSymbolId ∧ Split l w

theorem OneOwner.owner_fold {u : SymbolId} (h : OneOwner u w) (hw : w ≠ []) :
    ((∃ s ∈ w, ¬s.Open) → (foldFrom mergeState b w).pointerOwner = u) ∧
      ((∀ s ∈ w, s.Open) → (foldFrom mergeState b w).Open) := by
  induction w using List.reverseRecOn with
  | nil => exact absurd rfl hw
  | append_singleton w s ih =>
    obtain rfl | hne := eq_or_ne w []
    · constructor
      · rintro ⟨s', hs', hclaim⟩
        rw [List.mem_singleton.mp hs'] at hclaim
        exact h s (List.mem_singleton_self s) hclaim
      · exact fun hopen => hopen s (List.mem_singleton_self s)
    obtain ⟨hw', hs⟩ := List.forall_mem_append.mp h
    rw [List.forall_mem_singleton] at hs
    obtain ⟨hsome, hnone⟩ := ih hw' hne
    constructor
    · intro hclaim
      rw [foldFrom_concat hne]
      by_cases hold : ∃ s ∈ w, ¬s.Open
      · have ha := hsome hold
        by_cases hso : s.Open
        · by_cases hao : (foldFrom mergeState b w).Open
          · rw [owner_of_open hao, hso.2, ← hao.2, ha]
          · rw [owner_of_soft hao hso.1, ha]
        · rw [owner_of_eq (ha.trans (hs hso).symm), ha]
      · have hall : ∀ s ∈ w, s.Open := by
          intro s' hs'
          by_contra hc
          exact hold ⟨s', hs', hc⟩
        obtain hc | hc := exists_mem_concat.mp hclaim
        · exact absurd hc hold
        · rw [owner_of_open (hnone hall), hs hc]
    · intro hopen
      have hw'' := List.forall_mem_append.mp hopen
      rw [List.forall_mem_singleton] at hw''
      refine ⟨(soft_foldState hw).mpr ⟨fun s hs => nullable_of_soft (hopen s hs).1, ?_⟩, ?_⟩
      · exact ⟨s, List.mem_append_right w (List.mem_singleton_self s), hw''.2.1⟩
      · rw [foldFrom_concat hne, owner_of_open (hnone hw''.1), hw''.2.2]

/-- Pointers that are firm, and that the merge no longer forgets once one is visited. -/
theorem owner_kept {P : ValueFlowState → Prop} (hfirm : ∀ s, P s → s.soft = false)
    (hclosed : ∀ u, u <+: w → (∃ s ∈ u, P s) → ¬(foldFrom mergeState b u).Open) (hw : w ≠ []) :
    (∀ s ∈ w, P s → s.pointerOwner = (foldFrom mergeState b w).pointerOwner) ∨
      (foldFrom mergeState b w).pointerOwner = InvalidSymbolId := by
  induction w using List.reverseRecOn with
  | nil => exact absurd rfl hw
  | append_singleton w s ih =>
    obtain rfl | hne := eq_or_ne w []
    · left
      intro s' hs' _
      rw [List.mem_singleton.mp hs']
      rfl
    have ih := ih (fun u hu => hclosed u (hu.trans (List.prefix_append w [s]))) hne
    have hclosed := hclosed w (List.prefix_append w [s])
    rw [foldFrom_concat hne, List.forall_mem_append, List.forall_mem_singleton]
    by_cases hao : (foldFrom mergeState b w).Open
    · -- nothing of the kind was visited
      left
      rw [owner_of_open hao]
      refine ⟨fun s' hs' hp => absurd hao (hclosed ⟨s', hs', hp⟩), fun _ => rfl⟩
    · by_cases hss : s.soft = true
      · rw [owner_of_soft hao hss]
        refine ih.imp (fun h => ⟨h, fun hp => ?_⟩) id
        rw [hfirm s hp] at hss
        cases hss
      · by_cases heq : (foldFrom mergeState b w).pointerOwner = s.pointerOwner
        · rw [owner_of_eq heq]
          exact ih.imp (fun h => ⟨h, fun _ => heq.symm⟩) id
        · exact .inr (owner_of_ne hao (Bool.not_eq_true _ ▸ hss) heq)

theorem not_open_of_not_nullable (h : ∃ s ∈ w, s.nullable = false) :
    ¬(foldFrom mergeState b w).Open := by
  intro hopen
  have hw : w ≠ [] := by
    obtain ⟨s, hs, -⟩ := h
    exact List.ne_nil_of_mem hs
  have := nullable_of_soft hopen.1
  rw [(not_nullable_foldState hw).mpr h] at this
  cases this

theorem not_open_of_allFirm (h : AllFirm w) (hw : w ≠ []) : ¬(foldFrom mergeState b w).Open := by
  intro hopen
  obtain ⟨s, hs, hsoft⟩ := ((soft_foldState hw).mp hopen.1).2
  rw [h s hs] at hsoft
  cases hsoft

theorem firm_of_not_nullable {s : ValueFlowState} (h : s.nullable = false) : s.soft = false := by
  cases hs : s.soft with
  | false => rfl
  | true =>
    rw [nullable_of_soft hs] at h
    cases h

theorem not_open_of_firm {s : ValueFlowState} (h : s.soft = false) : ¬s.Open := by
  intro hopen
  rw [hopen.1] at h
  cases h

/-- The owner that every order of the states of `w` ends with. -/
def OwnerFixed (w : List ValueFlowState) : Prop :=
  ∃ o, ∀ b v, v ≠ [] → (∀ s, s ∈ v ↔ s ∈ w) → (foldFrom mergeState b v).pointerOwner = o

theorem OneOwner.fixed {u : SymbolId} (h : OneOwner u w) : OwnerFixed w := by
  by_cases hclaim : ∃ s ∈ w, ¬s.Open
  · refine ⟨u, fun b v hv hmem => ?_⟩
    have hone : OneOwner u v := fun s hs => h s ((hmem s).mp hs)
    exact (hone.owner_fold hv).1 (by simpa only [hmem] using hclaim)
  · refine ⟨InvalidSymbolId, fun b v hv hmem => ?_⟩
    have hone : OneOwner u v := fun s hs => h s ((hmem s).mp hs)
    refine ((hone.owner_fold hv).2 fun s hs => ?_).2
    by_contra hc
    exact hclaim ⟨s, (hmem s).mp hs, hc⟩

theorem AllFirm.fixed (h : AllFirm w) : OwnerFixed w := by
  by_cases hone : ∃ u, ∀ s ∈ w, s.pointerOwner = u
  · obtain ⟨u, hu⟩ := hone
    exact OneOwner.fixed (u := u) fun s hs _ => hu s hs
  · refine ⟨InvalidSymbolId, fun b v hv hmem => ?_⟩
    have hfirm : AllFirm v := fun s hs => h s ((hmem s).mp hs)
    refine (owner_kept (P := fun s => s.soft = false) (fun s hs => hs) ?_ hv).resolve_left ?_
    · rintro u hu ⟨s, hs, -⟩
      exact not_open_of_allFirm (fun s hs => hfirm s (hu.subset hs)) (List.ne_nil_of_mem hs)
    · exact fun hall => hone ⟨_, fun s hs => hall s ((hmem s).mpr hs) (h s hs)⟩

theorem Scattered.fixed (h : Scattered w) : OwnerFixed w := by
  refine ⟨InvalidSymbolId, fun b v hv hmem => ?_⟩
  have hkept := owner_kept (b := b) (w := v) (P := fun s => s.nullable = false)
    (fun s hs => firm_of_not_nullable hs) (fun u _ h => not_open_of_not_nullable h) hv
  obtain hall | hinv := hkept
  · obtain ⟨s, hs, hsn, hs'⟩ := h
    have hso := hall s ((hmem s).mpr hs) hsn
    obtain hinv | ⟨t, ht, htn, hne⟩ := hs'
    · rw [← hso, hinv]
    · exact absurd ((hall t ((hmem t).mpr ht) htn).trans hso.symm) hne
  · exact hinv

theorem Split.fixed {l : SymbolId} (hl : l ≠ InvalidSymbolId) (h : Split l w) : OwnerFixed w := by
  obtain ⟨⟨p, hp, hlive⟩, hclaims, q, hq, hqn, hne⟩ := h
  refine ⟨InvalidSymbolId, fun b v hv hmem => ?_⟩
  have hpfirm : p.soft = false := by rw [ValueFlowState.soft, hlive]; rfl
  have hkept := owner_kept (b := b) (w := v) (P := fun s => s.soft = false) (fun s hs => hs) ?_ hv
  · refine hkept.resolve_left fun hall => hne ?_
    have hpl : p.pointerOwner = l :=
      hclaims p hp (by rw [ValueFlowState.nullable, hlive]; rfl) (not_open_of_firm hpfirm)
    rw [← hpl, hall p ((hmem p).mpr hp) hpfirm,
      hall q ((hmem q).mpr hq) (firm_of_not_nullable hqn)]
  · rintro u hu ⟨s, hs, hfirm⟩
    by_cases hnull : ∀ t ∈ u, t.nullable = true
    · -- a live pointer was visited, and all are of its owner
      have hone : OneOwner l u := fun t ht =>
        hclaims t ((hmem t).mp (hu.subset ht)) (hnull t ht)
      have howner := (hone.owner_fold (b := b) (List.ne_nil_of_mem hs)).1
        ⟨s, hs, not_open_of_firm hfirm⟩
      exact fun hopen => hl (howner.symm.trans hopen.2)
    · refine not_open_of_not_nullable ?_
      simpa only [not_forall, exists_prop, Bool.not_eq_true] using hnull

theorem OwnersSettled.fixed (h : OwnersSettled w) : OwnerFixed w := by
  obtain h | h | ⟨u, h⟩ | ⟨l, hl, h⟩ := h
  · exact h.fixed
  · exact h.fixed
  · exact h.fixed
  · exact h.fixed hl

theorem OwnersSettled.owner_congr (h : OwnersSettled w) (hw : w ≠ []) (hv : v ≠ [])
    (hmem : ∀ s, s ∈ v ↔ s ∈ w) :
    (foldFrom mergeState b v).pointerOwner = (foldFrom mergeState b w).pointerOwner := by
  obtain ⟨o, ho⟩ := h.fixed
  rw [ho b v hv hmem, ho b w hw fun _ => Iff.rfl]

/-! ## Orders with another owner -/

theorem foldl_not_nullable {a : ValueFlowState} (ha : a.nullable = false) (s : ValueFlowState) :
    (mergeState a s).nullable = false ∧ ¬a.Open := by
  rw [nullable_merge, ha]
  exact ⟨rfl, not_open_of_firm (firm_of_not_nullable ha)⟩

theorem foldl_owner {a : ValueFlowState} (ha : a.nullable = false)
    (h : ∀ s ∈ w, s.soft = false → s.pointerOwner = a.pointerOwner) :
    (w.foldl mergeState a).pointerOwner = a.pointerOwner := by
  induction w generalizing a with
  | nil => rfl
  | cons s rest ih =>
    rw [List.forall_mem_cons] at h
    obtain ⟨hnull, hopen⟩ := foldl_not_nullable ha s
    have hs : (mergeState a s).pointerOwner = a.pointerOwner := by
      cases hsoft : s.soft with
      | true => exact owner_of_soft hopen hsoft
      | false => exact owner_of_eq (h.1 hsoft).symm
    rw [List.foldl_cons, ih hnull fun s hs' hsoft => (h.2 s hs' hsoft).trans hs.symm, hs]

theorem foldl_invalid {a : ValueFlowState} (ha : a.nullable = false)
    (hinv : a.pointerOwner = InvalidSymbolId) :
    (w.foldl mergeState a).pointerOwner = InvalidSymbolId := by
  induction w generalizing a with
  | nil => exact hinv
  | cons s rest ih =>
    obtain ⟨hnull, hopen⟩ := foldl_not_nullable ha s
    refine ih hnull ?_
    cases hsoft : s.soft with
    | true => rw [owner_of_soft hopen hsoft, hinv]
    | false =>
      by_cases heq : a.pointerOwner = s.pointerOwner
      · rw [owner_of_eq heq, hinv]
      · exact owner_of_ne hopen hsoft heq

theorem soft_merge_of {a s : ValueFlowState} (ha : a.soft = true) (hs : s.nullable = true) :
    (mergeState a s).soft = true := by
  refine (PointerValidity.soft_merge _ _).trans ?_
  rw [show a.pointerValidity.nullable = true from nullable_of_soft ha,
    show s.pointerValidity.nullable = true from hs, show a.pointerValidity.soft = true from ha]
  rfl

section Orders

variable {ι : Type} {f : ι → ValueFlowState} {p : List ι} {k : ι}

/-- Each of the others between two visits of one that may be null. -/
def returning (k : ι) (p : List ι) : List ι := k :: p.flatMap fun i => [i, k]

theorem mem_returning (hk : k ∈ p) (i : ι) : i ∈ returning k p ↔ i ∈ p := by
  simp only [returning, List.mem_cons, List.mem_flatMap, List.not_mem_nil, or_false]
  constructor
  · rintro (rfl | ⟨j, hj, rfl | rfl⟩)
    · exact hk
    · exact hj
    · exact hk
  · exact fun hi => .inr ⟨i, hi, .inl rfl⟩

theorem foldl_returning (hsoft : (f k).soft = true) (hopen : ¬(f k).Open)
    (hnull : ∀ i ∈ p, (f i).nullable = true) {a : ValueFlowState} (ha : a.soft = true)
    (hao : a.pointerOwner = (f k).pointerOwner) :
    (((p.flatMap fun i => [i, k]).map f).foldl mergeState a).soft = true ∧
      (((p.flatMap fun i => [i, k]).map f).foldl mergeState a).pointerOwner =
        (f k).pointerOwner := by
  induction p generalizing a with
  | nil => exact ⟨ha, hao⟩
  | cons i rest ih =>
    rw [List.forall_mem_cons] at hnull
    have hsoft₁ := soft_merge_of ha hnull.1
    have hsoft₂ := soft_merge_of hsoft₁ (nullable_of_soft hsoft)
    refine ih hnull.2 hsoft₂ ?_
    have haopen : ¬a.Open := fun h => hopen ⟨hsoft, hao ▸ h.2⟩
    by_cases heq : (mergeState a (f i)).pointerOwner = (f k).pointerOwner
    · rw [owner_of_eq heq, heq]
    · -- the owner was dropped, and is taken up again
      refine owner_of_open ⟨hsoft₁, ?_⟩
      cases hi : (f i).soft with
      | true => exact absurd ((owner_of_soft haopen hi).trans hao) heq
      | false =>
        by_cases hne : a.pointerOwner = (f i).pointerOwner
        · exact absurd ((owner_of_eq hne).trans hao) heq
        · exact owner_of_ne haopen hi hne

theorem fold_returning (hsoft : (f k).soft = true) (hopen : ¬(f k).Open)
    (hnull : ∀ i ∈ p, (f i).nullable = true) :
    (foldFrom mergeState b ((returning k p).map f)).soft = true ∧
      (foldFrom mergeState b ((returning k p).map f)).pointerOwner = (f k).pointerOwner :=
  foldl_returning hsoft hopen hnull hsoft rfl

/-- The paths of `p` in some order, with repetitions. -/
def Order (p v : List ι) : Prop := v ≠ [] ∧ ∀ i, i ∈ v ↔ i ∈ p

theorem Order.concat {i : ι} (hi : i ∈ p) {v : List ι} (hv : Order p v) : Order p (v ++ [i]) := by
  refine ⟨List.append_ne_nil_of_left_ne_nil hv.1 _, fun j => ?_⟩
  rw [List.mem_append, hv.2, List.mem_singleton]
  exact ⟨fun h => h.elim id (fun h => h ▸ hi), .inl⟩

theorem Order.cons {i : ι} (hi : i ∈ p) {v : List ι} (hv : Order p v) : Order p (i :: v) := by
  refine ⟨List.cons_ne_nil _ _, fun j => ?_⟩
  rw [List.mem_cons, hv.2]
  exact ⟨fun h => h.elim (fun h => h ▸ hi) id, .inr⟩

theorem Order.refl (hp : p ≠ []) : Order p p := ⟨hp, fun _ => Iff.rfl⟩

theorem order_filters (g : ι → Bool) (hp : p ≠ []) :
    Order p (p.filter g ++ p.filter fun i => !g i) := by
  have hmem : ∀ i, i ∈ (p.filter g ++ p.filter fun i => !g i) ↔ i ∈ p := by
    intro i
    rw [List.mem_append, List.mem_filter, List.mem_filter]
    cases g i <;> simp
  obtain ⟨i, hi⟩ := List.exists_mem_of_ne_nil p hp
  exact ⟨List.ne_nil_of_mem ((hmem i).mpr hi), hmem⟩

theorem Order.append_filter {v : List ι} {g : ι → Bool} (hp : p ≠ [])
    (hv : Order (p.filter g) v) : Order p (v ++ p.filter fun i => !g i) := by
  refine ⟨List.append_ne_nil_of_left_ne_nil hv.1 _, fun i => ?_⟩
  rw [List.mem_append, hv.2, ← List.mem_append]
  exact (order_filters g hp).2 i

theorem Order.returning (hk : k ∈ p) : Order p (returning k p) :=
  ⟨List.cons_ne_nil _ _, mem_returning hk⟩

/-- The state after the paths in the order `v`. -/
def after (b : ValueFlowState) (f : ι → ValueFlowState) (v : List ι) : ValueFlowState :=
  foldFrom mergeState b (v.map f)

theorem after_concat {v : List ι} (hv : v ≠ []) (i : ι) :
    after b f (v ++ [i]) = mergeState (after b f v) (f i) := by
  rw [after, List.map_append]
  exact foldFrom_concat (by simpa using hv)

theorem after_soft {v : List ι} (hv : Order p v) (hnull : ∀ i ∈ p, (f i).nullable = true)
    (hsoft : ∃ i ∈ p, (f i).soft = true) : (after b f v).soft = true := by
  refine (soft_foldState (by simpa using hv.1)).mpr ⟨?_, ?_⟩
  · rw [List.forall_mem_map]
    exact fun i hi => hnull i ((hv.2 i).mp hi)
  · obtain ⟨i, hi, hs⟩ := hsoft
    exact ⟨f i, List.mem_map_of_mem ((hv.2 i).mpr hi), hs⟩

/-- The owner depends on the order. -/
def OwnerVaries (b : ValueFlowState) (f : ι → ValueFlowState) (p : List ι) : Prop :=
  ∃ v₁ v₂, Order p v₁ ∧ Order p v₂ ∧ (after b f v₁).pointerOwner ≠ (after b f v₂).pointerOwner

theorem varies_of_nullable (hnull : ∀ i ∈ p, (f i).nullable = true)
    (hsoft : ∃ i ∈ p, (f i).soft = true)
    (howners : ∀ u, ∃ i ∈ p, ¬(f i).Open ∧ (f i).pointerOwner ≠ u) : OwnerVaries b f p := by
  have hp : Order p p := Order.refl (by
    obtain ⟨i, hi, -⟩ := hsoft
    exact List.ne_nil_of_mem hi)
  have hs := after_soft (b := b) hp hnull hsoft
  obtain ⟨c, hc, hcopen, hne⟩ := howners (after b f p).pointerOwner
  by_cases hopen : (after b f p).Open
  · refine ⟨_, _, hp.concat hc, hp, ?_⟩
    rwa [after_concat hp.1, owner_of_open hopen]
  · cases hcs : (f c).soft with
    | true =>
      refine ⟨_, _, Order.returning hc, hp, ?_⟩
      rw [after, (fold_returning hcs hcopen hnull).2]
      exact hne
    | false =>
      refine ⟨_, _, hp.concat hc, hp, ?_⟩
      rw [after_concat hp.1, owner_of_ne hopen hcs (Ne.symm hne)]
      exact fun h => hopen ⟨hs, h.symm⟩

/-- An order of nullable pointers that ends without an owner. -/
theorem open_order (hnull : ∀ i ∈ p, (f i).nullable = true)
    (hsoft : ∃ i ∈ p, (f i).soft = true) (hlive : ∃ i ∈ p, (f i).soft = false)
    (howners : ∀ l, l ≠ InvalidSymbolId → ∃ i ∈ p, ¬(f i).Open ∧ (f i).pointerOwner ≠ l) :
    ∃ v, Order p v ∧ (after b f v).Open := by
  obtain ⟨i, hi, hifirm⟩ := hlive
  have hp : Order p p := Order.refl (List.ne_nil_of_mem hi)
  have hs : ∀ {v}, Order p v → (after b f v).soft = true := fun hv => after_soft hv hnull hsoft
  -- a live pointer of another owner drops the owner
  have hdrop : ∀ {v j}, Order p v → j ∈ p → (f j).soft = false →
      (f j).pointerOwner ≠ (after b f v).pointerOwner → ∃ v, Order p v ∧ (after b f v).Open := by
    intro v j hv hj hfirm hne
    by_cases hopen : (after b f v).Open
    · exact ⟨v, hv, hopen⟩
    · refine ⟨_, hv.concat hj, hs (hv.concat hj), ?_⟩
      rw [after_concat hv.1, owner_of_ne hopen hfirm (Ne.symm hne)]
  by_cases hopen : (after b f p).Open
  · exact ⟨p, hp, hopen⟩
  have howner : (after b f p).pointerOwner ≠ InvalidSymbolId := fun h => hopen ⟨hs hp, h⟩
  obtain ⟨c, hc, hcopen, hne⟩ := howners _ howner
  cases hcs : (f c).soft with
  | false => exact hdrop hp hc hcs hne
  | true =>
    by_cases hio : (f i).pointerOwner = (after b f p).pointerOwner
    · refine hdrop (Order.returning hc) hi hifirm ?_
      rw [after, (fold_returning hcs hcopen hnull).2, hio]
      exact Ne.symm hne
    · exact hdrop hp hi hifirm hio

/-- From a pointer that is not nullable on, what is firm keeps its owner or loses it. -/
theorem after_cons_owner {q : ι} {v : List ι} (hq : (f q).nullable = false)
    (h : ∀ i ∈ v, (f i).soft = false → (f i).pointerOwner = (f q).pointerOwner) :
    (after b f (q :: v)).pointerOwner = (f q).pointerOwner := by
  refine foldl_owner hq ?_
  rw [List.forall_mem_map]
  exact h

theorem after_cons_invalid {q i : ι} {v : List ι} (hq : (f q).nullable = false) (hi : i ∈ v)
    (hfirm : (f i).soft = false) (hne : (f i).pointerOwner ≠ (f q).pointerOwner) :
    (after b f (q :: v)).pointerOwner = InvalidSymbolId := by
  refine (owner_kept (P := fun s => s.soft = false) (fun s hs => hs) ?_ ?_).resolve_left ?_
  · intro u hu hmem
    refine not_open_of_not_nullable ⟨f q, ?_, hq⟩
    cases u with
    | nil =>
      obtain ⟨s, hs, -⟩ := hmem
      cases hs
    | cons s u =>
      rw [List.map_cons, List.cons_prefix_cons] at hu
      exact List.mem_cons.mpr (.inl hu.1.symm)
  · exact List.cons_ne_nil _ _
  · intro hall
    rw [List.map_cons, List.forall_mem_cons, List.forall_mem_map] at hall
    exact hne ((hall.2 i hi hfirm).trans (hall.1 (firm_of_not_nullable hq)).symm)

/-- Nullable pointers left without an owner leave it to those that are not nullable. -/
theorem after_append_owner {v others : List ι} {x : SymbolId} (hv : v ≠ [])
    (hopen : (after b f v).Open) (hne : others ≠ []) (hothers : ∀ i ∈ others,
      (f i).nullable = false ∧ (f i).pointerOwner = x) :
    (after b f (v ++ others)).pointerOwner = x := by
  rw [after, List.map_append, foldFrom_append (by simpa using hv)]
  cases others with
  | nil => exact absurd rfl hne
  | cons i rest =>
    rw [List.forall_mem_cons] at hothers
    have howner : (mergeState (after b f v) (f i)).pointerOwner = x := by
      rw [owner_of_open hopen, hothers.1.2]
    have hnull : (mergeState (after b f v) (f i)).nullable = false := by
      rw [nullable_merge, hothers.1.1, Bool.and_false]
    rw [List.map_cons, List.foldl_cons]
    refine (foldl_owner hnull ?_).trans howner
    rw [List.forall_mem_map]
    exact fun j hj _ => (hothers.2 j hj).2.trans howner.symm

/-- What is left to the order: something may be null, what is not nullable has one owner `x`,
not all have one owner, and the nullable ones are not all of one live owner other than `x`. -/
theorem not_settled_iff : ¬OwnersSettled (p.map f) ↔
    (∃ i ∈ p, (f i).soft = true) ∧
      (∀ i ∈ p, (f i).nullable = false → (f i).pointerOwner ≠ InvalidSymbolId ∧
        ∀ j ∈ p, (f j).nullable = false → (f j).pointerOwner = (f i).pointerOwner) ∧
      (∀ u, ∃ i ∈ p, ¬(f i).Open ∧ (f i).pointerOwner ≠ u) ∧
      ∀ l, l ≠ InvalidSymbolId → ¬Split l (p.map f) := by
  unfold OwnersSettled AllFirm Scattered OneOwner
  simp only [not_or, not_exists, not_and, List.forall_mem_map, not_forall, exists_prop,
    Bool.not_eq_false, not_not, ne_eq]

/-- The nullable ones may come to an order that ends without an owner. -/
theorem open_nullables {i q : ι} (hi : i ∈ p) (hin : (f i).nullable = true)
    (hifirm : (f i).soft = false) (hq : q ∈ p) (hqn : (f q).nullable = false)
    (hne : (f i).pointerOwner ≠ (f q).pointerOwner) (hsoft : ∃ i ∈ p, (f i).soft = true)
    (hsplit : ∀ l, l ≠ InvalidSymbolId → ¬Split l (p.map f)) :
    ∃ v, Order (p.filter fun i => (f i).nullable) v ∧ (after b f v).Open := by
  have hmem : ∀ {j}, j ∈ p → (f j).nullable = true → j ∈ p.filter fun i => (f i).nullable :=
    fun hj hn => List.mem_filter.mpr ⟨hj, hn⟩
  refine open_order (fun j hj => (List.mem_filter.mp hj).2) ?_ ⟨i, hmem hi hin, hifirm⟩ ?_
  · obtain ⟨j, hj, hs⟩ := hsoft
    exact ⟨j, hmem hj (nullable_of_soft hs), hs⟩
  · intro l hl
    by_contra hall
    push Not at hall
    refine hsplit l hl ⟨⟨f i, List.mem_map_of_mem hi, ?_⟩, ?_, f q, List.mem_map_of_mem hq, hqn, ?_⟩
    · exact PointerValidity.eq_live hin fun h => Bool.noConfusion (hifirm.symm.trans h)
    · rw [List.forall_mem_map]
      exact fun j hj hn => hall j (hmem hj hn)
    · rw [← hall i (hmem hi hin) (not_open_of_firm hifirm)]
      exact Ne.symm hne

theorem owner_varies (h : ¬OwnersSettled (p.map f)) : OwnerVaries b f p := by
  obtain ⟨hsoft, hothers, howners, hsplit⟩ := not_settled_iff.mp h
  by_cases hnull : ∀ i ∈ p, (f i).nullable = true
  · exact varies_of_nullable hnull hsoft howners
  push Not at hnull
  obtain ⟨q, hq, hqn⟩ := hnull
  rw [ne_eq, Bool.not_eq_true] at hqn
  obtain ⟨hqo, hqs⟩ := hothers q hq hqn
  have hp : Order p p := Order.refl (List.ne_nil_of_mem hq)
  by_cases hlive : ∃ i ∈ p, (f i).soft = false ∧ (f i).pointerOwner ≠ (f q).pointerOwner
  · -- the owner is lost from `q` on, and that of `q` after the nullable ones
    obtain ⟨i, hi, hifirm, hio⟩ := hlive
    have hin : (f i).nullable = true := by
      by_contra hin
      exact hio (hqs i hi (Bool.not_eq_true _ ▸ hin))
    obtain ⟨v, hv, hopen⟩ := open_nullables (b := b) hi hin hifirm hq hqn hio hsoft hsplit
    refine ⟨_, q :: p, hv.append_filter hp.1, hp.cons hq, ?_⟩
    rw [after_cons_invalid hqn hi hifirm hio]
    have hmem : ∀ {j},
        j ∈ p.filter (fun i => !(f i).nullable) ↔ j ∈ p ∧ (f j).nullable = false := by
      intro j
      rw [List.mem_filter, Bool.not_eq_true']
    rw [after_append_owner hv.1 hopen (List.ne_nil_of_mem (hmem.mpr ⟨hq, hqn⟩)) fun j hj =>
      ⟨(hmem.mp hj).2, hqs j (hmem.mp hj).1 (hmem.mp hj).2⟩]
    exact hqo
  · -- all that is firm has the owner of `q`, and something that may be null has another one
    push Not at hlive
    obtain ⟨c, hc, hcopen, hco⟩ := howners (f q).pointerOwner
    have hcs : ¬(f c).soft = false := fun h => hco (hlive c hc h)
    refine ⟨q :: p, c :: q :: p, hp.cons hq, (hp.cons hq).cons hc, ?_⟩
    rw [after_cons_owner hqn hlive]
    have hdropped : (mergeState (f c) (f q)).pointerOwner = InvalidSymbolId :=
      owner_of_ne hcopen (firm_of_not_nullable hqn) hco
    have hnull : (mergeState (f c) (f q)).nullable = false := by
      rw [nullable_merge, hqn, Bool.and_false]
    rw [show (after b f (c :: q :: p)).pointerOwner = InvalidSymbolId from
      @foldl_invalid (p.map f) (mergeState (f c) (f q)) hnull hdropped]
    exact hqo

end Orders

end Flow

end Absolute
