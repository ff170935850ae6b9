import Absolute.AnFlowOwners

/-!
# The merge of whole paths

Merging is a join of the paths wherever `Settled` holds of what the paths have of each symbol,
and nowhere else. The lifetimes of raw owners are always joined.
-/

namespace Absolute

namespace Flow

open JoinFold

/-- No more optimistic than any of the states. -/
structure NoMoreOptimistic (result : ValueFlowState) (states : List ValueFlowState) : Prop where
  initialized : result.initialization = .initialized →
    ∀ s ∈ states, s.initialization = .initialized
  pointer : (∃ s ∈ states, s.pointerValidity.suspect = true) →
    result.pointerValidity ≠ .live ∧ result.pointerValidity ≠ .unknown
  awaited : result.taskState = .awaited → ∀ s ∈ states, s.taskState = .awaited

/-- The merge of `paths` is that of any order of them with repetitions, and no more optimistic
than any of them. -/
def MergesAsJoin (base : ValueFlowMap) (paths : List ValueFlowMap) : Prop :=
  (∀ paths', Order paths paths' →
    mergeValueFlowPaths base paths' = mergeValueFlowPaths base paths) ∧
  ∀ id merged result, base id = some merged → mergeValueFlowPaths base paths id = some result →
    NoMoreOptimistic result (paths.map (stateAt merged id))

/-- The same of the lifetimes of raw owners. -/
def KeepMergesAsJoin (base : KeepLifetimeMap) (paths : List KeepLifetimeMap) : Prop :=
  (∀ paths', Order paths paths' → mergeKeepPaths base paths' = mergeKeepPaths base paths) ∧
  ∀ id lifetime result, base id = some lifetime → mergeKeepPaths base paths id = some result →
    result.state ≠ .maybeDeleted → ∀ path ∈ paths, keepAt lifetime id path = result.state

/-- The states of a symbol whose order does not matter. -/
structure Settled (states : List ValueFlowState) : Prop where
  validity : ValiditySettled (states.map ValueFlowState.pointerValidity)
  owners : OwnersSettled states

theorem keepMergesAsJoin (base : KeepLifetimeMap) {paths : List KeepLifetimeMap}
    (hne : paths ≠ []) : KeepMergesAsJoin base paths := by
  constructor
  · rintro paths' ⟨hne', hmem⟩
    funext id
    unfold mergeKeepPaths
    congr 1
    funext lifetime
    congr 1
    refine isJoin_keep.foldFrom_eq_of_mem_iff (by simpa using hne') (by simpa using hne) ?_
    exact mem_map_iff hmem
  · intro id lifetime result hbase hres hstate path hpath
    rw [mergeKeepPaths, hbase, Option.map_some, Option.some_inj] at hres
    subst hres
    refine eq_of_foldFrom_eq isJoin_keep (by simpa using hne) ?_ rfl _
      (List.mem_map_of_mem hpath)
    exact keep_of_below hstate

section Symbols

variable {base : ValueFlowMap} {paths paths' : List ValueFlowMap} {id : SymbolId}
  {merged : ValueFlowState}

theorem merge_at (hbase : base id = some merged) :
    mergeValueFlowPaths base paths id = some (after merged (stateAt merged id) paths) := by
  rw [mergeValueFlowPaths, hbase]
  rfl

variable {b : ValueFlowState} {w v : List ValueFlowState}

theorem Settled.fold_congr (h : Settled w) (hw : w ≠ []) (hv : v ≠ [])
    (hmem : ∀ s, s ∈ v ↔ s ∈ w) : foldFrom mergeState b v = foldFrom mergeState b w := by
  have hw' : ∀ {α : Type} {g : ValueFlowState → α}, w.map g ≠ [] := by simpa using hw
  have hv' : ∀ {α : Type} {g : ValueFlowState → α}, v.map g ≠ [] := by simpa using hv
  refine ValueFlowState.ext ?_ ?_ (h.owners.owner_congr hw hv hmem) ?_
  · rw [fold_initialization, fold_initialization]
    exact isJoin_initialization.foldFrom_eq_of_mem_iff hv' hw' (mem_map_iff hmem)
  · rw [fold_validity, fold_validity]
    exact h.validity.fold_congr hw' hv' (mem_map_iff hmem)
  · rw [fold_task, fold_task]
    exact isJoin_task.foldFrom_eq_of_mem_iff hv' hw' (mem_map_iff hmem)

theorem Settled.noMoreOptimistic (h : Settled w) (hw : w ≠ []) :
    NoMoreOptimistic (foldFrom mergeState b w) w := by
  have hw' : ∀ {α : Type} {g : ValueFlowState → α}, w.map g ≠ [] := by simpa using hw
  constructor
  · intro hinit s hs
    rw [fold_initialization] at hinit
    exact eq_of_foldFrom_eq isJoin_initialization hw' initialized_of_below hinit _
      (List.mem_map_of_mem hs)
  · rintro ⟨s, hs, hsus⟩
    rw [fold_validity]
    exact h.validity.not_optimistic hw' ⟨_, List.mem_map_of_mem hs, hsus⟩
  · intro hawaited s hs
    rw [fold_task] at hawaited
    exact eq_of_foldFrom_eq isJoin_task hw' awaited_of_below hawaited _ (List.mem_map_of_mem hs)

theorem mergesAsJoin_of_settled (hne : paths ≠ []) (h : ∀ id merged, base id = some merged →
    Settled (paths.map (stateAt merged id))) : MergesAsJoin base paths := by
  constructor
  · rintro paths' ⟨hne', hmem⟩
    funext id
    cases hbase : base id with
    | none => simp only [mergeValueFlowPaths, hbase, Option.map_none]
    | some merged =>
      rw [merge_at hbase, merge_at hbase, Option.some_inj]
      exact (h id merged hbase).fold_congr (by simpa using hne) (by simpa using hne')
        (mem_map_iff hmem)
  · intro id merged result hbase hres
    rw [merge_at hbase, Option.some_inj] at hres
    subst hres
    exact (h id merged hbase).noMoreOptimistic (by simpa using hne)

/-- Where the validities are not settled, one order makes the validity unknown. -/
theorem unknown_order (hne : paths ≠ []) (h : ¬ValiditySettled
    ((paths.map (stateAt merged id)).map ValueFlowState.pointerValidity)) :
    ∃ paths', Order paths paths' ∧
      (after merged (stateAt merged id) paths').pointerValidity = .unknown := by
  refine ⟨_, order_filters (fun path => (stateAt merged id path).nullable) hne, ?_⟩
  rw [after, fold_validity]
  refine Eq.trans ?_ (fold_of_not_settled (b := merged.pointerValidity) h)
  rw [List.map_append, List.map_append, List.filter_map, List.filter_map, List.filter_map,
    List.filter_map]
  rfl

theorem settled_of_mergesAsJoin (hne : paths ≠ []) (h : MergesAsJoin base paths)
    (hbase : base id = some merged) : Settled (paths.map (stateAt merged id)) := by
  obtain ⟨horder, hopt⟩ := h
  have hsame : ∀ paths', Order paths paths' → after merged (stateAt merged id) paths' =
      after merged (stateAt merged id) paths := by
    intro paths' ho
    have := congrFun (horder paths' ho) id
    rwa [merge_at hbase, merge_at hbase, Option.some_inj] at this
  constructor
  · by_contra hv
    obtain ⟨paths', ho, hunknown⟩ := unknown_order hne hv
    rw [hsame paths' ho] at hunknown
    obtain ⟨s, hs, hsus⟩ := suspect_of_not_settled hv
    obtain ⟨state, hstate, rfl⟩ := List.mem_map.mp hs
    exact ((hopt id merged _ hbase (merge_at hbase)).pointer ⟨state, hstate, hsus⟩).2 hunknown
  · by_contra ho
    obtain ⟨paths₁, paths₂, ho₁, ho₂, hne'⟩ := owner_varies (b := merged) ho
    exact hne' (by rw [hsame paths₁ ho₁, hsame paths₂ ho₂])

end Symbols

/-- Merging is a join of the paths exactly where the states of each symbol are settled. -/
theorem merge_join_iff (base : ValueFlowMap) (paths : List ValueFlowMap)
    (keepBase : KeepLifetimeMap) (keepPaths : List KeepLifetimeMap) (hne : paths ≠ [])
    (hkeep : keepPaths ≠ []) :
    (MergesAsJoin base paths ∧ KeepMergesAsJoin keepBase keepPaths) ↔
      ∀ id merged, base id = some merged → Settled (paths.map (stateAt merged id)) := by
  constructor
  · rintro ⟨h, -⟩ id merged hbase
    exact settled_of_mergesAsJoin hne h hbase
  · exact fun h => ⟨mergesAsJoin_of_settled hne h, keepMergesAsJoin keepBase hkeep⟩

/-- One pointer on the paths, with the validity `v`. -/
def onePointer (v : PointerValidity) : ValueFlowMap := fun id =>
  if id = 0 then some ⟨.initialized, v, InvalidSymbolId, .notTask⟩ else none

theorem merge_join_null_live :
    MergesAsJoin (onePointer .null) [onePointer .null, onePointer .live] ∧
      KeepMergesAsJoin (fun _ => none) [fun _ => none] := by
  refine (merge_join_iff _ _ _ _ (List.cons_ne_nil _ _) (List.cons_ne_nil _ _)).mpr ?_
  intro id merged hbase
  have hid : id = 0 := by
    by_contra hid
    rw [onePointer, if_neg hid] at hbase
    cases hbase
  subst hid
  have howner : OneOwner InvalidSymbolId
      ([onePointer .null, onePointer .live].map (stateAt merged 0)) :=
    List.forall_mem_cons.mpr ⟨fun _ => rfl, List.forall_mem_singleton.mpr fun _ => rfl⟩
  have hnull : ∀ v ∈ [PointerValidity.null, .live], v.nullable = true :=
    List.forall_mem_cons.mpr ⟨rfl, List.forall_mem_singleton.mpr rfl⟩
  exact ⟨.inr (.inl hnull), .inr (.inr (.inl ⟨_, howner⟩))⟩

/-- A pointer null on one path, live on another and unknown on a third. -/
theorem merge_of_null_live_unknown :
    ¬∀ (base : ValueFlowMap) (paths : List ValueFlowMap) (keepBase : KeepLifetimeMap)
      (keepPaths : List KeepLifetimeMap), paths ≠ [] → keepPaths ≠ [] →
        MergesAsJoin base paths ∧ KeepMergesAsJoin keepBase keepPaths := by
  intro h
  have hjoin := h (onePointer .null) [onePointer .null, onePointer .live, onePointer .unknown]
    (fun _ => none) [fun _ => none] (List.cons_ne_nil _ _) (List.cons_ne_nil _ _)
  have hopt := hjoin.1.2 0 _ _ rfl rfl
  exact (hopt.pointer ⟨_, List.mem_cons_self, rfl⟩).2 rfl

end Flow

end Absolute
