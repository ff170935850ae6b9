import Absolute.AnFlow

/-!
# When merging is a join

What is known of initialization, of tasks and of raw owners is joined. The validity of a
pointer and its owner are not: a pointer that may be null on one path is unknown after a path
where it is unknown, and an owner is dropped and taken up again while the pointer may be null.
`Settled` says of which states the order of the paths does not matter and the result is no
more optimistic than they are.
-/

namespace Absolute

namespace Flow

open JoinFold

/-! ## What is joined -/

theorem isJoin_initialization : IsJoin mergeInitialization where
  comm := fun a b => by cases a <;> cases b <;> rfl
  assoc := fun a b c => by cases a <;> cases b <;> cases c <;> rfl
  idem := fun a => by cases a <;> rfl

theorem isJoin_task : IsJoin mergeTask where
  comm := fun a b => by cases a <;> cases b <;> rfl
  assoc := fun a b c => by cases a <;> cases b <;> cases c <;> rfl
  idem := fun a => by cases a <;> rfl

theorem isJoin_keep : IsJoin mergeKeep where
  comm := fun a b => by cases a <;> cases b <;> rfl
  assoc := fun a b c => by cases a <;> cases b <;> cases c <;> rfl
  idem := fun a => by cases a <;> rfl

/-- Below what no two different states are merged to there is that state only. -/
theorem eq_of_foldFrom_eq {α : Type} {op : α → α → α} (h : IsJoin op) {b top : α} {w : List α}
    (hw : w ≠ []) (htop : ∀ a, op a top = top → a = top) (heq : foldFrom op b w = top) :
    ∀ s ∈ w, s = top := by
  intro s hs
  refine htop s ?_
  rw [← heq]
  exact (h.foldFrom_le_iff hw).mp (h.idem _) s hs

theorem initialized_of_below (a : InitializationState)
    (h : mergeInitialization a .initialized = .initialized) : a = .initialized := by
  cases a <;> first | rfl | cases h

theorem awaited_of_below (a : TaskState) (h : mergeTask a .awaited = .awaited) :
    a = .awaited := by
  cases a <;> first | rfl | cases h

theorem keep_of_below {state : KeepState} (hstate : state ≠ .maybeDeleted) (a : KeepState)
    (h : mergeKeep a state = state) : a = state := by
  by_contra hne
  rw [mergeKeep, if_pos (Ne.symm hne)] at h
  exact hstate h.symm

section States

variable {b : ValueFlowState} {w v : List ValueFlowState}

theorem fold_initialization (b : ValueFlowState) (w : List ValueFlowState) :
    (foldFrom mergeState b w).initialization =
      foldFrom mergeInitialization b.initialization (w.map ValueFlowState.initialization) :=
  map_foldFrom ValueFlowState.initialization fun _ _ => rfl

theorem fold_task (b : ValueFlowState) (w : List ValueFlowState) :
    (foldFrom mergeState b w).taskState =
      foldFrom mergeTask b.taskState (w.map ValueFlowState.taskState) :=
  map_foldFrom ValueFlowState.taskState fun _ _ => rfl

theorem fold_validity (b : ValueFlowState) (w : List ValueFlowState) :
    (foldFrom mergeState b w).pointerValidity =
      foldFrom mergeValidity b.pointerValidity (w.map ValueFlowState.pointerValidity) :=
  map_foldFrom ValueFlowState.pointerValidity fun _ _ => rfl

theorem exists_mem_concat {α : Type} {p : α → Prop} {l : List α} {a : α} :
    (∃ s ∈ l ++ [a], p s) ↔ (∃ s ∈ l, p s) ∨ p a := by
  simp only [List.mem_append, List.mem_singleton, or_and_right, exists_or, exists_eq_left]

theorem mem_map_iff {α β : Type} {f : α → β} {l m : List α} (h : ∀ a, a ∈ l ↔ a ∈ m) (b : β) :
    b ∈ l.map f ↔ b ∈ m.map f := by
  simp only [List.mem_map, h]

end States

/-! ## Validities -/

namespace PointerValidity

theorem nullable_merge (a b : PointerValidity) :
    (mergeValidity a b).nullable = (a.nullable && b.nullable) := by
  cases a <;> cases b <;> rfl

theorem soft_merge (a b : PointerValidity) :
    (mergeValidity a b).soft = (a.nullable && b.nullable && (a.soft || b.soft)) := by
  cases a <;> cases b <;> rfl

theorem dangerous_merge (a b : PointerValidity) :
    (mergeValidity a b).dangerous =
      (a.dangerous || b.dangerous || (a = .null && !b.nullable) || (b = .null && !a.nullable)) := by
  cases a <;> cases b <;> rfl

theorem nullable_of_soft {a : PointerValidity} (h : a.soft = true) : a.nullable = true := by
  cases a <;> first | rfl | cases h

theorem eq_live {a : PointerValidity} (h : a.nullable = true) (hs : ¬a.soft = true) :
    a = .live := by
  cases a with
  | live => rfl
  | null | maybeNull => exact absurd rfl hs
  | _ => cases h

theorem not_dangerous_of_nullable {a : PointerValidity} (h : a.nullable = true) :
    a.dangerous = false := by
  cases a <;> first | rfl | cases h

/-- What two different validities may be merged to. -/
def Merged (a : PointerValidity) : Prop := a = .maybeNull ∨ a = .maybeInvalid ∨ a = .unknown

theorem merged_of_ne {a b : PointerValidity} (h : a ≠ b) : (mergeValidity a b).Merged := by
  unfold Merged mergeValidity
  rw [if_pos h]
  split_ifs <;> simp

theorem Merged.merge {a : PointerValidity} (h : a.Merged) (b : PointerValidity) :
    (mergeValidity a b).Merged := by
  by_cases hab : a = b
  · subst hab
    rwa [mergeValidity, if_neg (not_not.mpr rfl)]
  · exact merged_of_ne hab

end PointerValidity

section Validities

open PointerValidity

variable {b : PointerValidity} {w v : List PointerValidity}

theorem nullable_fold (hw : w ≠ []) :
    (foldFrom mergeValidity b w).nullable = true ↔ ∀ s ∈ w, s.nullable = true := by
  refine foldFrom_induction (I := fun w a => a.nullable = true ↔ ∀ s ∈ w, s.nullable = true)
    ?_ ?_ hw
  · intro s
    rw [List.forall_mem_singleton]
  · intro w a s _ ih
    rw [nullable_merge, Bool.and_eq_true, ih, List.forall_mem_append, List.forall_mem_singleton]

theorem not_nullable_fold (hw : w ≠ []) :
    (foldFrom mergeValidity b w).nullable = false ↔ ∃ s ∈ w, s.nullable = false := by
  rw [← Bool.not_eq_true, nullable_fold hw]
  simp only [not_forall, exists_prop, Bool.not_eq_true]

theorem soft_fold (hw : w ≠ []) : (foldFrom mergeValidity b w).soft = true ↔
    (∀ s ∈ w, s.nullable = true) ∧ ∃ s ∈ w, s.soft = true := by
  refine (foldFrom_induction (I := fun w a => (a.nullable = true ↔ ∀ s ∈ w, s.nullable = true) ∧
    (a.soft = true ↔ (∀ s ∈ w, s.nullable = true) ∧ ∃ s ∈ w, s.soft = true)) ?_ ?_ hw).2
  · intro s
    simpa using fun h => nullable_of_soft h
  · rintro w a s - ⟨hnull, hsoft⟩
    rw [nullable_merge, soft_merge, List.forall_mem_append, List.forall_mem_singleton,
      exists_mem_concat]
    simp only [Bool.and_eq_true, Bool.or_eq_true, hnull, hsoft, true_and]
    constructor
    · rintro ⟨hall, h | h⟩
      · exact ⟨hall, .inl h.2⟩
      · exact ⟨hall, .inr h⟩
    · rintro ⟨hall, h | h⟩
      · exact ⟨hall, .inl ⟨hall.1, h⟩⟩
      · exact ⟨hall, .inr h⟩

/-- One validity throughout, or a merged one. -/
theorem all_eq_or_merged (hw : w ≠ []) :
    (∀ s ∈ w, s = foldFrom mergeValidity b w) ∨ (foldFrom mergeValidity b w).Merged := by
  refine foldFrom_induction (I := fun w a => (∀ s ∈ w, s = a) ∨ a.Merged) ?_ ?_ hw
  · exact fun s => .inl (List.forall_mem_singleton.mpr rfl)
  · rintro w a s - (hall | hmerged)
    · by_cases hs : a = s
      · subst hs
        left
        rw [mergeValidity, if_neg (not_not.mpr rfl), List.forall_mem_append,
          List.forall_mem_singleton]
        exact ⟨hall, rfl⟩
      · exact .inr (merged_of_ne hs)
    · exact .inr (hmerged.merge s)

theorem fold_of_all_eq {c : PointerValidity} (hw : w ≠ []) (h : ∀ s ∈ w, s = c) :
    foldFrom mergeValidity b w = c := by
  refine foldFrom_induction (I := fun w a => (∀ s ∈ w, s = c) → a = c) ?_ ?_ hw h
  · exact fun s h => h s (List.mem_singleton_self s)
  · intro w a s _ ih h
    rw [List.forall_mem_append, List.forall_mem_singleton] at h
    rw [ih h.1, h.2, mergeValidity, if_neg (not_not.mpr rfl)]

/-- No `MaybeNull`, and not both `Null` and `Live`. -/
def OneNullable (w : List PointerValidity) : Prop :=
  .maybeNull ∉ w ∧ ¬(.null ∈ w ∧ .live ∈ w)

/-- The states whose order does not matter to the validity. -/
def ValiditySettled (w : List PointerValidity) : Prop :=
  (∃ s ∈ w, s.dangerous = true) ∨ (∀ s ∈ w, s.nullable = true) ∨ OneNullable w

theorem OneNullable.left (h : OneNullable (w ++ v)) : OneNullable w :=
  ⟨fun hm => h.1 (List.mem_append_left v hm),
    fun hm => h.2 ⟨List.mem_append_left v hm.1, List.mem_append_left v hm.2⟩⟩

theorem dangerous_of_mem (hw : w ≠ []) (h : ∃ s ∈ w, s.dangerous = true) :
    (foldFrom mergeValidity b w).dangerous = true := by
  refine foldFrom_induction
    (I := fun w a => (∃ s ∈ w, s.dangerous = true) → a.dangerous = true) ?_ ?_ hw h
  · rintro s ⟨s', hs', h⟩
    rwa [← List.mem_singleton.mp hs']
  · intro w a s _ ih h
    rw [dangerous_merge]
    obtain h | h := exists_mem_concat.mp h
    · rw [ih h]
      rfl
    · rw [h, Bool.or_true]
      rfl

theorem eq_null_iff (hw : w ≠ []) :
    foldFrom mergeValidity b w = .null ↔ ∀ s ∈ w, s = .null := by
  constructor
  · intro h
    obtain hall | hm | hm | hm := all_eq_or_merged (b := b) hw
    · rwa [h] at hall
    all_goals
      rw [h] at hm
      cases hm
  · exact fold_of_all_eq hw

theorem nullable_of_ne_null {s : PointerValidity} (hone : OneNullable w) (hn : .null ∈ w)
    (hs : s ∈ w) (hne : s ≠ .null) : s.nullable = false := by
  cases s with
  | null => exact absurd rfl hne
  | live => exact absurd ⟨hn, hs⟩ hone.2
  | maybeNull => exact absurd hs hone.1
  | _ => rfl

/-- Of what is not dangerous only a null pointer makes one that may be invalid. -/
theorem dangerous_fold (hw : w ≠ []) (hsafe : ∀ s ∈ w, s.dangerous = false)
    (hone : OneNullable w) : (foldFrom mergeValidity b w).dangerous = true ↔
      .null ∈ w ∧ ∃ s ∈ w, s.nullable = false := by
  induction w using List.reverseRecOn with
  | nil => exact absurd rfl hw
  | append_singleton w s ih =>
    rw [List.forall_mem_append, List.forall_mem_singleton] at hsafe
    obtain rfl | hne := eq_or_ne w []
    · have hs : ¬s.dangerous = true := by rw [hsafe.2]; exact Bool.false_ne_true
      refine iff_of_false hs ?_
      rintro ⟨hnull, s', hs', h⟩
      rw [List.mem_singleton.mp hs', ← List.mem_singleton.mp hnull] at h
      cases h
    rw [foldFrom_concat hne, dangerous_merge, exists_mem_concat, List.mem_append,
      List.mem_singleton]
    simp only [hsafe.2, Bool.or_false, Bool.or_eq_true, ih hne hsafe.1 hone.left,
      Bool.and_eq_true, Bool.not_eq_true', decide_eq_true_eq, eq_null_iff hne,
      not_nullable_fold hne]
    constructor
    · rintro ((⟨hn, hm⟩ | ⟨hall, hs⟩) | ⟨rfl, hm⟩)
      · exact ⟨.inl hn, .inl hm⟩
      · obtain ⟨s', hs'⟩ := List.exists_mem_of_ne_nil w hne
        exact ⟨.inl (hall s' hs' ▸ hs'), .inr hs⟩
      · exact ⟨.inr rfl, .inl hm⟩
    · rintro ⟨hn | rfl, hm | hs⟩
      · exact .inl (.inl ⟨hn, hm⟩)
      · by_cases hall : ∀ s' ∈ w, s' = .null
        · exact .inl (.inr ⟨hall, hs⟩)
        · -- one that is not null is not nullable either
          push Not at hall
          obtain ⟨s', hs', hne'⟩ := hall
          exact .inl (.inl ⟨hn, s', hs', nullable_of_ne_null hone.left hn hs' hne'⟩)
      · exact .inr ⟨rfl, hm⟩
      · cases hs

/-- A merged validity is told by two questions. -/
theorem PointerValidity.Merged.eq_of {a c : PointerValidity} (ha : a.Merged) (hc : c.Merged)
    (hdanger : a.dangerous = true ↔ c.dangerous = true)
    (hnull : a.nullable = true ↔ c.nullable = true) : a = c := by
  obtain rfl | rfl | rfl := ha <;> obtain rfl | rfl | rfl := hc <;>
    first | rfl | exact absurd hnull (by decide) | exact absurd hdanger (by decide)

theorem ValiditySettled.dangerous_congr (h : ValiditySettled w) (hw : w ≠ []) (hv : v ≠ [])
    (hmem : ∀ s, s ∈ v ↔ s ∈ w) :
    (foldFrom mergeValidity b v).dangerous = true ↔
      (foldFrom mergeValidity b w).dangerous = true := by
  obtain h | h | h := h
  · refine iff_of_true (dangerous_of_mem hv ?_) (dangerous_of_mem hw h)
    simpa only [hmem] using h
  · have hno : ∀ {u : List PointerValidity}, u ≠ [] → (∀ s ∈ u, s.nullable = true) →
        ¬(foldFrom mergeValidity b u).dangerous = true := by
      intro u hu h
      rw [not_dangerous_of_nullable ((nullable_fold hu).mpr h)]
      exact Bool.false_ne_true
    exact iff_of_false (hno hv fun s hs => h s ((hmem s).mp hs)) (hno hw h)
  · by_cases hdanger : ∃ s ∈ w, s.dangerous = true
    · refine iff_of_true (dangerous_of_mem hv ?_) (dangerous_of_mem hw hdanger)
      simpa only [hmem] using hdanger
    · push Not at hdanger
      simp only [Bool.not_eq_true] at hdanger
      have hone : OneNullable v := by simpa only [OneNullable, hmem] using h
      rw [dangerous_fold hw hdanger h,
        dangerous_fold hv (fun s hs => hdanger s ((hmem s).mp hs)) hone]
      simp only [hmem]

theorem ValiditySettled.fold_congr (h : ValiditySettled w) (hw : w ≠ []) (hv : v ≠ [])
    (hmem : ∀ s, s ∈ v ↔ s ∈ w) : foldFrom mergeValidity b v = foldFrom mergeValidity b w := by
  obtain hall | hmw := all_eq_or_merged (b := b) hw
  · exact fold_of_all_eq hv fun s hs => hall s ((hmem s).mp hs)
  obtain hall | hmv := all_eq_or_merged (b := b) hv
  · exact (fold_of_all_eq hw fun s hs => hall s ((hmem s).mpr hs)).symm
  refine hmv.eq_of hmw (h.dangerous_congr hw hv hmem) ?_
  rw [nullable_fold hv, nullable_fold hw]
  simp only [hmem]

/-- `Null`, `Deleted`, `Expired`, or possibly so. -/
def PointerValidity.suspect (v : PointerValidity) : Bool := v.invalid || v.soft

theorem ValiditySettled.not_optimistic (h : ValiditySettled w) (hw : w ≠ [])
    (hs : ∃ s ∈ w, s.suspect = true) :
    foldFrom mergeValidity b w ≠ .live ∧ foldFrom mergeValidity b w ≠ .unknown := by
  obtain ⟨s, hs, hsus⟩ := hs
  obtain hall | hm := all_eq_or_merged (b := b) hw
  · rw [← hall s hs]
    constructor
    all_goals
      rintro rfl
      cases hsus
  constructor
  · intro hlive
    rw [hlive] at hm
    obtain h | h | h := hm <;> cases h
  · intro hunknown
    have hdanger : ¬∃ s ∈ w, s.dangerous = true := by
      intro h
      have := dangerous_of_mem (b := b) hw h
      rw [hunknown] at this
      cases this
    have hnull : ∃ s ∈ w, s.nullable = false := by
      rw [← not_nullable_fold (b := b) hw, hunknown]
      rfl
    obtain h | h | h := h
    · exact hdanger h
    · obtain ⟨s', hs', hn⟩ := hnull
      rw [h s' hs'] at hn
      cases hn
    · cases s with
      | null =>
        have hsafe : ∀ s ∈ w, s.dangerous = false := by
          intro s hs
          exact Bool.not_eq_true _ ▸ fun hd => hdanger ⟨s, hs, hd⟩
        have := (dangerous_fold (b := b) hw hsafe h).mpr ⟨hs, hnull⟩
        rw [hunknown] at this
        cases this
      | maybeNull => exact h.1 hs
      | deleted | expired | maybeInvalid => exact hdanger ⟨_, hs, rfl⟩
      | _ => cases hsus

/-! The order that forgets what may be null: the nullable ones first. -/

theorem PointerValidity.merge_other {a s : PointerValidity} (ha : a = .maybeNull ∨ a = .unknown)
    (hd : s.dangerous = false) (hn : s.nullable = false) : mergeValidity a s = .unknown := by
  obtain rfl | rfl := ha <;> cases s <;>
    first | rfl | exact Bool.noConfusion hd | exact Bool.noConfusion hn

theorem foldl_unknown (h : ∀ s ∈ w, s.dangerous = false ∧ s.nullable = false) :
    w.foldl mergeValidity .unknown = .unknown := by
  induction w with
  | nil => rfl
  | cons s rest ih =>
    rw [List.forall_mem_cons] at h
    rw [List.foldl_cons, PointerValidity.merge_other (.inr rfl) h.1.1 h.1.2, ih h.2]

theorem fold_maybeNull (hw : w ≠ []) (hnull : ∀ s ∈ w, s.nullable = true)
    (hone : ¬OneNullable w) : foldFrom mergeValidity b w = .maybeNull := by
  have hmany : .maybeNull ∈ w ∨ (.null ∈ w ∧ .live ∈ w) := by
    unfold OneNullable at hone
    tauto
  have hsoft : (foldFrom mergeValidity b w).soft = true := by
    refine (soft_fold hw).mpr ⟨hnull, ?_⟩
    obtain h | h := hmany
    · exact ⟨_, h, rfl⟩
    · exact ⟨_, h.1, rfl⟩
  have hne : foldFrom mergeValidity b w ≠ .null := by
    rw [Ne, eq_null_iff hw]
    intro hall
    obtain h | h := hmany
    · cases hall _ h
    · cases hall _ h.2
  cases hf : foldFrom mergeValidity b w with
  | maybeNull => rfl
  | null => exact absurd hf hne
  | _ =>
    rw [hf] at hsoft
    cases hsoft

theorem fold_of_not_settled (h : ¬ValiditySettled w) : foldFrom mergeValidity b
    (w.filter (·.nullable) ++ w.filter (fun s => !s.nullable)) = .unknown := by
  unfold ValiditySettled at h
  push Not at h
  obtain ⟨hsafe, ⟨s, hs, hn⟩, hone⟩ := h
  have hone' : ¬OneNullable (w.filter (·.nullable)) := by
    intro h
    refine hone ⟨fun hm => h.1 (List.mem_filter.mpr ⟨hm, rfl⟩), fun hm => h.2 ?_⟩
    exact ⟨List.mem_filter.mpr ⟨hm.1, rfl⟩, List.mem_filter.mpr ⟨hm.2, rfl⟩⟩
  have hne : w.filter (·.nullable) ≠ [] := by
    intro h
    rw [h] at hone'
    exact hone' ⟨List.not_mem_nil, fun hm => List.not_mem_nil hm.1⟩
  have hothers : ∀ s ∈ w.filter (fun s => !s.nullable), s.dangerous = false ∧
      s.nullable = false := by
    intro s hs
    rw [List.mem_filter, Bool.not_eq_true'] at hs
    exact ⟨by simpa using hsafe s hs.1, hs.2⟩
  rw [foldFrom_append hne, fold_maybeNull hne (fun s hs => (List.mem_filter.mp hs).2) hone']
  have hmem : s ∈ w.filter (fun s => !s.nullable) := by
    rw [List.mem_filter, Bool.not_eq_true']
    exact ⟨hs, by simpa using hn⟩
  cases hf : w.filter (fun s => !s.nullable) with
  | nil =>
    rw [hf] at hmem
    cases hmem
  | cons s' rest =>
    rw [hf, List.forall_mem_cons] at hothers
    rw [List.foldl_cons, PointerValidity.merge_other (.inl rfl) hothers.1.1 hothers.1.2,
      foldl_unknown hothers.2]

theorem suspect_of_not_settled (h : ¬ValiditySettled w) : ∃ s ∈ w, s.suspect = true := by
  unfold ValiditySettled OneNullable at h
  push Not at h
  obtain ⟨-, -, hone⟩ := h
  by_cases hm : .maybeNull ∈ w
  · exact ⟨_, hm, rfl⟩
  · exact ⟨_, (hone hm).1, rfl⟩

end Validities

end Flow

end Absolute
