import Absolute.PlugLibrary

/-!
# What a failed load leaves behind

Every registration only adds to the registries, so a load that throws leaves the
manager as it was exactly if nothing was registered before the check that failed.
`RefusedAtOnce` says so of a library: the descriptor is refused, or registers
nothing and a later check refuses before the first table that registers something.
-/

namespace Absolute

namespace Plugin

open Function Raising Registries

variable {r r' : Registries} {name : Text}

/-! ## Registries grow -/

/-- Every entry of a map is one of another. -/
def MapLe {α β : Type} (f g : α → Option β) : Prop := ∀ k v, f k = some v → g k = some v

theorem MapLe.refl {α β : Type} (f : α → Option β) : MapLe f f := fun _ _ h => h

theorem MapLe.trans {α β : Type} {f g h : α → Option β} (hfg : MapLe f g) (hgh : MapLe g h) :
    MapLe f h := fun k v hk => hgh k v (hfg k v hk)

theorem MapLe.antisymm {α β : Type} {f g : α → Option β} (hfg : MapLe f g) (hgf : MapLe g f) :
    f = g := by
  funext k
  exact Option.ext fun v => ⟨hfg k v, hgf k v⟩

theorem MapLe.emplace {α β : Type} [DecidableEq α] (f : α → Option β) (key : α) (value : β) :
    MapLe f (emplace f key value) := by
  intro k v hk
  unfold Plugin.emplace
  split
  · exact hk
  · rename_i hnone
    by_cases hkey : k = key
    · rw [hkey] at hk
      rw [hk] at hnone
      exact absurd rfl hnone
    · rw [update_of_ne hkey]
      exact hk

theorem MapLe.update {α β : Type} [DecidableEq α] {f : α → Option β} {key : α} (value : β)
    (hnone : f key = none) : MapLe f (update f key (some value)) := by
  intro k v hk
  by_cases hkey : k = key
  · rw [hkey, hnone] at hk
    cases hk
  · rw [update_of_ne hkey]
    exact hk

structure Registries.Le (r r' : Registries) : Prop where
  rules : r.rules <+: r'.rules
  rulesByKeyword : MapLe r.rulesByKeyword r'.rulesByKeyword
  opaqueRules : r.opaqueRules <+: r'.opaqueRules
  opaqueRulesByKeyword : MapLe r.opaqueRulesByKeyword r'.opaqueRulesByKeyword
  preludes : r.preludes <+: r'.preludes
  binaryOperators : r.binaryOperators <+: r'.binaryOperators
  binaryOperatorsBySignature : MapLe r.binaryOperatorsBySignature r'.binaryOperatorsBySignature
  resourcesByTypeName : MapLe r.resourcesByTypeName r'.resourcesByTypeName
  virtualModulesByName : r.virtualModulesByName = r'.virtualModulesByName

theorem Registries.Le.refl (r : Registries) : Registries.Le r r where
  rules := List.prefix_rfl
  rulesByKeyword := .refl _
  opaqueRules := List.prefix_rfl
  opaqueRulesByKeyword := .refl _
  preludes := List.prefix_rfl
  binaryOperators := List.prefix_rfl
  binaryOperatorsBySignature := .refl _
  resourcesByTypeName := .refl _
  virtualModulesByName := rfl

instance : PartialOrder Registries where
  le := Registries.Le
  le_refl := Registries.Le.refl
  le_trans _ _ _ h h' :=
    { rules := h.rules.trans h'.rules
      rulesByKeyword := h.rulesByKeyword.trans h'.rulesByKeyword
      opaqueRules := h.opaqueRules.trans h'.opaqueRules
      opaqueRulesByKeyword := h.opaqueRulesByKeyword.trans h'.opaqueRulesByKeyword
      preludes := h.preludes.trans h'.preludes
      binaryOperators := h.binaryOperators.trans h'.binaryOperators
      binaryOperatorsBySignature := h.binaryOperatorsBySignature.trans h'.binaryOperatorsBySignature
      resourcesByTypeName := h.resourcesByTypeName.trans h'.resourcesByTypeName
      virtualModulesByName := h.virtualModulesByName.trans h'.virtualModulesByName }
  le_antisymm r r' h h' := by
    have hlists : ∀ {α : Type} {l l' : List α}, l <+: l' → l' <+: l → l = l' :=
      fun hl hl' => hl.eq_of_length (le_antisymm hl.length_le hl'.length_le)
    exact Registries.ext (hlists h.rules h'.rules) (h.rulesByKeyword.antisymm h'.rulesByKeyword)
      (hlists h.opaqueRules h'.opaqueRules)
      (h.opaqueRulesByKeyword.antisymm h'.opaqueRulesByKeyword)
      (hlists h.preludes h'.preludes) (hlists h.binaryOperators h'.binaryOperators)
      (h.binaryOperatorsBySignature.antisymm h'.binaryOperatorsBySignature)
      (h.resourcesByTypeName.antisymm h'.resourcesByTypeName) h.virtualModulesByName

theorem le_addRule (name : Text) (r : Registries) (rule : SyntaxRule) :
    r ≤ r.addRule name rule :=
  { Registries.Le.refl r with
    rules := List.prefix_append _ _
    rulesByKeyword := .emplace _ _ _ }

theorem le_addPrelude (name : Text) (source : Option Text) (r : Registries) :
    r ≤ addPrelude name source r := by
  unfold addPrelude
  split
  · exact le_rfl
  · exact { Registries.Le.refl r with preludes := List.prefix_append _ _ }

theorem le_addOperator (name : Text) (r : Registries) (rule : BinaryOperatorRule) :
    r ≤ addOperator name r rule :=
  { Registries.Le.refl r with
    binaryOperators := List.prefix_append _ _
    binaryOperatorsBySignature := .emplace _ _ _ }

theorem le_addOpaqueRule (name : Text) (r : Registries) (rule : OpaqueSyntaxRule) :
    r ≤ addOpaqueRule name r rule :=
  { Registries.Le.refl r with
    opaqueRules := List.prefix_append _ _
    opaqueRulesByKeyword := .emplace _ _ _ }

theorem resourceType_free {descriptor : ResourceDescriptor}
    (h : resourceFault name descriptor r = none) :
    r.resourcesByTypeName (descriptor.typeName.getD []) = none := by
  unfold resourceFault at h
  dsimp only at h
  split at h
  · cases h
  split at h
  · cases h
  split at h
  · cases h
  · rename_i hfree
    simpa using hfree

theorem le_addResource {descriptor : ResourceDescriptor}
    (h : resourceFault name descriptor r = none) : r ≤ addResource name descriptor r :=
  { Registries.Le.refl r with resourcesByTypeName := .update _ (resourceType_free h) }

theorem le_foldl {α : Type} {add : Registries → α → Registries} (h : ∀ r a, r ≤ add r a)
    (l : List α) (r : Registries) : r ≤ l.foldl add r := by
  induction l generalizing r with
  | nil => exact le_rfl
  | cons a l ih => exact le_trans (h r a) (ih (add r a))

/-! ## What a registration refuses, and when it adds nothing -/

theorem foldl_length {α : Type} (count : Registries → ℕ) {add : Registries → α → Registries}
    (h : ∀ r a, count (add r a) = count r + 1) (l : List α) (r : Registries) :
    count (l.foldl add r) = count r + l.length := by
  induction l generalizing r with
  | nil => rfl
  | cons a l ih =>
      rw [List.foldl_cons, ih, h, List.length_cons]
      omega

/-- A table whose rows are counted adds nothing only if it has none. -/
theorem foldl_eq_self_iff {α : Type} (count : Registries → ℕ) {add : Registries → α → Registries}
    (h : ∀ r a, count (add r a) = count r + 1) {l : List α} :
    l.foldl add r = r ↔ l = [] := by
  constructor
  · intro heq
    have hcount := foldl_length count h l r
    rw [heq] at hcount
    exact List.length_eq_zero_iff.mp (by omega)
  · rintro rfl
    rfl

theorem addSyntaxPlugin_eq_self_iff {plugin : SyntaxPlugin} :
    addSyntaxPlugin plugin r = r ↔ plugin.rules.list = [] :=
  foldl_eq_self_iff (fun r => r.rules.length) fun _ _ => by simp [addRule]

theorem addPrelude_eq_self_iff {source : Option Text} :
    addPrelude name source r = r ↔ source.getD [] = [] := by
  unfold addPrelude
  split
  · rename_i hempty
    exact iff_of_true rfl hempty
  · rename_i hsource
    refine iff_of_false (fun heq => ?_) hsource
    have hlength := congrArg (fun r => r.preludes.length) heq
    simp at hlength

theorem addOperatorTable_eq_self_iff {operators : Table BinaryOperatorRule} :
    addOperatorTable name operators r = r ↔ operators.list = [] :=
  foldl_eq_self_iff (fun r => r.binaryOperators.length) fun _ _ => by simp [addOperator]

theorem addOpaqueTable_eq_self_iff {table : Table OpaqueSyntaxRule} :
    addOpaqueTable name table r = r ↔ table.list = [] :=
  foldl_eq_self_iff (fun r => r.opaqueRules.length) fun _ _ => by simp [addOpaqueRule]

theorem addResource_ne_self {descriptor : ResourceDescriptor}
    (h : resourceFault name descriptor r = none) : addResource name descriptor r ≠ r := by
  intro heq
  have hentry := congrFun (congrArg Registries.resourcesByTypeName heq)
    (descriptor.typeName.getD [])
  rw [resourceType_free h] at hentry
  unfold addResource at hentry
  dsimp only at hentry
  rw [update_self] at hentry
  cases hentry

/-! ## The condition -/

/-- The table is there, and refused. -/
def Refuses {α : Type} (fault : Table α → Registries → Option RegisterError)
    (table : Option (Table α)) (r : Registries) : Prop :=
  ∃ rows, table = some rows ∧ fault rows r ≠ none

def AddsNothing {α : Type} (table : Option (Table α)) : Prop :=
  ∀ rows, table = some rows → rows.list = []

/-- The resources are refused before the first is registered. -/
def RefusesResources (name : Text) (table : Option (Table ResourceDescriptor))
    (r : Registries) : Prop :=
  ∃ resources, table = some resources ∧ (resources.isMissing = true
    ∨ ∃ descriptor rest, resources.list = descriptor :: rest
      ∧ resourceFault name descriptor r ≠ none)

def DescriptorRefused (library : Library) (expectedName : Text) (r : Registries) : Prop :=
  let name := library.descriptor.pluginName expectedName
  match library.descriptor with
  | .invalid => True
  | .syntaxPlugin plugin => r.syntaxPluginFault plugin ≠ none
  | .languagePlugin plugin =>
      Refuses (operatorTableFault name) plugin.binaryOperatorTable r
        ∨ AddsNothing plugin.binaryOperatorTable ∧ RefusesResources name plugin.resourceTable r
  | .compilerPlugin _ | .bare => False

/-- The descriptor brings nothing that would be registered. -/
def DescriptorSilent (library : Library) : Prop :=
  match library.descriptor with
  | .syntaxPlugin plugin => plugin.rules.list = []
  | .languagePlugin plugin =>
      AddsNothing plugin.binaryOperatorTable ∧ AddsNothing plugin.resourceTable
  | _ => True

/-- The first table that registers something comes after one that is refused. -/
def TablesRefused (library : Library) (name : Text) (r : Registries) : Prop :=
  library.prelude = some none
    ∨ library.prelude.join.getD [] = []
      ∧ (Refuses (operatorTableFault name) library.binaryOperators.join r
        ∨ AddsNothing library.binaryOperators.join
          ∧ (Refuses (opaqueTableFault name) library.opaqueRules.join r
            ∨ AddsNothing library.opaqueRules.join
              ∧ RefusesResources name library.resources.join r))

/-- The first check that fails comes before anything is registered. -/
def RefusedAtOnce (library : Library) (expectedName : Text) (capabilities : List Text)
    (m : Manager) : Prop :=
  DescriptorRefused library expectedName m.registries
    ∨ DescriptorSilent library
      ∧ (m.pluginFault expectedName (library.descriptor.pluginName expectedName) capabilities
          ≠ none
        ∨ TablesRefused library (library.descriptor.pluginName expectedName) m.registries)

/-- The load comes to open the library. -/
def Opens (H : Host) (path : Path) (m : Manager) (library : Library) : Prop :=
  H.fileExists path = true ∧ m.loadedLibraries (H.canonical path) = none
    ∧ H.library (H.canonical path) = some library ∧ library.exportsNothing = false

/-! ## The registrations one by one -/

theorem untouched_table {α : Type} {fault : Table α → Registries → Option RegisterError}
    {write : Table α → Registries → Registries} {x : Option (Table α) → Registration}
    (hnone : x none = pure ⟨⟩) (hsome : ∀ rows, x (some rows) = guarded (fault rows) (write rows))
    {table : Option (Table α)} : Untouched (x table) r ↔ Refuses fault table r := by
  cases table with
  | none =>
      rw [hnone]
      refine iff_of_false ?_ ?_
      · rintro ⟨e, he⟩
        cases he
      · rintro ⟨rows, hrows, -⟩
        cases hrows
  | some rows =>
      rw [hsome, untouched_guarded]
      constructor
      · exact fun hfault => ⟨rows, rfl, hfault⟩
      · rintro ⟨_, hrows, hfault⟩
        cases hrows
        exact hfault

/-- A table is accepted with nothing added, where it is not refused. -/
theorem idle_table {α : Type} {fault : Table α → Registries → Option RegisterError}
    {write : Table α → Registries → Registries} {x : Option (Table α) → Registration}
    (hnone : x none = pure ⟨⟩) (hsome : ∀ rows, x (some rows) = guarded (fault rows) (write rows))
    (hwrite : ∀ rows, write rows r = r ↔ rows.list = []) {table : Option (Table α)} :
    x table r = .ok ⟨⟩ r ↔ ¬Refuses fault table r ∧ AddsNothing table := by
  cases table with
  | none =>
      rw [hnone]
      refine iff_of_true rfl ⟨?_, ?_⟩
      · rintro ⟨rows, hrows, -⟩
        cases hrows
      · intro rows hrows
        cases hrows
  | some rows =>
      rw [hsome]
      have hidle : guarded (fault rows) (write rows) r = .ok ⟨⟩ r
          ↔ fault rows r = none ∧ write rows r = r := guarded_idle
      refine hidle.trans (and_congr ?_ ?_)
      · constructor
        · rintro hfault ⟨_, hrows, hne⟩
          cases hrows
          exact hne hfault
        · intro hnot
          by_contra hne
          exact hnot ⟨rows, rfl, hne⟩
      · rw [hwrite]
        constructor
        · rintro hempty _ hrows
          cases hrows
          exact hempty
        · exact fun h => h rows rfl

theorem grows_table {α : Type} {fault : Table α → Registries → Option RegisterError}
    {write : Table α → Registries → Registries} {x : Option (Table α) → Registration}
    (hnone : x none = pure ⟨⟩) (hsome : ∀ rows, x (some rows) = guarded (fault rows) (write rows))
    (hwrite : ∀ rows r, r ≤ write rows r) (table : Option (Table α)) : Grows (x table) := by
  cases table with
  | none => exact hnone ▸ .pure _
  | some rows => exact hsome rows ▸ .guarded fun r _ => hwrite rows r

theorem grows_operators (name : Text) (operators : Option (Table BinaryOperatorRule)) :
    Grows (registerPluginBinaryOperators name operators) :=
  grows_table rfl (fun _ => rfl) (fun rows r => le_foldl (le_addOperator name) rows.list r)
    operators

theorem grows_opaqueTable (name : Text) (table : Option (Table OpaqueSyntaxRule)) :
    Grows (registerOpaqueSyntaxRules name table) :=
  grows_table rfl (fun _ => rfl) (fun rows r => le_foldl (le_addOpaqueRule name) rows.list r) table

theorem grows_resource (name : Text) (descriptor : ResourceDescriptor) :
    Grows (registerResource name descriptor) :=
  .guarded fun _ h => le_addResource h

theorem grows_resources (name : Text) (resources : Option (Table ResourceDescriptor)) :
    Grows (registerPluginResources name resources) := by
  cases resources with
  | none => exact .pure _
  | some resources =>
      exact (Grows.guarded fun _ _ => le_rfl).bind fun _ =>
        .forM fun descriptor _ => grows_resource name descriptor

theorem grows_syntaxPlugin (plugin : Option SyntaxPlugin) :
    Grows (registerSyntaxPlugin plugin) := by
  cases plugin with
  | none => exact .raise _
  | some plugin => exact .guarded fun r _ => le_foldl (le_addRule _) plugin.rules.list r

theorem registerPrelude_some {library : Library} {source : Option Text}
    (h : library.prelude = some source) :
    registerPrelude library name = registerSyntaxPluginPrelude name source := by
  unfold registerPrelude
  rw [h]

theorem registerPrelude_none {library : Library} (h : library.prelude = none) :
    registerPrelude library name = pure ⟨⟩ := by
  unfold registerPrelude
  rw [h]

theorem grows_prelude (library : Library) (name : Text) : Grows (registerPrelude library name) := by
  cases h : library.prelude with
  | none => exact registerPrelude_none h ▸ .pure _
  | some source =>
      exact registerPrelude_some h ▸ .guarded fun r _ => le_addPrelude name source r

theorem untouched_operators {operators : Option (Table BinaryOperatorRule)} :
    Untouched (registerPluginBinaryOperators name operators) r
      ↔ Refuses (operatorTableFault name) operators r :=
  untouched_table rfl fun _ => rfl

theorem idle_operators {operators : Option (Table BinaryOperatorRule)} :
    registerPluginBinaryOperators name operators r = .ok ⟨⟩ r
      ↔ ¬Refuses (operatorTableFault name) operators r ∧ AddsNothing operators :=
  idle_table rfl (fun _ => rfl) fun _ => addOperatorTable_eq_self_iff

theorem untouched_opaque {table : Option (Table OpaqueSyntaxRule)} :
    Untouched (registerOpaqueSyntaxRules name table) r
      ↔ Refuses (opaqueTableFault name) table r :=
  untouched_table rfl fun _ => rfl

theorem idle_opaque {table : Option (Table OpaqueSyntaxRule)} :
    registerOpaqueSyntaxRules name table r = .ok ⟨⟩ r
      ↔ ¬Refuses (opaqueTableFault name) table r ∧ AddsNothing table :=
  idle_table rfl (fun _ => rfl) fun _ => addOpaqueTable_eq_self_iff

/-- A resource that is accepted is added. -/
theorem registerResource_ne_idle (descriptor : ResourceDescriptor) :
    registerResource name descriptor r ≠ .ok ⟨⟩ r := by
  intro h
  have hidle := guarded_idle.mp h
  exact addResource_ne_self hidle.1 hidle.2

theorem untouched_descriptors {descriptors : List ResourceDescriptor} :
    Untouched (descriptors.forM (registerResource name)) r
      ↔ ∃ descriptor rest, descriptors = descriptor :: rest
        ∧ resourceFault name descriptor r ≠ none := by
  cases descriptors with
  | nil =>
      refine iff_of_false not_untouched_pure ?_
      rintro ⟨descriptor, rest, heq, -⟩
      cases heq
  | cons descriptor rest =>
      have hrest : GrowsToError (rest.forM (registerResource name)) :=
        (Grows.forM fun d _ => grows_resource name d).toError
      have hseq := untouched_seq (s := r) (grows_resource name descriptor) hrest
      change Untouched (registerResource name descriptor >>= fun _ =>
        rest.forM (registerResource name)) r ↔ _
      rw [hseq, registerResource, untouched_guarded]
      constructor
      · rintro (hfault | ⟨hidle, -⟩)
        · exact ⟨descriptor, rest, rfl, hfault⟩
        · exact absurd hidle (registerResource_ne_idle descriptor)
      · rintro ⟨_, _, heq, hfault⟩
        cases heq
        exact .inl hfault

theorem idle_descriptors {descriptors : List ResourceDescriptor} :
    descriptors.forM (registerResource name) r = .ok ⟨⟩ r ↔ descriptors = [] := by
  cases descriptors with
  | nil => exact iff_of_true rfl rfl
  | cons descriptor rest =>
      refine iff_of_false (fun h => ?_) (List.cons_ne_nil _ _)
      have hgrows : Grows (rest.forM (registerResource name)) :=
        .forM fun d _ => grows_resource name d
      have hseq := (idle_seq (grows_resource name descriptor) hgrows).mp h
      exact registerResource_ne_idle descriptor hseq.1

theorem resourceTableFault_iff {resources : Table ResourceDescriptor} :
    resourceTableFault name resources r ≠ none ↔ resources.isMissing = true := by
  unfold resourceTableFault
  split <;> simp_all

theorem untouched_resources {resources : Option (Table ResourceDescriptor)} :
    Untouched (registerPluginResources name resources) r ↔ RefusesResources name resources r := by
  cases resources with
  | none =>
      refine iff_of_false not_untouched_pure ?_
      rintro ⟨resources, heq, -⟩
      cases heq
  | some resources =>
      have hforM : GrowsToError (resources.list.forM (registerResource name)) :=
        (Grows.forM fun d _ => grows_resource name d).toError
      have hguard : Grows (guarded (resourceTableFault name resources) id) :=
        .guarded fun _ _ => le_rfl
      change Untouched (guarded (resourceTableFault name resources) id >>= fun _ =>
        resources.list.forM (registerResource name)) r ↔ _
      rw [untouched_seq hguard hforM, untouched_guarded, guarded_idle, untouched_descriptors,
        resourceTableFault_iff]
      constructor
      · rintro (hmissing | ⟨-, hfirst⟩)
        · exact ⟨resources, rfl, .inl hmissing⟩
        · exact ⟨resources, rfl, .inr hfirst⟩
      · rintro ⟨_, heq, hmissing | hfirst⟩ <;> cases heq
        · exact .inl hmissing
        · by_cases hmissing : resources.isMissing = true
          · exact .inl hmissing
          · exact .inr
              ⟨⟨not_not.mp fun hne => hmissing (resourceTableFault_iff.mp hne), rfl⟩, hfirst⟩

theorem idle_resources {resources : Option (Table ResourceDescriptor)} :
    registerPluginResources name resources r = .ok ⟨⟩ r
      ↔ ¬RefusesResources name resources r ∧ AddsNothing resources := by
  cases resources with
  | none =>
      refine iff_of_true rfl ⟨?_, ?_⟩
      · rintro ⟨resources, heq, -⟩
        cases heq
      · intro rows heq
        cases heq
  | some resources =>
      have hforM : Grows (resources.list.forM (registerResource name)) :=
        .forM fun d _ => grows_resource name d
      have hguard : Grows (guarded (resourceTableFault name resources) id) :=
        .guarded fun _ _ => le_rfl
      change (guarded (resourceTableFault name resources) id >>= fun _ =>
        resources.list.forM (registerResource name)) r = _ ↔ _
      rw [idle_seq hguard hforM, guarded_idle, idle_descriptors]
      constructor
      · rintro ⟨⟨hfault, -⟩, hempty⟩
        refine ⟨?_, ?_⟩
        · rintro ⟨_, heq, hmissing | ⟨descriptor, rest, hlist, -⟩⟩ <;> cases heq
          · exact absurd hfault (resourceTableFault_iff.mpr hmissing)
          · rw [hempty] at hlist
            cases hlist
        · rintro _ heq
          cases heq
          exact hempty
      · rintro ⟨hnot, hempty⟩
        refine ⟨⟨?_, rfl⟩, hempty resources rfl⟩
        by_contra hfault
        exact hnot ⟨resources, rfl, .inl (resourceTableFault_iff.mp hfault)⟩

end Plugin

end Absolute
