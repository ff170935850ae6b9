import Absolute.PlugConsistent

/-!
# A plugin that goes away

What one plugin registers, `UnregisterSyntaxPlugin` takes away again, and nothing else,
with one exception: a virtual module is written over the one another plugin has under
its name, and that one does not come back.

A registration does not change what is left when the plugin is unregistered
(`Forgotten`), but for the modules it names (`withoutModules`).
-/

namespace Absolute

namespace Plugin

open Function Raising Registries Indexed

variable {r r' : Registries} {name : Text}

/-! ## What a plugin offers -/

inductive Offer where
  | syntaxPlugin (abiVersion : ℕ) (rules : Table SyntaxRule)
  | prelude (source : Option Text)
  | binaryOperators (operators : Option (Table BinaryOperatorRule))
  | opaqueRules (table : Option (Table OpaqueSyntaxRule))
  | resources (table : Option (Table ResourceDescriptor))
  | virtualModules (modules : Option (List VirtualModule))

def Offer.register (name : Text) : Offer → Registration
  | .syntaxPlugin abiVersion rules => registerSyntaxPlugin (some ⟨abiVersion, some name, rules⟩)
  | .prelude source => registerSyntaxPluginPrelude name source
  | .binaryOperators operators => registerPluginBinaryOperators name operators
  | .opaqueRules table => registerOpaqueSyntaxRules name table
  | .resources table => registerPluginResources name table
  | .virtualModules modules => modify (registerPluginVirtualModules name modules)

/-- The name a row registers a module under. -/
def VirtualModule.registeredName (mod : VirtualModule) : Option Text :=
  mod.moduleSource.bind fun _ => mod.moduleName

def Offer.moduleNames : Offer → List Text
  | .virtualModules modules => (modules.getD []).filterMap (·.registeredName)
  | _ => []

structure Registries.HasNone (name : Text) (r : Registries) : Prop where
  rules : ∀ rule ∈ r.rules, rule.pluginName ≠ name
  opaqueRules : ∀ rule ∈ r.opaqueRules, rule.pluginName ≠ name
  preludes : ∀ prelude ∈ r.preludes, prelude.pluginName ≠ name
  operators : ∀ op ∈ r.binaryOperators, op.pluginName ≠ name
  resources : ∀ k descriptor, r.resourcesByTypeName k = some descriptor →
    descriptor.pluginName ≠ name
  virtualModules : ∀ k mod, r.virtualModulesByName k = some mod → mod.pluginName ≠ name

theorem Registries.HasNone.empty (name : Text) : HasNone name {} where
  rules _ h := by cases h
  opaqueRules _ h := by cases h
  preludes _ h := by cases h
  operators _ h := by cases h
  resources _ _ h := by cases h
  virtualModules _ _ h := by cases h

theorem filter_eq_self_of_ne {α : Type} {owner : α → Text} {rows : List α}
    (h : ∀ row ∈ rows, owner row ≠ name) : rows.filter (fun row => owner row ≠ name) = rows :=
  List.filter_eq_self.mpr fun row hrow => decide_eq_true (h row hrow)

theorem filter_value_of_ne {α : Type} {owner : α → Text} {value : Option α}
    (h : ∀ row, value = some row → owner row ≠ name) :
    value.filter (fun row => owner row ≠ name) = value := by
  cases value with
  | none => rfl
  | some row => exact Option.filter_some_pos (decide_eq_true (h row rfl))

/-- Nothing goes away with a plugin that has nothing. -/
theorem unregister_of_hasNone (h : r.Consistent) (hnone : r.HasNone name) :
    unregister name r = r := by
  have hrules := filter_eq_self_of_ne hnone.rules
  have hopaque := filter_eq_self_of_ne hnone.opaqueRules
  have hpreludes := filter_eq_self_of_ne hnone.preludes
  have hoperators := filter_eq_self_of_ne hnone.operators
  unfold unregister
  rw [hrules, hopaque, hpreludes, hoperators]
  ext1
  · rfl
  · exact (indexes_findIdx h.rules.nodup).unique h.rules
  · rfl
  · exact (indexes_findIdx h.opaqueRules.nodup).unique h.opaqueRules
  · rfl
  · rfl
  · exact (indexes_findIdx h.operators.nodup).unique h.operators
  · exact funext fun k => filter_value_of_ne (hnone.resources k)
  · exact funext fun k => filter_value_of_ne (hnone.virtualModules k)

/-! ## What is forgotten -/

/-- What is written is gone when the plugin is unregistered. -/
def Forgotten (name : Text) (x : Registration) : Prop :=
  ∀ left, Keeps (fun r => unregister name r = left) x

theorem filter_append_own {α : Type} (owner : α → Text) {rows : List α} {row : α}
    (h : owner row = name) :
    (rows ++ [row]).filter (fun row => owner row ≠ name)
      = rows.filter fun row => owner row ≠ name := by
  rw [List.filter_append, List.filter_singleton, h]
  simp

theorem unregister_addRule (name : Text) (r : Registries) (rule : SyntaxRule) :
    unregister name (r.addRule name rule) = unregister name r := by
  unfold unregister Registries.addRule
  dsimp only
  rw [filter_append_own RegisteredRule.pluginName]
  rfl

theorem unregister_addOpaqueRule (name : Text) (r : Registries) (rule : OpaqueSyntaxRule) :
    unregister name (r.addOpaqueRule name rule) = unregister name r := by
  unfold unregister Registries.addOpaqueRule
  dsimp only
  rw [filter_append_own RegisteredRule.pluginName]
  rfl

theorem unregister_addOperator (name : Text) (r : Registries) (rule : BinaryOperatorRule) :
    unregister name (r.addOperator name rule) = unregister name r := by
  unfold unregister Registries.addOperator
  dsimp only
  rw [filter_append_own PluginBinaryOperator.pluginName]
  rfl

theorem unregister_addPrelude (name : Text) (source : Option Text) (r : Registries) :
    unregister name (addPrelude name source r) = unregister name r := by
  unfold addPrelude
  split
  · rfl
  · unfold unregister
    dsimp only
    rw [filter_append_own RegisteredPrelude.pluginName]
    rfl

/-- A type is registered where none was. -/
theorem unregister_addResource {descriptor : ResourceDescriptor}
    (hfree : r.resourcesByTypeName (descriptor.typeName.getD []) = none) :
    unregister name (addResource name descriptor r) = unregister name r := by
  unfold unregister addResource
  dsimp only
  congr 1
  funext typeName
  by_cases heq : typeName = descriptor.typeName.getD []
  · rw [heq, update_self, hfree]
    simp
  · rw [update_of_ne heq]

theorem unregister_foldl {α : Type} {add : Registries → α → Registries}
    (h : ∀ r row, unregister name (add r row) = unregister name r) (rows : List α)
    (r : Registries) : unregister name (rows.foldl add r) = unregister name r := by
  induction rows generalizing r with
  | nil => rfl
  | cons row rows ih => rw [List.foldl_cons, ih, h]

theorem forgotten_guarded {fault : Registries → Option RegisterError}
    {write : Registries → Registries}
    (h : ∀ r, fault r = none → unregister name (write r) = unregister name r) :
    Forgotten name (guarded fault write) :=
  fun _ => keeps_guarded fun r hr hfault => (h r hfault).trans hr

theorem forgotten_syntaxPlugin (abiVersion : ℕ) (rules : Table SyntaxRule) :
    Forgotten name (registerSyntaxPlugin (some ⟨abiVersion, some name, rules⟩)) :=
  forgotten_guarded fun r _ => unregister_foldl (unregister_addRule name) rules.list r

theorem forgotten_prelude (source : Option Text) :
    Forgotten name (registerSyntaxPluginPrelude name source) :=
  forgotten_guarded fun r _ => unregister_addPrelude name source r

theorem forgotten_operators (operators : Option (Table BinaryOperatorRule)) :
    Forgotten name (registerPluginBinaryOperators name operators) := by
  cases operators with
  | none => exact fun _ r hr => hr
  | some operators =>
      exact forgotten_guarded fun r _ => unregister_foldl (unregister_addOperator name) _ r

theorem forgotten_opaqueTable (table : Option (Table OpaqueSyntaxRule)) :
    Forgotten name (registerOpaqueSyntaxRules name table) := by
  cases table with
  | none => exact fun _ r hr => hr
  | some table =>
      exact forgotten_guarded fun r _ => unregister_foldl (unregister_addOpaqueRule name) _ r

theorem forgotten_resources (table : Option (Table ResourceDescriptor)) :
    Forgotten name (registerPluginResources name table) := by
  cases table with
  | none => exact fun _ r hr => hr
  | some table =>
      exact fun left => Keeps.guarded.bind fun _ => Keeps.forM fun descriptor _ =>
        forgotten_guarded (fun r hfault =>
          unregister_addResource (type_free_of_resourceFault hfault)) left

/-! ## What is not -/

/-- The tables without the modules of some names. -/
def withoutModules (names : List Text) (r : Registries) : Registries :=
  { r with virtualModulesByName := fun k => if k ∈ names then none else r.virtualModulesByName k }

theorem withoutModules_nil : withoutModules [] r = r := rfl

theorem withoutModules_append (names names' : List Text) :
    withoutModules names' (withoutModules names r) = withoutModules (names ++ names') r := by
  unfold withoutModules
  congr 1
  funext k
  by_cases hk : k ∈ names <;> by_cases hk' : k ∈ names' <;> simp [hk, hk']

theorem withoutModules_eq_self_iff {names : List Text} :
    withoutModules names r = r ↔ ∀ k ∈ names, r.virtualModulesByName k = none := by
  constructor
  · intro h k hk
    have hat := congrFun (congrArg virtualModulesByName h) k
    rw [← hat]
    exact if_pos hk
  · intro h
    unfold withoutModules
    ext1 <;> try rfl
    funext k
    dsimp only
    by_cases hk : k ∈ names
    · rw [if_pos hk, h k hk]
    · rw [if_neg hk]

/-- Under its name a module leaves nothing, whose it was before. -/
theorem unregister_addVirtualModule (name : Text) (r : Registries) (mod : VirtualModule) :
    unregister name (addVirtualModule name r mod)
      = withoutModules mod.registeredName.toList (unregister name r) := by
  rcases mod with ⟨moduleName, moduleSource⟩
  cases moduleSource with
  | none =>
      cases moduleName <;> exact withoutModules_nil.symm
  | some source =>
      cases moduleName with
      | none => exact withoutModules_nil.symm
      | some moduleName =>
          change _ = withoutModules [moduleName] _
          unfold unregister addVirtualModule withoutModules
          dsimp only
          congr 1
          funext k
          by_cases hk : k = moduleName
          · rw [hk, update_self, if_pos (List.mem_singleton_self _)]
            simp
          · rw [update_of_ne hk, if_neg fun hmem => hk (List.mem_singleton.mp hmem)]

theorem unregister_virtualModules (modules : List VirtualModule) (r : Registries) :
    unregister name (modules.foldl (addVirtualModule name) r)
      = withoutModules (modules.filterMap (·.registeredName)) (unregister name r) := by
  induction modules generalizing r with
  | nil => exact withoutModules_nil.symm
  | cons mod modules ih =>
      rw [List.foldl_cons, ih, unregister_addVirtualModule, withoutModules_append,
        List.filterMap_cons]
      cases mod.registeredName <;> rfl

/-! ## A plugin comes and goes -/

theorem unregister_register {offer : Offer} (h : offer.register name r = .ok ⟨⟩ r') :
    unregister name r' = withoutModules offer.moduleNames (unregister name r) := by
  have hforgotten (x : Registration) (hx : Forgotten name x) (hok : x r = .ok ⟨⟩ r') :
      unregister name r' = withoutModules [] (unregister name r) := by
    have hleft := hx _ r rfl
    rw [hok] at hleft
    rw [withoutModules_nil]
    exact hleft
  cases offer with
  | syntaxPlugin abiVersion rules => exact hforgotten _ (forgotten_syntaxPlugin abiVersion rules) h
  | prelude source => exact hforgotten _ (forgotten_prelude source) h
  | binaryOperators operators => exact hforgotten _ (forgotten_operators operators) h
  | opaqueRules table => exact hforgotten _ (forgotten_opaqueTable table) h
  | resources table => exact hforgotten _ (forgotten_resources table) h
  | virtualModules modules =>
      cases h
      cases modules with
      | none => exact withoutModules_nil.symm
      | some modules => exact unregister_virtualModules modules r

theorem unregister_offers {offers : List Offer}
    (h : offers.forM (Offer.register name) r = .ok ⟨⟩ r') :
    unregister name r' = withoutModules (offers.flatMap Offer.moduleNames) (unregister name r) := by
  induction offers generalizing r with
  | nil =>
      cases h
      exact withoutModules_nil.symm
  | cons offer offers ih =>
      rcases Raising.bind_eq_ok.mp h with ⟨⟨⟩, r₁, hoffer, hrest⟩
      rw [ih hrest, unregister_register hoffer, withoutModules_append, List.flatMap_cons]

/-- The maps are right in every state, and a plugin that had nothing leaves the tables as
they were exactly if no module had a name it registers one under. -/
theorem unregister_restores_iff (h : Reachable r) :
    r.Consistent ∧ ((r.rules ++ r.opaqueRules).map (·.keyword)).Nodup
      ∧ ∀ (name : Text) (offers : List Offer) (r' : Registries), r.HasNone name →
        offers.forM (Offer.register name) r = .ok ⟨⟩ r' →
        (unregister name r' = r
          ↔ ∀ k ∈ offers.flatMap Offer.moduleNames, r.virtualModulesByName k = none) := by
  refine ⟨h.consistent, h.consistent.keywords_nodup, fun name offers r' hnone hoffers => ?_⟩
  rw [unregister_offers hoffers, unregister_of_hasNone h.consistent hnone,
    withoutModules_eq_self_iff]

def ruleAndModule : List Offer :=
  [.syntaxPlugin 1 (.rows [⟨some "unless".toList, some 1, 0⟩]),
    .virtualModules (some [⟨some "m".toList, some "one".toList⟩])]

/-- A rule and a module come and go. -/
theorem rule_and_module_restored : ∃ r' : Registries,
    ruleAndModule.forM (Offer.register "a".toList) {} = .ok ⟨⟩ r'
      ∧ r'.hasKeyword "unless".toList = true ∧ unregister "a".toList r' = {} :=
  ⟨_, rfl, rfl, ((unregister_restores_iff .empty).2.2 "a".toList ruleAndModule _ (.empty _)
    rfl).mpr fun _ _ => rfl⟩

/-- The tables when `a` has a module `m`. -/
def oneModule : Registries :=
  registerPluginVirtualModules "a".toList (some [⟨some "m".toList, some "one".toList⟩]) {}

/-- The module of `a` is gone when `b`, which has one of its name, has come and gone. -/
theorem module_not_restored : ∃ r' : Registries,
    Reachable oneModule ∧ oneModule.HasNone "b".toList
      ∧ [Offer.virtualModules (some [⟨some "m".toList, some "two".toList⟩])].forM
        (Offer.register "b".toList) oneModule = .ok ⟨⟩ r'
      ∧ unregister "b".toList r' ≠ oneModule := by
  refine ⟨_, .virtualModules _ _ .empty,
    { Registries.HasNone.empty "b".toList with virtualModules := ?_ }, rfl, fun heq => ?_⟩
  · intro k mod h
    by_cases hk : k = "m".toList
    · subst hk
      cases h
      decide
    · have hfree : oneModule.virtualModulesByName k = none := update_of_ne hk _ _
      rw [hfree] at h
      cases h
  · have hmodule := congrFun (congrArg virtualModulesByName heq) "m".toList
    cases hmodule

end Plugin

end Absolute
