import Absolute.PlugManager
import Absolute.PlugRefused

/-!
# What the load of a library does

The outcome of `LoadDynamicLibrary` under a name: the library was loaded as that
before, or the plugin is recorded with its rules registered (`Recorded`). Where it
throws, only the registries differ, and what is thrown is neither a cycle nor a
depth.
-/

namespace Absolute

namespace Plugin

open Function Raising Registries Manager

variable {H : Host} {m m' m'' : Manager}

/-! ## What is thrown -/

/-- What was thrown first. -/
def LoadError.cause : LoadError → LoadError
  | .whileResolving _ _ _ e => e.cause
  | e => e

def LoadError.IsCycle (e : LoadError) : Prop := ∃ manifests, e.cause = .cycle manifests

/-- Neither a cycle, nor thrown before, nor a depth. -/
def LoadError.isPlain : LoadError → Bool
  | .cycle _ | .whileResolving _ _ _ _ | .tooDeep => false
  | _ => true

theorem LoadError.cause_of_isPlain {e : LoadError} (h : e.isPlain = true) :
    e.cause ≠ .tooDeep ∧ ¬e.IsCycle := by
  have hcause : e.cause = e := by
    cases e <;> first | rfl | cases h
  unfold LoadError.IsCycle
  rw [hcause]
  constructor
  · rintro rfl
    cases h
  · rintro ⟨manifests, rfl⟩
    cases h

/-! ## Rules -/

/-- The syntax rules of a library, under the name of its plugin. -/
def RulesIn (library : Library) (name : Text) (r : Registries) : Prop :=
  ∀ plugin, library.descriptor = .syntaxPlugin plugin → ∀ rule ∈ plugin.rules.list,
    (⟨name, rule.keyword.getD [], rule.expand.getD 0, rule.userData⟩ : RegisteredRule) ∈ r.rules

def OpaqueRulesIn (table : Option (Table OpaqueSyntaxRule)) (name : Text) (r : Registries) :
    Prop :=
  ∀ rows, table = some rows → ∀ rule ∈ rows.list,
    (⟨name, opaqueKeyword rule, rule.parse.getD 0, rule.userData⟩ : RegisteredRule)
      ∈ r.opaqueRules

/-- The rules of a library are registered. -/
structure Registered (library : Library) (name : Text) (r : Registries) : Prop where
  rules : RulesIn library name r
  opaqueRules : OpaqueRulesIn library.opaqueRules.join name r

/-- No rule is taken away. -/
structure RulesLe (r r' : Registries) : Prop where
  rules : r.rules ⊆ r'.rules
  opaqueRules : r.opaqueRules ⊆ r'.opaqueRules

theorem RulesLe.of_le {r r' : Registries} (h : r ≤ r') : RulesLe r r' :=
  ⟨List.IsPrefix.subset h.rules, List.IsPrefix.subset h.opaqueRules⟩

theorem RulesLe.trans {r r' r'' : Registries} (h : RulesLe r r') (h' : RulesLe r' r'') :
    RulesLe r r'' :=
  ⟨List.Subset.trans h.rules h'.rules, List.Subset.trans h.opaqueRules h'.opaqueRules⟩

theorem Registered.mono {library : Library} {name : Text} {r r' : Registries}
    (h : Registered library name r) (hle : RulesLe r r') : Registered library name r' :=
  ⟨fun plugin heq rule hrule => hle.rules (h.rules plugin heq rule hrule),
    fun table heq rule hrule => hle.opaqueRules (h.opaqueRules table heq rule hrule)⟩

/-- Only the registries differ, and have more rules. -/
def SameBut (m m' : Manager) : Prop :=
  ∃ r, RulesLe m.registries r ∧ m' = { m with registries := r }

theorem SameBut.refl (m : Manager) : SameBut m m := ⟨_, .of_le le_rfl, rfl⟩

theorem SameBut.trans (h : SameBut m m') (h' : SameBut m' m'') : SameBut m m'' := by
  rcases h with ⟨r, hr, rfl⟩
  rcases h' with ⟨r', hr', rfl⟩
  exact ⟨r', hr.trans hr', rfl⟩

/-! ## The library -/

theorem results_of_grows {x : Registration} (h : Grows x) (r : Registries) :
    Results x r (fun _ r' => RulesLe r r') fun _ r' => RulesLe r r' := by
  have hle := h r
  unfold Results
  cases hx : x r <;> rw [hx] at hle <;> exact .of_le hle

theorem mem_foldl_rules {α : Type} {add : Registries → α → Registries}
    (entries : Registries → List RegisteredRule) (row : α → RegisteredRule)
    (h : ∀ r a, entries (add r a) = entries r ++ [row a]) {l : List α} {a : α} (ha : a ∈ l)
    (r : Registries) : row a ∈ entries (l.foldl add r) := by
  have hall : entries (l.foldl add r) = entries r ++ l.map row := by
    clear ha
    induction l generalizing r with
    | nil => rw [List.foldl_nil, List.map_nil, List.append_nil]
    | cons b l ih => rw [List.foldl_cons, ih, h, List.map_cons, List.append_assoc]; rfl
  rw [hall]
  exact List.mem_append_right _ (List.mem_map_of_mem ha)

/-- The rules of a syntax plugin are registered, if it is accepted. -/
theorem results_syntaxPlugin (plugin : SyntaxPlugin) (r : Registries) :
    Results (registerSyntaxPlugin (some plugin)) r
      (fun _ r' => RulesLe r r' ∧ ∀ rule ∈ plugin.rules.list,
        (⟨plugin.name.getD [], rule.keyword.getD [], rule.expand.getD 0, rule.userData⟩ :
          RegisteredRule) ∈ r'.rules)
      fun _ r' => RulesLe r r' := by
  unfold Results registerSyntaxPlugin guarded
  dsimp only
  split
  · rename_i heq
    split at heq <;> cases heq
    refine ⟨.of_le (le_foldl (le_addRule _) _ r), fun rule hrule => ?_⟩
    exact mem_foldl_rules Registries.rules (fun rule : SyntaxRule =>
      ⟨plugin.name.getD [], rule.keyword.getD [], rule.expand.getD 0, rule.userData⟩)
      (fun _ _ => rfl) hrule r
  · rename_i heq
    split at heq <;> cases heq
    exact .of_le le_rfl

theorem results_opaqueTable (name : Text) (table : Option (Table OpaqueSyntaxRule))
    (r : Registries) :
    Results (registerOpaqueSyntaxRules name table) r
      (fun _ r' => RulesLe r r' ∧ OpaqueRulesIn table name r') fun _ r' => RulesLe r r' := by
  cases table with
  | none => exact ⟨.of_le le_rfl, fun _ heq => by cases heq⟩
  | some table =>
      unfold Results registerOpaqueSyntaxRules guarded
      dsimp only
      split
      · rename_i heq
        split at heq <;> cases heq
        refine ⟨.of_le (le_foldl (le_addOpaqueRule _) _ r), fun rows hrows rule hrule => ?_⟩
        cases hrows
        exact mem_foldl_rules Registries.opaqueRules (fun rule : OpaqueSyntaxRule =>
          ⟨name, opaqueKeyword rule, rule.parse.getD 0, rule.userData⟩) (fun _ _ => rfl) hrule r
      · rename_i heq
        split at heq <;> cases heq
        exact .of_le le_rfl

theorem rulesLe_addVirtualModules (library : Library) (name : Text) (r : Registries) :
    RulesLe r (addVirtualModules library name r) := by
  have hone : ∀ (modules : List VirtualModule) (r : Registries),
      (modules.foldl (addVirtualModule name) r).rules = r.rules
        ∧ (modules.foldl (addVirtualModule name) r).opaqueRules = r.opaqueRules := by
    intro modules
    induction modules with
    | nil => exact fun r => ⟨rfl, rfl⟩
    | cons mod modules ih =>
        intro r
        have hrest := ih (addVirtualModule name r mod)
        have hfirst : (addVirtualModule name r mod).rules = r.rules
            ∧ (addVirtualModule name r mod).opaqueRules = r.opaqueRules := by
          unfold addVirtualModule
          split <;> exact ⟨rfl, rfl⟩
        exact ⟨hrest.1.trans hfirst.1, hrest.2.trans hfirst.2⟩
  have hregister : ∀ (modules : Option (List VirtualModule)) (r : Registries),
      RulesLe r (registerPluginVirtualModules name modules r) := by
    intro modules r
    cases modules with
    | none => exact .of_le le_rfl
    | some modules =>
        have hsame := hone modules r
        exact ⟨hsame.1 ▸ List.Subset.refl _, hsame.2 ▸ List.Subset.refl _⟩
  exact (hregister _ r).trans (hregister _ _)

theorem OpaqueRulesIn.mono {table : Option (Table OpaqueSyntaxRule)} {name : Text}
    {r r' : Registries} (h : OpaqueRulesIn table name r) (hle : RulesLe r r') :
    OpaqueRulesIn table name r' :=
  fun rows heq rule hrule => hle.opaqueRules (h rows heq rule hrule)

/-- The tables beside the descriptor: what is accepted has its opaque rules registered. -/
theorem results_registerTables (library : Library) (name : Text) (r : Registries) :
    Results (registerTables library name) r
      (fun _ r' => RulesLe r r' ∧ OpaqueRulesIn library.opaqueRules.join name r')
      fun _ r' => RulesLe r r' := by
  unfold registerTables
  refine (results_of_grows (grows_prelude library name) r).bind fun _ r₁ h₁ => ?_
  have hoperators := (results_of_grows (grows_operators name library.binaryOperators.join) r₁).mono
    (fun _ _ h => h₁.trans h) fun _ _ h => h₁.trans h
  refine hoperators.bind fun _ r₂ h₂ => ?_
  have hopaque : Results (registerOpaqueSyntaxRules name library.opaqueRules.join) r₂
      (fun _ r₃ => RulesLe r r₃ ∧ OpaqueRulesIn library.opaqueRules.join name r₃)
      fun _ r₃ => RulesLe r r₃ :=
    (results_opaqueTable name _ r₂).mono (fun _ _ h => ⟨h₂.trans h.1, h.2⟩) fun _ _ h => h₂.trans h
  refine hopaque.bind fun _ r₃ h₃ => ?_
  have hresources : Results (registerPluginResources name library.resources.join) r₃
      (fun _ r₄ => RulesLe r r₄ ∧ OpaqueRulesIn library.opaqueRules.join name r₄)
      fun _ r₄ => RulesLe r r₄ :=
    (results_of_grows (grows_resources name _) r₃).mono
      (fun _ _ h => ⟨h₃.1.trans h, h₃.2.mono h⟩) fun _ _ h => h₃.1.trans h
  refine hresources.bind fun _ r₄ h₄ => ?_
  have hlast := rulesLe_addVirtualModules library name r₄
  exact ⟨h₄.1.trans hlast, h₄.2.mono hlast⟩

theorem results_register {x : Registration} {Q : Registries → Prop}
    (h : Results x m.registries (fun _ r => RulesLe m.registries r ∧ Q r)
      fun _ r => RulesLe m.registries r) :
    Results (register x) m (fun _ m' => SameBut m m' ∧ Q m'.registries)
      fun e m' => SameBut m m' ∧ e.isPlain = true := by
  unfold Results at *
  unfold register liftError onPart
  cases hx : x m.registries with
  | ok a r =>
      rw [hx] at h
      exact ⟨⟨r, h.1, rfl⟩, h.2⟩
  | error e r =>
      rw [hx] at h
      exact ⟨⟨r, h, rfl⟩, rfl⟩

theorem results_register_of_grows {x : Registration} (h : Grows x) (m : Manager) :
    Results (register x) m (fun _ m' => SameBut m m')
      fun e m' => SameBut m m' ∧ e.isPlain = true := by
  have hx := (results_of_grows h m.registries).mono (fun _ _ h => (⟨h, trivial⟩ : _ ∧ True))
    fun _ _ h => h
  exact (results_register hx).mono (fun _ _ h => h.1) fun _ _ h => h

theorem results_describePlugin (library : Library) (expectedName : Text) (path : Path)
    (m : Manager) :
    Results (describePlugin library expectedName path) m
      (fun name m' => SameBut m m' ∧ RulesIn library name m'.registries)
      fun e m' => SameBut m m' ∧ e.isPlain = true := by
  unfold describePlugin RulesIn
  cases library.descriptor with
  | invalid => exact ⟨.refl m, rfl⟩
  | syntaxPlugin plugin =>
      refine (results_register (results_syntaxPlugin plugin m.registries)).bind fun _ m' h => ?_
      refine ⟨h.1, fun plugin' heq => ?_⟩
      cases heq
      exact h.2
  | languagePlugin plugin =>
      refine (results_register_of_grows (grows_operators _ _) m).bind fun _ m' h => ?_
      refine Results.bind ((results_register_of_grows (grows_resources _ _) m').mono
        (fun _ _ h' => h.trans h') fun _ _ h' => ⟨h.trans h'.1, h'.2⟩) fun _ m'' h' => ?_
      exact ⟨h', fun _ heq => by cases heq⟩
  | compilerPlugin name => exact ⟨.refl m, fun _ heq => by cases heq⟩
  | bare => exact ⟨.refl m, fun _ heq => by cases heq⟩

theorem pluginFault_isPlain {expectedName name : Text} {capabilities : List Text} {e : LoadError}
    (h : m.pluginFault expectedName name capabilities = some e) : e.isPlain = true := by
  unfold pluginFault at h
  split at h
  · cases h
    rfl
  · split at h
    · cases h
      rfl
    · rcases List.exists_of_findSome?_eq_some h with ⟨capability, -, hcapability⟩
      rcases Option.map_eq_some_iff.mp hcapability with ⟨provider, -, rfl⟩
      rfl

/-- The checks against what is loaded, passed. -/
structure Admitted (expectedName name : Text) (capabilities : List Text) (m : Manager) :
    Prop where
  named : expectedName = [] ∨ expectedName = name
  new : m.findPlugin name = none
  free : ∀ capability ∈ capabilities, m.capabilityProviders capability = none

theorem admitted_of_pluginFault {expectedName name : Text} {capabilities : List Text}
    (h : m.pluginFault expectedName name capabilities = none) :
    Admitted expectedName name capabilities m := by
  unfold pluginFault at h
  split at h
  · cases h
  · rename_i hname
    rw [not_and_or, not_not, not_not] at hname
    split at h
    · cases h
    · rename_i hfind
      refine ⟨hname, hfind, fun capability hmem => ?_⟩
      have hnone := List.findSome?_eq_none_iff.mp h capability hmem
      exact Option.map_eq_none_iff.mp hnone

theorem results_guarded {fault : Manager → Option LoadError} (m : Manager) :
    Results (guarded fault id) m (fun _ m' => m' = m ∧ fault m = none)
      fun e m' => m' = m ∧ fault m = some e := by
  unfold Results guarded
  cases fault m with
  | none => exact ⟨rfl, rfl⟩
  | some e => exact ⟨rfl, rfl⟩

/-- What is true of the manager when a library under a name was loaded from `m`. -/
def Recorded (library : Library) (plugin : LoadedPlugin) (m m' : Manager) : Prop :=
  Admitted plugin.name plugin.name plugin.capabilities m
    ∧ ∃ m₁, SameBut m m₁ ∧ Registered library plugin.name m₁.registries ∧ m' = m₁.record plugin

theorem admitted_sameBut {expectedName name : Text} {capabilities : List Text}
    (hsame : SameBut m m') (h : Admitted expectedName name capabilities m') :
    Admitted expectedName name capabilities m := by
  rcases hsame with ⟨r, -, rfl⟩
  exact ⟨h.named, h.new, h.free⟩

theorem results_loadLibrary {library : Library} {path manifest : Path}
    {expectedName version : Text} {capabilities : List Text} (hname : expectedName ≠ [])
    (m : Manager) :
    Results (loadLibrary library path expectedName version manifest capabilities) m
      (fun _ m' => Recorded library ⟨expectedName, version, path, manifest, capabilities⟩ m m')
      fun e m' => SameBut m m' ∧ e.isPlain = true := by
  unfold loadLibrary
  refine (results_describePlugin library expectedName path m).bind fun name m₁ h₁ => ?_
  refine Results.bind ((results_guarded m₁).mono (fun _ m' h => h)
    fun e m' h => ⟨h.1 ▸ h₁.1, pluginFault_isPlain h.2⟩) ?_
  rintro ⟨⟩ m₂ ⟨rfl, hfault⟩
  have hadmitted := admitted_of_pluginFault hfault
  have heq : expectedName = name := hadmitted.named.resolve_left hname
  subst heq
  refine Results.bind ((results_register (results_registerTables library expectedName
    m₂.registries)).mono (fun _ _ h => h) fun e m' h => ⟨h₁.1.trans h.1, h.2⟩) ?_
  rintro ⟨⟩ m₃ ⟨hsame, hopaque⟩
  refine ⟨⟨.inr rfl, ?_, ?_⟩, m₃, h₁.1.trans hsame, ⟨?_, hopaque⟩, rfl⟩
  · exact (admitted_sameBut h₁.1 hadmitted).new
  · exact (admitted_sameBut h₁.1 hadmitted).free
  · intro plugin hdescriptor rule hrule
    rcases hsame with ⟨r, hr, rfl⟩
    exact hr.rules (h₁.2 plugin hdescriptor rule hrule)

/-- A library under a name: it was loaded as that before, or the plugin is recorded. -/
theorem results_loadDynamicLibrary {path manifest : Path} {expectedName version : Text}
    {capabilities : List Text} (hname : expectedName ≠ []) (m : Manager) :
    Results (loadDynamicLibrary H path expectedName version manifest capabilities) m
      (fun _ m' => (m' = m ∧ m.loadedLibraries (H.canonical path) = some expectedName)
        ∨ ∃ library, H.library (H.canonical path) = some library
          ∧ Recorded library ⟨expectedName, version, H.canonical path, manifest, capabilities⟩
            m m')
      fun e m' => SameBut m m' ∧ e.isPlain = true := by
  cases hresult : loadDynamicLibrary H path expectedName version manifest capabilities m with
  | ok a m' =>
      unfold Results
      rw [hresult]
      unfold loadDynamicLibrary at hresult
      split at hresult
      · cases hresult
      split at hresult
      · rename_i name hloaded
        split at hresult <;> cases hresult
        rename_i hsame
        rw [not_and, not_not] at hsame
        exact .inl ⟨rfl, hsame hname ▸ hloaded⟩
      split at hresult
      · cases hresult
      rename_i library hlibrary
      split at hresult
      · cases hresult
      · exact .inr ⟨library, hlibrary, (results_loadLibrary hname m).of_ok hresult⟩
  | error e m' =>
      unfold Results
      rw [hresult]
      unfold loadDynamicLibrary at hresult
      split at hresult
      · cases hresult
        exact ⟨.refl m, rfl⟩
      split at hresult
      · split at hresult <;> cases hresult
        exact ⟨.refl m, rfl⟩
      split at hresult
      · cases hresult
        exact ⟨.refl m, rfl⟩
      split at hresult
      · cases hresult
        exact ⟨.refl m, rfl⟩
      · exact (results_loadLibrary hname m).of_error hresult

end Plugin

end Absolute
