import Absolute.PlugRefused

/-!
# A failed load and the manager

The rules of `PlugRefused` lifted to the manager, and from them the exact condition
under which a load that throws leaves it as it was.
-/

namespace Absolute

namespace Plugin

open Function Raising Registries Manager

variable {r : Registries} {m m' : Manager} {name expectedName version : Text} {library : Library}
  {path manifest : Path} {capabilities : List Text}

/-! ## The tables of a library -/

theorem preludeFault_eq_none_iff {source : Option Text} :
    preludeFault name source r = none ↔ source ≠ none := by
  unfold preludeFault
  split <;> simp_all

theorem untouched_prelude :
    Untouched (registerPrelude library name) r ↔ library.prelude = some none := by
  cases h : library.prelude with
  | none =>
      rw [registerPrelude_none h]
      exact iff_of_false not_untouched_pure (by simp)
  | some source =>
      rw [registerPrelude_some h, registerSyntaxPluginPrelude, untouched_guarded, Ne,
        preludeFault_eq_none_iff, not_not, Option.some_inj]

theorem idle_prelude : registerPrelude library name r = .ok ⟨⟩ r
    ↔ library.prelude ≠ some none ∧ library.prelude.join.getD [] = [] := by
  cases h : library.prelude with
  | none =>
      rw [registerPrelude_none h]
      exact iff_of_true rfl ⟨by simp, rfl⟩
  | some source =>
      rw [registerPrelude_some h, registerSyntaxPluginPrelude, guarded_idle,
        preludeFault_eq_none_iff, addPrelude_eq_self_iff, Ne, Ne, Option.some_inj, Option.join_some]

/-- The virtual modules come last and are never refused. -/
theorem untouched_tables :
    Untouched (registerTables library name) r ↔ TablesRefused library name r := by
  have hmodify : GrowsToError (modify (addVirtualModules library name) : Registration) :=
    .modify _
  have hresources := grows_resources name library.resources.join
  have hopaque := grows_opaqueTable name library.opaqueRules.join
  have hoperators := grows_operators name library.binaryOperators.join
  have htail := GrowsToError.bind hresources fun _ => hmodify
  have hopaqueTail := GrowsToError.bind hopaque fun _ => htail
  have hoperatorsTail := GrowsToError.bind hoperators fun _ => hopaqueTail
  unfold registerTables TablesRefused
  rw [untouched_seq (grows_prelude library name) hoperatorsTail, untouched_prelude, idle_prelude,
    untouched_seq hoperators hopaqueTail, untouched_operators, idle_operators,
    untouched_seq hopaque htail, untouched_opaque, idle_opaque,
    untouched_seq hresources hmodify, untouched_resources]
  have hlast : ¬Untouched (modify (addVirtualModules library name) : Registration) r :=
    not_untouched_modify _
  tauto

theorem growsToError_tables (library : Library) (name : Text) :
    GrowsToError (registerTables library name) :=
  .bind (grows_prelude library name) fun _ =>
    .bind (grows_operators name _) fun _ =>
      .bind (grows_opaqueTable name _) fun _ =>
        .bind (grows_resources name _) fun _ => .modify _

/-! ## The manager -/

theorem with_registries_eq_iff : { m with registries := r } = m ↔ r = m.registries :=
  ⟨fun h => congrArg Manager.registries h, fun h => by rw [h]⟩

instance : PartialOrder Manager where
  le m m' := m.registries ≤ m'.registries ∧ { m with registries := m'.registries } = m'
  le_refl m := ⟨le_rfl, rfl⟩
  le_trans m m' m'' h h' := ⟨h.1.trans h'.1, by rw [← h'.2, ← h.2]⟩
  le_antisymm _ _ h h' :=
    (with_registries_eq_iff.mpr (le_antisymm h'.1 h.1)).symm.trans h.2

theorem le_registries {r : Registries} (h : m.registries ≤ r) :
    m ≤ { m with registries := r } := ⟨h, rfl⟩

theorem register_eq_ok {x : Registration} :
    register x m = .ok ⟨⟩ m'
      ↔ ∃ r, x m.registries = .ok ⟨⟩ r ∧ m' = { m with registries := r } := by
  unfold register liftError onPart
  cases x m.registries with
  | ok a r =>
      constructor
      · intro h
        cases h
        exact ⟨r, rfl, rfl⟩
      · rintro ⟨_, heq, rfl⟩
        cases heq
        rfl
  | error e r =>
      refine iff_of_false (fun h => by cases h) ?_
      rintro ⟨_, heq, -⟩
      cases heq

theorem register_eq_error {x : Registration} {e : LoadError} :
    register x m = .error e m'
      ↔ ∃ e' r, x m.registries = .error e' r ∧ e = .rejected e'
        ∧ m' = { m with registries := r } := by
  unfold register liftError onPart
  cases x m.registries with
  | ok a r =>
      refine iff_of_false (fun h => by cases h) ?_
      rintro ⟨_, _, heq, -⟩
      cases heq
  | error e' r =>
      constructor
      · intro h
        cases h
        exact ⟨e', r, rfl, rfl, rfl⟩
      · rintro ⟨_, _, heq, rfl, rfl⟩
        cases heq
        rfl

theorem untouched_register {x : Registration} :
    Untouched (register x) m ↔ Untouched x m.registries := by
  constructor
  · rintro ⟨e, he⟩
    rcases register_eq_error.mp he with ⟨e', r, hx, -, heq⟩
    rw [with_registries_eq_iff.mp heq.symm] at hx
    exact ⟨e', hx⟩
  · rintro ⟨e', hx⟩
    exact ⟨_, register_eq_error.mpr ⟨e', _, hx, rfl, rfl⟩⟩

theorem idle_register {x : Registration} :
    register x m = .ok ⟨⟩ m ↔ x m.registries = .ok ⟨⟩ m.registries := by
  rw [register_eq_ok]
  constructor
  · rintro ⟨r, hx, heq⟩
    rw [with_registries_eq_iff.mp heq.symm] at hx
    exact hx
  · exact fun hx => ⟨_, hx, rfl⟩

theorem grows_register {x : Registration} (h : Grows x) : Grows (register x) := by
  intro m
  have hle := h m.registries
  unfold register liftError onPart
  cases hx : x m.registries <;> rw [hx] at hle <;> exact le_registries hle

theorem growsToError_register {x : Registration} (h : GrowsToError x) :
    GrowsToError (register x) := by
  intro m e m' he
  rcases register_eq_error.mp he with ⟨e', r, hx, -, rfl⟩
  exact le_registries (h _ _ _ hx)

/-! ## The descriptor -/

theorem grows_describePlugin (library : Library) (expectedName : Text) (path : Path) :
    Grows (describePlugin library expectedName path) := by
  unfold describePlugin
  dsimp only
  split
  · exact .raise _
  · exact (grows_register (grows_syntaxPlugin _)).bind fun _ => .pure _
  · exact (grows_register (grows_operators _ _)).bind fun _ =>
      (grows_register (grows_resources _ _)).bind fun _ => .pure _
  · exact .pure _
  · exact .pure _

theorem untouched_syntaxPlugin {plugin : SyntaxPlugin} :
    Untouched (registerSyntaxPlugin (some plugin)) r ↔ r.syntaxPluginFault plugin ≠ none :=
  untouched_guarded

theorem idle_syntaxPlugin {plugin : SyntaxPlugin} :
    registerSyntaxPlugin (some plugin) r = .ok ⟨⟩ r
      ↔ r.syntaxPluginFault plugin = none ∧ plugin.rules.list = [] := by
  rw [registerSyntaxPlugin, guarded_idle, addSyntaxPlugin_eq_self_iff]

theorem pure_eq_ok_self {a b : Text} : (pure a : LoadM Text) m = .ok b m ↔ b = a := by
  constructor
  · intro h
    cases h
    rfl
  · rintro rfl
    rfl

theorem untouched_describePlugin :
    Untouched (describePlugin library expectedName path) m
      ↔ DescriptorRefused library expectedName m.registries := by
  have hpure : ¬Untouched (pure (library.descriptor.pluginName expectedName) : LoadM Text) m :=
    not_untouched_pure
  unfold describePlugin DescriptorRefused
  cases library.descriptor with
  | invalid => exact iff_of_true ⟨_, rfl⟩ trivial
  | syntaxPlugin plugin =>
      dsimp only
      rw [untouched_seq (grows_register (grows_syntaxPlugin _)) (Grows.pure _).toError,
        untouched_register, untouched_syntaxPlugin]
      exact or_iff_left fun h => not_untouched_pure h.2
  | languagePlugin plugin =>
      dsimp only
      have hresources (name : Text) : Grows (register (registerPluginResources name
        plugin.resourceTable)) := grows_register (grows_resources _ _)
      rw [untouched_seq (grows_register (grows_operators _ _))
          ((hresources _).bind fun _ => .pure _).toError,
        untouched_seq (hresources _) (Grows.pure _).toError, untouched_register, idle_register,
        untouched_register, untouched_operators, idle_operators, untouched_resources]
      have hlast : ¬Untouched (pure (Descriptor.pluginName expectedName
        (.languagePlugin plugin)) : LoadM Text) m := not_untouched_pure
      tauto
  | compilerPlugin name => exact iff_of_false not_untouched_pure not_false
  | bare => exact iff_of_false not_untouched_pure not_false

/-- A descriptor that is accepted, with nothing registered. -/
theorem idle_describePlugin {pluginName : Text} :
    describePlugin library expectedName path m = .ok pluginName m
      ↔ ¬DescriptorRefused library expectedName m.registries ∧ DescriptorSilent library
        ∧ pluginName = library.descriptor.pluginName expectedName := by
  unfold describePlugin DescriptorRefused DescriptorSilent
  cases library.descriptor with
  | invalid => exact iff_of_false (fun h => by cases h) fun h => h.1 trivial
  | syntaxPlugin plugin =>
      dsimp only
      rw [idle_seq (grows_register (grows_syntaxPlugin _)) (Grows.pure _), idle_register,
        idle_syntaxPlugin, pure_eq_ok_self, not_not, and_assoc]
  | languagePlugin plugin =>
      dsimp only
      have hresources (name : Text) : Grows (register (registerPluginResources name
        plugin.resourceTable)) := grows_register (grows_resources _ _)
      rw [idle_seq (grows_register (grows_operators _ _)) ((hresources _).bind fun _ => .pure _),
        idle_seq (hresources _) (Grows.pure _), idle_register, idle_register, idle_operators,
        idle_resources, pure_eq_ok_self]
      tauto
  | compilerPlugin name =>
      rw [pure_eq_ok_self]
      exact ⟨fun h => ⟨not_false, trivial, h⟩, fun h => h.2.2⟩
  | bare =>
      rw [pure_eq_ok_self]
      exact ⟨fun h => ⟨not_false, trivial, h⟩, fun h => h.2.2⟩

/-! ## A load -/

/-- The tables of a library, and the record of the plugin after them. -/
theorem untouched_registerTables {plugin : LoadedPlugin} :
    Untouched (register (registerTables library name) >>= fun _ => modify (record plugin)) m
      ↔ TablesRefused library name m.registries := by
  rw [← untouched_tables, ← untouched_register]
  exact exists_congr fun e => bind_modify_eq_error

theorem growsToError_registerTables (library : Library) (name : Text) (plugin : LoadedPlugin) :
    GrowsToError (register (registerTables library name) >>= fun _ => modify (record plugin)) :=
  fun m e m' h => growsToError_register (growsToError_tables library name) m e m'
    (bind_modify_eq_error.mp h)

theorem grows_pluginFault (expectedName name : Text) (capabilities : List Text) :
    Grows (guarded (pluginFault expectedName name capabilities) id) :=
  .guarded fun _ _ => le_rfl

theorem untouched_loadLibrary :
    Untouched (loadLibrary library path expectedName version manifest capabilities) m
      ↔ RefusedAtOnce library expectedName capabilities m := by
  have htail (name : Text) := growsToError_registerTables library name
    ⟨name, version, path, manifest, capabilities⟩
  have hchecked (name : Text) := GrowsToError.bind
    (grows_pluginFault expectedName name capabilities) fun _ => htail name
  unfold loadLibrary RefusedAtOnce
  rw [untouched_bind (grows_describePlugin library expectedName path) hchecked,
    untouched_describePlugin]
  constructor
  · rintro (hrefused | ⟨name, hidle, hrest⟩)
    · exact .inl hrefused
    · rcases idle_describePlugin.mp hidle with ⟨-, hsilent, rfl⟩
      rw [untouched_seq (grows_pluginFault _ _ _) (htail _), untouched_guarded,
        untouched_registerTables] at hrest
      exact .inr ⟨hsilent, hrest.imp_right fun h => h.2⟩
  · rintro (hrefused | ⟨hsilent, hrest⟩)
    · exact .inl hrefused
    · by_cases hrefused : DescriptorRefused library expectedName m.registries
      · exact .inl hrefused
      · refine .inr ⟨_, idle_describePlugin.mpr ⟨hrefused, hsilent, rfl⟩, ?_⟩
        rw [untouched_seq (grows_pluginFault _ _ _) (htail _), untouched_guarded,
          untouched_registerTables, guarded_idle]
        tauto

/-- A load that throws leaves the manager as it was exactly if the library was not
opened, or was refused before it registered anything. -/
theorem failed_load_untraced_iff {H : Host} {e : LoadError}
    (h : loadDynamicLibrary H path expectedName version manifest capabilities m = .error e m') :
    m' = m ↔ ∀ library, Opens H path m library →
      RefusedAtOnce library expectedName capabilities m := by
  unfold loadDynamicLibrary at h
  split at h
  · cases h
    rename_i hmissing
    refine iff_of_true rfl fun library hopens => ?_
    rw [hopens.1] at hmissing
    cases hmissing
  rename_i hexists
  split at h
  · rename_i name hloaded
    split at h <;> cases h
    refine iff_of_true rfl fun library hopens => ?_
    rw [hopens.2.1] at hloaded
    cases hloaded
  rename_i hfree
  split at h
  · cases h
    rename_i hclosed
    refine iff_of_true rfl fun library hopens => ?_
    rw [hopens.2.2.1] at hclosed
    cases hclosed
  rename_i library hlibrary
  split at h
  · cases h
    rename_i hnothing
    refine iff_of_true rfl fun library' hopens => ?_
    rw [hopens.2.2.1] at hlibrary
    cases hlibrary
    rw [hopens.2.2.2] at hnothing
    cases hnothing
  · rename_i hsomething
    have hopens : Opens H path m library :=
      ⟨by simpa using hexists, hfree, hlibrary, by simpa using hsomething⟩
    have hself : m' = m ↔ Untouched (loadLibrary library (H.canonical path) expectedName version
        manifest capabilities) m := by
      constructor
      · rintro rfl
        exact ⟨e, h⟩
      · rintro ⟨e', he'⟩
        rw [he'] at h
        cases h
        rfl
    rw [hself, untouched_loadLibrary]
    constructor
    · intro hrefused library' hopens'
      rw [hopens'.2.2.1] at hlibrary
      cases hlibrary
      exact hrefused
    · exact fun hall => hall library hopens

/-! ## Examples of loads -/

/-- A machine with one file, a library at `p`. -/
def oneLibrary (library : Library) : Host where
  canonical := id
  files := ["p".toList]
  isRegularFile _ := true
  library _ := some library
  parseManifest _ := none
  readText _ := none

/-- A library `a` with the one rule `unless`. -/
def unlessLibrary : Library where
  syntaxPlugin := some (some ⟨1, some "a".toList, .rows [⟨some "unless".toList, some 1, 0⟩]⟩)

/-- A library `a` with no rules. -/
def plainLibrary : Library where
  syntaxPlugin := some (some ⟨1, some "a".toList, .rows []⟩)

theorem refused_name_untraced : ∃ e m',
    loadDynamicLibrary (oneLibrary plainLibrary) "p".toList "b".toList [] [] [] {} = .error e m'
      ∧ m' = {} := by
  have hload : loadDynamicLibrary (oneLibrary plainLibrary) "p".toList "b".toList [] [] [] {}
      = .error (.declaresOther "b".toList "a".toList) {} := rfl
  refine ⟨_, _, hload, (failed_load_untraced_iff hload).mpr ?_⟩
  rintro library ⟨-, -, hlibrary, -⟩
  cases hlibrary
  exact .inr ⟨rfl, .inl (by decide)⟩

/-- A library of another name than the manifest's leaves its rule behind. -/
theorem refused_name_keeps_rule : ∃ e m',
    loadDynamicLibrary (oneLibrary unlessLibrary) "p".toList "b".toList [] [] [] {} = .error e m'
      ∧ m' ≠ {} := by
  refine ⟨_, _, rfl, fun heq => ?_⟩
  have hrules := congrArg (fun m => m.registries.rules.length) heq
  cases hrules

end Plugin

end Absolute
