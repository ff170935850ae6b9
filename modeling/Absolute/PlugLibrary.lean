import Absolute.PlugRegistries

/-!
# Loading a plugin library

`PluginManager::LoadDynamicLibrary`. What the libraries export, the canonical path
of a path and which paths there are belong to the host. A library that is opened
registers its descriptor, is checked against what is loaded, and registers its
other tables; the `catch` around all of it closes the library and nothing else.
-/

namespace Absolute

namespace Plugin

open Function Raising

/-! ## Libraries and manifests -/

structure LanguagePlugin where
  binaryOperatorTable : Option (Table BinaryOperatorRule) := none
  resourceTable : Option (Table ResourceDescriptor) := none
  virtualModuleTable : Option (List VirtualModule) := none
deriving DecidableEq

/-- The entry points a library exports, with what they return; the inner `none` is a
null pointer. Of a compiler plugin only the name is read. -/
structure Library where
  syntaxPlugin : Option (Option SyntaxPlugin) := none
  compilerPlugin : Option (Option (Option Text)) := none
  languagePlugin : Option (Option LanguagePlugin) := none
  editorPlugin : Bool := false
  prelude : Option (Option Text) := none
  binaryOperators : Option (Option (Table BinaryOperatorRule)) := none
  opaqueRules : Option (Option (Table OpaqueSyntaxRule)) := none
  resources : Option (Option (Table ResourceDescriptor)) := none
  virtualModules : Option (Option (List VirtualModule)) := none
deriving DecidableEq

def Library.exportsNothing (library : Library) : Bool :=
  library.syntaxPlugin.isNone && library.compilerPlugin.isNone && library.languagePlugin.isNone
    && !library.editorPlugin

/-- A dependency is read with a name, or not at all. -/
structure Dependency where
  name : Text
  version : Text
  path : Path
  named : name ≠ []
deriving DecidableEq

structure Manifest where
  name : Text
  version : Text
  abi : ℕ
  library : Path
  dependencies : List Dependency := []
  optionalDependencies : List Dependency := []
  conflicts : List Text := []
  provides : List Text := []
  requiresCapabilities : List Text := []
  preludes : List Path := []
  named : name ≠ []
deriving DecidableEq

inductive VersionError where
  | invalidVersion (text : Text)
  | componentTooLarge (text : Text)
  | invalidRange (range : Text)
deriving DecidableEq

/-- What can be thrown; `tooDeep` is not the program's. -/
inductive LoadError where
  | libraryMissing (path : Path)
  | loadedAs (loaded expected : Text)
  | cannotLoad (path : Path)
  | noEntryPoint (path : Path)
  | invalidDescriptor (path : Path)
  | rejected (error : RegisterError)
  | declaresOther (expected declared : Text)
  | nameProvided (name : Text) (library : Path)
  | capabilityProvided (capability provider name : Text)
  | unreadable (path : Path)
  | invalidManifest (path : Path)
  | version (error : VersionError)
  | manifestMissing (path : Path)
  | cycle (manifests : List Path)
  | expected (requested declared : Text)
  | unsatisfied (name version range : Text)
  | unsupportedAbi (name : Text) (abi : ℕ)
  | loadedDirectly (name : Text)
  | conflictingManifests (name : Text) (loaded other : Path)
  | unresolved (dependency requiredBy : Text)
  | whileResolving (name dependency version : Text) (error : LoadError)
  | conflictsWith (name conflict : Text)
  | missingCapability (name capability : Text)
  | preludeExtension (name : Text) (path : Path)
  | preludeMissing (name : Text) (path : Path)
  | cannotRegisterPrelude (path : Path) (error : RegisterError)
  | notLoaded (name : Text)
  | tooDeep
deriving DecidableEq

/-- The machine a manager works on. Paths exist or not by their canonical path. -/
structure Host where
  canonical : Path → Path
  files : List Path
  isRegularFile : Path → Bool
  library : Path → Option Library
  /-- `ParseManifest` of a file under the permissions that are granted, if it does not throw -/
  parseManifest : Path → Option Manifest
  /-- `ReadText`, if it does not throw -/
  readText : Path → Option Text
  searchPaths : List Path := []

def Host.fileExists (H : Host) (path : Path) : Bool := H.canonical path ∈ H.files

/-! ## The manager -/

structure LoadedPlugin where
  name : Text
  version : Text
  library : Path
  manifest : Path
  capabilities : List Text
deriving DecidableEq

inductive ManifestState where
  | visiting
  | loaded
deriving DecidableEq, Repr

/-- `loadedPlugins` has one entry a name, the newest last; the top of the manifest
stack is its first element. -/
@[ext]
structure Manager where
  registries : Registries := {}
  loadedLibraries : Path → Option Text := fun _ => none
  loadedPlugins : List LoadedPlugin := []
  capabilityProviders : Text → Option Text := fun _ => none
  manifestStates : Path → Option ManifestState := fun _ => none
  manifestStack : List Path := []

abbrev LoadM := EStateM LoadError Manager

namespace Manager

def findPlugin (m : Manager) (name : Text) : Option LoadedPlugin :=
  m.loadedPlugins.find? (·.name = name)

/-- The checks against what is loaded. -/
def pluginFault (expectedName pluginName : Text) (capabilities : List Text) (m : Manager) :
    Option LoadError :=
  if expectedName ≠ [] ∧ expectedName ≠ pluginName then
    some (.declaresOther expectedName pluginName)
  else
    match m.findPlugin pluginName with
    | some duplicate => some (.nameProvided pluginName duplicate.library)
    | none =>
        capabilities.findSome? fun capability =>
          (m.capabilityProviders capability).map fun provider =>
            .capabilityProvided capability provider pluginName

/-- The plugin is loaded. -/
def record (plugin : LoadedPlugin) (m : Manager) : Manager :=
  { m with
    loadedLibraries := emplace m.loadedLibraries plugin.library plugin.name
    loadedPlugins := m.loadedPlugins ++ [plugin]
    capabilityProviders := plugin.capabilities.foldl
      (fun providers capability => emplace providers capability plugin.name)
      m.capabilityProviders }

end Manager

open Manager

def liftError {ε ε' σ α : Type} (f : ε → ε') (x : EStateM ε σ α) : EStateM ε' σ α := fun s =>
  match x s with
  | .ok a s => .ok a s
  | .error e s => .error (f e) s

/-- A registration by the manager. -/
def register (x : Registration) : LoadM PUnit :=
  liftError .rejected (onPart Manager.registries (fun r m => { m with registries := r }) x)

/-! ## `LoadDynamicLibrary` -/

/-- The descriptor a library is loaded by: the first entry point there is. -/
inductive Descriptor where
  | invalid
  | syntaxPlugin (plugin : SyntaxPlugin)
  | compilerPlugin (name : Text)
  | languagePlugin (plugin : LanguagePlugin)
  | bare
deriving DecidableEq

def Library.descriptor (library : Library) : Descriptor :=
  match library.syntaxPlugin, library.compilerPlugin, library.languagePlugin with
  | some none, _, _ => .invalid
  | some (some plugin), _, _ =>
      if plugin.name.getD [] = [] then .invalid else .syntaxPlugin plugin
  | none, some (some name), _ =>
      if name.getD [] = [] then .invalid else .compilerPlugin (name.getD [])
  | none, _, some none => .invalid
  | none, _, some (some plugin) => .languagePlugin plugin
  | none, _, none => .bare

def Descriptor.pluginName (expectedName : Text) : Descriptor → Text
  | .invalid => []
  | .syntaxPlugin plugin => plugin.name.getD []
  | .compilerPlugin name => name
  | .languagePlugin _ => if expectedName = [] then "language_plugin".toList else expectedName
  | .bare => expectedName

/-- The descriptor is registered, and names the plugin. -/
def describePlugin (library : Library) (expectedName : Text) (path : Path) : LoadM Text :=
  let name := library.descriptor.pluginName expectedName
  match library.descriptor with
  | .invalid => throw (.invalidDescriptor path)
  | .syntaxPlugin plugin => do
      register (registerSyntaxPlugin (some plugin))
      pure name
  | .languagePlugin plugin => do
      register (registerPluginBinaryOperators name plugin.binaryOperatorTable)
      register (registerPluginResources name plugin.resourceTable)
      pure name
  | .compilerPlugin _ | .bare => pure name

def registerPrelude (library : Library) (name : Text) : Registration :=
  match library.prelude with
  | some source => registerSyntaxPluginPrelude name source
  | none => pure ⟨⟩

/-- The virtual modules of the library, and of its language plugin. -/
def addVirtualModules (library : Library) (name : Text) (r : Registries) : Registries :=
  let r := registerPluginVirtualModules name library.virtualModules.join r
  registerPluginVirtualModules name
    (library.languagePlugin.join.bind (·.virtualModuleTable)) r

/-- The tables beside the descriptor. -/
def registerTables (library : Library) (name : Text) : Registration := do
  registerPrelude library name
  registerPluginBinaryOperators name library.binaryOperators.join
  registerOpaqueSyntaxRules name library.opaqueRules.join
  registerPluginResources name library.resources.join
  modify (addVirtualModules library name)

/-- What is done with a library that was opened. -/
def loadLibrary (library : Library) (path : Path) (expectedName version : Text) (manifest : Path)
    (capabilities : List Text) : LoadM PUnit := do
  let pluginName ← describePlugin library expectedName path
  guarded (pluginFault expectedName pluginName capabilities) id
  register (registerTables library pluginName)
  modify (record ⟨pluginName, version, path, manifest, capabilities⟩)

/-- `PluginManager::LoadDynamicLibrary` -/
def loadDynamicLibrary (H : Host) (path : Path) (expectedName version : Text) (manifest : Path)
    (capabilities : List Text) : LoadM PUnit := fun m =>
  if H.fileExists path = false then .error (.libraryMissing path) m
  else
    match m.loadedLibraries (H.canonical path) with
    | some name =>
        if expectedName ≠ [] ∧ name ≠ expectedName then .error (.loadedAs name expectedName) m
        else .ok ⟨⟩ m
    | none =>
        match H.library (H.canonical path) with
        | none => .error (.cannotLoad (H.canonical path)) m
        | some library =>
            if library.exportsNothing then .error (.noEntryPoint (H.canonical path)) m
            else loadLibrary library (H.canonical path) expectedName version manifest capabilities m

end Plugin

end Absolute
