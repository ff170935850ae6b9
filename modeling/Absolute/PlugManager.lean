import Absolute.PlugLibrary

/-!
# Loading, unloading and reloading plugins

`PluginManager::LoadManifest` and what calls it. A manifest is visited depth first:
its required dependencies, then its optional ones, whose failures are swallowed,
then its own library. The recursion is bounded by a depth; one more than there are
files is enough of it.
-/

namespace Absolute

namespace Plugin

open Function Raising Manager

/-! ## Paths -/

def fileName (path : Path) : Path := (path.reverse.takeWhile (· ≠ '/')).reverse

/-- `std::filesystem::path::parent_path` -/
def parentPath (path : Path) : Path :=
  let parent := (path.reverse.dropWhile (· ≠ '/')).tail.reverse
  if parent = [] ∧ path.head? = some '/' then ['/'] else parent

/-- `std::filesystem::path::extension`: from the last dot, if it is not the first character. -/
def extension (path : Path) : Path :=
  let name := fileName path
  let suffix := (name.reverse.takeWhile (· ≠ '.')).reverse
  if suffix.length + 1 < name.length ∧ name ≠ "..".toList then '.' :: suffix else []

/-! ## Versions -/

structure Version where
  major : ℕ
  minor : ℕ
  patch : ℕ
deriving DecidableEq, Repr

def parsePart (text part : Text) : Except VersionError ℕ :=
  let value := part.foldl (fun n d => 10 * n + (d.toNat - '0'.toNat)) 0
  if value < 2 ^ 31 then .ok value else .error (.componentTooLarge text)

def parseVersion (text : Text) : Except VersionError Version :=
  match text.splitOn '.' with
  | [major, minor, patch] =>
      if [major, minor, patch].all fun part => part ≠ [] && part.all Char.isDigit then do
        let majorValue ← parsePart text major
        let minorValue ← parsePart text minor
        let patchValue ← parsePart text patch
        .ok ⟨majorValue, minorValue, patchValue⟩
      else .error (.invalidVersion text)
  | _ => .error (.invalidVersion text)

/-- `Compare(left, right) < 0` -/
def Version.less (left right : Version) : Bool :=
  if left.major ≠ right.major then left.major < right.major
  else if left.minor ≠ right.minor then left.minor < right.minor
  else left.patch < right.patch

/-- The comparisons a range is made of. -/
inductive RangeOp where
  | atLeast
  | atMost
  | above
  | below
  | caret
  | tilde
  | exactly
deriving DecidableEq

def splitOp : Text → RangeOp × Text
  | '>' :: '=' :: rest => (.atLeast, rest)
  | '<' :: '=' :: rest => (.atMost, rest)
  | '>' :: rest => (.above, rest)
  | '<' :: rest => (.below, rest)
  | '^' :: rest => (.caret, rest)
  | '~' :: rest => (.tilde, rest)
  | '=' :: rest => (.exactly, rest)
  | token => (.exactly, token)

/-- The first version a caret range does not take. -/
def caretUpper (required : Version) : Version :=
  if required.major ≠ 0 then ⟨required.major + 1, 0, 0⟩
  else if required.minor ≠ 0 then ⟨0, required.minor + 1, 0⟩
  else ⟨0, 0, required.patch + 1⟩

def RangeOp.holds (version required : Version) : RangeOp → Bool
  | .exactly => version = required
  | .atLeast => !version.less required
  | .atMost => !required.less version
  | .above => required.less version
  | .below => version.less required
  | .caret => !version.less required && version.less (caretUpper required)
  | .tilde => !version.less required && version.less ⟨required.major, required.minor + 1, 0⟩

/-- `std::isspace`, and the comma that `Satisfies` replaces. -/
def isSeparator (character : Char) : Bool :=
  character ∈ [' ', '\t', '\n', '\r', '\x0b', '\x0c', ',']

def satisfiesTokens (version : Version) (range : Text) : List Text → Except VersionError Bool
  | [] => .ok true
  | token :: rest =>
      let split := splitOp token
      if split.2 = [] then .error (.invalidRange range)
      else
        match parseVersion split.2 with
        | .error e => .error e
        | .ok required =>
            if split.1.holds version required then satisfiesTokens version range rest else .ok false

/-- `Satisfies` -/
def satisfies (version range : Text) : Except VersionError Bool :=
  if range = [] ∨ range = "*".toList then .ok true
  else
    match parseVersion version with
    | .error e => .error e
    | .ok parsed =>
        satisfiesTokens parsed range ((range.splitOnP isSeparator).filter (· ≠ []))

/-! ## Dependencies -/

/-- `.absplugin` files for a name, with its dots and with dashes for them. -/
def manifestNames (name : Text) : List Path :=
  let dashed := name.map fun character => if character = '.' then '-' else character
  if dashed = name then [name ++ ".absplugin".toList]
  else [name ++ ".absplugin".toList, dashed ++ ".absplugin".toList]

/-- Where a dependency of the manifest at `canonical` is. -/
def resolveDependency (H : Host) (canonical : Path) (dependency : Dependency) : Option Path :=
  if dependency.path ≠ [] then some (Package.Path.join (parentPath canonical) dependency.path)
  else
    ((parentPath canonical :: H.searchPaths).flatMap fun directory =>
      (manifestNames dependency.name).map (Package.Path.join directory)).find? H.fileExists

/-! ## `LoadManifest` -/

/-- A manifest that is asked for by name and range. -/
def readManifest (H : Host) (canonical : Path) (requestedName versionRange : Text) :
    Except LoadError Manifest :=
  match H.parseManifest canonical with
  | none => .error (.invalidManifest canonical)
  | some manifest =>
      if requestedName ≠ [] ∧ manifest.name ≠ requestedName then
        .error (.expected requestedName manifest.name)
      else
        match satisfies manifest.version versionRange with
        | .error e => .error (.version e)
        | .ok false => .error (.unsatisfied manifest.name manifest.version versionRange)
        | .ok true => .ok manifest

def conflictFault (manifest : Manifest) (m : Manager) : Option LoadError :=
  (manifest.conflicts.find? fun conflict => (m.findPlugin conflict).isSome).map
    (.conflictsWith manifest.name)

def capabilityFault (manifest : Manifest) (m : Manager) : Option LoadError :=
  (manifest.requiresCapabilities.find? fun capability =>
    (m.capabilityProviders capability).isNone).map (.missingCapability manifest.name)

/-- The preludes of a manifest with their texts, each file once. -/
def preludeSources (H : Host) (canonical : Path) (name : Text) :
    List Path → List Path → Except LoadError (List (Path × Text))
  | _, [] => .ok []
  | seen, configured :: rest =>
      let resolved := Package.Path.join (parentPath canonical) configured
      let path := H.canonical resolved
      if extension resolved ≠ ".abs".toList then .error (.preludeExtension name resolved)
      else if H.fileExists resolved = false ∨ H.isRegularFile path = false then
        .error (.preludeMissing name resolved)
      else if path ∈ seen then preludeSources H canonical name seen rest
      else
        match H.readText path with
        | none => .error (.unreadable path)
        | some source => do
            let sources ← preludeSources H canonical name (path :: seen) rest
            .ok ((path, if source.head? = some '\ufeff' then source.tail else source) :: sources)

/-- A prelude is handed over as a C string. -/
def registerManifestPrelude (name : Text) (source : Path × Text) : LoadM PUnit :=
  liftError (.cannotRegisterPrelude source.1)
    (onPart Manager.registries (fun r m => { m with registries := r })
      (registerSyntaxPluginPrelude name (some (source.2.takeWhile (· ≠ '\x00')))))

def fromExcept {ε σ α : Type} : Except ε α → EStateM ε σ α
  | .ok a => pure a
  | .error e => throw e

/-- `try { … } catch (...) {}` -/
def swallow {ε σ α : Type} (x : EStateM ε σ α) : EStateM ε σ PUnit := fun s =>
  match x s with
  | .ok _ s => .ok ⟨⟩ s
  | .error _ s => .ok ⟨⟩ s

namespace Manager

def enter (canonical : Path) (m : Manager) : Manager :=
  { m with
    manifestStates := update m.manifestStates canonical (some .visiting)
    manifestStack := canonical :: m.manifestStack }

def leave (canonical : Path) (m : Manager) : Manager :=
  { m with
    manifestStates := update m.manifestStates canonical none
    manifestStack := m.manifestStack.tail }

def finish (canonical : Path) (m : Manager) : Manager :=
  { m with
    manifestStates := update m.manifestStates canonical (some .loaded)
    manifestStack := m.manifestStack.tail }

end Manager

/-- `load` is what loads another manifest. -/
def loadDependency (H : Host) (load : Path → Text → Text → LoadM PUnit) (canonical : Path)
    (manifest : Manifest) (dependency : Dependency) : LoadM PUnit :=
  match resolveDependency H canonical dependency with
  | none => throw (.unresolved dependency.name manifest.name)
  | some path =>
      liftError (.whileResolving manifest.name dependency.name dependency.version)
        (load path dependency.name dependency.version)

def loadOptional (H : Host) (load : Path → Text → Text → LoadM PUnit) (canonical : Path)
    (dependency : Dependency) : LoadM PUnit :=
  match resolveDependency H canonical dependency with
  | none => pure ⟨⟩
  | some path =>
      if H.fileExists path then swallow (load path dependency.name dependency.version)
      else pure ⟨⟩

/-- The path of a manifest's library. -/
def libraryPath (canonical : Path) (manifest : Manifest) : Path :=
  Package.Path.join (parentPath canonical) manifest.library

/-- The `try` block. -/
def visitBody (H : Host) (load : Path → Text → Text → LoadM PUnit) (canonical : Path)
    (manifest : Manifest) : LoadM PUnit := do
  manifest.dependencies.forM (loadDependency H load canonical manifest)
  guarded (conflictFault manifest) id
  manifest.optionalDependencies.forM (loadOptional H load canonical)
  guarded (capabilityFault manifest) id
  let sources ← fromExcept (preludeSources H canonical manifest.name [] manifest.preludes)
  loadDynamicLibrary H (libraryPath canonical manifest) manifest.name manifest.version canonical
    manifest.provides
  sources.forM (registerManifestPrelude manifest.name)

def visitManifest (H : Host) (load : Path → Text → Text → LoadM PUnit) (canonical : Path)
    (manifest : Manifest) : LoadM PUnit := fun m =>
  match visitBody H load canonical manifest (m.enter canonical) with
  | .ok _ m => .ok ⟨⟩ (m.finish canonical)
  | .error e m => .error e (m.leave canonical)

/-- From where the manifest stands on the stack, and round to it again. -/
def cyclePath (stack : List Path) (canonical : Path) : List Path :=
  canonical :: (stack.takeWhile (· ≠ canonical)).reverse ++ [canonical]

/-- `PluginManager::LoadManifest` -/
def loadManifest (H : Host) : ℕ → Path → Text → Text → LoadM PUnit
  | 0, _, _, _ => throw .tooDeep
  | depth + 1, path, requestedName, versionRange => fun m =>
      if H.fileExists path = false then .error (.manifestMissing path) m
      else
        match m.manifestStates (H.canonical path),
            readManifest H (H.canonical path) requestedName versionRange with
        | some .visiting, _ => .error (.cycle (cyclePath m.manifestStack (H.canonical path))) m
        | _, .error e => .error e m
        | some .loaded, .ok _ => .ok ⟨⟩ m
        | none, .ok manifest =>
            if manifest.abi ≠ abiVersion then
              .error (.unsupportedAbi manifest.name manifest.abi) m
            else
              match m.findPlugin manifest.name with
              | some plugin =>
                  if plugin.version = [] then .error (.loadedDirectly manifest.name) m
                  else if plugin.manifest ≠ H.canonical path then
                    .error (.conflictingManifests manifest.name plugin.manifest
                      (H.canonical path)) m
                  else .ok ⟨⟩ m
              | none => visitManifest H (loadManifest H depth) (H.canonical path) manifest m

/-! ## `Load`, `Unload` and `Reload` -/

def isManifest (path : Path) : Bool := extension path = ".absplugin".toList

def load (H : Host) (path : Path) : LoadM PUnit :=
  if isManifest path then loadManifest H (H.files.length + 1) path [] []
  else loadDynamicLibrary H path [] [] [] []

def Manager.remove (plugin : LoadedPlugin) (m : Manager) : Manager :=
  { m with
    registries := m.registries.unregister plugin.name
    loadedLibraries := fun library => (m.loadedLibraries library).filter (· ≠ plugin.name)
    loadedPlugins := m.loadedPlugins.filter (·.name ≠ plugin.name)
    capabilityProviders := plugin.capabilities.foldl
      (fun providers capability => update providers capability none) m.capabilityProviders }

def unload (name : Text) : LoadM PUnit := fun m =>
  match m.findPlugin name with
  | none => .error (.notLoaded name) m
  | some plugin => .ok ⟨⟩ (m.remove plugin)

/-- An order in which the hash map of the plugins may be read. -/
abbrev IterationOrder :=
  {arrange : List LoadedPlugin → List LoadedPlugin // ∀ l, (arrange l).Perm l}

def findLoaded (H : Host) (order : IterationOrder) (path : Path) (m : Manager) :
    Option LoadedPlugin :=
  (order.1 m.loadedPlugins).find? fun plugin =>
    plugin.library = H.canonical path ∨ plugin.manifest = H.canonical path

/-- A plugin of the empty name is not unloaded. -/
def reload (H : Host) (order : IterationOrder) (path : Path) : LoadM PUnit := fun m =>
  match findLoaded H order path m with
  | none => load H path m
  | some plugin =>
      if plugin.name = [] then load H path m
      else (unload plugin.name >>= fun _ => load H path) m

end Plugin

end Absolute
