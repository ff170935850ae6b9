import Absolute.PlugOrder

/-!
# Turns of the libraries

Where in the load of a manifest, and in which state, the library of each manifest has
its turn (`Turn`): after the required and the optional dependencies of the manifest,
which are loaded by nested calls of the same function (`Calls`). A library that is
loaded as the manifest's plugin when its turn comes is passed over (`PassedOver`).
-/

namespace Absolute

namespace Plugin

open Function Raising Manager

/-! ## A visit and what it calls -/

/-- The checks that a manifest passes before it is visited. -/
structure Visits (H : Host) (path : Path) (requestedName versionRange : Text)
    (manifest : Manifest) (m : Manager) : Prop where
  file : H.fileExists path = true
  state : m.manifestStates (H.canonical path) = none
  read : readManifest H (H.canonical path) requestedName versionRange = .ok manifest
  abi : manifest.abi = abiVersion
  new : m.findPlugin manifest.name = none

/-- The required dependencies, and the check for conflicts behind them. -/
def requireAll (H : Host) (load : Path → Text → Text → LoadM PUnit) (c : Path)
    (manifest : Manifest) : LoadM PUnit := do
  manifest.dependencies.forM (loadDependency H load c manifest)
  guarded (conflictFault manifest) id

/-- The `try` block up to the load of the library. -/
def beforeLibrary (H : Host) (load : Path → Text → Text → LoadM PUnit) (c : Path)
    (manifest : Manifest) : LoadM (List (Path × Text)) := do
  requireAll H load c manifest
  manifest.optionalDependencies.forM (loadOptional H load c)
  guarded (capabilityFault manifest) id
  fromExcept (preludeSources H c manifest.name [] manifest.preludes)

/-- The library, and the preludes behind it. -/
def loadOwn (H : Host) (c : Path) (manifest : Manifest) (sources : List (Path × Text)) :
    LoadM PUnit := do
  loadDynamicLibrary H (libraryPath c manifest) manifest.name manifest.version c manifest.provides
  sources.forM (registerManifestPrelude manifest.name)

/-- A visit of the manifest at `c`, from the state `m` on, loads the dependency `d` from
`path` in the state `t`. -/
inductive Calls (H : Host) (load : Path → Text → Text → LoadM PUnit) (c : Path)
    (manifest : Manifest) (m : Manager) (d : Dependency) (path : Path) (t : Manager) : Prop
  | required {done rest : List Dependency} (hsplit : manifest.dependencies = done ++ d :: rest)
      (hdone : done.forM (loadDependency H load c manifest) m = .ok ⟨⟩ t)
      (hpath : resolveDependency H c d = some path)
  | optional {done rest : List Dependency} {u : Manager}
      (hrequired : requireAll H load c manifest m = .ok ⟨⟩ u)
      (hsplit : manifest.optionalDependencies = done ++ d :: rest)
      (hdone : done.forM (loadOptional H load c) u = .ok ⟨⟩ t)
      (hpath : resolveDependency H c d = some path) (hfile : H.fileExists path = true)

/-- In a load of a manifest the library of the manifest at `c` has its turn in the state `s`. -/
inductive Turn (H : Host) (c : Path) (own : Manifest) (s : Manager) :
    ℕ → Path → Text → Text → Manager → Prop
  | own {depth : ℕ} {path : Path} {requestedName versionRange : Text} {m : Manager}
      {sources : List (Path × Text)} (hvisits : Visits H path requestedName versionRange own m)
      (hcanonical : H.canonical path = c)
      (hbefore : beforeLibrary H (loadManifest H depth) c own (m.enter c) = .ok sources s) :
      Turn H c own s (depth + 1) path requestedName versionRange m
  | nested {depth : ℕ} {path path' : Path} {requestedName versionRange : Text} {m t : Manager}
      {manifest : Manifest} {d : Dependency}
      (hvisits : Visits H path requestedName versionRange manifest m)
      (hcalls : Calls H (loadManifest H depth) (H.canonical path) manifest
        (m.enter (H.canonical path)) d path' t)
      (hturn : Turn H c own s depth path' d.name d.version t) :
      Turn H c own s (depth + 1) path requestedName versionRange m

/-- The library of the manifest at `c` is loaded as its plugin already. -/
def PassedOver (H : Host) (c : Path) (manifest : Manifest) (s : Manager) : Prop :=
  s.loadedLibraries (H.canonical (libraryPath c manifest)) = some manifest.name

/-- No library of the set is passed over when its turn comes. -/
def TakesTurns (H : Host) (S : Path → Prop) (depth : ℕ) (path : Path)
    (requestedName versionRange : Text) (m : Manager) : Prop :=
  ∀ c manifest s, S c → Turn H c manifest s depth path requestedName versionRange m →
    ¬PassedOver H c manifest s

variable {H : Host} {S : Path → Prop} {m t : Manager} {c path path' : Path} {manifest : Manifest}
variable {requestedName versionRange : Text} {depth : ℕ} {d : Dependency}
variable {s : Manager} {load : Path → Text → Text → LoadM PUnit}

theorem visitBody_eq : visitBody H load c manifest
    = beforeLibrary H load c manifest >>= loadOwn H c manifest := by
  simp only [visitBody, beforeLibrary, requireAll, bind_assoc]
  rfl

theorem Visits.loadManifest_eq (h : Visits H path requestedName versionRange manifest m) :
    loadManifest H (depth + 1) path requestedName versionRange m
      = visitManifest H (loadManifest H depth) (H.canonical path) manifest m := by
  have hfile : ¬H.fileExists path = false := by simp [h.file]
  change ite _ _ _ = _
  rw [if_neg hfile, h.state, h.read]
  change ite _ _ _ = _
  rw [if_neg (not_not.mpr h.abi), h.new]

theorem TakesTurns.own (h : TakesTurns H S (depth + 1) path requestedName versionRange m)
    (hvisits : Visits H path requestedName versionRange manifest m) (hS : S (H.canonical path))
    {sources : List (Path × Text)}
    (hbefore : beforeLibrary H (loadManifest H depth) (H.canonical path) manifest
      (m.enter (H.canonical path)) = .ok sources s) : ¬PassedOver H (H.canonical path) manifest s :=
  h _ _ _ hS (.own hvisits rfl hbefore)

theorem TakesTurns.nested (h : TakesTurns H S (depth + 1) path requestedName versionRange m)
    (hvisits : Visits H path requestedName versionRange manifest m)
    (hcalls : Calls H (loadManifest H depth) (H.canonical path) manifest
      (m.enter (H.canonical path)) d path' t) : TakesTurns H S depth path' d.name d.version t :=
  fun _ _ _ hS hturn => h _ _ _ hS (.nested hvisits hcalls hturn)

/-! ## What is loaded stays loaded -/

def Has (P : LoadedPlugin) (m : Manager) : Prop := P ∈ m.loadedPlugins

/-- A plugin that is loaded when `x` starts is loaded when it ends. -/
abbrev Stays (P : LoadedPlugin) {α : Type} (x : LoadM α) : Prop := Keeps (Has P) x

variable {P : LoadedPlugin} {α : Type}

theorem state_liftError {ε ε' σ : Type} {f : ε → ε'} {x : EStateM ε σ α} (s : σ) :
    state (liftError f x s) = state (x s) := by
  unfold liftError
  cases x s <;> rfl

theorem state_swallow {ε σ : Type} {x : EStateM ε σ α} (s : σ) :
    state (swallow x s) = state (x s) := by
  unfold swallow
  cases x s <;> rfl

theorem keeps_fromExcept {ε σ : Type} {I : σ → Prop} (x : Except ε α) :
    Keeps I (fromExcept x : EStateM ε σ α) := by
  intro s hs
  cases x <;> exact hs

theorem stays_prelude (name : Text) (source : Path × Text) :
    Stays P (registerManifestPrelude name source) := by
  intro m hm
  unfold registerManifestPrelude
  rw [state_liftError]
  unfold onPart
  split <;> exact hm

theorem stays_loadDynamicLibrary {manifestPath : Path} {expectedName version : Text}
    {capabilities : List Text} (hname : expectedName ≠ []) :
    Stays P (loadDynamicLibrary H path expectedName version manifestPath capabilities) := by
  refine .of_results fun m hm => (results_loadDynamicLibrary hname m).mono ?_ ?_
  · rintro ⟨⟩ m' (⟨rfl, -⟩ | ⟨library, -, -, m₁, ⟨r, -, rfl⟩, -, rfl⟩)
    · exact hm
    · exact List.mem_append_left _ hm
  · rintro e m' ⟨⟨r, -, rfl⟩, -⟩
    exact hm

theorem stays_loadOwn {sources : List (Path × Text)} : Stays P (loadOwn H c manifest sources) :=
  (stays_loadDynamicLibrary manifest.named).bind fun _ =>
    .forM fun source _ => stays_prelude manifest.name source

section Body

variable (hload : ∀ path requestedName versionRange, Stays P (load path requestedName versionRange))
include hload

theorem stays_loadDependency (d : Dependency) : Stays P (loadDependency H load c manifest d) := by
  unfold loadDependency
  split
  · exact fun _ hm => hm
  · intro m hm
    rw [state_liftError]
    exact hload _ _ _ m hm

theorem stays_loadOptional (d : Dependency) : Stays P (loadOptional H load c d) := by
  unfold loadOptional
  split
  · exact fun _ hm => hm
  · split
    · intro m hm
      rw [state_swallow]
      exact hload _ _ _ m hm
    · exact fun _ hm => hm

/-- What comes behind the required dependencies, up to the library. -/
theorem stays_options : Stays P (do
    manifest.optionalDependencies.forM (loadOptional H load c)
    guarded (capabilityFault manifest) id
    fromExcept (preludeSources H c manifest.name [] manifest.preludes)) :=
  .bind (.forM fun d _ => stays_loadOptional hload d) fun _ =>
    .bind .guarded fun _ => keeps_fromExcept _

theorem stays_visitBody : Stays P (visitBody H load c manifest) := by
  rw [visitBody_eq]
  refine .bind (.bind (.bind ?_ fun _ => .guarded) fun _ => stays_options hload) fun _ =>
    stays_loadOwn
  exact .forM fun d _ => stays_loadDependency hload d

/-- What is loaded after a nested load is loaded after the visit that made it. -/
theorem Calls.stays (h : Calls H load c manifest m d path t)
    (hP : Has P (state (load path d.name d.version t))) :
    Has P (state (visitBody H load c manifest m)) := by
  rw [visitBody_eq]
  refine Keeps.after (fun _ => stays_loadOwn) ?_
  cases h with
  | required hsplit hdone hpath =>
      refine Keeps.after (fun _ => stays_options hload) (Keeps.after (fun _ => .guarded) ?_)
      rw [hsplit]
      refine Keeps.forM_after hdone (fun d _ => stays_loadDependency hload d) ?_
      unfold loadDependency
      rw [hpath]
      dsimp only
      rwa [state_liftError]
  | optional hrequired hsplit hdone hpath hfile =>
      have hoptions : beforeLibrary H load c manifest m = (do
          manifest.optionalDependencies.forM (loadOptional H load c)
          guarded (capabilityFault manifest) id
          fromExcept (preludeSources H c manifest.name [] manifest.preludes)) _ :=
        bind_of_ok hrequired
      rw [hoptions, hsplit]
      refine Keeps.after (fun _ => .bind .guarded fun _ => keeps_fromExcept _) ?_
      refine Keeps.forM_after hdone (fun d _ => stays_loadOptional hload d) ?_
      unfold loadOptional
      rw [hpath]
      dsimp only
      rwa [if_pos hfile, state_swallow]

end Body

theorem state_visitManifest : (state (visitManifest H load c manifest m)).loadedPlugins
    = (state (visitBody H load c manifest (m.enter c))).loadedPlugins := by
  unfold visitManifest
  cases visitBody H load c manifest (m.enter c) <;> rfl

theorem stays_loadManifest (depth : ℕ) (path : Path) (requestedName versionRange : Text) :
    Stays P (loadManifest H depth path requestedName versionRange) := by
  induction depth generalizing path requestedName versionRange with
  | zero => exact fun _ hm => hm
  | succ depth ih =>
      intro m hm
      unfold loadManifest
      split
      · exact hm
      split
      · exact hm
      · exact hm
      · exact hm
      · split
        · exact hm
        split
        · split
          · exact hm
          · split <;> exact hm
        · unfold Has
          rw [state_visitManifest]
          exact stays_visitBody ih _ hm

/-- What is loaded at a turn is loaded at the end. -/
theorem Turn.stays {own : Manifest}
    (h : Turn H c own s depth path requestedName versionRange m) (hP : Has P s) :
    Has P (state (loadManifest H depth path requestedName versionRange m)) := by
  induction h with
  | own hvisits hcanonical hbefore =>
      rw [hvisits.loadManifest_eq]
      unfold Has
      rw [state_visitManifest, visitBody_eq, hcanonical, bind_of_ok hbefore]
      exact stays_loadOwn s hP
  | nested hvisits hcalls hturn ih =>
      rw [hvisits.loadManifest_eq]
      unfold Has
      rw [state_visitManifest]
      exact hcalls.stays (stays_loadManifest _) ih

end Plugin

end Absolute
