import Absolute.LibDescent
import Absolute.PlugRecorded

/-!
# What a load of a manifest brings

The invariant of the depth-first walk (`Good`): the manifests that are being visited
are those on the stack, those that are loaded are those of the loaded plugins, and
each plugin stands behind what it requires. Every outcome of a load keeps it and
only appends plugins (`Grew`), also where a load throws, since the failures of
optional dependencies are swallowed.

What it says of the loaded manifests it says of the manifests in a set, for those that
are left out of it may end as loaded without a plugin of their own.
-/

namespace Absolute

namespace Plugin

open Function Raising Registries Relation Manager

/-! ## Manifests and their dependencies -/

def Requires (H : Host) (c c' : Path) : Prop :=
  ∃ manifest d p, H.parseManifest c = some manifest ∧ d ∈ manifest.dependencies
    ∧ resolveDependency H c d = some p ∧ c' = H.canonical p

/-- Requires it, or asks for it as an option. -/
def Depends (H : Host) (c c' : Path) : Prop :=
  ∃ manifest d p, H.parseManifest c = some manifest
    ∧ (d ∈ manifest.dependencies ∨ d ∈ manifest.optionalDependencies)
    ∧ resolveDependency H c d = some p ∧ c' = H.canonical p

/-- The plugin that a manifest names. -/
def entry (H : Host) (c : Path) (manifest : Manifest) : LoadedPlugin :=
  ⟨manifest.name, manifest.version, H.canonical (libraryPath c manifest), c, manifest.provides⟩

/-- One of the plugins is what the manifest at `c` asks for by `d`. -/
def Met (H : Host) (c : Path) (d : Dependency) (plugins : List LoadedPlugin) : Prop :=
  ∃ p, resolveDependency H c d = some p ∧ ∃ Q ∈ plugins, Q.manifest = H.canonical p
    ∧ Q.name = d.name ∧ satisfies Q.version d.version = .ok true

/-- Every plugin of the set stands behind what it requires. -/
def Ordered (H : Host) (S : Path → Prop) (plugins : List LoadedPlugin) : Prop :=
  ∀ pre P post manifest, plugins = pre ++ P :: post → S P.manifest →
    H.parseManifest P.manifest = some manifest →
    ∀ d ∈ manifest.dependencies, Met H P.manifest d pre

structure Good (H : Host) (S : Path → Prop) (m : Manager) : Prop where
  visiting : ∀ c, m.manifestStates c = some .visiting ↔ c ∈ m.manifestStack
  states : ∀ P ∈ m.loadedPlugins, m.manifestStates P.manifest = some .loaded
  loaded : ∀ c, S c → m.manifestStates c = some .loaded → ∃ P ∈ m.loadedPlugins, P.manifest = c
  nodup : m.manifestStack.Nodup
  files : ∀ c ∈ m.manifestStack, c ∈ H.files
  entries : ∀ P ∈ m.loadedPlugins, ∃ manifest, H.parseManifest P.manifest = some manifest
    ∧ P = entry H P.manifest manifest
  libraries : ∀ library name, m.loadedLibraries library = some name →
    ∃ P ∈ m.loadedPlugins, P.library = library ∧ P.name = name
  names : (m.loadedPlugins.map (·.name)).Nodup
  ordered : Ordered H S m.loadedPlugins
  registered : ∀ P ∈ m.loadedPlugins, ∃ library, H.library P.library = some library
    ∧ Registered library P.name m.registries
  provided : ∀ P ∈ m.loadedPlugins, ∀ capability ∈ P.capabilities,
    m.capabilityProviders capability = some P.name

/-- Manifests of `R` were loaded, and the stack is as it was. -/
structure Grew (R : Path → Prop) (m m' : Manager) : Prop where
  stack : m'.manifestStack = m.manifestStack
  states : ∀ c, m'.manifestStates c = some .loaded → m.manifestStates c = some .loaded ∨ R c
  plugins : ∃ new, m'.loadedPlugins = m.loadedPlugins ++ new ∧ ∀ P ∈ new, R P.manifest

variable {H : Host} {m m' m'' : Manager} {c : Path} {manifest : Manifest}
variable {R R' S : Path → Prop}

theorem Met.append {d : Dependency} {plugins : List LoadedPlugin} (h : Met H c d plugins)
    (new : List LoadedPlugin) : Met H c d (plugins ++ new) := by
  rcases h with ⟨p, hp, Q, hQ, hrest⟩
  exact ⟨p, hp, Q, List.mem_append_left _ hQ, hrest⟩

theorem Met.grew {d : Dependency} (h : Met H c d m.loadedPlugins) (hgrew : Grew R m m') :
    Met H c d m'.loadedPlugins := by
  rcases hgrew.plugins with ⟨new, hnew, -⟩
  exact hnew ▸ h.append new

theorem Grew.refl (R : Path → Prop) (m : Manager) : Grew R m m :=
  ⟨rfl, fun _ => .inl, [], (List.append_nil _).symm, fun _ h => by cases h⟩

theorem Grew.trans (h : Grew R m m') (h' : Grew R m' m'') : Grew R m m'' := by
  rcases h.plugins with ⟨new, hnew, hR⟩
  rcases h'.plugins with ⟨new', hnew', hR'⟩
  refine ⟨h'.stack.trans h.stack, fun c hc => ?_, new ++ new', ?_, ?_⟩
  · rcases h'.states c hc with hc | hc
    · exact h.states c hc
    · exact .inr hc
  · rw [hnew', hnew, List.append_assoc]
  · intro P hP
    rcases List.mem_append.mp hP with hP | hP
    · exact hR P hP
    · exact hR' P hP

theorem Grew.mono (h : Grew R m m') (hR : ∀ c, R c → R' c) : Grew R' m m' := by
  rcases h.plugins with ⟨new, hnew, hall⟩
  exact ⟨h.stack, fun c hc => (h.states c hc).imp_right (hR c), new, hnew,
    fun P hP => hR _ (hall P hP)⟩

theorem Good.sameBut (h : Good H S m) (hsame : SameBut m m') : Good H S m' := by
  rcases hsame with ⟨r, hr, rfl⟩
  refine { h with registered := fun P hP => ?_ }
  rcases h.registered P hP with ⟨library, hlibrary, hregistered⟩
  exact ⟨library, hlibrary, hregistered.mono hr⟩

theorem Grew.sameBut (h : Grew R m m') (hsame : SameBut m' m'') : Grew R m m'' := by
  rcases hsame with ⟨r, -, rfl⟩
  exact ⟨h.stack, h.states, h.plugins⟩

theorem Ordered.concat {plugins : List LoadedPlugin} (h : Ordered H S plugins) {P : LoadedPlugin}
    (hP : S P.manifest → ∀ manifest, H.parseManifest P.manifest = some manifest →
      ∀ d ∈ manifest.dependencies, Met H P.manifest d plugins) : Ordered H S (plugins ++ [P]) := by
  intro pre Q post manifest heq hS hparse d hd
  rcases List.append_eq_append_iff.mp heq with ⟨mid, hpre, hmid⟩ | ⟨mid, hplugins, hmid⟩
  · -- `Q` is behind the old plugins, so it is the new one
    cases mid with
    | nil =>
        rw [List.append_nil] at hpre
        cases hmid
        rw [hpre]
        exact hP hS manifest hparse d hd
    | cons x mid =>
        have hlength := congrArg List.length hmid
        simp at hlength
  · cases mid with
    | nil =>
        rw [List.append_nil] at hplugins
        cases hmid
        rw [← hplugins]
        exact hP hS manifest hparse d hd
    | cons x mid =>
        cases hmid
        exact h pre Q mid manifest hplugins hS hparse d hd

/-! ## Steps of the walk -/

theorem Good.enter (h : Good H S m) (hnone : m.manifestStates c = none) (hfile : c ∈ H.files) :
    Good H S (m.enter c) := by
  have hold : c ∉ m.manifestStack := by
    intro hmem
    rw [← h.visiting, hnone] at hmem
    cases hmem
  refine { h with visiting := ?_, states := ?_, loaded := ?_, nodup := ?_, files := ?_ }
  · intro c'
    change update m.manifestStates c _ c' = _ ↔ c' ∈ c :: m.manifestStack
    by_cases heq : c' = c
    · subst heq
      simp
    · rw [update_of_ne heq, h.visiting, List.mem_cons, or_iff_right heq]
  · intro P hP
    have hstate := h.states P hP
    have hne : P.manifest ≠ c := by
      intro heq
      rw [heq, hnone] at hstate
      cases hstate
    change update m.manifestStates c _ P.manifest = _
    rw [update_of_ne hne, hstate]
  · intro c' hS hstate
    change update m.manifestStates c _ c' = _ at hstate
    by_cases heq : c' = c
    · subst heq
      simp at hstate
    · rw [update_of_ne heq] at hstate
      exact h.loaded c' hS hstate
  · exact List.nodup_cons.mpr ⟨hold, h.nodup⟩
  · intro c' hc'
    rcases List.mem_cons.mp hc' with rfl | hc'
    · exact hfile
    · exact h.files c' hc'

/-- What is being visited is no plugin's manifest. -/
theorem Good.manifest_ne (h : Good H S m) (hmem : c ∈ m.manifestStack) {P : LoadedPlugin}
    (hP : P ∈ m.loadedPlugins) : P.manifest ≠ c := by
  intro heq
  have hstate := h.states P hP
  rw [heq, (h.visiting c).mpr hmem] at hstate
  cases hstate

/-- The top of the stack is taken off, in another state than before. -/
theorem Good.visiting_update {stack : List Path} (h : Good H S m)
    (hstack : m.manifestStack = c :: stack) {state : Option ManifestState}
    (hstate : state ≠ some .visiting) (c' : Path) :
    update m.manifestStates c state c' = some .visiting ↔ c' ∈ stack := by
  have hnodup := hstack ▸ h.nodup
  by_cases heq : c' = c
  · subst heq
    rw [update_self]
    exact iff_of_false hstate (List.nodup_cons.mp hnodup).1
  · rw [update_of_ne heq, h.visiting, hstack, List.mem_cons, or_iff_right heq]

/-- A manifest outside of the set may end as loaded without a plugin of its own. -/
theorem Good.pop {stack : List Path} (h : Good H S m) (hstack : m.manifestStack = c :: stack)
    {state : Option ManifestState} (hvisiting : state ≠ some .visiting)
    (hloaded : state = some .loaded → ¬S c) :
    Good H S { m with
      manifestStates := update m.manifestStates c state
      manifestStack := m.manifestStack.tail } := by
  have htop : c ∈ m.manifestStack := hstack ▸ List.mem_cons_self
  have htail : m.manifestStack.tail = stack := by
    rw [hstack, List.tail_cons]
  refine { h with visiting := ?_, states := ?_, loaded := ?_, nodup := ?_, files := ?_ }
  · rw [htail]
    exact h.visiting_update hstack hvisiting
  · intro P hP
    change update m.manifestStates c state P.manifest = _
    rw [update_of_ne (h.manifest_ne htop hP), h.states P hP]
  · intro c' hS hstate
    change update m.manifestStates c state c' = _ at hstate
    by_cases heq : c' = c
    · subst heq
      rw [update_self] at hstate
      exact absurd hS (hloaded hstate)
    · rw [update_of_ne heq] at hstate
      exact h.loaded c' hS hstate
  · exact h.nodup.tail
  · exact fun c' hc' => h.files c' (List.mem_of_mem_tail hc')

theorem Good.leave {stack : List Path} (h : Good H S m) (hstack : m.manifestStack = c :: stack) :
    Good H S (m.leave c) :=
  h.pop hstack (fun h => by cases h) (fun h => by cases h)

theorem Good.finish {stack : List Path} (h : Good H S m) (hstack : m.manifestStack = c :: stack)
    (hS : ¬S c) : Good H S (m.finish c) :=
  h.pop hstack (by simp) fun _ => hS

theorem mapLe_providers {α β : Type} [DecidableEq α] (f : α → Option β) (keys : List α)
    (value : β) :
    MapLe f (keys.foldl (fun f key => emplace f key value) f) := by
  induction keys generalizing f with
  | nil => exact .refl f
  | cons key keys ih => exact (MapLe.emplace f key value).trans (ih _)

/-- Keys that were free are given the value. -/
theorem foldl_emplace {α β : Type} [DecidableEq α] {f : α → Option β} {keys : List α} {value : β}
    {key : α} (hmem : key ∈ keys) (hfree : f key = none ∨ f key = some value) :
    keys.foldl (fun f key => emplace f key value) f key = some value := by
  induction keys generalizing f with
  | nil => cases hmem
  | cons k keys ih =>
      rw [List.foldl_cons]
      have hhead : k = key → emplace f k value key = some value := by
        rintro rfl
        rcases hfree with hnone | hsome
        · rw [emplace_of_none value hnone, update_self]
        · exact MapLe.emplace f k value k value hsome
      rcases List.mem_cons.mp hmem with rfl | hmem
      · exact mapLe_providers _ keys value _ _ (hhead rfl)
      · refine ih hmem ?_
        by_cases heq : k = key
        · exact .inr (hhead heq)
        · rcases hfree with hnone | hsome
          · refine .inl ?_
            unfold emplace
            split
            · exact hnone
            · rw [update_of_ne (Ne.symm heq), hnone]
          · exact .inr (MapLe.emplace f k value key value hsome)

theorem emplace_eq_some {α β : Type} [DecidableEq α] {f : α → Option β} {key k : α} {value v : β}
    (h : emplace f key value k = some v) : f k = some v ∨ k = key ∧ value = v := by
  unfold emplace at h
  split at h
  · exact .inl h
  · by_cases heq : k = key
    · subst heq
      rw [update_self] at h
      exact .inr ⟨rfl, Option.some.inj h⟩
    · rw [update_of_ne heq] at h
      exact .inl h

/-- A manifest ends with its plugin recorded. -/
theorem Good.recorded {stack : List Path} {library : Library} (h : Good H S m)
    (hstack : m.manifestStack = c :: stack) (hparse : H.parseManifest c = some manifest)
    (hmet : S c → ∀ d ∈ manifest.dependencies, Met H c d m.loadedPlugins)
    (hadmitted : Admitted manifest.name manifest.name manifest.provides m)
    (hlibrary : H.library (H.canonical (libraryPath c manifest)) = some library)
    (hregistered : Registered library manifest.name m.registries) :
    Good H S ((m.record (entry H c manifest)).finish c) := by
  have htop : c ∈ m.manifestStack := hstack ▸ List.mem_cons_self
  have htail : m.manifestStack.tail = stack := by
    rw [hstack, List.tail_cons]
  have hplugins : ∀ {P : LoadedPlugin}, P ∈ m.loadedPlugins ++ [entry H c manifest] →
      P ∈ m.loadedPlugins ∨ P = entry H c manifest := by
    intro P hP
    rcases List.mem_append.mp hP with hP | hP
    · exact .inl hP
    · exact .inr (List.mem_singleton.mp hP)
  have hnew : ∀ P ∈ m.loadedPlugins, P.name ≠ manifest.name := by
    intro P hP hname
    have hfind := List.find?_eq_none.mp hadmitted.new P hP
    simp [hname] at hfind
  constructor
  case visiting =>
    change ∀ c', update m.manifestStates c (some .loaded) c' = _ ↔ c' ∈ m.manifestStack.tail
    rw [htail]
    exact h.visiting_update hstack (by simp)
  case states =>
    intro P hP
    change update m.manifestStates c (some .loaded) P.manifest = _
    rcases hplugins hP with hP | rfl
    · rw [update_of_ne (h.manifest_ne htop hP), h.states P hP]
    · exact update_self ..
  case loaded =>
    intro c' hS hstate
    change update m.manifestStates c (some .loaded) c' = _ at hstate
    by_cases heq : c' = c
    · exact ⟨entry H c manifest, List.mem_append_right _ (List.mem_singleton_self _), heq.symm⟩
    · rw [update_of_ne heq] at hstate
      rcases h.loaded c' hS hstate with ⟨P, hP, hmanifest⟩
      exact ⟨P, List.mem_append_left _ hP, hmanifest⟩
  case nodup => exact h.nodup.tail
  case files => exact fun c' hc' => h.files c' (List.mem_of_mem_tail hc')
  case entries =>
    intro P hP
    rcases hplugins hP with hP | rfl
    · exact h.entries P hP
    · exact ⟨manifest, hparse, rfl⟩
  case libraries =>
    intro path name hname
    rcases emplace_eq_some hname with hname | ⟨rfl, rfl⟩
    · rcases h.libraries path name hname with ⟨P, hP, hrest⟩
      exact ⟨P, List.mem_append_left _ hP, hrest⟩
    · exact ⟨entry H c manifest, List.mem_append_right _ (List.mem_singleton_self _), rfl, rfl⟩
  case names =>
    change ((m.loadedPlugins ++ [entry H c manifest]).map (·.name)).Nodup
    rw [List.map_append, List.nodup_append]
    refine ⟨h.names, List.nodup_singleton _, ?_⟩
    intro name hname other hother
    rcases List.mem_map.mp hname with ⟨P, hP, rfl⟩
    rw [List.mem_singleton.mp hother]
    exact hnew P hP
  case ordered =>
    refine h.ordered.concat fun hS manifest' hparse' => ?_
    have heq : manifest' = manifest := Option.some.inj (hparse'.symm.trans hparse)
    rw [heq]
    exact hmet hS
  case registered =>
    intro P hP
    rcases hplugins hP with hP | rfl
    · exact h.registered P hP
    · exact ⟨library, hlibrary, hregistered⟩
  case provided =>
    intro P hP capability hcapability
    rcases hplugins hP with hP | rfl
    · exact mapLe_providers _ _ _ _ _ (h.provided P hP capability hcapability)
    · exact foldl_emplace hcapability (.inl (hadmitted.free capability hcapability))

end Plugin

end Absolute
