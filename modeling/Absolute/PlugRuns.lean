import Absolute.LibRuns
import Absolute.PlugClosure

/-!
# Runs of loads and unloads

What is loaded after a run of `Load`, `Unload` and `Reload` on manifests. `Unload`
takes a plugin out of every table but `manifestStates`, so a later load of its
manifest returns at once, and a `Reload` of what is loaded is an `Unload`. As long as
nothing that is loaded is unloaded, what was asked for is loaded.
-/

namespace Absolute

namespace Plugin

open Function Raising Relation Manager Runs

/-! ## Operations -/

inductive Op where
  | load (path : Path)
  | unload (name : Text)
  | reload (path : Path) (order : IterationOrder)

namespace Op

def run (H : Host) : Op → LoadM PUnit
  | load path => Plugin.load H path
  | unload name => Plugin.unload name
  | reload path order => Plugin.reload H order path

/-- It loads by a manifest, if it loads. -/
def OnManifest : Op → Prop
  | load path => isManifest path = true
  | unload _ => True
  | reload path _ => isManifest path = true

/-- It loads the manifest at `c`. -/
def Asks (H : Host) (c : Path) : Op → Prop
  | load path => H.canonical path = c
  | unload _ => False
  | reload path _ => H.canonical path = c

end Op

/-- An operation that succeeds. -/
def Succeeds (H : Host) (m : Manager) (op : Op) (m' : Manager) : Prop :=
  op.OnManifest ∧ op.run H m = .ok ⟨⟩ m'

/-- The manifest at `c` was loaded, and the name not unloaded since. -/
def AskedLast (H : Host) (c : Path) (name : Text) (past : List Op) : Prop :=
  ∃ newer op older, past = newer ++ op :: older ∧ op.Asks H c ∧ Op.unload name ∉ newer

/-- The plugin of the manifest at `c` is loaded, with its capabilities and its rules. -/
structure InPlace (H : Host) (c : Path) (manifest : Manifest) (m : Manager) : Prop where
  loaded : entry H c manifest ∈ m.loadedPlugins
  provided : ∀ capability ∈ manifest.provides,
    m.capabilityProviders capability = some manifest.name
  registered : ∃ library, H.library (H.canonical (libraryPath c manifest)) = some library
    ∧ Registered library manifest.name m.registries

/-- What is loaded is what was asked for last, itself or by what depends on it. -/
structure Coherent (H : Host) (past : List Op) (m : Manager) : Prop where
  kept : ∀ c manifest, H.parseManifest c = some manifest → AskedLast H c manifest.name past →
    InPlace H c manifest m
  brought : ∀ P ∈ m.loadedPlugins, ∃ root, ReflTransGen (Depends H) root P.manifest
    ∧ AskedLast H root P.name past
  states : ∀ c, m.manifestStates c = some .loaded ↔ ∃ P ∈ m.loadedPlugins, P.manifest = c

/-- Nothing that is loaded is unloaded, and no library passed over. -/
def Steady (H : Host) (m : Manager) : Op → Prop
  | .load path => LoadsInTurn H (fun _ => True) path m
  | .unload name => m.findPlugin name = none
  | .reload path order =>
      LoadsInTurn H (fun _ => True) path m ∧ findLoaded H order path m = none

variable {H : Host} {S : Path → Prop} {m m' : Manager} {c c' path : Path} {name : Text}
variable {past : List Op} {op : Op} {manifest : Manifest}

theorem AskedLast.of_asks (h : op.Asks H c) : AskedLast H c name (op :: past) :=
  ⟨[], op, past, rfl, h, fun h => by cases h⟩

theorem AskedLast.cons (h : AskedLast H c name past) (hop : op ≠ .unload name) :
    AskedLast H c name (op :: past) := by
  rcases h with ⟨newer, asked, older, rfl, hasks, hnewer⟩
  refine ⟨op :: newer, asked, older, rfl, hasks, fun hmem => ?_⟩
  rcases List.mem_cons.mp hmem with heq | hmem
  · exact hop heq.symm
  · exact hnewer hmem

theorem askedLast_cons (h : AskedLast H c name (op :: past)) :
    op.Asks H c ∨ AskedLast H c name past := by
  rcases h with ⟨newer, asked, older, heq, hasks, hnewer⟩
  cases newer with
  | nil =>
      cases heq
      exact .inl hasks
  | cons head newer =>
      cases heq
      exact .inr ⟨newer, asked, older, rfl, hasks, fun hmem => hnewer (List.mem_cons_of_mem _ hmem)⟩

/-! ## Loads keep what is loaded -/

/-- What holds after a run of steady steps. -/
structure Kept (H : Host) (past : List Op) (m : Manager) : Prop where
  good : Good H (fun _ => True) m
  stack : m.manifestStack = []
  asked : ∀ c manifest, H.parseManifest c = some manifest → AskedLast H c manifest.name past →
    entry H c manifest ∈ m.loadedPlugins
  brought : ∀ P ∈ m.loadedPlugins, ∃ root, ReflTransGen (Depends H) root P.manifest
    ∧ AskedLast H root P.name past

theorem Fresh.kept (h : Fresh m) : Kept H [] m where
  good := h.good
  stack := h.stack
  asked := by
    rintro c manifest - ⟨newer, op, older, heq, -⟩
    have hlength := congrArg List.length heq
    simp at hlength
  brought := by simp [h.plugins]

theorem Good.entry_of_manifest (h : Good H S m) {P : LoadedPlugin} (hP : P ∈ m.loadedPlugins)
    (hparse : H.parseManifest P.manifest = some manifest) : P = entry H P.manifest manifest := by
  rcases h.entries P hP with ⟨manifest', hparse', hentry⟩
  rwa [Option.some.inj (hparse'.symm.trans hparse)] at hentry

theorem Good.inPlace (h : Good H S m) (hmem : entry H c manifest ∈ m.loadedPlugins) :
    InPlace H c manifest m :=
  ⟨hmem, h.provided _ hmem, h.registered _ hmem⟩

theorem Kept.coherent (h : Kept H past m) : Coherent H past m where
  kept c manifest hparse hasked := h.good.inPlace (h.asked c manifest hparse hasked)
  brought := h.brought
  states c := by
    constructor
    · exact h.good.loaded c trivial
    · rintro ⟨P, hP, rfl⟩
      exact h.good.states P hP

/-- The step that loads: an operation that comes down to a load of what it asks for. -/
theorem Kept.load (h : Kept H past m) (hmanifest : isManifest path = true)
    (hturns : LoadsInTurn H (fun _ => True) path m) (hresult : Plugin.load H path m = .ok ⟨⟩ m')
    (hasks : ∀ c, op.Asks H c ↔ H.canonical path = c) : Kept H (op :: past) m' := by
  have hop : ∀ name, op ≠ .unload name := by
    rintro name rfl
    exact (hasks _).mpr rfl
  have hbrings := (results_load (fun _ _ _ _ => trivial) hturns h.good h.stack
    hmanifest).of_ok hresult
  rcases hbrings.grew.plugins with ⟨new, hplugins, hnew⟩
  constructor
  case good => exact hbrings.good
  case stack => exact hbrings.grew.stack.trans h.stack
  case asked =>
    intro c manifest hparse hasked
    rcases askedLast_cons hasked with hnow | hbefore
    · rw [hasks] at hnow
      subst hnow
      rcases hbrings.accepted trivial with ⟨P, hP, hroot, -⟩
      rw [← hroot] at hparse
      have hentry := hbrings.good.entry_of_manifest hP hparse
      rw [hroot] at hentry
      exact hentry ▸ hP
    · rw [hplugins]
      exact List.mem_append_left _ (h.asked c manifest hparse hbefore)
  case brought =>
    intro P hP
    rw [hplugins] at hP
    rcases List.mem_append.mp hP with hP | hP
    · rcases h.brought P hP with ⟨root, hreach, hasked⟩
      exact ⟨root, hreach, hasked.cons (hop P.name)⟩
    · exact ⟨H.canonical path, hnew P hP, .of_asks ((hasks _).mpr rfl)⟩

theorem Kept.step (h : Kept H past m) (hsteady : Steady H m op) (hstep : Succeeds H m op m') :
    Kept H (op :: past) m' := by
  rcases hstep with ⟨hmanifest, hresult⟩
  cases op with
  | load path => exact h.load hmanifest hsteady hresult fun c => .rfl
  | unload name =>
      change unload name m = _ at hresult
      unfold unload at hresult
      rw [show m.findPlugin name = none from hsteady] at hresult
      cases hresult
  | reload path order =>
      change reload H order path m = _ at hresult
      unfold reload at hresult
      rw [hsteady.2] at hresult
      exact h.load hmanifest hsteady.1 hresult fun c => .rfl

/-- In a run in which nothing that is loaded is unloaded, and no library passed over, what
was asked for is loaded, with its capabilities and rules, and nothing but that and what
it depends on, and the states say so. -/
theorem run_coherent (H : Host) (start m : Manager) (past : List Op) (hfresh : Fresh start)
    (hrun : RunUnder (Succeeds H) (Steady H) start past m) : Coherent H past m := by
  have hkept : Kept H past m := hrun.invariant (P := fun past m => Kept H past m) hfresh.kept
    fun _ _ _ _ _ hkept hsteady hstep => hkept.step hsteady hstep
  exact hkept.coherent

/-! ## What is unloaded -/

/-- The state of a manifest outlives its plugin. -/
theorem unload_leaves_state (hgood : Good H S m) (hresult : unload name m = .ok ⟨⟩ m') :
    ∃ c, m'.manifestStates c = some .loaded ∧ ∀ P ∈ m'.loadedPlugins, P.manifest ≠ c := by
  unfold unload at hresult
  cases hfind : m.findPlugin name with
  | none =>
      rw [hfind] at hresult
      cases hresult
  | some plugin =>
      rw [hfind] at hresult
      cases hresult
      have hplugin := List.mem_of_find?_eq_some hfind
      refine ⟨plugin.manifest, hgood.states plugin hplugin, fun P hP heq => ?_⟩
      rcases List.mem_filter.mp hP with ⟨hP, hname⟩
      rcases hgood.entries plugin hplugin with ⟨manifest, hparse, hentry⟩
      have hsame : P = plugin := by
        rw [hgood.entry_of_manifest hP (heq ▸ hparse), heq, ← hentry]
      rw [hsame] at hname
      simp at hname

/-! ## Two plugins -/

/-- The order of the list. -/
def listed : IterationOrder := ⟨id, fun _ => .rfl⟩

/-- `d`, which brings `p`, and then `p` itself. -/
theorem pair_coherent : ∃ m, m.loadedPlugins.map (·.name) = ["p".toList, "d".toList]
    ∧ Coherent pairHost [.load "p.absplugin".toList, .reload "d.absplugin".toList listed] m := by
  have hapart : Apart pairHost (fun _ => True) := apart_of_names (fun _ => rfl) (by decide)
  have hgood : Good pairHost (fun _ => False) (state (load pairHost "d.absplugin".toList {})) :=
    ((results_load_any fresh_empty
      (show isManifest "d.absplugin".toList = true by decide)).of_ok rfl).good
  have hrun : RunUnder (Succeeds pairHost) (Steady pairHost) {}
      [.load "p.absplugin".toList, .reload "d.absplugin".toList listed]
      (state (load pairHost "p.absplugin".toList
        (state (load pairHost "d.absplugin".toList {})))) :=
    .cons (.cons .nil ⟨loadsInTurn_of_apart hapart fresh_empty.good, rfl⟩ ⟨rfl, rfl⟩)
      (loadsInTurn_of_apart hapart hgood) ⟨rfl, rfl⟩
  exact ⟨_, rfl, run_coherent pairHost {} _ _ fresh_empty hrun⟩

/-- After an `Unload` a `Load` of the manifest loads nothing, and a `Reload` of what is
loaded unloads it. -/
theorem unloaded_stays_unloaded :
    (∃ m, Run (Succeeds pairHost) {}
        [.load "d.absplugin".toList, .unload "d".toList, .load "d.absplugin".toList] m
      ∧ m.loadedPlugins.map (·.name) = ["p".toList]
      ∧ ¬Coherent pairHost
        [.load "d.absplugin".toList, .unload "d".toList, .load "d.absplugin".toList] m)
    ∧ ∃ m, Run (Succeeds pairHost) {}
        [.reload "d.absplugin".toList listed, .load "d.absplugin".toList] m
      ∧ m.loadedPlugins.map (·.name) = ["p".toList]
      ∧ ¬Coherent pairHost [.reload "d.absplugin".toList listed, .load "d.absplugin".toList] m := by
  have hnot : ∀ {past : List Op} {op : Op} {m : Manager}, op.Asks pairHost "d.absplugin".toList →
      m.loadedPlugins.map (·.name) = ["p".toList] → ¬Coherent pairHost (op :: past) m := by
    intro past op m hasks hnames hcoherent
    have hloaded := (hcoherent.kept _ _ rfl (.of_asks hasks)).loaded
    have hname := List.mem_map_of_mem (f := LoadedPlugin.name) hloaded
    rw [hnames] at hname
    revert hname
    decide
  constructor
  · refine ⟨_, .cons (.cons (.cons .nil ⟨rfl, rfl⟩) ⟨trivial, rfl⟩) ⟨rfl, rfl⟩, rfl, ?_⟩
    exact hnot rfl rfl
  · refine ⟨_, .cons (.cons .nil ⟨rfl, rfl⟩) ⟨rfl, rfl⟩, rfl, ?_⟩
    exact hnot rfl rfl

end Plugin

end Absolute
