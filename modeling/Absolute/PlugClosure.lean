import Absolute.LibDescent
import Absolute.PlugWalk

/-!
# A load is a closure in dependency order

With nothing loaded, a load of a manifest that returns leaves the manifest's plugin
and all it requires loaded, each behind what it requires, and it throws a cycle
exactly if there is one of required dependencies. The check for conflicting
manifests is made before the dependencies of a manifest are loaded, so these may
bring its plugin from another manifest, and its own library is then passed over. A
load that returns is what it should be if and only if that befalls nothing that is
required (`load_is_ordered`).
-/

namespace Absolute

namespace Plugin

open Function Raising Relation Manager

/-- Nothing is loaded, and nothing was. -/
structure Fresh (m : Manager) : Prop where
  states : ∀ c, m.manifestStates c = none
  stack : m.manifestStack = []
  plugins : m.loadedPlugins = []
  libraries : ∀ library, m.loadedLibraries library = none

/-- What is reached by required dependencies. -/
abbrev Required (H : Host) (root : Path) : Path → Prop := ReflTransGen (Requires H) root

/-- The plugins have all that is required, each behind what it requires, in the
versions that are asked for. -/
def Closure (H : Host) (root : Path) (plugins : List LoadedPlugin) : Prop :=
  ∀ c, Required H root c → ∃ manifest pre post, H.parseManifest c = some manifest
    ∧ plugins = pre ++ entry H c manifest :: post
    ∧ ∀ d ∈ manifest.dependencies, Met H c d pre

def HasCycle (H : Host) (root : Path) : Prop :=
  ∃ x, Required H root x ∧ TransGen (Requires H) x x

/-- A load keeps to the order of the dependencies. Where the libraries load, and the
versions, conflicts and capabilities are satisfied, nothing but a cycle is thrown. -/
structure OrderedLoad (H : Host) (path : Path) (m : Manager) : Prop where
  closure : ∀ m', load H path m = .ok ⟨⟩ m' → Closure H (H.canonical path) m'.loadedPlugins
  cycle : (∀ e m', load H path m = .error e m' → e.IsCycle) →
    ((∃ e m', load H path m = .error e m' ∧ e.IsCycle) ↔ HasCycle H (H.canonical path))
  stack : (state (load H path m)).manifestStack = []
  bounded : ∀ e m', load H path m = .error e m' → e.cause ≠ .tooDeep

variable {H : Host} {S : Path → Prop} {m m' : Manager} {path root c c' : Path}
variable {plugins pre post : List LoadedPlugin} {P : LoadedPlugin} {manifest : Manifest}

theorem Fresh.good (h : Fresh m) : Good H S m := by
  constructor
  case visiting => simp [h.states, h.stack]
  case states => simp [h.plugins]
  case loaded => simp [h.states]
  case nodup => simp [h.stack]
  case files => simp [h.stack]
  case entries => simp [h.plugins]
  case libraries => simp [h.libraries]
  case names => simp [h.plugins]
  case ordered =>
    intro pre P post manifest heq
    rw [h.plugins] at heq
    have hlength := congrArg List.length heq
    simp at hlength
  case registered => simp [h.plugins]
  case provided => simp [h.plugins]

/-- What is required is loaded, if the root is. -/
theorem Good.mem_of_required (h : Good H (Required H root) m) (hP : P ∈ m.loadedPlugins)
    (hroot : P.manifest = root) (hreach : Required H root c) :
    ∃ Q ∈ m.loadedPlugins, Q.manifest = c := by
  induction hreach with
  | refl => exact ⟨P, hP, hroot⟩
  | tail hreach hrequires ih =>
      rcases ih with ⟨Q, hQ, rfl⟩
      rcases hrequires with ⟨manifest, d, p, hparse, hd, hp, rfl⟩
      rcases List.append_of_mem hQ with ⟨pre, post, hsplit⟩
      rcases h.ordered pre Q post manifest hsplit hreach hparse d hd with
        ⟨p', hp', R, hR, hmanifest, -⟩
      have hpath : p' = p := Option.some.inj (hp'.symm.trans hp)
      refine ⟨R, ?_, hpath ▸ hmanifest⟩
      rw [hsplit]
      exact List.mem_append_left _ hR

theorem Good.closure (h : Good H (Required H root) m) (hP : P ∈ m.loadedPlugins)
    (hroot : P.manifest = root) : Closure H root m.loadedPlugins := by
  intro c hreach
  rcases h.mem_of_required hP hroot hreach with ⟨Q, hQ, rfl⟩
  rcases h.entries Q hQ with ⟨manifest, hparse, hentry⟩
  rcases List.append_of_mem hQ with ⟨pre, post, hsplit⟩
  refine ⟨manifest, pre, post, hparse, ?_, h.ordered pre Q post manifest hsplit hreach hparse⟩
  rw [← hentry]
  exact hsplit

/-- What stands behind all it requires is in no cycle. -/
theorem Good.acc (h : Good H (Required H root) m) (hsplit : m.loadedPlugins = pre ++ P :: post)
    (hreach : Required H root P.manifest) : Acc (swap (Requires H)) P.manifest := by
  induction hlength : pre.length using Nat.strong_induction_on generalizing pre P post with
  | _ n ih =>
    refine .intro _ fun c' hrequires => ?_
    have hreach' : Required H root c' := hreach.tail hrequires
    rcases hrequires with ⟨manifest, d, p, hparse, hd, hp, rfl⟩
    rcases h.ordered pre P post manifest hsplit hreach hparse d hd with
      ⟨p', hp', Q, hQ, hmanifest, -⟩
    have hpath : p' = p := Option.some.inj (hp'.symm.trans hp)
    rw [hpath] at hmanifest
    rcases List.append_of_mem hQ with ⟨pre', post', hpre⟩
    have hshorter : pre'.length < n := by
      rw [← hlength, hpre, List.length_append, List.length_cons]
      omega
    rw [← hmanifest] at hreach' ⊢
    have hearlier : m.loadedPlugins = pre' ++ Q :: (post' ++ P :: post) := by
      rw [hsplit, hpre, List.append_assoc, List.cons_append]
    exact ih pre'.length hshorter hearlier hreach' rfl

theorem Good.not_hasCycle (h : Good H (Required H root) m) (hP : P ∈ m.loadedPlugins)
    (hroot : P.manifest = root) : ¬HasCycle H root := by
  rintro ⟨x, hreach, hround⟩
  rcases h.mem_of_required hP hroot hreach with ⟨Q, hQ, rfl⟩
  rcases List.append_of_mem hQ with ⟨pre, post, hsplit⟩
  exact Descent.not_cycle_of_acc (h.acc hsplit hreach) (transGen_swap.mpr hround)

/-! ## States at a turn -/

/-- What holds when the library of the manifest at `c` has its turn. -/
structure AtTurn (H : Host) (c : Path) (manifest : Manifest) (s : Manager) : Prop where
  good : Good H (fun _ => False) s
  visiting : c ∈ s.manifestStack
  parse : H.parseManifest c = some manifest
  brought : ∀ P ∈ s.loadedPlugins, P.name = manifest.name → TransGen (Depends H) c P.manifest

variable {s t : Manager} {d : Dependency} {depth : ℕ} {requestedName versionRange : Text}
variable {stack : List Path}

/-- With no set of manifests to keep, nothing is asked of the turns. -/
theorem loads_any (hdepth : H.files.length < stack.length + depth) :
    Loads H (fun _ => False) stack (fun _ _ _ _ => True) (loadManifest H depth) :=
  fun path requestedName versionRange m _ =>
    results_loadManifest (fun _ _ h => h.elim) depth hdepth path requestedName versionRange m
      fun _ _ _ h => h.elim

theorem Calls.good {load : Path → Text → Text → LoadM PUnit}
    (h : Calls H load c manifest m d path t)
    (hload : Loads H (fun _ => False) (c :: stack) (fun _ _ _ _ => True) load)
    (hparse : H.parseManifest c = some manifest) (hgood : Good H (fun _ => False) m)
    (hstack : m.manifestStack = c :: stack) :
    Good H (fun _ => False) t ∧ t.manifestStack = c :: stack := by
  have hclosed : ∀ c c', False → Requires H c c' → False := fun _ _ h _ => h
  cases h with
  | required hsplit hdone hpath =>
      have hdeps := results_dependencies hload hclosed hparse
        (fun d hd => hsplit ▸ List.mem_append_left _ hd) (fun _ _ _ _ _ _ _ _ => trivial) hgood
        hstack
      rcases (hdeps.of_ok hdone).1 with ⟨ht, hgrew⟩
      exact ⟨ht, hgrew.stack.trans hstack⟩
  | optional hrequired hsplit hdone hpath hfile =>
      have hfirst := results_requireAll hload hclosed hparse (fun _ _ _ _ => trivial) hgood hstack
      rcases (hfirst.of_ok hrequired).1 with ⟨hu, hgrew⟩
      have hoptions := results_optionalDependencies hload hparse
        (fun d hd => hsplit ▸ List.mem_append_left _ hd) (fun _ _ _ _ _ _ _ _ _ => trivial) hu
        (hgrew.stack.trans hstack) (E := fun _ _ => True)
      rcases hoptions.of_ok hdone with ⟨ht, hgrew'⟩
      exact ⟨ht, (hgrew'.stack.trans hgrew.stack).trans hstack⟩

theorem Turn.atTurn (h : Turn H c manifest s depth path requestedName versionRange m)
    (hgood : Good H (fun _ => False) m)
    (hdepth : H.files.length < m.manifestStack.length + depth) : AtTurn H c manifest s := by
  have henter : ∀ {path requestedName versionRange manifest m},
      Visits H path requestedName versionRange manifest m → Good H (fun _ => False) m →
      Good H (fun _ => False) (m.enter (H.canonical path)) := by
    intro path requestedName versionRange manifest m hvisits hgood
    refine hgood.enter hvisits.state ?_
    simpa [Host.fileExists] using hvisits.file
  induction h with
  | @own depth path requestedName versionRange m sources hvisits hcanonical hbefore =>
      subst hcanonical
      have hparse := (readManifest_eq_ok hvisits.read).1
      have hload : Loads H (fun _ => False) (H.canonical path :: m.manifestStack)
          (fun _ _ _ _ => True) (loadManifest H depth) :=
        loads_any (by rw [List.length_cons]; omega)
      have hresults := results_beforeLibrary hload (fun _ _ h => h.elim) hparse
        (fun _ _ _ _ => trivial) (henter hvisits hgood) rfl
      rcases (hresults.of_ok hbefore).1 with ⟨hs, hgrew⟩
      refine ⟨hs, hgrew.stack ▸ List.mem_cons_self, hparse, fun P hP hname => ?_⟩
      rcases hgrew.plugins with ⟨new, hplugins, hnew⟩
      rw [hplugins] at hP
      rcases List.mem_append.mp hP with hP | hP
      · have hfind := List.find?_eq_none.mp hvisits.new P hP
        simp [hname] at hfind
      · exact hnew P hP
  | @nested depth path path' requestedName versionRange m t own d hvisits hcalls hturn ih =>
      have hload : Loads H (fun _ => False) (H.canonical path :: m.manifestStack)
          (fun _ _ _ _ => True) (loadManifest H depth) :=
        loads_any (by rw [List.length_cons]; omega)
      rcases hcalls.good hload (readManifest_eq_ok hvisits.read).1 (henter hvisits hgood) rfl with
        ⟨ht, hstack⟩
      refine ih ht ?_
      rw [hstack, List.length_cons]
      omega

/-- A library that is passed over is another manifest's. -/
theorem AtTurn.passedOver (h : AtTurn H c manifest s) (hpassed : PassedOver H c manifest s) :
    ∃ P ∈ s.loadedPlugins, P.manifest ≠ c ∧ P.name = manifest.name
      ∧ P.library = H.canonical (libraryPath c manifest) := by
  rcases h.good.libraries _ _ hpassed with ⟨P, hP, hlibrary, hname⟩
  exact ⟨P, hP, h.good.manifest_ne h.visiting hP, hname, hlibrary⟩

/-- Two manifests of one name and one library. -/
def SamePlugin (H : Host) (c c' : Path) : Prop :=
  ∃ manifest manifest', H.parseManifest c = some manifest ∧ H.parseManifest c' = some manifest'
    ∧ manifest.name = manifest'.name
    ∧ H.canonical (libraryPath c manifest) = H.canonical (libraryPath c' manifest')

/-- No manifest of the set leads to another one of the same plugin. -/
def Apart (H : Host) (S : Path → Prop) : Prop :=
  ∀ c c', S c → TransGen (Depends H) c c' → SamePlugin H c c' → c = c'

/-- Where no manifest leads to another one of its plugin, none is passed over. -/
theorem takesTurns_of_apart (hapart : Apart H S) (hgood : Good H (fun _ => False) m)
    (hdepth : H.files.length < m.manifestStack.length + depth) :
    TakesTurns H S depth path requestedName versionRange m := by
  intro c manifest s hS hturn hpassed
  have hat := hturn.atTurn hgood hdepth
  rcases hat.passedOver hpassed with ⟨P, hP, hmanifest, hname, hlibrary⟩
  rcases hat.good.entries P hP with ⟨manifest', hparse', hentry⟩
  refine hmanifest (hapart c P.manifest hS (hat.brought P hP hname) ?_).symm
  refine ⟨manifest, manifest', hat.parse, hparse', ?_, ?_⟩
  · rw [← hname, hentry]
    rfl
  · rw [← hlibrary, hentry]
    rfl

/-! ## Loads with nothing loaded -/

/-- The libraries of the set take their turns in a load of the manifest at `path`. -/
def LoadsInTurn (H : Host) (S : Path → Prop) (path : Path) (m : Manager) : Prop :=
  TakesTurns H S (H.files.length + 1) path [] [] m

theorem loadsInTurn_of_apart (hapart : Apart H S) (hgood : Good H (fun _ => False) m) :
    LoadsInTurn H S path m :=
  takesTurns_of_apart hapart hgood (by omega)

/-- The outcome of a load, for any set of manifests that take their turns. -/
theorem results_load (hclosed : ∀ c c', S c → Requires H c c' → S c')
    (hturns : LoadsInTurn H S path m) (hgood : Good H S m) (hstack : m.manifestStack = [])
    (hmanifest : isManifest path = true) :
    Results (load H path) m (fun _ m' => Brings H S (H.canonical path) [] [] m m')
      fun e m' => Fails H S (ReflTransGen (Depends H) (H.canonical path)) [] (H.canonical path)
        m e m' := by
  unfold load
  rw [if_pos hmanifest]
  refine results_loadManifest hclosed _ ?_ path [] [] m hturns hgood hstack
  rw [List.length_nil]
  omega

theorem HasCycle.of_cycleAt (h : CycleAt H [] root) : HasCycle H root := by
  rcases h with ⟨x, hx, -⟩ | hcycle
  · cases hx
  · exact hcycle

/-- With no set of manifests to keep, nothing is asked of them. -/
theorem results_load_any (hfresh : Fresh m) (hmanifest : isManifest path = true) :
    Results (load H path) m
      (fun _ m' => Brings H (fun _ => False) (H.canonical path) [] [] m m')
      fun e m' => Fails H (fun _ => False) (ReflTransGen (Depends H) (H.canonical path)) []
        (H.canonical path) m e m' :=
  results_load (fun _ _ h => h.elim) (fun _ _ _ h => h.elim) hfresh.good hfresh.stack hmanifest

theorem orderedLoad_of_inTurn (hfresh : Fresh m) (hmanifest : isManifest path = true)
    (hturns : ∀ m', load H path m = .ok ⟨⟩ m' →
      LoadsInTurn H (Required H (H.canonical path)) path m) : OrderedLoad H path m := by
  have hany := results_load_any hfresh hmanifest (H := H)
  have hbrings : ∀ m', load H path m = .ok ⟨⟩ m' →
      ∃ P ∈ m'.loadedPlugins, P.manifest = H.canonical path
        ∧ Good H (Required H (H.canonical path)) m' := by
    intro m' hresult
    have hload := (results_load (fun _ _ hreach hrequires => hreach.tail hrequires)
      (hturns m' hresult) hfresh.good hfresh.stack hmanifest).of_ok hresult
    rcases hload.accepted .refl with ⟨P, hP, hroot, -⟩
    exact ⟨P, hP, hroot, hload.good⟩
  constructor
  case closure =>
    intro m' hresult
    rcases hbrings m' hresult with ⟨P, hP, hroot, hgood⟩
    exact hgood.closure hP hroot
  case cycle =>
    intro honly
    constructor
    · rintro ⟨e, m', hresult, hcycle⟩
      exact .of_cycleAt ((hany.of_error hresult).cycle hcycle)
    · intro hcycle
      cases hresult : load H path m with
      | ok a m' =>
          rcases hbrings m' hresult with ⟨P, hP, hroot, hgood⟩
          exact absurd hcycle (hgood.not_hasCycle hP hroot)
      | error e m' => exact ⟨e, m', rfl, honly e m' hresult⟩
  case stack =>
    cases hresult : load H path m with
    | ok a m' => exact (hany.of_ok hresult).grew.stack.trans hfresh.stack
    | error e m' => exact (hany.of_error hresult).grew.stack.trans hfresh.stack
  case bounded => exact fun e m' hresult => (hany.of_error hresult).bounded

/-- In a load that returns and is ordered, nothing that is required is passed over: the
plugin that it is passed over for has its name, and there is one of each. -/
theorem inTurn_of_orderedLoad (hfresh : Fresh m) (hmanifest : isManifest path = true)
    (hordered : OrderedLoad H path m) (hresult : load H path m = .ok ⟨⟩ m') :
    LoadsInTurn H (Required H (H.canonical path)) path m := by
  intro c manifest s hreach hturn hpassed
  have hat := hturn.atTurn hfresh.good (by omega)
  rcases hat.passedOver hpassed with ⟨P, hP, hmanifest', hname, -⟩
  have hlater := hturn.stays hP
  have hload : loadManifest H (H.files.length + 1) path [] [] m = .ok ⟨⟩ m' := by
    unfold load at hresult
    rwa [if_pos hmanifest] at hresult
  rw [hload] at hlater
  rcases hordered.closure m' hresult c hreach with ⟨own, pre, post, hparse, hsplit, -⟩
  have hown : own = manifest := Option.some.inj (hparse.symm.trans hat.parse)
  have hentry : entry H c manifest ∈ m'.loadedPlugins := by
    rw [hsplit, hown]
    exact List.mem_append_right _ List.mem_cons_self
  have hgood := ((results_load_any hfresh hmanifest).of_ok hresult).good
  have hsame := List.inj_on_of_nodup_map hgood.names hlater hentry hname
  exact hmanifest' (congrArg LoadedPlugin.manifest hsame)

/-- A load of a manifest with nothing loaded is a closure in dependency order if and only
if it throws, or passes over no library of what is required. It passes over none if no
manifest that is required leads to another one of its plugin. -/
theorem load_is_ordered (H : Host) (path : Path) (m : Manager) (hfresh : Fresh m)
    (hmanifest : isManifest path = true) :
    (OrderedLoad H path m ↔ ∀ m', load H path m = .ok ⟨⟩ m' →
        LoadsInTurn H (Required H (H.canonical path)) path m)
      ∧ (Apart H (Required H (H.canonical path)) →
        LoadsInTurn H (Required H (H.canonical path)) path m) := by
  refine ⟨⟨fun h m' => ?_, ?_⟩, fun hapart => loadsInTurn_of_apart hapart hfresh.good⟩
  · exact inTurn_of_orderedLoad hfresh hmanifest h
  · exact orderedLoad_of_inTurn hfresh hmanifest

/-! ## A manifest that requires another one of its plugin -/

/-- Paths are canonical, and every library there is loads. -/
def manifestHost (libraries : List Path) (manifests : List (Path × Manifest)) : Host where
  canonical := id
  files := libraries ++ manifests.map (·.1)
  isRegularFile _ := true
  library path := if path ∈ libraries then some { editorPlugin := true } else none
  parseManifest path := (manifests.find? (·.1 = path)).map (·.2)
  readText _ := none

/-- `d` requires `p`, whose manifest requires a newer one of `p`. -/
def newerHost : Host :=
  manifestHost ["p.so".toList, "d.so".toList]
    [("d.absplugin".toList,
        { name := "d".toList, version := "1.0.0".toList, abi := 1, library := "d.so".toList
          dependencies := [⟨"p".toList, "1.0.0".toList, "p1.absplugin".toList, by decide⟩]
          named := by decide }),
      ("p1.absplugin".toList,
        { name := "p".toList, version := "1.0.0".toList, abi := 1, library := "p.so".toList
          dependencies := [⟨"p".toList, "2.0.0".toList, "p2.absplugin".toList, by decide⟩]
          named := by decide }),
      ("p2.absplugin".toList,
        { name := "p".toList, version := "2.0.0".toList, abi := 1, library := "p.so".toList
          named := by decide })]

/-- Two plugins, the second of which requires the first. -/
def pairHost : Host :=
  manifestHost ["p.so".toList, "d.so".toList]
    [("d.absplugin".toList,
        { name := "d".toList, version := "1.0.0".toList, abi := 1, library := "d.so".toList
          dependencies := [⟨"p".toList, "^1.0.0".toList, "p.absplugin".toList, by decide⟩]
          named := by decide }),
      ("p.absplugin".toList,
        { name := "p".toList, version := "1.2.0".toList, abi := 1, library := "p.so".toList
          named := by decide })]

theorem fresh_empty : Fresh {} := ⟨fun _ => rfl, rfl, rfl, fun _ => rfl⟩

/-- A host whose manifests have names of their own. -/
theorem apart_of_names {H : Host} {S : Path → Prop} {manifests : List (Path × Manifest)}
    (hparse : ∀ path, H.parseManifest path = (manifests.find? (·.1 = path)).map (·.2))
    (hnames : ∀ a ∈ manifests, ∀ b ∈ manifests, a.2.name = b.2.name → a = b) : Apart H S := by
  rintro c c' - - ⟨manifest, manifest', hc, hc', hname, -⟩
  have hmem : ∀ {c manifest}, H.parseManifest c = some manifest → (c, manifest) ∈ manifests := by
    intro c manifest h
    rw [hparse] at h
    rcases Option.map_eq_some_iff.mp h with ⟨a, ha, rfl⟩
    have hpath := List.find?_some ha
    rw [decide_eq_true_iff] at hpath
    exact hpath ▸ List.mem_of_find?_eq_some ha
  exact congrArg Prod.fst (hnames _ (hmem hc) _ (hmem hc') hname)

theorem pair_is_ordered : OrderedLoad pairHost "d.absplugin".toList {} :=
  have hordered := load_is_ordered pairHost "d.absplugin".toList {} fresh_empty (by decide)
  hordered.1.mpr fun _ _ => hordered.2 (apart_of_names (fun _ => rfl) (by decide))

/-- The newer one is loaded, which is not in the range that was asked for. -/
theorem newer_is_loaded : ∃ m', load newerHost "d.absplugin".toList {} = .ok ⟨⟩ m'
    ∧ (m'.loadedPlugins.map fun P => (P.name, P.version))
      = [("p".toList, "2.0.0".toList), ("d".toList, "1.0.0".toList)]
    ∧ satisfies "2.0.0".toList "1.0.0".toList = .ok false
    ∧ ¬OrderedLoad newerHost "d.absplugin".toList {} := by
  refine ⟨_, rfl, rfl, rfl, fun h => ?_⟩
  have hrequired : Required newerHost "d.absplugin".toList "p1.absplugin".toList :=
    .single ⟨_, _, _, rfl, List.mem_cons_self, rfl, rfl⟩
  rcases h.closure _ rfl _ hrequired with ⟨manifest, pre, post, -, hsplit, -⟩
  have hmem : "p1.absplugin".toList ∈ ["p2.absplugin".toList, "d.absplugin".toList] := by
    have hmanifests := congrArg (List.map LoadedPlugin.manifest) hsplit
    rw [List.map_append] at hmanifests
    have hlist : ["p2.absplugin".toList, "d.absplugin".toList] = _ := hmanifests
    rw [hlist]
    exact List.mem_append_right _ List.mem_cons_self
  revert hmem
  decide

end Plugin

end Absolute
