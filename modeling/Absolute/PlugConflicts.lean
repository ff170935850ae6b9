import Absolute.PlugRuns

/-!
# Plugins that conflict

A manifest names the plugins it conflicts with. `LoadManifest` looks for them once,
behind the required dependencies, among the plugins that are loaded then. It does not
look whether one of these names the plugin that is being loaded, nor again behind the
optional dependencies, which may bring in what the manifest names.

Where neither happens (`Peaceable`) no two loaded plugins conflict, whatever was loaded,
unloaded and reloaded (`run_peaceful`).
-/

namespace Absolute

namespace Plugin

open Function Raising Manager Runs

variable {H : Host} {m m' s t u : Manager} {c path : Path} {own : Manifest}
variable {requestedName versionRange : Text} {depth : ℕ} {P Q : LoadedPlugin}
variable {load : Path → Text → Text → LoadM PUnit}

/-- The manifest of `P` names `Q`; a plugin that was loaded by its library has none. -/
def Names (H : Host) (P Q : LoadedPlugin) : Prop :=
  P.manifest ≠ [] ∧ ∃ manifest, H.parseManifest P.manifest = some manifest
    ∧ Q.name ∈ manifest.conflicts

def Peaceful (H : Host) (m : Manager) : Prop :=
  ∀ P ∈ m.loadedPlugins, ∀ Q ∈ m.loadedPlugins, P ≠ Q → ¬Names H P Q

/-- Nothing that is loaded names `P`. -/
def Unnamed (H : Host) (P : LoadedPlugin) (m : Manager) : Prop :=
  ∀ Q ∈ m.loadedPlugins, ¬Names H Q P

theorem Peaceful.append (h : Peaceful H s) (hplugins : t.loadedPlugins = s.loadedPlugins ++ [P])
    (hunnamed : Unnamed H P s) (hnames : ∀ Q ∈ s.loadedPlugins, ¬Names H P Q) : Peaceful H t := by
  intro Q hQ R hR hne
  rw [hplugins, List.mem_append, List.mem_singleton] at hQ hR
  rcases hQ with hQ | rfl <;> rcases hR with hR | rfl
  · exact h Q hQ R hR hne
  · exact hunnamed Q hQ
  · exact hnames R hR
  · exact absurd rfl hne

theorem Peaceful.subset (h : Peaceful H s) (hplugins : t.loadedPlugins ⊆ s.loadedPlugins) :
    Peaceful H t :=
  fun P hP Q hQ => h P (hplugins hP) Q (hplugins hQ)

theorem Peaceful.of_eq (h : Peaceful H s) (hplugins : t.loadedPlugins = s.loadedPlugins) :
    Peaceful H t := h.subset fun _ hP => hplugins ▸ hP

/-! ## The condition -/

/-- The library at a path is loaded, and recorded as `P`. -/
def Records (H : Host) (path : Path) (expectedName version : Text) (manifest : Path)
    (capabilities : List Text) (m : Manager) (P : LoadedPlugin) : Prop :=
  ∃ m', loadDynamicLibrary H path expectedName version manifest capabilities m = .ok ⟨⟩ m'
    ∧ m'.loadedPlugins = m.loadedPlugins ++ [P]

/-- In a load of a manifest the one at `c` is visited in the state `t`, with `d` levels left. -/
inductive VisitedIn (H : Host) (c : Path) (own : Manifest) (d : ℕ) (t : Manager) :
    ℕ → Path → Text → Text → Manager → Prop
  | here {path : Path} {requestedName versionRange : Text}
      (hvisits : Visits H path requestedName versionRange own t)
      (hcanonical : H.canonical path = c) :
      VisitedIn H c own d t (d + 1) path requestedName versionRange t
  | nested {depth : ℕ} {path path' : Path} {requestedName versionRange : Text} {m u : Manager}
      {manifest : Manifest} {dependency : Dependency}
      (hvisits : Visits H path requestedName versionRange manifest m)
      (hcalls : Calls H (loadManifest H depth) (H.canonical path) manifest
        (m.enter (H.canonical path)) dependency path' u)
      (hvisited : VisitedIn H c own d t depth path' dependency.name dependency.version u) :
      VisitedIn H c own d t (depth + 1) path requestedName versionRange m

/-- If the visit gets to record its plugin, nothing loaded then names the plugin, and the
optional dependencies have brought in nothing that the manifest names. -/
def Peaceable (H : Host) (c : Path) (own : Manifest) (d : ℕ) (t : Manager) : Prop :=
  ∀ u sources s P, requireAll H (loadManifest H d) c own (t.enter c) = .ok ⟨⟩ u →
    beforeLibrary H (loadManifest H d) c own (t.enter c) = .ok sources s →
    Records H (libraryPath c own) own.name own.version c own.provides s P →
    Unnamed H P s ∧ ∀ Q ∈ s.loadedPlugins, Q ∉ u.loadedPlugins → Q.name ∉ own.conflicts

/-- All visits of a load are. -/
def VisitsPeaceably (H : Host) (depth : ℕ) (path : Path) (requestedName versionRange : Text)
    (m : Manager) : Prop :=
  ∀ c own d t, VisitedIn H c own d t depth path requestedName versionRange m →
    Peaceable H c own d t

def LoadsPeaceably (H : Host) (path : Path) (m : Manager) : Prop :=
  if isManifest path then VisitsPeaceably H (H.files.length + 1) path [] [] m
  else ∀ P, Records H path [] [] [] [] m P → Unnamed H P m

def StepsPeaceably (H : Host) (m : Manager) : Op → Prop
  | .load path => LoadsPeaceably H path m
  | .unload _ => True
  | .reload path order =>
      match findLoaded H order path m with
      | none => LoadsPeaceably H path m
      | some plugin =>
          LoadsPeaceably H path (if plugin.name = [] then m else state (unload plugin.name m))

theorem VisitsPeaceably.here (h : VisitsPeaceably H (depth + 1) path requestedName versionRange m)
    (hvisits : Visits H path requestedName versionRange own m) :
    Peaceable H (H.canonical path) own depth m :=
  h _ _ _ _ (.here hvisits rfl)

theorem VisitsPeaceably.nested
    (h : VisitsPeaceably H (depth + 1) path requestedName versionRange m)
    (hvisits : Visits H path requestedName versionRange own m) {dependency : Dependency}
    {path' : Path} (hcalls : Calls H (loadManifest H depth) (H.canonical path) own
      (m.enter (H.canonical path)) dependency path' u) :
    VisitsPeaceably H depth path' dependency.name dependency.version u :=
  fun _ _ _ _ hvisited => h _ _ _ _ (.nested hvisits hcalls hvisited)

/-! ## The library -/

theorem SameBut.plugins (h : SameBut m m') : m'.loadedPlugins = m.loadedPlugins := by
  rcases h with ⟨r, -, rfl⟩
  rfl

/-- Of the plugins there is what there was, or one more from its manifest. -/
def MaybeOne (manifest : Path) (m m' : Manager) : Prop :=
  m'.loadedPlugins = m.loadedPlugins
    ∨ ∃ P : LoadedPlugin, P.manifest = manifest ∧ m'.loadedPlugins = m.loadedPlugins ++ [P]

theorem plugins_loadLibrary {library : Library} {path manifest : Path}
    {expectedName version : Text} {capabilities : List Text} (m : Manager) :
    Results (loadLibrary library path expectedName version manifest capabilities) m
      (fun _ m' => MaybeOne manifest m m') fun _ m' => m'.loadedPlugins = m.loadedPlugins := by
  unfold loadLibrary
  refine Results.bind ((results_describePlugin library expectedName path m).mono
    (fun _ _ h => h.1.plugins) fun _ _ h => h.1.plugins) fun name m₁ h₁ => ?_
  refine Results.bind ((results_guarded m₁).mono (fun _ _ h => h.1) fun _ _ h => h.1 ▸ h₁) ?_
  rintro ⟨⟩ m₂ rfl
  refine Results.bind ((results_register (results_registerTables library name m₂.registries)).mono
    (fun _ _ h => h.1.plugins.trans h₁) fun _ _ h => h.1.plugins.trans h₁) ?_
  rintro ⟨⟩ m₃ h₃
  exact .inr ⟨⟨name, version, path, manifest, capabilities⟩, rfl, congrArg (· ++ _) h₃⟩

theorem plugins_loadDynamicLibrary {manifest : Path} {expectedName version : Text}
    {capabilities : List Text} (m : Manager) :
    Results (loadDynamicLibrary H path expectedName version manifest capabilities) m
      (fun _ m' => MaybeOne manifest m m') fun _ m' => m'.loadedPlugins = m.loadedPlugins := by
  unfold Results loadDynamicLibrary
  split
  · rename_i heq
    split at heq
    · cases heq
    split at heq
    · split at heq <;> cases heq
      exact .inl rfl
    split at heq
    · cases heq
    split at heq
    · cases heq
    · exact (plugins_loadLibrary m).of_ok heq
  · rename_i heq
    split at heq
    · cases heq
      rfl
    split at heq
    · split at heq <;> cases heq
      rfl
    split at heq
    · cases heq
      rfl
    split at heq
    · cases heq
      rfl
    · exact (plugins_loadLibrary m).of_error heq

theorem peaceful_loadDynamicLibrary {manifest : Path} {expectedName version : Text}
    {capabilities : List Text} (h : Peaceful H m)
    (hrecords : ∀ P, Records H path expectedName version manifest capabilities m P →
      Unnamed H P m ∧ ∀ Q ∈ m.loadedPlugins, P.manifest = manifest → ¬Names H P Q) :
    Peaceful H
      (state (loadDynamicLibrary H path expectedName version manifest capabilities m)) := by
  have hplugins : Results (loadDynamicLibrary H path expectedName version manifest capabilities) m
    _ _ := plugins_loadDynamicLibrary m
  cases hresult : loadDynamicLibrary H path expectedName version manifest capabilities m with
  | error e m' => exact h.of_eq (hplugins.of_error hresult)
  | ok a m' =>
      rcases hplugins.of_ok hresult with hsame | ⟨P, hmanifest, hone⟩
      · exact h.of_eq hsame
      · rcases hrecords P ⟨m', hresult, hone⟩ with ⟨hunnamed, hnames⟩
        exact h.append hone hunnamed fun Q hQ => hnames Q hQ hmanifest

/-! ## A visit -/

theorem results_of_state {ε σ α : Type} {I : σ → Prop} {x : EStateM ε σ α} {s : σ}
    (h : I (state (x s))) : Results x s (fun _ t => I t) fun _ t => I t := by
  unfold Results
  cases hx : x s <;> rw [hx] at h <;> exact h

theorem state_of_results {ε σ α : Type} {I : σ → Prop} {x : EStateM ε σ α} {s : σ}
    (h : Results x s (fun _ t => I t) fun _ t => I t) : I (state (x s)) := by
  unfold Results at h
  cases hx : x s <;> rw [hx] at h <;> exact h

/-- The dependencies of a manifest, loaded one after the other from peaceful states. -/
theorem peaceful_dependencies {dependencies : List Dependency} {x : Dependency → LoadM PUnit}
    (hm : Peaceful H m)
    (hstep : ∀ done d rest, dependencies = done ++ d :: rest → ∀ t, done.forM x m = .ok ⟨⟩ t →
      Peaceful H t → Peaceful H (state (x d t))) :
    Results (dependencies.forM x) m (fun _ t => Peaceful H t) fun _ t => Peaceful H t := by
  have hturns := Results.forM (I := Peaceful H) (D := fun _ _ => True)
    (fun done d rest hsplit t hdone ht =>
      (results_of_state (hstep done d rest hsplit t hdone ht)).mono
        (fun _ _ h => ⟨h, trivial, fun _ _ _ => trivial⟩) fun _ _ h => h) hm
  exact hturns.mono (fun _ _ h => h.1) fun _ _ h => h

theorem peaceful_required (hm : Peaceful H m)
    (hcalls : ∀ d path t, Calls H load c own m d path t → Peaceful H t →
      Peaceful H (state (load path d.name d.version t))) :
    Results (requireAll H load c own) m
      (fun _ t => Peaceful H t ∧ conflictFault own t = none) fun _ t => Peaceful H t := by
  unfold requireAll
  refine (peaceful_dependencies hm fun done d rest hsplit t hdone ht => ?_).bind ?_
  · unfold loadDependency
    cases hpath : resolveDependency H c d with
    | none => exact ht
    | some path' =>
        dsimp only
        rw [state_liftError]
        exact hcalls d path' t (.required hsplit hdone hpath) ht
  · rintro ⟨⟩ t ht
    refine (results_guarded t).mono ?_ ?_
    · rintro _ _ ⟨rfl, hfault⟩
      exact ⟨ht, hfault⟩
    · rintro _ _ ⟨rfl, -⟩
      exact ht

/-- Up to the library a visit keeps the peace, and has looked for what it names. -/
theorem peaceful_beforeLibrary (hm : Peaceful H m)
    (hcalls : ∀ d path t, Calls H load c own m d path t → Peaceful H t →
      Peaceful H (state (load path d.name d.version t))) :
    Results (beforeLibrary H load c own) m
      (fun _ s => Peaceful H s ∧ ∃ u, requireAll H load c own m = .ok ⟨⟩ u
        ∧ conflictFault own u = none) fun _ s => Peaceful H s := by
  unfold beforeLibrary
  refine Results.bind_ok (peaceful_required hm hcalls) ?_
  rintro ⟨⟩ u hrequired ⟨hu, hfault⟩
  refine Results.bind (Q := fun _ t => Peaceful H t) (peaceful_dependencies hu
    fun done d rest hsplit t hdone ht => ?_) ?_
  · unfold loadOptional
    cases hpath : resolveDependency H c d with
    | none => exact ht
    | some path' =>
        by_cases hfile : H.fileExists path' = true
        · dsimp only
          rw [if_pos hfile, state_swallow]
          exact hcalls d path' t (.optional hrequired hsplit hdone hpath hfile) ht
        · dsimp only
          rw [if_neg hfile]
          exact ht
  · rintro ⟨⟩ t ht
    refine Results.bind ((results_guarded t).mono (fun _ _ h => h.1) fun _ _ h => h.1 ▸ ht) ?_
    rintro ⟨⟩ t' rfl
    cases preludeSources H c own.name [] own.preludes with
    | ok sources => exact ⟨ht, u, hrequired, hfault⟩
    | error e => exact ht

theorem Visits.parse (h : Visits H path requestedName versionRange own m) :
    H.parseManifest (H.canonical path) = some own := by
  have hread := h.read
  unfold readManifest at hread
  split at hread
  · cases hread
  · rename_i manifest hparse
    split at hread
    · cases hread
    split at hread
    · cases hread
    · cases hread
    · cases hread
      exact hparse

theorem not_loaded_of_conflictFault (h : conflictFault own u = none) :
    ∀ Q ∈ u.loadedPlugins, Q.name ∉ own.conflicts := by
  intro Q hQ hconflict
  have hnone := List.find?_eq_none.mp (Option.map_eq_none_iff.mp h) Q.name hconflict
  refine hnone (Option.isSome_iff_ne_none.mpr fun hfind => ?_)
  exact List.find?_eq_none.mp hfind Q hQ (decide_eq_true rfl)

/-- The step: a visit that is peaceable, and calls what keeps the peace, keeps it. -/
theorem peaceful_visitBody (hm : Peaceful H (m.enter c)) (hparse : H.parseManifest c = some own)
    (hpeaceable : Peaceable H c own depth m)
    (hcalls : ∀ d path t, Calls H (loadManifest H depth) c own (m.enter c) d path t →
      Peaceful H t → Peaceful H (state (loadManifest H depth path d.name d.version t))) :
    Peaceful H (state (visitBody H (loadManifest H depth) c own (m.enter c))) := by
  rw [visitBody_eq]
  refine state_of_results (Results.bind_ok (peaceful_beforeLibrary hm hcalls) ?_)
  rintro sources s hbefore ⟨hs, u, hrequired, hfault⟩
  unfold loadOwn
  refine results_of_state (Keeps.after (fun _ => .forM fun source _ => ?_) ?_)
  · intro m hm
    unfold registerManifestPrelude
    rw [state_liftError]
    unfold onPart
    split <;> exact hm
  · refine peaceful_loadDynamicLibrary hs fun P hrecords => ?_
    rcases hpeaceable u sources s P hrequired hbefore hrecords with ⟨hunnamed, hspared⟩
    refine ⟨hunnamed, fun Q hQ hmanifest hnames => ?_⟩
    rcases hnames with ⟨-, manifest, hparse', hconflict⟩
    rw [hmanifest, hparse] at hparse'
    cases hparse'
    by_cases hQu : Q ∈ u.loadedPlugins
    · exact not_loaded_of_conflictFault hfault Q hQu hconflict
    · exact hspared Q hQ hQu hconflict

/-- A manifest that is not visited leaves everything as it was. -/
theorem state_of_not_visited (h : ¬∃ own, Visits H path requestedName versionRange own m) :
    state (loadManifest H (depth + 1) path requestedName versionRange m) = m := by
  unfold loadManifest
  split
  · rfl
  rename_i hfile
  split
  · rfl
  · rfl
  · rfl
  rename_i own hstate hread
  split
  · rfl
  rename_i habi
  split
  · split
    · rfl
    · split <;> rfl
  · rename_i hnew
    exact absurd ⟨own, by simpa using hfile, hstate, hread, not_not.mp habi, hnew⟩ h

/-- By induction on the levels: a load whose visits are peaceable keeps the peace. -/
theorem peaceful_loadManifest (hm : Peaceful H m)
    (hvisits : VisitsPeaceably H depth path requestedName versionRange m) :
    Peaceful H (state (loadManifest H depth path requestedName versionRange m)) := by
  induction depth generalizing path requestedName versionRange m with
  | zero => exact hm
  | succ depth ih =>
      by_cases hvisited : ∃ own, Visits H path requestedName versionRange own m
      · rcases hvisited with ⟨own, hown⟩
        rw [hown.loadManifest_eq]
        refine Peaceful.of_eq ?_ state_visitManifest
        exact peaceful_visitBody hm hown.parse (hvisits.here hown) fun d path' t hcall ht =>
          ih ht (hvisits.nested hown hcall)
      · rw [state_of_not_visited hvisited]
        exact hm

/-! ## Runs -/

/-- An operation, also one that throws. -/
def Steps (H : Host) (m : Manager) (op : Op) (m' : Manager) : Prop := m' = state (op.run H m)

theorem peaceful_load (hm : Peaceful H m) (hloads : LoadsPeaceably H path m) :
    Peaceful H (state (Plugin.load H path m)) := by
  unfold LoadsPeaceably at hloads
  unfold Plugin.load
  split at hloads
  · rename_i hmanifest
    rw [if_pos hmanifest]
    exact peaceful_loadManifest hm hloads
  · rename_i hlibrary
    rw [if_neg hlibrary]
    exact peaceful_loadDynamicLibrary hm fun P hrecords =>
      ⟨hloads P hrecords, fun Q _ hmanifest hnames => hnames.1 hmanifest⟩

theorem peaceful_unload (hm : Peaceful H m) (name : Text) :
    Peaceful H (state (unload name m)) := by
  unfold unload
  split
  · exact hm
  · exact hm.subset fun _ hP => List.mem_of_mem_filter hP

theorem peaceful_step {op : Op} (hm : Peaceful H m) (hpeaceably : StepsPeaceably H m op) :
    Peaceful H (state (op.run H m)) := by
  cases op with
  | load path => exact peaceful_load hm hpeaceably
  | unload name => exact peaceful_unload hm name
  | reload path order =>
      change Peaceful H (state (reload H order path m))
      unfold StepsPeaceably at hpeaceably
      dsimp only at hpeaceably
      unfold reload
      cases hfind : findLoaded H order path m with
      | none =>
          rw [hfind] at hpeaceably
          exact peaceful_load hm hpeaceably
      | some plugin =>
          rw [hfind] at hpeaceably
          dsimp only at hpeaceably ⊢
          by_cases hname : plugin.name = []
          · rw [if_pos hname] at hpeaceably
            rw [if_pos hname]
            exact peaceful_load hm hpeaceably
          · rw [if_neg hname] at hpeaceably
            rw [if_neg hname]
            have hunloaded := peaceful_unload hm plugin.name (H := H)
            cases hunload : unload plugin.name m with
            | error e t =>
                have hthrows : (unload plugin.name >>= fun _ => Plugin.load H path) m
                    = .error e t := bind_eq_error.mpr (.inl hunload)
                rw [hthrows]
                rwa [hunload] at hunloaded
            | ok a t =>
                rw [hunload] at hunloaded hpeaceably
                rw [bind_of_ok hunload]
                exact peaceful_load hunloaded hpeaceably

/-- In a run whose steps are peaceable no two plugins that are loaded conflict. -/
theorem run_peaceful (H : Host) (start m : Manager) (past : List Op)
    (hstart : start.loadedPlugins = [])
    (hrun : RunUnder (Steps H) (StepsPeaceably H) start past m) : Peaceful H m := by
  refine hrun.invariant (P := fun _ m => Peaceful H m) ?_ ?_
  · intro P hP
    rw [hstart] at hP
    cases hP
  · rintro _ s op _ _ hs hpeaceably rfl
    exact peaceful_step hs hpeaceably

/-! ## One of two plugins names the other -/

def namingManifest : Manifest where
  name := "a".toList
  version := "1.0.0".toList
  abi := 1
  library := "a.so".toList
  conflicts := ["b".toList]
  named := by decide

def namedManifest : Manifest where
  name := "b".toList
  version := "1.0.0".toList
  abi := 1
  library := "b.so".toList
  named := by decide

def namingHost : Host :=
  manifestHost ["a.so".toList, "b.so".toList]
    [("a.absplugin".toList, namingManifest), ("b.absplugin".toList, namedManifest)]

/-- Without dependencies a manifest is the only one that is visited. -/
theorem visited_here {d : ℕ} (manifest : Manifest)
    (hparse : H.parseManifest (H.canonical path) = some manifest)
    (hrequired : manifest.dependencies = []) (hoptional : manifest.optionalDependencies = [])
    (h : VisitedIn H c own d t depth path requestedName versionRange m) :
    t = m ∧ H.canonical path = c ∧ own = manifest := by
  cases h with
  | here hvisits hcanonical =>
      exact ⟨rfl, hcanonical, Option.some.inj (hvisits.parse.symm.trans hparse)⟩
  | nested hvisits hcalls hvisited =>
      obtain rfl := Option.some.inj (hvisits.parse.symm.trans hparse)
      cases hcalls with
      | required hsplit =>
          rw [hrequired] at hsplit
          exact absurd hsplit.symm (by simp)
      | optional _ hsplit =>
          rw [hoptional] at hsplit
          exact absurd hsplit.symm (by simp)

/-- With `b` loaded `a` is refused. -/
theorem naming_refused : ∃ m, RunUnder (Steps namingHost) (StepsPeaceably namingHost) {}
      [.load "a.absplugin".toList, .load "b.absplugin".toList] m
    ∧ m.loadedPlugins.map (·.name) = ["b".toList] ∧ Peaceful namingHost m := by
  have hb : StepsPeaceably namingHost {} (.load "b.absplugin".toList) := by
    intro c own d t hvisited u sources s P hrequired hbefore hrecords
    obtain ⟨rfl, rfl, rfl⟩ := visited_here namedManifest rfl rfl rfl hvisited
    cases hbefore
    exact ⟨(fun Q hQ => by cases hQ), fun Q hQ => by cases hQ⟩
  have ha : StepsPeaceably namingHost (state (load namingHost "b.absplugin".toList {}))
      (.load "a.absplugin".toList) := by
    intro c own d t hvisited u sources s P hrequired
    obtain ⟨rfl, rfl, rfl⟩ := visited_here namingManifest rfl rfl rfl hvisited
    cases hrequired
  have hrun : RunUnder (Steps namingHost) (StepsPeaceably namingHost) {}
      [.load "a.absplugin".toList, .load "b.absplugin".toList]
      (state (load namingHost "a.absplugin".toList
        (state (load namingHost "b.absplugin".toList {})))) := .cons (.cons .nil hb rfl) ha rfl
  exact ⟨_, hrun, rfl, run_peaceful namingHost {} _ _ rfl hrun⟩

/-- With `a` loaded `b` is not: its manifest does not name `a`. -/
theorem named_not_refused : ∃ m, Run (Succeeds namingHost) {}
      [.load "b.absplugin".toList, .load "a.absplugin".toList] m ∧ ¬Peaceful namingHost m := by
  refine ⟨_, .cons (.cons .nil ⟨rfl, rfl⟩) ⟨rfl, rfl⟩, fun h => ?_⟩
  refine h (entry namingHost "a.absplugin".toList namingManifest) List.mem_cons_self
    (entry namingHost "b.absplugin".toList namedManifest)
    (List.mem_cons_of_mem _ List.mem_cons_self) (by decide) ⟨by decide, _, rfl, List.mem_cons_self⟩

end Plugin

end Absolute
