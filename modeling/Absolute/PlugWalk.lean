import Absolute.PlugTurns

/-!
# The walk of a load

What a load of a manifest brings (`Brings`) and what it leaves where it throws
(`Fails`), for one visit over any load of the dependencies, and from that for
`LoadManifest` by induction on its depth. A cycle is thrown only where one of
required dependencies can be reached, or the stack.
-/

namespace Absolute

namespace Plugin

open Function Raising Relation Manager

/-! ## What is brought, and what is thrown -/

/-- One of the plugins is what was asked for at `c`. -/
def Accepted (c : Path) (requestedName versionRange : Text) (plugins : List LoadedPlugin) : Prop :=
  ∃ P ∈ plugins, P.manifest = c ∧ (requestedName = [] ∨ P.name = requestedName)
    ∧ satisfies P.version versionRange = .ok true

/-- By required dependencies the stack can be reached, or a cycle. -/
def CycleAt (H : Host) (stack : List Path) (c : Path) : Prop :=
  (∃ x ∈ stack, ReflTransGen (Requires H) c x)
    ∨ ∃ x, ReflTransGen (Requires H) c x ∧ TransGen (Requires H) x x

structure Brings (H : Host) (S : Path → Prop) (c : Path) (requestedName versionRange : Text)
    (m m' : Manager) : Prop where
  good : Good H S m'
  grew : Grew (ReflTransGen (Depends H) c) m m'
  accepted : S c → Accepted c requestedName versionRange m'.loadedPlugins

structure Fails (H : Host) (S R : Path → Prop) (stack : List Path) (c : Path) (m : Manager)
    (e : LoadError) (m' : Manager) : Prop where
  good : Good H S m'
  grew : Grew R m m'
  bounded : e.cause ≠ .tooDeep
  cycle : e.IsCycle → CycleAt H stack c

/-- What loads under a stack of manifests that are being visited, where that is allowed. -/
def Loads (H : Host) (S : Path → Prop) (stack : List Path)
    (allowed : Path → Text → Text → Manager → Prop) (load : Path → Text → Text → LoadM PUnit) :
    Prop :=
  ∀ path requestedName versionRange m, allowed path requestedName versionRange m →
    Good H S m → m.manifestStack = stack →
    Results (load path requestedName versionRange) m
      (fun _ m' => Brings H S (H.canonical path) requestedName versionRange m m')
      fun e m' => Fails H S (ReflTransGen (Depends H) (H.canonical path)) stack (H.canonical path)
        m e m'

variable {H : Host} {S R R' : Path → Prop} {m m' m'' : Manager} {c c' : Path} {stack : List Path}
variable {manifest : Manifest} {requestedName versionRange : Text} {e : LoadError}
variable {load : Path → Text → Text → LoadM PUnit} {allowed : Path → Text → Text → Manager → Prop}

theorem Requires.depends (h : Requires H c c') : Depends H c c' := by
  rcases h with ⟨manifest, d, p, hparse, hd, hp, rfl⟩
  exact ⟨manifest, d, p, hparse, .inl hd, hp, rfl⟩

theorem fails_of_isPlain (hplain : e.isPlain = true) (hgood : Good H S m') (hgrew : Grew R m m') :
    Fails H S R stack c m e m' :=
  ⟨hgood, hgrew, (LoadError.cause_of_isPlain hplain).1,
    fun hcycle => absurd hcycle (LoadError.cause_of_isPlain hplain).2⟩

theorem Fails.after (h : Fails H S R stack c m' e m'') (hgrew : Grew R m m') :
    Fails H S R stack c m e m'' :=
  { h with grew := hgrew.trans h.grew }

/-- A cycle at what is required, with the one that requires it on the stack. -/
theorem CycleAt.of_requires (hrequires : Requires H c c') (h : CycleAt H (c :: stack) c') :
    CycleAt H stack c := by
  rcases h with ⟨x, hx, hreach⟩ | ⟨x, hreach, hround⟩
  · rcases List.mem_cons.mp hx with rfl | hx
    · exact .inr ⟨x, .refl, .head' hrequires hreach⟩
    · exact .inl ⟨x, hx, .head hrequires hreach⟩
  · exact .inr ⟨x, .head hrequires hreach, hround⟩

theorem readManifest_eq_ok (h : readManifest H c requestedName versionRange = .ok manifest) :
    H.parseManifest c = some manifest ∧ (requestedName = [] ∨ manifest.name = requestedName)
      ∧ satisfies manifest.version versionRange = .ok true := by
  unfold readManifest at h
  split at h
  · cases h
  rename_i parsed hparse
  split at h
  · cases h
  rename_i hname
  split at h <;> cases h
  rename_i hsatisfies
  rw [not_and_or, not_not, not_not] at hname
  exact ⟨hparse, hname, hsatisfies⟩

theorem readManifest_isPlain (h : readManifest H c requestedName versionRange = .error e) :
    e.isPlain = true := by
  unfold readManifest at h
  split at h
  · cases h
    rfl
  split at h
  · cases h
    rfl
  split at h <;> cases h <;> rfl

theorem accepted_of_mem {plugins : List LoadedPlugin}
    (hread : readManifest H c requestedName versionRange = .ok manifest)
    (hmem : entry H c manifest ∈ plugins) : Accepted c requestedName versionRange plugins := by
  rcases readManifest_eq_ok hread with ⟨-, hname, hversion⟩
  exact ⟨entry H c manifest, hmem, rfl, hname, hversion⟩

/-! ## Dependencies -/

theorem results_liftError {α : Type} {ε ε' σ : Type} {f : ε → ε'} {x : EStateM ε σ α} {s : σ}
    {Q : α → σ → Prop} {E : ε' → σ → Prop} (h : Results x s Q fun e t => E (f e) t) :
    Results (liftError f x) s Q E := by
  unfold Results liftError at *
  cases hx : x s with
  | ok a t =>
      rw [hx] at h
      exact h
  | error e t =>
      rw [hx] at h
      exact h

theorem results_swallow {α : Type} {ε σ : Type} {x : EStateM ε σ α} {s : σ} {Q : σ → Prop}
    {E : ε → σ → Prop} (h : Results x s (fun _ t => Q t) fun _ t => Q t) :
    Results (swallow x) s (fun _ t => Q t) E := by
  unfold Results swallow at *
  cases hx : x s with
  | ok a t =>
      rw [hx] at h
      exact h
  | error e t =>
      rw [hx] at h
      exact h

theorem results_loadDependency (hload : Loads H S (c :: stack) allowed load)
    (hclosed : ∀ c c', S c → Requires H c c' → S c') (hparse : H.parseManifest c = some manifest)
    {d : Dependency} (hd : d ∈ manifest.dependencies)
    (hallowed : ∀ path, resolveDependency H c d = some path → allowed path d.name d.version m)
    (hgood : Good H S m) (hstack : m.manifestStack = c :: stack) :
    Results (loadDependency H load c manifest d) m
      (fun _ m' => Good H S m' ∧ Grew (TransGen (Depends H) c) m m'
        ∧ (S c → Met H c d m'.loadedPlugins))
      fun e m' => Fails H S (TransGen (Depends H) c) stack c m e m' := by
  unfold loadDependency
  split
  · exact fails_of_isPlain rfl hgood (.refl _ _)
  · rename_i path hpath
    have hrequires : Requires H c (H.canonical path) := ⟨manifest, d, path, hparse, hd, hpath, rfl⟩
    have hreach : ∀ x, ReflTransGen (Depends H) (H.canonical path) x → TransGen (Depends H) c x :=
      fun x hx => .head' hrequires.depends hx
    have hresults := hload path d.name d.version m (hallowed path hpath) hgood hstack
    refine results_liftError (hresults.mono ?_ ?_)
    · intro _ m' hbrings
      refine ⟨hbrings.good, hbrings.grew.mono hreach, fun hS => ?_⟩
      rcases hbrings.accepted (hclosed c _ hS hrequires) with ⟨P, hP, hmanifest, hname, hversion⟩
      exact ⟨path, hpath, P, hP, hmanifest, hname.resolve_left d.named, hversion⟩
    · intro e m' hfails
      exact ⟨hfails.good, hfails.grew.mono hreach, hfails.bounded,
        fun hcycle => (hfails.cycle hcycle).of_requires hrequires⟩

theorem results_loadOptional (hload : Loads H S (c :: stack) allowed load)
    (hparse : H.parseManifest c = some manifest) {d : Dependency}
    (hd : d ∈ manifest.optionalDependencies)
    (hallowed : ∀ path, resolveDependency H c d = some path → H.fileExists path = true →
      allowed path d.name d.version m)
    (hgood : Good H S m) (hstack : m.manifestStack = c :: stack)
    {E : LoadError → Manager → Prop} :
    Results (loadOptional H load c d) m
      (fun _ m' => Good H S m' ∧ Grew (TransGen (Depends H) c) m m') E := by
  unfold loadOptional
  split
  · exact ⟨hgood, .refl _ _⟩
  · rename_i path hpath
    split
    · rename_i hfile
      have hdepends : Depends H c (H.canonical path) :=
        ⟨manifest, d, path, hparse, .inr hd, hpath, rfl⟩
      have hreach : ∀ x, ReflTransGen (Depends H) (H.canonical path) x →
          TransGen (Depends H) c x := fun x hx => .head' hdepends hx
      have hresults := hload path d.name d.version m (hallowed path hpath hfile) hgood hstack
      refine results_swallow (hresults.mono ?_ ?_)
      · exact fun _ m' hbrings => ⟨hbrings.good, hbrings.grew.mono hreach⟩
      · exact fun _ m' hfails => ⟨hfails.good, hfails.grew.mono hreach⟩
    · exact ⟨hgood, .refl _ _⟩

/-- Required dependencies in their order, all of them or the first ones. -/
theorem results_dependencies (hload : Loads H S (c :: stack) allowed load)
    (hclosed : ∀ c c', S c → Requires H c c' → S c') (hparse : H.parseManifest c = some manifest)
    {l : List Dependency} (hl : ∀ d ∈ l, d ∈ manifest.dependencies)
    (hallowed : ∀ done d rest t path, l = done ++ d :: rest →
      done.forM (loadDependency H load c manifest) m = .ok ⟨⟩ t →
      resolveDependency H c d = some path → allowed path d.name d.version t)
    (hgood : Good H S m) (hstack : m.manifestStack = c :: stack) :
    Results (l.forM (loadDependency H load c manifest)) m
      (fun _ m' => (Good H S m' ∧ Grew (TransGen (Depends H) c) m m')
        ∧ ∀ d ∈ l, S c → Met H c d m'.loadedPlugins)
      fun e m' => Fails H S (TransGen (Depends H) c) stack c m e m' := by
  refine Results.forM (I := fun t => Good H S t ∧ Grew (TransGen (Depends H) c) m t)
    (D := fun d t => S c → Met H c d t.loadedPlugins) ?_ ⟨hgood, .refl _ _⟩
  rintro done d rest hsplit t hdone ⟨ht, hgrew⟩
  have hd : d ∈ manifest.dependencies :=
    hl d (hsplit ▸ List.mem_append_right _ List.mem_cons_self)
  have hturn := results_loadDependency hload hclosed hparse hd
    (fun path => hallowed done d rest t path hsplit hdone) ht (hgrew.stack.trans hstack)
  refine hturn.mono ?_ fun e m' hfails => hfails.after hgrew
  rintro ⟨⟩ t' ⟨ht', hgrew', hmet⟩
  exact ⟨⟨ht', hgrew.trans hgrew'⟩, hmet, fun d' _ hold hS => (hold hS).grew hgrew'⟩

theorem results_optionalDependencies (hload : Loads H S (c :: stack) allowed load)
    (hparse : H.parseManifest c = some manifest) {l : List Dependency}
    (hl : ∀ d ∈ l, d ∈ manifest.optionalDependencies)
    (hallowed : ∀ done d rest t path, l = done ++ d :: rest →
      done.forM (loadOptional H load c) m = .ok ⟨⟩ t → resolveDependency H c d = some path →
      H.fileExists path = true → allowed path d.name d.version t)
    (hgood : Good H S m) (hstack : m.manifestStack = c :: stack)
    {E : LoadError → Manager → Prop} :
    Results (l.forM (loadOptional H load c)) m
      (fun _ m' => Good H S m' ∧ Grew (TransGen (Depends H) c) m m') E := by
  refine (Results.forM (I := fun t => Good H S t ∧ Grew (TransGen (Depends H) c) m t)
    (D := fun _ _ => True) ?_ ⟨hgood, .refl _ _⟩).mono (fun _ _ h => h.1) fun _ _ h => h
  rintro done d rest hsplit t hdone ⟨ht, hgrew⟩
  have hd : d ∈ manifest.optionalDependencies :=
    hl d (hsplit ▸ List.mem_append_right _ List.mem_cons_self)
  have hturn := results_loadOptional hload hparse hd
    (fun path => hallowed done d rest t path hsplit hdone) ht (hgrew.stack.trans hstack) (E := E)
  refine hturn.mono ?_ fun _ _ h => h
  rintro ⟨⟩ t' ⟨ht', hgrew'⟩
  exact ⟨⟨ht', hgrew.trans hgrew'⟩, trivial, fun _ _ h => h⟩

/-! ## A visit -/

/-- What a visit of the manifest at `c` ends with. -/
structure Visited (H : Host) (S : Path → Prop) (c : Path) (manifest : Manifest) (m m' : Manager) :
    Prop where
  good : Good H S (m'.finish c)
  grew : Grew (ReflTransGen (Depends H) c) m m'
  recorded : S c → entry H c manifest ∈ m'.loadedPlugins

theorem SameBut.finish (h : SameBut m m') (c : Path) : SameBut (m.finish c) (m'.finish c) := by
  rcases h with ⟨r, hr, rfl⟩
  exact ⟨r, hr, rfl⟩

theorem Visited.sameBut (h : Visited H S c manifest m m') (hsame : SameBut m' m'') :
    Visited H S c manifest m m'' := by
  refine ⟨h.good.sameBut (hsame.finish c), h.grew.sameBut hsame, ?_⟩
  rcases hsame with ⟨r, -, rfl⟩
  exact h.recorded

theorem Visited.after (h : Visited H S c manifest m' m'')
    (hgrew : Grew (ReflTransGen (Depends H) c) m m') : Visited H S c manifest m m'' :=
  { h with grew := hgrew.trans h.grew }

theorem results_library (hgood : Good H S m) (hstack : m.manifestStack = c :: stack)
    (hparse : H.parseManifest c = some manifest)
    (hmet : ∀ d ∈ manifest.dependencies, S c → Met H c d m.loadedPlugins)
    (hturn : S c → ¬PassedOver H c manifest m) :
    Results (loadDynamicLibrary H (libraryPath c manifest) manifest.name manifest.version c
        manifest.provides) m
      (fun _ m' => Visited H S c manifest m m')
      fun e m' => SameBut m m' ∧ e.isPlain = true := by
  refine (results_loadDynamicLibrary manifest.named m).mono ?_ fun _ _ h => h
  rintro ⟨⟩ m' (⟨rfl, hloaded⟩ | ⟨library, hlibrary, hadmitted, m₁, hsame, hregistered, rfl⟩)
  · have hS : ¬S c := fun hS => hturn hS hloaded
    exact ⟨hgood.finish hstack hS, .refl _ _, fun h => absurd h hS⟩
  · have hgood₁ := hgood.sameBut hsame
    rcases hsame with ⟨r, -, rfl⟩
    have hrecorded := hgood₁.recorded hstack hparse (fun hS d hd => hmet d hd hS)
      ⟨hadmitted.named, hadmitted.new, hadmitted.free⟩ hlibrary hregistered
    refine ⟨hrecorded, ⟨rfl, fun _ => .inl, [entry H c manifest], rfl, ?_⟩, fun _ => ?_⟩
    · intro P hP
      rw [List.mem_singleton.mp hP]
      exact .refl
    · exact List.mem_append_right _ (List.mem_singleton_self _)

/-- A prelude of a manifest is never refused. -/
theorem results_preludes {name : Text} {sources : List (Path × Text)}
    {E : LoadError → Manager → Prop} (m : Manager) :
    Results (sources.forM (registerManifestPrelude name)) m (fun _ m' => SameBut m m') E := by
  refine (Results.forM (I := SameBut m) (D := fun _ _ => True) ?_ (.refl m)).mono
    (fun _ _ h => h.1) fun _ _ h => h
  intro _ source _ _ t _ ht
  exact ⟨ht.trans ⟨_, .of_le (le_addPrelude _ _ _), rfl⟩, trivial, fun _ _ h => h⟩

theorem conflictFault_isPlain (h : conflictFault manifest m = some e) : e.isPlain = true := by
  rcases Option.map_eq_some_iff.mp h with ⟨conflict, -, rfl⟩
  rfl

theorem capabilityFault_isPlain (h : capabilityFault manifest m = some e) : e.isPlain = true := by
  rcases Option.map_eq_some_iff.mp h with ⟨capability, -, rfl⟩
  rfl

theorem preludeSources_isPlain {name : Text} {seen preludes : List Path}
    (h : preludeSources H c name seen preludes = .error e) : e.isPlain = true := by
  induction preludes generalizing seen with
  | nil => cases h
  | cons configured rest ih =>
      unfold preludeSources at h
      dsimp only at h
      split at h
      · cases h
        rfl
      split at h
      · cases h
        rfl
      split at h
      · exact ih h
      split at h
      · cases h
        rfl
      · cases hrest : preludeSources H c name (H.canonical (Package.Path.join (parentPath c)
            configured) :: seen) rest with
        | ok sources =>
            rw [hrest] at h
            cases h
        | error e' =>
            rw [hrest] at h
            cases h
            exact ih hrest

theorem results_fromExcept {ε σ α : Type} (x : Except ε α) (s : σ) :
    Results (fromExcept x) s (fun _ t => t = s) fun e t => t = s ∧ x = .error e := by
  cases x with
  | ok a => exact rfl
  | error e => exact ⟨rfl, rfl⟩

theorem results_requireAll (hload : Loads H S (c :: stack) allowed load)
    (hclosed : ∀ c c', S c → Requires H c c' → S c') (hparse : H.parseManifest c = some manifest)
    (hcalls : ∀ d path t, Calls H load c manifest m d path t → allowed path d.name d.version t)
    (hgood : Good H S m) (hstack : m.manifestStack = c :: stack) :
    Results (requireAll H load c manifest) m
      (fun _ m' => (Good H S m' ∧ Grew (TransGen (Depends H) c) m m')
        ∧ ∀ d ∈ manifest.dependencies, S c → Met H c d m'.loadedPlugins)
      fun e m' => Fails H S (TransGen (Depends H) c) stack c m e m' := by
  unfold requireAll
  refine Results.bind (results_dependencies hload hclosed hparse (fun _ => id)
    (fun done d rest t path hsplit hdone hpath => hcalls d path t (.required hsplit hdone hpath))
    hgood hstack) ?_
  rintro ⟨⟩ m₁ ⟨⟨hgood₁, hgrew₁⟩, hmet₁⟩
  refine (results_guarded m₁).mono ?_ fun e m' h => ?_
  · rintro ⟨⟩ m₂ ⟨rfl, -⟩
    exact ⟨⟨hgood₁, hgrew₁⟩, hmet₁⟩
  · rw [h.1]
    exact fails_of_isPlain (conflictFault_isPlain h.2) hgood₁ hgrew₁

theorem results_beforeLibrary (hload : Loads H S (c :: stack) allowed load)
    (hclosed : ∀ c c', S c → Requires H c c' → S c') (hparse : H.parseManifest c = some manifest)
    (hcalls : ∀ d path t, Calls H load c manifest m d path t → allowed path d.name d.version t)
    (hgood : Good H S m) (hstack : m.manifestStack = c :: stack) :
    Results (beforeLibrary H load c manifest) m
      (fun _ m' => (Good H S m' ∧ Grew (TransGen (Depends H) c) m m')
        ∧ ∀ d ∈ manifest.dependencies, S c → Met H c d m'.loadedPlugins)
      fun e m' => Fails H S (TransGen (Depends H) c) stack c m e m' := by
  unfold beforeLibrary
  refine Results.bind_ok (results_requireAll hload hclosed hparse hcalls hgood hstack) ?_
  rintro ⟨⟩ m₁ hrequired ⟨⟨hgood₁, hgrew₁⟩, hmet₁⟩
  refine Results.bind (results_optionalDependencies hload hparse (fun _ => id)
    (fun done d rest t path hsplit hdone hpath hfile =>
      hcalls d path t (.optional hrequired hsplit hdone hpath hfile))
    hgood₁ (hgrew₁.stack.trans hstack)) ?_
  rintro ⟨⟩ m₂ ⟨hgood₂, hgrew₂⟩
  have hgrew := hgrew₁.trans hgrew₂
  refine Results.bind ((results_guarded m₂).mono (fun _ m' h => h) fun e m' h => ?_) ?_
  · rw [h.1]
    exact fails_of_isPlain (capabilityFault_isPlain h.2) hgood₂ hgrew
  rintro ⟨⟩ m₃ ⟨rfl, -⟩
  refine (results_fromExcept _ m₃).mono ?_ fun e m' h => ?_
  · rintro sources m₄ rfl
    exact ⟨⟨hgood₂, hgrew⟩, fun d hd hS => (hmet₁ d hd hS).grew hgrew₂⟩
  · rw [h.1]
    exact fails_of_isPlain (preludeSources_isPlain h.2) hgood₂ hgrew

theorem results_visitBody (hload : Loads H S (c :: stack) allowed load)
    (hclosed : ∀ c c', S c → Requires H c c' → S c') (hparse : H.parseManifest c = some manifest)
    (hcalls : ∀ d path t, Calls H load c manifest m d path t → allowed path d.name d.version t)
    (hturn : ∀ sources s, S c → beforeLibrary H load c manifest m = .ok sources s →
      ¬PassedOver H c manifest s)
    (hgood : Good H S m) (hstack : m.manifestStack = c :: stack) :
    Results (visitBody H load c manifest) m (fun _ m' => Visited H S c manifest m m')
      fun e m' => Fails H S (ReflTransGen (Depends H) c) stack c m e m' := by
  have hreach : ∀ x, TransGen (Depends H) c x → ReflTransGen (Depends H) c x :=
    fun _ hx => hx.to_reflTransGen
  rw [visitBody_eq]
  have hbefore := results_beforeLibrary hload hclosed hparse hcalls hgood hstack
  refine Results.bind_ok (hbefore.mono (fun _ _ h => h) fun e m' h =>
    { h with grew := h.grew.mono hreach }) ?_
  rintro sources m₁ hsources ⟨⟨hgood₁, hgrew₁⟩, hmet₁⟩
  unfold loadOwn
  refine Results.bind ((results_library hgood₁ (hgrew₁.stack.trans hstack) hparse hmet₁
    fun hS => hturn sources m₁ hS hsources).mono (fun _ m' h => h) fun e m' h => ?_) ?_
  · exact fails_of_isPlain h.2 (hgood₁.sameBut h.1) ((hgrew₁.mono hreach).sameBut h.1)
  rintro ⟨⟩ m₂ hvisited
  refine (results_preludes m₂).mono (fun _ m' hsame => ?_) fun _ _ h => h
  exact (hvisited.sameBut hsame).after (hgrew₁.mono hreach)

theorem Grew.pop (h : Grew R (m.enter c) m') {state : Option ManifestState}
    (hstate : state = some .loaded → R c) :
    Grew R m { m' with
      manifestStates := update m'.manifestStates c state
      manifestStack := m'.manifestStack.tail } := by
  refine ⟨?_, fun c' hc' => ?_, h.plugins⟩
  · change m'.manifestStack.tail = m.manifestStack
    rw [h.stack]
    rfl
  · change update m'.manifestStates c state c' = _ at hc'
    by_cases heq : c' = c
    · subst heq
      rw [update_self] at hc'
      exact .inr (hstate hc')
    · rw [update_of_ne heq] at hc'
      have hold := h.states c' hc'
      change update m.manifestStates c _ c' = _ ∨ _ at hold
      rwa [update_of_ne heq] at hold

theorem results_visitManifest (hload : Loads H S (c :: m.manifestStack) allowed load)
    (hclosed : ∀ c c', S c → Requires H c c' → S c')
    (hcalls : ∀ d path t, Calls H load c manifest (m.enter c) d path t →
      allowed path d.name d.version t)
    (hturn : ∀ sources s, S c → beforeLibrary H load c manifest (m.enter c) = .ok sources s →
      ¬PassedOver H c manifest s)
    (hgood : Good H S m)
    (hread : readManifest H c requestedName versionRange = .ok manifest)
    (hnone : m.manifestStates c = none) (hfile : c ∈ H.files) :
    Results (visitManifest H load c manifest) m
      (fun _ m' => Brings H S c requestedName versionRange m m')
      fun e m' => Fails H S (ReflTransGen (Depends H) c) m.manifestStack c m e m' := by
  have hbody := results_visitBody hload hclosed (readManifest_eq_ok hread).1 hcalls hturn
    (hgood.enter hnone hfile) rfl
  unfold Results visitManifest at *
  cases hresult : visitBody H load c manifest (m.enter c) with
  | ok a m' =>
      rw [hresult] at hbody
      exact ⟨hbody.good, hbody.grew.pop fun _ => .refl,
        fun hS => accepted_of_mem hread (hbody.recorded hS)⟩
  | error e m' =>
      rw [hresult] at hbody
      exact ⟨hbody.good.leave hbody.grew.stack, hbody.grew.pop (fun h => by cases h),
        hbody.bounded, hbody.cycle⟩

/-! ## The walk -/

/-- A plugin of the set that is loaded is what its manifest asks for. -/
theorem Good.accepted (hgood : Good H S m) (hS : S c)
    (hread : readManifest H c requestedName versionRange = .ok manifest)
    (hloaded : m.manifestStates c = some .loaded) :
    Accepted c requestedName versionRange m.loadedPlugins := by
  rcases hgood.loaded c hS hloaded with ⟨P, hP, rfl⟩
  rcases hgood.entries P hP with ⟨manifest', hparse, hentry⟩
  have heq : manifest' = manifest :=
    Option.some.inj (hparse.symm.trans (readManifest_eq_ok hread).1)
  rw [heq] at hentry
  exact accepted_of_mem hread (hentry ▸ hP)

theorem stack_length_le (hgood : Good H S m) : m.manifestStack.length ≤ H.files.length :=
  (hgood.nodup.subperm hgood.files).length_le

/-- One more than there are files is depth enough. -/
theorem results_loadManifest (hclosed : ∀ c c', S c → Requires H c c' → S c')
    (depth : ℕ) (hdepth : H.files.length < stack.length + depth) :
    Loads H S stack (TakesTurns H S depth) (loadManifest H depth) := by
  induction depth generalizing stack with
  | zero =>
      rintro path requestedName versionRange m hturns hgood rfl
      have hlength := stack_length_le hgood
      omega
  | succ depth ih =>
      rintro path requestedName versionRange m hturns hgood rfl
      have hnested : Loads H S (H.canonical path :: m.manifestStack) (TakesTurns H S depth)
          (loadManifest H depth) := by
        refine ih ?_
        rw [List.length_cons]
        omega
      have hplain : ∀ {e : LoadError}, e.isPlain = true → Fails H S (ReflTransGen (Depends H)
          (H.canonical path)) m.manifestStack (H.canonical path) m e m :=
        fun h => fails_of_isPlain h hgood (.refl _ _)
      unfold Results loadManifest
      by_cases hfile : H.fileExists path = false
      · rw [if_pos hfile]
        exact hplain rfl
      rw [if_neg hfile]
      have hmem : H.canonical path ∈ H.files := by
        simpa [Host.fileExists] using hfile
      cases hstate : m.manifestStates (H.canonical path) with
      | some state =>
          cases state with
          | visiting =>
              refine ⟨hgood, .refl _ _, (fun h => by cases h),
                fun _ => .inl ⟨H.canonical path, ?_, .refl⟩⟩
              exact (hgood.visiting _).mp hstate
          | loaded =>
              cases hread : readManifest H (H.canonical path) requestedName versionRange with
              | error e => exact hplain (readManifest_isPlain hread)
              | ok manifest =>
                  exact ⟨hgood, .refl _ _, fun hS => hgood.accepted hS hread hstate⟩
      | none =>
          cases hread : readManifest H (H.canonical path) requestedName versionRange with
          | error e => exact hplain (readManifest_isPlain hread)
          | ok manifest =>
              dsimp only
              by_cases habi : manifest.abi ≠ abiVersion
              · rw [if_pos habi]
                exact hplain rfl
              rw [if_neg habi]
              cases hfind : m.findPlugin manifest.name with
              | none =>
                  have hvisits : Visits H path requestedName versionRange manifest m :=
                    ⟨by simpa using hfile, hstate, hread, not_not.mp habi, hfind⟩
                  exact results_visitManifest hnested hclosed
                    (fun _ _ _ hcalls => hturns.nested hvisits hcalls)
                    (fun _ _ hS hbefore => hturns.own hvisits hS hbefore) hgood hread hstate hmem
              | some plugin =>
                  dsimp only
                  by_cases hversion : plugin.version = []
                  · rw [if_pos hversion]
                    exact hplain rfl
                  rw [if_neg hversion]
                  by_cases hother : plugin.manifest ≠ H.canonical path
                  · rw [if_pos hother]
                    exact hplain rfl
                  -- a plugin of this manifest would have it loaded
                  have hloaded := hgood.states plugin (List.mem_of_find?_eq_some hfind)
                  rw [not_not.mp hother, hstate] at hloaded
                  cases hloaded

end Plugin

end Absolute
