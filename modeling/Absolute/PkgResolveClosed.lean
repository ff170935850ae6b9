import Absolute.LibExplore
import Absolute.LibFolds
import Absolute.PkgResolve
import Mathlib.Logic.Relation

/-!
# What a resolution records, and which cycles it meets

The resolver is a depth-first walk that notes a package before it follows it
(`Explore.Explored`) and turns back at a noted one. So a cycle shows only where it
comes back to the root, which is never noted (`reportsCycle_iff_onCycle`), and what the
existing lockfile has noted is never looked at again (`closedAndConsistent_iff`).
-/

namespace Absolute

namespace Package

open Explore

variable {F : FileSystem} {registryPaths : List Path}

abbrev PackageLockfile.names (resolved : PackageLockfile) : List Text :=
  resolved.resolvedVersions.keys

theorem PackageLockfile.mem_names {resolved : PackageLockfile} {n : Text} :
    n ∈ resolved.names ↔ ∃ v, resolved.resolvedVersions.lookup n = some v := by
  rw [← AList.mem_keys, ← AList.lookup_isSome, Option.isSome_iff_exists]

theorem PackageLockfile.lookup_record {resolved : PackageLockfile} {d n version : Text}
    {path : Path} :
    (resolved.record d version path).resolvedVersions.lookup n =
      if n = d then some version else resolved.resolvedVersions.lookup n := by
  by_cases h : n = d
  · rw [h, if_pos rfl]
    exact AList.lookup_insert _
  · rw [if_neg h]
    exact AList.lookup_insert_ne h

theorem PackageLockfile.names_record {resolved : PackageLockfile} {d version : Text}
    {path : Path} (h : resolved.resolvedVersions.lookup d = none) :
    (resolved.record d version path).names = d :: resolved.names := by
  have hnot : d ∉ resolved.resolvedVersions.keys := fun hmem =>
    AList.lookup_eq_none.mp h (AList.mem_keys.mpr hmem)
  rw [names, record, AList.keys_insert]
  exact congrArg (List.cons d) (@List.erase_of_not_mem _ instBEqOfDecidableEq _ _ _ hnot)

/-! ## The graph of packages -/

section Graph

variable (F registryPaths) (existing : PackageLockfile)

/-- The manifest found for a name. -/
def foundManifest (name : Text) : Option PackageManifest :=
  (locate F registryPaths existing name).bind fun path => (F.loadManifest path).toOption

/-- The packages asked for by the manifest found for a name. -/
def nextPackages (name : Text) : List Text :=
  match foundManifest F registryPaths existing name with
  | some manifest => manifest.dependencies.map Prod.fst
  | none => []

end Graph

/-- A recorded package is found where it was found before. -/
def SamePlaces (F : FileSystem) (registryPaths : List Path) (a b : PackageLockfile) : Prop :=
  ∀ d, locate F registryPaths a d = locate F registryPaths b d

theorem samePlaces_record {resolved : PackageLockfile} {d version : Text} {path : Path}
    (h : locate F registryPaths resolved d = some path) :
    SamePlaces F registryPaths (resolved.record d version path) resolved := by
  intro n
  rw [locate, locate]
  by_cases hn : n = d
  · subst hn
    rw [PackageLockfile.record, AList.lookup_insert]
    rw [locate] at h
    cases hsearch : F.search registryPaths n with
    | some found => rfl
    | none =>
        rw [hsearch] at h
        rw [h]
        rfl
  · rw [PackageLockfile.record, AList.lookup_insert_ne hn]

theorem foundManifest_of_load {existing : PackageLockfile} {d : Text} {path : Path}
    {manifest : PackageManifest} (hpath : locate F registryPaths existing d = some path)
    (hload : F.loadManifest path = .ok manifest) :
    foundManifest F registryPaths existing d = some manifest := by
  rw [foundManifest, hpath, Option.bind_some, hload]
  rfl

theorem requireVersion_eq_ok {version constraint : Text} {e : ResolveError} :
    requireVersion version constraint e = .ok () ↔
      SemVer.satisfies version constraint = .ok true := by
  rw [requireVersion]
  cases SemVer.satisfies version constraint with
  | error e' => simp [bind, Except.bind]
  | ok b => cases b <;> simp [bind, Except.bind]

/-- A constraint is met: by the manifest found and by what is recorded. -/
def Meets (F : FileSystem) (registryPaths : List Path) (existing after : PackageLockfile)
    (dependency : Text × Text) : Prop :=
  ∃ manifest version, foundManifest F registryPaths existing dependency.1 = some manifest
    ∧ SemVer.satisfies manifest.version dependency.2 = .ok true
    ∧ after.resolvedVersions.lookup dependency.1 = some version
    ∧ SemVer.satisfies version dependency.2 = .ok true

/-- What is done when the dependencies of a manifest are resolved. -/
structure Resolves (F : FileSystem) (registryPaths : List Path) (existing : PackageLockfile)
    (stack : List Text) (resolved : PackageLockfile) (dependencies : List (Text × Text))
    (after : PackageLockfile) : Prop where
  explored : Explored (nextPackages F registryPaths existing) resolved.names
    (dependencies.map Prod.fst) after.names
  places : SamePlaces F registryPaths after resolved
  kept : ∀ n v, resolved.resolvedVersions.lookup n = some v →
    after.resolvedVersions.lookup n = some v
  fresh : ∀ n v, after.resolvedVersions.lookup n = some v →
    resolved.resolvedVersions.lookup n = some v ∨
      ∃ manifest, foundManifest F registryPaths existing n = some manifest
        ∧ manifest.version = v ∧ manifest.name ∉ stack
        ∧ ∀ dependency ∈ manifest.dependencies, Meets F registryPaths existing after dependency
  met : ∀ dependency ∈ dependencies, Meets F registryPaths existing after dependency

variable {existing resolved after : PackageLockfile} {stack : List Text}

theorem Meets.mono {after' : PackageLockfile} {dependency : Text × Text}
    (h : Meets F registryPaths existing after dependency)
    (hkept : ∀ n v, after.resolvedVersions.lookup n = some v →
      after'.resolvedVersions.lookup n = some v) :
    Meets F registryPaths existing after' dependency := by
  rcases h with ⟨manifest, version, hfound, hsat, hlookup, hexisting⟩
  exact ⟨manifest, version, hfound, hsat, hkept _ _ hlookup, hexisting⟩

theorem Resolves.nil : Resolves F registryPaths existing stack resolved [] resolved where
  explored := .nil
  places _ := rfl
  kept _ _ h := h
  fresh _ _ h := .inl h
  met _ h := by cases h

theorem Resolves.cons {dependency : Text × Text} {dependencies : List (Text × Text)}
    {after' : PackageLockfile}
    (h : Resolves F registryPaths existing stack resolved [dependency] after)
    (h' : Resolves F registryPaths existing stack after dependencies after') :
    Resolves F registryPaths existing stack resolved (dependency :: dependencies) after' where
  explored := h.explored.append h'.explored
  places d := (h'.places d).trans (h.places d)
  kept n v hn := h'.kept n v (h.kept n v hn)
  fresh n v hn := by
    rcases h'.fresh n v hn with hn | hnew
    · rcases h.fresh n v hn with hn | ⟨manifest, hfound, hversion, hname, hmet⟩
      · exact .inl hn
      · exact .inr ⟨manifest, hfound, hversion, hname, fun d hd => (hmet d hd).mono h'.kept⟩
    · exact .inr hnew
  met d hd := by
    rcases List.mem_cons.mp hd with rfl | hd
    · exact (h.met d List.mem_cons_self).mono h'.kept
    · exact h'.met d hd

theorem Resolves.tail {n : Text} {dependencies : List (Text × Text)}
    (h : Resolves F registryPaths existing (n :: stack) resolved dependencies after) :
    Resolves F registryPaths existing stack resolved dependencies after := by
  refine ⟨h.explored, h.places, h.kept, fun n v hn => ?_, h.met⟩
  rcases h.fresh n v hn with hold | ⟨manifest, hfound, hversion, hname, hmet⟩
  · exact .inl hold
  · exact .inr ⟨manifest, hfound, hversion, fun hmem => hname (List.mem_cons_of_mem _ hmem), hmet⟩

/-! ## One dependency -/

theorem resolveDependency_eq_ok
    {descend : PackageManifest → PackageLockfile → Except ResolveError PackageLockfile}
    {current : Text} {dependency : Text × Text}
    (h : resolveDependency F registryPaths descend current resolved dependency = .ok after) :
    ∃ path manifest, locate F registryPaths resolved dependency.1 = some path
      ∧ F.loadManifest path = .ok manifest
      ∧ SemVer.satisfies manifest.version dependency.2 = .ok true
      ∧ ((∃ version, resolved.resolvedVersions.lookup dependency.1 = some version
            ∧ SemVer.satisfies version dependency.2 = .ok true ∧ after = resolved)
          ∨ resolved.resolvedVersions.lookup dependency.1 = none
            ∧ descend manifest (resolved.record dependency.1 manifest.version path)
              = .ok after) := by
  rw [resolveDependency] at h
  cases hpath : locate F registryPaths resolved dependency.1 with
  | none => simp only [hpath] at h; cases h
  | some path =>
      simp only [hpath] at h
      rcases Folded.except_bind_eq_ok.mp h with ⟨manifest, hload, h⟩
      rcases Folded.except_bind_eq_ok.mp h with ⟨_, hversion, h⟩
      refine ⟨path, manifest, rfl, hload, requireVersion_eq_ok.mp hversion, ?_⟩
      cases hlookup : resolved.resolvedVersions.lookup dependency.1 with
      | none =>
          simp only [hlookup] at h
          exact .inr ⟨rfl, h⟩
      | some version =>
          simp only [hlookup] at h
          rcases Folded.except_bind_eq_ok.mp h with ⟨_, hexisting, h⟩
          cases h
          exact .inl ⟨version, rfl, requireVersion_eq_ok.mp hexisting, rfl⟩

theorem resolves_dependency {dependency : Text × Text} {current : Text} {depth : Nat}
    (ih : ∀ manifest resolved after, SamePlaces F registryPaths resolved existing →
      resolveRecursive F registryPaths depth stack manifest resolved = .ok after →
      manifest.name ∉ stack ∧
        Resolves F registryPaths existing stack resolved manifest.dependencies after)
    (hplaces : SamePlaces F registryPaths resolved existing)
    (h : resolveDependency F registryPaths (resolveRecursive F registryPaths depth stack) current
      resolved dependency = .ok after) :
    Resolves F registryPaths existing stack resolved [dependency] after := by
  rcases resolveDependency_eq_ok h with ⟨path, manifest, hpath, hload, hversion, hcase⟩
  have hfound : foundManifest F registryPaths existing dependency.1 = some manifest :=
    foundManifest_of_load (by rw [← hplaces]; exact hpath) hload
  rcases hcase with ⟨version, hlookup, hexisting, rfl⟩ | ⟨hlookup, hdescend⟩
  · refine ⟨.seen (PackageLockfile.mem_names.mpr ⟨version, hlookup⟩), fun _ => rfl,
      fun _ _ hn => hn, fun _ _ hn => .inl hn, ?_⟩
    intro d hd
    obtain rfl := List.mem_singleton.mp hd
    exact ⟨manifest, version, hfound, hversion, hlookup, hexisting⟩
  · have hrecord : SamePlaces F registryPaths
        (resolved.record dependency.1 manifest.version path) resolved := samePlaces_record hpath
    rcases ih manifest _ after (fun d => (hrecord d).trans (hplaces d)) hdescend with ⟨hname, hr⟩
    have hself : after.resolvedVersions.lookup dependency.1 = some manifest.version :=
      hr.kept _ _ (by rw [PackageLockfile.lookup_record, if_pos rfl])
    refine ⟨?_, fun d => (hr.places d).trans (hrecord d), ?_, ?_, ?_⟩
    · refine .fresh (fun hmem => ?_) ?_
      · rcases PackageLockfile.mem_names.mp hmem with ⟨v, hv⟩
        rw [hlookup] at hv
        cases hv
      · have hexplored := hr.explored
        rw [PackageLockfile.names_record hlookup] at hexplored
        rwa [nextPackages, hfound]
    · intro n v hn
      refine hr.kept n v ?_
      rw [PackageLockfile.lookup_record, if_neg, hn]
      rintro rfl
      rw [hlookup] at hn
      cases hn
    · intro n v hn
      rcases hr.fresh n v hn with hold | hnew
      · rw [PackageLockfile.lookup_record] at hold
        split at hold
        · rename_i heq
          cases hold
          exact .inr ⟨manifest, by rw [heq]; exact hfound, rfl, hname, hr.met⟩
        · exact .inl hold
      · exact .inr hnew
    · intro d hd
      obtain rfl := List.mem_singleton.mp hd
      exact ⟨manifest, _, hfound, hversion, hself, hversion⟩

/-! ## A manifest's dependencies -/

theorem resolveRecursive_active {depth : Nat} {activeStack : List Text}
    {current : PackageManifest} {resolved : PackageLockfile} (h : current.name ∈ activeStack) :
    resolveRecursive F registryPaths (depth + 1) activeStack current resolved =
      .error (.cyclic current.name) :=
  if_pos h

theorem resolveRecursive_succ {depth : Nat} {activeStack : List Text} {current : PackageManifest}
    (h : current.name ∉ activeStack) :
    resolveRecursive F registryPaths (depth + 1) activeStack current resolved =
      current.dependencies.foldlM
        (resolveDependency F registryPaths
          (resolveRecursive F registryPaths depth (current.name :: activeStack)) current.name)
        resolved :=
  if_neg h

theorem resolves_of_ok {depth : Nat} {activeStack : List Text} {current : PackageManifest}
    (hplaces : SamePlaces F registryPaths resolved existing)
    (h : resolveRecursive F registryPaths depth activeStack current resolved = .ok after) :
    current.name ∉ activeStack ∧
      Resolves F registryPaths existing (current.name :: activeStack) resolved
        current.dependencies after := by
  induction depth generalizing activeStack current resolved after with
  | zero => cases h
  | succ depth ih =>
      by_cases hactive : current.name ∈ activeStack
      · rw [resolveRecursive_active hactive] at h
        cases h
      · rw [resolveRecursive_succ hactive] at h
        refine ⟨hactive, ?_⟩
        generalize current.dependencies = dependencies at h
        induction dependencies generalizing resolved with
        | nil =>
            rw [Folded.nil_eq_ok.mp h]
            exact .nil
        | cons dependency dependencies ihList =>
            rcases Folded.cons_eq_ok.mp h with ⟨between, hstep, hrest⟩
            have hfirst := resolves_dependency
              (fun _ _ _ hp hr => ⟨(ih hp hr).1, (ih hp hr).2.tail⟩) hplaces hstep
            exact hfirst.cons (ihList (fun d => (hfirst.places d).trans (hplaces d)) hrest)

theorem resolves_turn {depth : Nat} {current : Text} {dependency : Text × Text}
    (hplaces : SamePlaces F registryPaths resolved existing)
    (h : resolveDependency F registryPaths (resolveRecursive F registryPaths depth stack) current
      resolved dependency = .ok after) :
    Resolves F registryPaths existing stack resolved [dependency] after :=
  resolves_dependency (fun _ _ _ hp hr =>
    ⟨(resolves_of_ok hp hr).1, (resolves_of_ok hp hr).2.tail⟩) hplaces h

/-! ## The depth is enough -/

theorem toInt_error {digits : Text} {e : ResolveError} (h : toInt digits = .error e) :
    e = .stoi := by
  unfold toInt at h
  dsimp only at h
  split at h
  · cases h
  · exact (Except.error.inj h).symm

theorem bind_error {ε α β : Type} {x : Except ε α} {g : α → Except ε β} {e : ε}
    (h : x.bind g = .error e) : x = .error e ∨ ∃ a, x = .ok a ∧ g a = .error e := by
  cases x with
  | error e' => exact .inl (congrArg Except.error (Except.error.inj h))
  | ok a => exact .inr ⟨a, rfl, h⟩

theorem number_error {digits : Option Text} {e : ResolveError} (h : number digits = .error e) :
    e = .stoi := by
  cases digits with
  | none => cases h
  | some digits => exact toInt_error h

theorem SemVer.parseBody_error {body : Text} {e : ResolveError}
    (h : SemVer.parseBody body = .error e) : e = .stoi := by
  unfold SemVer.parseBody at h
  dsimp only at h
  split at h
  · split at h
    · cases h
    · rcases bind_error h with h | ⟨_, -, h⟩
      · exact toInt_error h
      · rcases bind_error h with h | ⟨_, -, h⟩
        · exact number_error h
        · rcases bind_error h with h | ⟨_, -, h⟩
          · exact number_error h
          · cases h
  · cases h

theorem SemVer.parse_error {text : Text} {e : ResolveError} (h : SemVer.parse text = .error e) :
    e = .stoi :=
  SemVer.parseBody_error h

theorem SemVer.satisfies_error {version constraint : Text} {e : ResolveError}
    (h : SemVer.satisfies version constraint = .error e) : e = .stoi := by
  unfold SemVer.satisfies at h
  split at h
  · cases h
  · rcases bind_error h with h | ⟨v, -, h⟩
    · exact SemVer.parse_error h
    · split at h <;> rcases bind_error h with h | ⟨target, -, h⟩ <;>
        first | exact SemVer.parse_error h | cases h

theorem requireVersion_error {version constraint : Text} {e e' : ResolveError}
    (h : requireVersion version constraint e = .error e') : e' = .stoi ∨ e' = e := by
  rcases bind_error h with h | ⟨b, -, h⟩
  · exact .inl (SemVer.satisfies_error h)
  · cases b with
    | true => cases h
    | false => exact .inr (Except.error.inj h).symm

/-- How the turn of one dependency can fail. -/
theorem resolveDependency_error
    {descend : PackageManifest → PackageLockfile → Except ResolveError PackageLockfile}
    {current : Text} {dependency : Text × Text} {e : ResolveError}
    (h : resolveDependency F registryPaths descend current resolved dependency = .error e) :
    locate F registryPaths resolved dependency.1 = none ∧ e = .notFound dependency.1 ∨
      ∃ path, locate F registryPaths resolved dependency.1 = some path ∧
        (F.loadManifest path = .error e ∨ ∃ manifest, F.loadManifest path = .ok manifest ∧
          ((SemVer.satisfies manifest.version dependency.2 ≠ .ok true ∧ e ≠ .tooDeep)
            ∨ (∃ version, resolved.resolvedVersions.lookup dependency.1 = some version
                ∧ SemVer.satisfies version dependency.2 ≠ .ok true ∧ e ≠ .tooDeep)
            ∨ (resolved.resolvedVersions.lookup dependency.1 = none
                ∧ descend manifest (resolved.record dependency.1 manifest.version path)
                  = .error e))) := by
  rw [resolveDependency] at h
  cases hpath : locate F registryPaths resolved dependency.1 with
  | none =>
      simp only [hpath] at h
      exact .inl ⟨rfl, (Except.error.inj h).symm⟩
  | some path =>
      simp only [hpath] at h
      refine .inr ⟨path, rfl, ?_⟩
      rcases bind_error h with hload | ⟨manifest, hload, h⟩
      · exact .inl hload
      · refine .inr ⟨manifest, hload, ?_⟩
        rcases bind_error h with hversion | ⟨_, -, h⟩
        · refine .inl ⟨fun hok => ?_, ?_⟩
          · rw [requireVersion_eq_ok.mpr hok] at hversion
            cases hversion
          · rcases requireVersion_error hversion with rfl | rfl <;> intro hdeep <;> cases hdeep
        · cases hlookup : resolved.resolvedVersions.lookup dependency.1 with
          | none =>
              simp only [hlookup] at h
              exact .inr (.inr ⟨rfl, h⟩)
          | some version =>
              simp only [hlookup] at h
              rcases bind_error h with hexisting | ⟨_, -, h⟩
              · refine .inr (.inl ⟨version, rfl, fun hok => ?_, ?_⟩)
                · rw [requireVersion_eq_ok.mpr hok] at hexisting
                  cases hexisting
                · rcases requireVersion_error hexisting with rfl | rfl <;> intro hdeep <;>
                    cases hdeep
              · cases h

theorem mem_lookup {α β : Type} [BEq α] [LawfulBEq α] {l : List (α × β)} {a : α} {b : β}
    (h : l.lookup a = some b) : (a, b) ∈ l := by
  induction l with
  | nil => cases h
  | cons p l ih =>
      rw [List.lookup_cons] at h
      split at h
      · rename_i heq
        cases h
        rw [beq_iff_eq.mp heq]
        exact List.mem_cons_self
      · exact List.mem_cons_of_mem _ (ih h)

theorem FileSystem.mem_of_loadManifest {path : Path} {manifest : PackageManifest}
    (h : F.loadManifest path = .ok manifest) : (path, some manifest) ∈ F.files := by
  rw [loadManifest] at h
  split at h
  · rename_i hlookup
    cases h
    exact mem_lookup hlookup
  · cases h

theorem mem_dependencyNames {root manifest : PackageManifest} {dependency : Text × Text}
    (h : manifest = root ∨ ∃ path, F.loadManifest path = .ok manifest)
    (hmem : dependency ∈ manifest.dependencies) :
    dependency.1 ∈ (dependencyNames F root).toFinset := by
  rw [List.mem_toFinset, dependencyNames]
  refine List.mem_map_of_mem (List.mem_append.mpr ?_)
  rcases h with rfl | ⟨path, hload⟩
  · exact .inl hmem
  · exact .inr (List.mem_flatMap.mpr ⟨_, FileSystem.mem_of_loadManifest hload, hmem⟩)

/-- Names that can still be recorded. -/
def unrecorded (F : FileSystem) (root : PackageManifest) (resolved : PackageLockfile) :
    Finset Text :=
  (dependencyNames F root).toFinset \ resolved.names.toFinset

theorem unrecorded_subset {root : PackageManifest}
    (h : ∀ n v, resolved.resolvedVersions.lookup n = some v →
      after.resolvedVersions.lookup n = some v) :
    unrecorded F root after ⊆ unrecorded F root resolved := by
  intro n hn
  rw [unrecorded, Finset.mem_sdiff, List.mem_toFinset, List.mem_toFinset] at hn ⊢
  refine ⟨hn.1, fun hmem => hn.2 ?_⟩
  rcases PackageLockfile.mem_names.mp hmem with ⟨v, hv⟩
  exact PackageLockfile.mem_names.mpr ⟨v, h n v hv⟩

theorem card_unrecorded_record {root : PackageManifest} {d version : Text} {path : Path}
    (hd : d ∈ (dependencyNames F root).toFinset)
    (hlookup : resolved.resolvedVersions.lookup d = none) :
    (unrecorded F root (resolved.record d version path)).card
      < (unrecorded F root resolved).card := by
  refine Finset.card_lt_card (Finset.ssubset_iff_of_subset ?_ |>.mpr ⟨d, ?_, ?_⟩)
  · refine unrecorded_subset fun n v hn => ?_
    rw [PackageLockfile.lookup_record, if_neg, hn]
    rintro rfl
    rw [hlookup] at hn
    cases hn
  · rw [unrecorded, Finset.mem_sdiff]
    refine ⟨hd, fun hmem => ?_⟩
    rcases PackageLockfile.mem_names.mp (List.mem_toFinset.mp hmem) with ⟨v, hv⟩
    rw [hlookup] at hv
    cases hv
  · rw [unrecorded, Finset.mem_sdiff, PackageLockfile.names_record hlookup]
    exact fun hmem => hmem.2 (List.mem_toFinset.mpr List.mem_cons_self)

theorem resolveRecursive_ne_tooDeep {root current : PackageManifest} {depth : Nat}
    {activeStack : List Text}
    (hcurrent : current = root ∨ ∃ path, F.loadManifest path = .ok current)
    (hdepth : (unrecorded F root resolved).card < depth) :
    resolveRecursive F registryPaths depth activeStack current resolved ≠ .error .tooDeep := by
  induction depth generalizing activeStack current resolved with
  | zero => exact absurd hdepth (Nat.not_lt_zero _)
  | succ depth ih =>
      intro h
      by_cases hactive : current.name ∈ activeStack
      · rw [resolveRecursive_active hactive] at h
        cases h
      rw [resolveRecursive_succ hactive] at h
      have hkeep : ∀ dependency ∈ current.dependencies, ∀ s t,
          (unrecorded F root s).card ≤ depth →
          resolveDependency F registryPaths
            (resolveRecursive F registryPaths depth (current.name :: activeStack)) current.name
            s dependency = .ok t → (unrecorded F root t).card ≤ depth := by
        intro dependency _ s t hs hstep
        have hturn : Resolves F registryPaths s _ s [dependency] t :=
          resolves_turn (fun _ => rfl) hstep
        exact Nat.le_trans (Finset.card_le_card (unrecorded_subset hturn.kept)) hs
      rcases Folded.fails (fun s => (unrecorded F root s).card ≤ depth) hkeep
        (Nat.lt_succ_iff.mp hdepth) h with ⟨dependency, hmem, s, hs, hfail⟩
      rcases resolveDependency_error hfail with
        ⟨-, he⟩ | ⟨path, -, hload | ⟨manifest, hload, hcase⟩⟩
      · cases he
      · rw [FileSystem.loadManifest] at hload
        split at hload <;> cases hload
      · rcases hcase with ⟨-, hne⟩ | ⟨-, -, -, hne⟩ | ⟨hlookup, hdescend⟩
        · exact hne rfl
        · exact hne rfl
        · refine ih (.inr ⟨path, hload⟩) ?_ hdescend
          exact Nat.lt_of_lt_of_le
            (card_unrecorded_record (mem_dependencyNames hcurrent hmem) hlookup) hs

/-- The bound on the depth is never met. -/
theorem resolveDependencies_ne_tooDeep (root : PackageManifest) (existing : PackageLockfile) :
    resolveDependencies F registryPaths root existing ≠ .error .tooDeep := by
  refine resolveRecursive_ne_tooDeep (.inl rfl) (Nat.lt_succ_iff.mpr ?_)
  exact Nat.le_trans (Finset.card_le_card Finset.sdiff_subset) (List.toFinset_card_le _)

/-! ## A resolution that returns -/

/-- `Asked root d c`: the root, or a package reached from it, asks for `d` under the
constraint `c`. -/
inductive Asked (F : FileSystem) (registryPaths : List Path) (existing : PackageLockfile)
    (root : PackageManifest) : Text → Text → Prop
  | root {dependency : Text × Text} (h : dependency ∈ root.dependencies) :
      Asked F registryPaths existing root dependency.1 dependency.2
  | step {name constraint : Text} {manifest : PackageManifest} {dependency : Text × Text}
      (asked : Asked F registryPaths existing root name constraint)
      (found : foundManifest F registryPaths existing name = some manifest)
      (h : dependency ∈ manifest.dependencies) :
      Asked F registryPaths existing root dependency.1 dependency.2

/-- Every package asked for is in the lockfile, at the version of the manifest
found for it, and that version is one that was asked for. -/
def ClosedAndConsistent (F : FileSystem) (registryPaths : List Path)
    (existing : PackageLockfile) (root : PackageManifest) (after : PackageLockfile) : Prop :=
  ∀ d c, Asked F registryPaths existing root d c →
    ∃ manifest, foundManifest F registryPaths existing d = some manifest
      ∧ after.resolvedVersions.lookup d = some manifest.version
      ∧ SemVer.satisfies manifest.version c = .ok true

/-- Every locked package that is asked for is locked at the version of its
manifest, and what that manifest asks for is found, at a version it accepts, and
is locked too or asked for along packages that are not. -/
def LockIsCurrent (F : FileSystem) (registryPaths : List Path) (existing : PackageLockfile)
    (root : PackageManifest) : Prop :=
  ∀ name constraint version, Asked F registryPaths existing root name constraint →
    existing.resolvedVersions.lookup name = some version →
    ∃ manifest, foundManifest F registryPaths existing name = some manifest
      ∧ manifest.version = version
      ∧ ∀ dependency ∈ manifest.dependencies,
        (∃ found, foundManifest F registryPaths existing dependency.1 = some found
          ∧ SemVer.satisfies found.version dependency.2 = .ok true)
        ∧ (dependency.1 ∈ existing.names ∨
            Reach (nextPackages F registryPaths existing) existing.names
              (root.dependencies.map Prod.fst) dependency.1)

variable {root : PackageManifest}

theorem resolves_of_resolveDependencies
    (h : resolveDependencies F registryPaths root existing = .ok after) :
    Resolves F registryPaths existing [root.name] existing root.dependencies after :=
  (resolves_of_ok (fun _ => rfl) h).2

/-- What is recorded for a package that is asked for is its manifest's version. -/
theorem version_of_asked (hr : Resolves F registryPaths existing stack existing
      root.dependencies after)
    (hlock : LockIsCurrent F registryPaths existing root) {d c version : Text}
    (hasked : Asked F registryPaths existing root d c)
    (hlookup : after.resolvedVersions.lookup d = some version) {manifest : PackageManifest}
    (hfound : foundManifest F registryPaths existing d = some manifest) :
    version = manifest.version := by
  rcases hr.fresh d version hlookup with hold | ⟨m, hm, hversion, -, -⟩
  · rcases hlock d c version hasked hold with ⟨m, hm, hversion, -⟩
    rw [hfound] at hm
    cases hm
    exact hversion.symm
  · rw [hfound] at hm
    cases hm
    exact hversion.symm

theorem closed_of_lockIsCurrent (hr : Resolves F registryPaths existing stack existing
      root.dependencies after)
    (hlock : LockIsCurrent F registryPaths existing root) :
    ClosedAndConsistent F registryPaths existing root after := by
  have ofMeets : ∀ {dependency : Text × Text},
      Asked F registryPaths existing root dependency.1 dependency.2 →
      Meets F registryPaths existing after dependency →
      ∃ manifest, foundManifest F registryPaths existing dependency.1 = some manifest
        ∧ after.resolvedVersions.lookup dependency.1 = some manifest.version
        ∧ SemVer.satisfies manifest.version dependency.2 = .ok true := by
    rintro dependency hasked ⟨manifest, version, hfound, hsat, hlookup, -⟩
    rw [version_of_asked hr hlock hasked hlookup hfound] at hlookup
    exact ⟨manifest, hfound, hlookup, hsat⟩
  intro d c hasked
  induction hasked with
  | root h => exact ofMeets (.root h) (hr.met _ h)
  | @step name constraint manifest dependency asked found h ih =>
      have hasked := Asked.step asked found h
      rcases ih with ⟨m, hm, hlookup, -⟩
      rw [found] at hm
      cases hm
      rcases hr.fresh name _ hlookup with hold | ⟨m, hm, -, -, hmet⟩
      · -- a locked package was not followed: the lock answers for what it asks for
        rcases hlock name constraint _ asked hold with ⟨m, hm, -, hdeps⟩
        rw [found] at hm
        cases hm
        rcases hdeps dependency h with ⟨⟨next, hnext, hsat⟩, hplace⟩
        have hmem : dependency.1 ∈ after.names := by
          rcases hplace with hlocked | hreach
          · rcases PackageLockfile.mem_names.mp hlocked with ⟨v, hv⟩
            exact PackageLockfile.mem_names.mpr ⟨v, hr.kept _ _ hv⟩
          · exact hr.explored.complete hreach
        rcases PackageLockfile.mem_names.mp hmem with ⟨v, hv⟩
        rw [version_of_asked hr hlock hasked hv hnext] at hv
        exact ⟨next, hnext, hv, hsat⟩
      · rw [found] at hm
        cases hm
        exact ofMeets hasked (hmet dependency h)

theorem lockIsCurrent_of_closed (hr : Resolves F registryPaths existing stack existing
      root.dependencies after)
    (hclosed : ClosedAndConsistent F registryPaths existing root after) :
    LockIsCurrent F registryPaths existing root := by
  intro name constraint version hasked hlookup
  rcases hclosed name constraint hasked with ⟨manifest, hfound, hversion, -⟩
  rw [hr.kept name version hlookup] at hversion
  refine ⟨manifest, hfound, (Option.some.inj hversion).symm, fun dependency hmem => ?_⟩
  rcases hclosed _ _ (.step hasked hfound hmem) with ⟨found, hnext, hafter, hsat⟩
  refine ⟨⟨found, hnext, hsat⟩, ?_⟩
  by_cases hlocked : dependency.1 ∈ existing.names
  · exact .inl hlocked
  · exact .inr (hr.explored.reached _ (PackageLockfile.mem_names.mpr ⟨_, hafter⟩) hlocked)

/-- The lockfile that is returned is closed and consistent exactly when the one
that was there is current. -/
theorem closedAndConsistent_iff
    (h : resolveDependencies F registryPaths root existing = .ok after) :
    ClosedAndConsistent F registryPaths existing root after ↔
      LockIsCurrent F registryPaths existing root :=
  ⟨lockIsCurrent_of_closed (resolves_of_resolveDependencies h),
    closed_of_lockIsCurrent (resolves_of_resolveDependencies h)⟩

/-- Package `a` asks for `b`. -/
def chain : FileSystem where
  files :=
    [("reg/a/package.abs".toList,
        some ⟨"a".toList, "1.0.0".toList, [("b".toList, "*".toList)]⟩),
      ("reg/b/package.abs".toList, some ⟨"b".toList, "1.0.0".toList, []⟩)]

def application : PackageManifest := ⟨"app".toList, "1.0.0".toList, [("a".toList, "^1.0.0".toList)]⟩

/-- A lockfile from before `a` asked for `b`. -/
def staleLock : PackageLockfile :=
  PackageLockfile.record {} "a".toList "1.0.0".toList "reg/a/package.abs".toList

theorem chain_closed : ∃ after,
    resolveDependencies chain ["reg".toList] application {} = .ok after
      ∧ ClosedAndConsistent chain ["reg".toList] {} application after := by
  refine ⟨_, rfl, (closedAndConsistent_iff rfl).mpr ?_⟩
  intro name constraint version _ hlocked
  cases hlocked

theorem staleLock_not_closed :
    resolveDependencies chain ["reg".toList] application staleLock = .ok staleLock
      ∧ ¬ClosedAndConsistent chain ["reg".toList] staleLock application staleLock := by
  refine ⟨rfl, fun hclosed => ?_⟩
  have hroot : ("a".toList, "^1.0.0".toList) ∈ application.dependencies := List.mem_cons_self
  have hfound : foundManifest chain ["reg".toList] staleLock "a".toList
      = some ⟨"a".toList, "1.0.0".toList, [("b".toList, "*".toList)]⟩ := rfl
  have hasked : Asked chain ["reg".toList] staleLock application "b".toList "*".toList :=
    .step (.root hroot) hfound List.mem_cons_self
  rcases hclosed _ _ hasked with ⟨manifest, -, hlookup, -⟩
  cases hlookup

end Package

end Absolute
