import Absolute.PkgResolveClosed

/-!
# The cycles the resolver reports

The active stack is looked at when a package is entered, but a package that is
recorded is never entered again, and every package but the root is recorded before
it is entered. What is left is the root's own name: `reportsCycle_iff_onCycle`.
-/

namespace Absolute

namespace Package

open Explore Relation

variable {F : FileSystem} {registryPaths : List Path} {root : PackageManifest}

section Graph

variable (F registryPaths) (root)

/-- What a package asks for; the root is the package of its own name. -/
def dependenciesOf (name : Text) : List (Text × Text) :=
  if name = root.name then root.dependencies
  else match foundManifest F registryPaths {} name with
    | some manifest => manifest.dependencies
    | none => []

def DependsOn (p q : Text) : Prop := q ∈ (dependenciesOf F registryPaths root p).map Prod.fst

/-- The graph that is reached from the root has a cycle. -/
def HasCycle : Prop :=
  ∃ p, ReflTransGen (DependsOn F registryPaths root) root.name p
    ∧ TransGen (DependsOn F registryPaths root) p p

/-- The root itself is on a cycle. -/
def RootOnCycle : Prop := TransGen (DependsOn F registryPaths root) root.name root.name

/-- Whatever is asked for is found under the name it is asked for by, at a
version that is accepted. -/
def AllSatisfied : Prop :=
  ∀ p, ReflTransGen (DependsOn F registryPaths root) root.name p →
    ∀ dependency ∈ dependenciesOf F registryPaths root p,
      ∃ manifest, foundManifest F registryPaths {} dependency.1 = some manifest
        ∧ manifest.name = dependency.1
        ∧ SemVer.satisfies manifest.version dependency.2 = .ok true

def ReportsCycle : Prop :=
  ∃ name, resolveDependencies F registryPaths root {} = .error (.cyclic name)

end Graph

theorem dependenciesOf_root : dependenciesOf F registryPaths root root.name = root.dependencies :=
  if_pos rfl

theorem dependenciesOf_found {name : Text} {manifest : PackageManifest} (h : name ≠ root.name)
    (hfound : foundManifest F registryPaths {} name = some manifest) :
    dependenciesOf F registryPaths root name = manifest.dependencies := by
  rw [dependenciesOf, if_neg h, hfound]

theorem dependsOn_nextPackages {p q : Text} (h : p ≠ root.name)
    (hpq : DependsOn F registryPaths root p q) : q ∈ nextPackages F registryPaths {} p := by
  rw [DependsOn, dependenciesOf, if_neg h] at hpq
  rw [nextPackages]
  cases hfound : foundManifest F registryPaths {} p with
  | none => rw [hfound] at hpq; cases hpq
  | some manifest => rw [hfound] at hpq; exact hpq

/-! ## A walk that returns has met no cycle through the root -/

theorem recorded_of_reached {after : PackageLockfile} {stack : List Text}
    (hr : Resolves F registryPaths {} stack {} root.dependencies after) {q : Text}
    (h : TransGen (DependsOn F registryPaths root) root.name q) : q ∈ after.names := by
  induction h with
  | single h =>
      rw [DependsOn, dependenciesOf_root] at h
      exact hr.explored.rooted _ h
  | @tail p q _ hpq ih =>
      by_cases hp : p = root.name
      · rw [hp, DependsOn, dependenciesOf_root] at hpq
        exact hr.explored.rooted _ hpq
      · exact hr.explored.followed _ ih (fun hmem => by cases hmem) _
          (dependsOn_nextPackages hp hpq)

theorem not_rootOnCycle_of_ok {after : PackageLockfile}
    (hall : AllSatisfied F registryPaths root)
    (h : resolveDependencies F registryPaths root {} = .ok after) :
    ¬RootOnCycle F registryPaths root := by
  intro hcycle
  have hr := resolves_of_resolveDependencies h
  rcases PackageLockfile.mem_names.mp (recorded_of_reached hr hcycle) with ⟨version, hlookup⟩
  rcases hr.fresh _ _ hlookup with hold | ⟨manifest, hfound, -, hname, -⟩
  · cases hold
  · rcases TransGen.tail'_iff.mp hcycle with ⟨p, hreach, hp⟩
    rcases List.mem_map.mp hp with ⟨dependency, hmem, hdep⟩
    rcases hall p hreach dependency hmem with ⟨m, hm, hmname, -⟩
    rw [hdep] at hm hmname
    rw [hfound] at hm
    cases hm
    exact hname (List.mem_singleton.mpr hmname)

/-! ## A walk that fails has come back to the root -/

/-- Between two turns: what is active is the root or recorded. -/
structure Walking (F : FileSystem) (registryPaths : List Path) (root : PackageManifest)
    (stack : List Text) (resolved : PackageLockfile) : Prop where
  places : SamePlaces F registryPaths resolved {}
  versions : ∀ n v, resolved.resolvedVersions.lookup n = some v →
    ∃ manifest, foundManifest F registryPaths {} n = some manifest ∧ manifest.version = v
  active : ∀ n ∈ stack, n = root.name ∨ n ∈ resolved.names

variable {resolved : PackageLockfile} {stack : List Text}

theorem Walking.resolves {after : PackageLockfile} {dependencies : List (Text × Text)}
    (h : Walking F registryPaths root stack resolved)
    (hr : Resolves F registryPaths {} stack resolved dependencies after) :
    Walking F registryPaths root stack after := by
  refine ⟨fun d => (hr.places d).trans (h.places d), fun n v hn => ?_, fun n hn => ?_⟩
  · rcases hr.fresh n v hn with hold | ⟨manifest, hfound, hversion, -, -⟩
    · exact h.versions n v hold
    · exact ⟨manifest, hfound, hversion⟩
  · rcases h.active n hn with hroot | hmem
    · exact .inl hroot
    · exact .inr (hr.explored.mem hmem)

theorem Walking.record {dependency : Text} {path : Path} {manifest : PackageManifest}
    (h : Walking F registryPaths root stack resolved)
    (hpath : locate F registryPaths resolved dependency = some path)
    (hload : F.loadManifest path = .ok manifest)
    (hlookup : resolved.resolvedVersions.lookup dependency = none) :
    Walking F registryPaths root stack (resolved.record dependency manifest.version path) := by
  refine ⟨fun d => (samePlaces_record hpath d).trans (h.places d), fun n v hn => ?_, fun n hn => ?_⟩
  · rw [PackageLockfile.lookup_record] at hn
    split at hn
    · rename_i heq
      cases hn
      rw [heq]
      exact ⟨manifest, foundManifest_of_load (by rw [← h.places]; exact hpath) hload, rfl⟩
    · exact h.versions n v hn
  · rw [PackageLockfile.names_record hlookup]
    rcases h.active n hn with hroot | hmem
    · exact .inl hroot
    · exact .inr (List.mem_cons_of_mem _ hmem)

/-- With everything satisfied a turn fails only below it. -/
theorem AllSatisfied.descends
    {descend : PackageManifest → PackageLockfile → Except ResolveError PackageLockfile}
    (hall : AllSatisfied F registryPaths root) {current : Text}
    (hreach : ReflTransGen (DependsOn F registryPaths root) root.name current)
    {dependency : Text × Text} (hmem : dependency ∈ dependenciesOf F registryPaths root current)
    (h : Walking F registryPaths root stack resolved) {e : ResolveError}
    (hfail : resolveDependency F registryPaths descend current resolved dependency = .error e) :
    ∃ path manifest, locate F registryPaths resolved dependency.1 = some path
      ∧ F.loadManifest path = .ok manifest ∧ manifest.name = dependency.1
      ∧ foundManifest F registryPaths {} dependency.1 = some manifest
      ∧ resolved.resolvedVersions.lookup dependency.1 = none
      ∧ descend manifest (resolved.record dependency.1 manifest.version path) = .error e := by
  rcases hall current hreach dependency hmem with ⟨m, hfound, hname, hsat⟩
  have hlocate := h.places dependency.1
  rcases resolveDependency_error hfail with ⟨hnone, -⟩ | ⟨path, hpath, hcase⟩
  · rw [foundManifest, ← hlocate, hnone] at hfound
    cases hfound
  · have hbind := hfound
    rw [foundManifest, ← hlocate, hpath, Option.bind_some] at hbind
    rcases hcase with hload | ⟨manifest, hload, hcase⟩
    · rw [hload] at hbind
      cases hbind
    · rw [hload] at hbind
      obtain rfl : manifest = m := Option.some.inj hbind
      rcases hcase with ⟨hversion, -⟩ | ⟨version, hlookup, hversion, -⟩ | ⟨hlookup, hdescend⟩
      · exact absurd hsat hversion
      · rcases h.versions _ _ hlookup with ⟨m', hm', hv⟩
        rw [hfound] at hm'
        cases hm'
        exact absurd (hv ▸ hsat) hversion
      · exact ⟨path, manifest, hpath, hload, hname, hfound, hlookup, hdescend⟩

theorem rootOnCycle_of_error {depth : Nat} {current : PackageManifest} {e : ResolveError}
    (hall : AllSatisfied F registryPaths root)
    (hwalk : Walking F registryPaths root stack resolved)
    (hroot : root.name ∈ current.name :: stack)
    (hback : current.name ∈ stack → RootOnCycle F registryPaths root)
    (hnew : current.name ∉ stack →
      ReflTransGen (DependsOn F registryPaths root) root.name current.name
        ∧ (current.name = root.name ∨ current.name ∈ resolved.names)
        ∧ dependenciesOf F registryPaths root current.name = current.dependencies)
    (h : resolveRecursive F registryPaths depth stack current resolved = .error e) :
    e = .tooDeep ∨ (∃ name, e = .cyclic name) ∧ RootOnCycle F registryPaths root := by
  induction depth generalizing stack current resolved with
  | zero => exact .inl (Except.error.inj h).symm
  | succ depth ih =>
      by_cases hactive : current.name ∈ stack
      · rw [resolveRecursive_active hactive] at h
        exact .inr ⟨⟨_, (Except.error.inj h).symm⟩, hback hactive⟩
      rw [resolveRecursive_succ hactive] at h
      rcases hnew hactive with ⟨hreach, hself, hdeps⟩
      have hstart : Walking F registryPaths root (current.name :: stack) resolved := by
        refine ⟨hwalk.places, hwalk.versions, fun n hn => ?_⟩
        rcases List.mem_cons.mp hn with rfl | hn
        · exact hself
        · exact hwalk.active n hn
      rcases Folded.fails (Walking F registryPaths root (current.name :: stack))
        (fun _ _ s t hs hstep => hs.resolves (resolves_turn hs.places hstep)) hstart h with
        ⟨dependency, hmem, s, hs, hfail⟩
      rw [← hdeps] at hmem
      rcases hall.descends hreach hmem hs hfail with
        ⟨path, manifest, hpath, hload, hname, hfound, hlookup, hdescend⟩
      have hdep : DependsOn F registryPaths root current.name dependency.1 :=
        List.mem_map_of_mem hmem
      have hrecord := hs.record hpath hload hlookup
      refine ih hrecord (List.mem_cons_of_mem _ hroot) ?_ ?_ hdescend
      · -- what is active and not recorded is the root
        intro hmem'
        rw [hname] at hmem'
        rcases hs.active _ hmem' with heq | hrecorded
        · rw [heq] at hdep
          exact TransGen.tail' hreach hdep
        · rcases PackageLockfile.mem_names.mp hrecorded with ⟨v, hv⟩
          rw [hlookup] at hv
          cases hv
      · intro hnot
        rw [hname] at hnot ⊢
        have hne : dependency.1 ≠ root.name := fun heq => hnot (heq ▸ hroot)
        refine ⟨hreach.tail hdep, .inr ?_, dependenciesOf_found hne hfound⟩
        rw [PackageLockfile.names_record hlookup]
        exact List.mem_cons_self

/-! ## Which cycles are reported -/

theorem reportsCycle_iff_onCycle (hall : AllSatisfied F registryPaths root) :
    ReportsCycle F registryPaths root ↔ RootOnCycle F registryPaths root := by
  have hstart : Walking F registryPaths root [] {} :=
    ⟨fun _ => rfl, fun n v hn => (by cases hn), fun n hn => (by cases hn)⟩
  cases hresult : resolveDependencies F registryPaths root {} with
  | ok after =>
      have hnot := not_rootOnCycle_of_ok hall hresult
      refine ⟨?_, fun hcycle => absurd hcycle hnot⟩
      rintro ⟨name, hname⟩
      rw [hresult] at hname
      cases hname
  | error e =>
      have herror := rootOnCycle_of_error hall hstart List.mem_cons_self
        (fun hmem => by cases hmem)
        (fun _ => ⟨.refl, .inl rfl, dependenciesOf_root⟩) hresult
      rcases herror with rfl | ⟨⟨name, rfl⟩, hcycle⟩
      · exact absurd hresult (resolveDependencies_ne_tooDeep root {})
      · exact ⟨fun _ => hcycle, fun _ => ⟨name, hresult⟩⟩

theorem hasCycle_of_rootOnCycle (h : RootOnCycle F registryPaths root) :
    HasCycle F registryPaths root :=
  ⟨root.name, .refl, h⟩

/-- A cycle is reported exactly where there is one, except for the cycles that
leave the root out. -/
theorem reports_every_cycle_iff (hall : AllSatisfied F registryPaths root) :
    (ReportsCycle F registryPaths root ↔ HasCycle F registryPaths root) ↔
      (HasCycle F registryPaths root → RootOnCycle F registryPaths root) := by
  rw [reportsCycle_iff_onCycle hall]
  exact ⟨fun h hcycle => h.mpr hcycle, fun h => ⟨hasCycle_of_rootOnCycle, h⟩⟩

/-- A check of finitely many packages that nothing reached from the root leaves. -/
theorem allSatisfied_of_closed (names : List Text) (hroot : root.name ∈ names)
    (hclosed : ∀ p ∈ names, ∀ dependency ∈ dependenciesOf F registryPaths root p,
      dependency.1 ∈ names
        ∧ (foundManifest F registryPaths {} dependency.1).any (fun manifest =>
          manifest.name = dependency.1
            ∧ SemVer.satisfies manifest.version dependency.2 = .ok true) = true) :
    AllSatisfied F registryPaths root := by
  have hreached : ∀ p, ReflTransGen (DependsOn F registryPaths root) root.name p → p ∈ names := by
    intro p h
    induction h with
    | refl => exact hroot
    | tail _ hpq ih =>
        rcases List.mem_map.mp hpq with ⟨dependency, hmem, rfl⟩
        exact (hclosed _ ih dependency hmem).1
  intro p hp dependency hmem
  have hcheck := (hclosed p (hreached p hp) dependency hmem).2
  rw [Option.any_eq_true] at hcheck
  rcases hcheck with ⟨manifest, hfound, hm⟩
  rw [decide_eq_true_eq] at hm
  exact ⟨manifest, hfound, hm.1, hm.2⟩

theorem chain_reports :
    AllSatisfied chain ["reg".toList] application
      ∧ ((ReportsCycle chain ["reg".toList] application ↔
            HasCycle chain ["reg".toList] application) ↔
          (HasCycle chain ["reg".toList] application →
            RootOnCycle chain ["reg".toList] application)) := by
  have hall : AllSatisfied chain ["reg".toList] application :=
    allSatisfied_of_closed ["app".toList, "a".toList, "b".toList] (by decide) (by decide)
  exact ⟨hall, reports_every_cycle_iff hall⟩

/-- Packages `a` and `b` ask for each other. -/
def mutualPair : FileSystem where
  files :=
    [("reg/a/package.abs".toList,
        some ⟨"a".toList, "1.0.0".toList, [("b".toList, "*".toList)]⟩),
      ("reg/b/package.abs".toList,
        some ⟨"b".toList, "1.0.0".toList, [("a".toList, "*".toList)]⟩)]

theorem mutualPair_not_reported :
    AllSatisfied mutualPair ["reg".toList] application
      ∧ HasCycle mutualPair ["reg".toList] application
      ∧ ¬ReportsCycle mutualPair ["reg".toList] application := by
  refine ⟨allSatisfied_of_closed ["app".toList, "a".toList, "b".toList] (by decide) (by decide),
    ?_, ?_⟩
  · have hroot : DependsOn mutualPair ["reg".toList] application "app".toList "a".toList :=
      List.mem_cons_self
    have hforth : DependsOn mutualPair ["reg".toList] application "a".toList "b".toList :=
      List.mem_cons_self
    have hback : DependsOn mutualPair ["reg".toList] application "b".toList "a".toList :=
      List.mem_cons_self
    exact ⟨"a".toList, .single hroot, .tail (.single hforth) hback⟩
  · rintro ⟨name, hname⟩
    cases hname

end Package

end Absolute
