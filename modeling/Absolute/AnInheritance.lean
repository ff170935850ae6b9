import Mathlib.Data.List.Basic
import Absolute.AnOwnership

/-!
# Which hierarchies the walks get through

Every walk over parents returns exactly where no line of parents goes on for ever,
and a cyclic parent relation is such a line. Nothing in the analyzer looks for a
cycle: the declarations of a cyclic hierarchy are walked like any others.

`CanAccess` follows the declared parents, so that for it only a cycle is endless
(`acc_declaredParents_iff`); the other walks put arguments in, and `class A<T> : T`
next to `class B : A<B>` sends them round as well. The walks by parts that go by
whole names can also run along the instances of a generic type.
-/

namespace Absolute

namespace Hierarchy

open Descent

/-! ## What is asked of the analyzer -/

/-- Some type is declared to be among its own ancestors. -/
def Cyclic (types : TypeTable) : Prop :=
  ∃ type, Relation.TransGen (Below (declaredParents types)) type type

structure WalksEnd (types : TypeTable) (plugins : PluginResources) : Prop where
  visible : ∀ owner, ∃ depth, (visibleMembers types depth owner).isSome = true
  found : ∀ methodInstance owner name, ∃ depth,
    (findMembers types methodInstance depth owner name).isSome = true
  inherited : ∀ methodInstance owner name, ∃ depth,
    (findInheritedMembers types methodInstance depth owner name).isSome = true
  derived : ∀ type base, ∃ depth, (isDerivedFrom types depth type base).isSome = true
  accessed : ∀ currentType access owner, ∃ depth,
    (canAccess types depth currentType access owner).isSome = true
  copied : ∀ name, ∃ depth, (copiesByParts types depth name).isSome = true
  released : ∀ name, ∃ depth, (releasesByParts types plugins depth name).isSome = true
  owned : ∀ name, ∃ depth, (ownsUniqueResourceByParts types plugins depth name).isSome = true

/-- A cyclic hierarchy is an error. -/
def CyclesReported (types : TypeTable) : Prop :=
  Cyclic types → ∃ depth reports, visitDeclarations types depth = some reports ∧ reports ≠ []

/-- The parents `FindMembers` follows. -/
def foundParents (types : TypeTable) (owner : TypeName) : List TypeName :=
  superTypes types (objectType owner)

/-- No cycle, no endless line of parents with the arguments put in, and no endless
line of parts where the types on a line are told apart by their whole names. -/
structure LinesEnd (types : TypeTable) (plugins : PluginResources) : Prop where
  acyclic : ¬Cyclic types
  parents : ∀ type, ¬Endless (Below (foundParents types)) type
  copied : ∀ type, ¬Endless (Follows (copiesLook types)) ([], type)
  owned : ∀ type, ¬Endless (Follows (ownsLook types plugins)) ([], type)

variable {types : TypeTable} {plugins : PluginResources}

/-! ## Parents with the arguments put in -/

theorem find_eq_none_of_not_isName {name : TypeName} (h : ¬IsName name) :
    find types name = none := by
  rw [find, Option.map_eq_none_iff, findEntry, List.find?_eq_none]
  intro entry _ heq
  have heq : entry.1.1 = name := by simpa using heq
  exact h (heq ▸ entry.1.2)

/-- A pointer is no declared type. -/
theorem superTypes_of_isPointerType {type : TypeName} (h : isPointerType type = true) :
    superTypes types type = [] := by
  have hname : ¬IsName type := fun hn => by
    obtain ⟨front, rfl⟩ := endsWith_iff.mp (endsWith_of_isPointerType h)
    exact absurd (hn.2 '*' (by simp)) (by decide)
  simp only [superTypes, instanceOf, parseGenericTypeName_of_isPointerType h,
    find_eq_none_of_not_isName hname]

theorem acc_superTypes {type : TypeName} (h : Acc (Below (foundParents types)) type) :
    Acc (Below (superTypes types)) type := by
  refine Subrelation.accessible ?_ h
  intro b a hb
  by_cases hpointer : isPointerType a = true
  · simp [Below, superTypes_of_isPointerType hpointer] at hb
  · simpa [Below, foundParents, objectType, hpointer] using hb

theorem isDerivedFrom_ends {type : TypeName} (base : TypeName)
    (h : Acc (Below (foundParents types)) type) :
    ∃ depth, (isDerivedFrom types depth type base).isSome = true :=
  search_ends_iff.mpr (acc_seek (acc_superTypes h) [])

theorem findInheritedMembers_ends (methodInstance : MethodInstances) (owner name : TypeName)
    (h : ∀ type, Acc (Below (foundParents types)) type) :
    ∃ depth, (findInheritedMembers types methodInstance depth owner name).isSome = true := by
  simp only [findInheritedMembers]
  cases find types (instanceOf types owner).1 with
  | none => exact ⟨0, rfl⟩
  | some type =>
      simp only [Option.isSome_map, mapM_isSome]
      refine exists_common_depth (fun d d' parent hd hs => ?_)
        fun parent _ => gather_ends_iff.mpr (h parent)
      obtain ⟨members, hm⟩ := Option.isSome_iff_exists.mp hs
      exact Option.isSome_iff_exists.mpr ⟨members, gather_mono hd hm⟩

/-! ## Declared parents -/

theorem definitionName_definitionName (name : TypeName) :
    definitionName (definitionName name) = definitionName name := by
  simp [definitionName, List.takeWhile_idem]

theorem declaredParents_definitionName (types : TypeTable) (type : TypeName) :
    declaredParents types (definitionName type) = declaredParents types type := by
  simp only [declaredParents, definitionName_definitionName]

/-- Every name some declaration has for a parent. -/
def parentNames (types : TypeTable) : List TypeName :=
  types.flatMap fun entry => entry.2.parents

theorem mem_parentNames {parent type : TypeName} (h : parent ∈ declaredParents types type) :
    parent ∈ parentNames types := by
  unfold declaredParents find at h
  cases hfind : findEntry types (definitionName type) with
  | none => simp [hfind] at h
  | some entry =>
      simp only [hfind, Option.map_some] at h
      exact List.mem_flatMap.mpr ⟨entry, List.mem_of_find?_eq_some hfind, h⟩

/-- Of declared parents there are finitely many, so only a cycle is endless. -/
theorem acc_declaredParents_iff :
    (∀ type, Acc (Below (declaredParents types)) type) ↔ ¬Cyclic types := by
  constructor
  · rintro h ⟨type, hcycle⟩
    exact not_cycle_of_acc (h type) hcycle
  · intro h type
    exact acc_of_acyclic (parentNames types) (fun _ _ hb => mem_parentNames hb)
      (fun type hcycle => h ⟨type, hcycle⟩) type

/-- A name that is longer than all of these. -/
def freshName (names : List TypeName) : TypeName :=
  List.replicate (names.flatten.length + 1) 'x'

theorem definitionName_ne_freshName {names : List TypeName} {name : TypeName}
    (h : name ∈ names) : definitionName name ≠ freshName names := by
  intro heq
  have hle : (definitionName name).length ≤ name.length := (List.takeWhile_prefix _).length_le
  have hsum : name.length ≤ names.flatten.length :=
    (List.sublist_flatten_of_mem h).length_le
  rw [heq, freshName, List.length_replicate] at hle
  omega

theorem definitionName_freshName (names : List TypeName) :
    definitionName (freshName names) = freshName names := by
  rw [definitionName, freshName, List.takeWhile_replicate]
  simp

theorem canAccess_ends (h : ∀ type, Acc (Below (declaredParents types)) type)
    (currentType : TypeName) (access : AccessLevel) (owner : TypeName) :
    ∃ depth, (canAccess types depth currentType access owner).isSome = true := by
  have hacc : Acc (Follows (seek (definitionName · = definitionName owner)
      (declaredParents types))) (([] : List TypeName), definitionName currentType) :=
    acc_seek (h _) []
  obtain ⟨depth, hd⟩ := search_ends_iff.mpr hacc
  refine ⟨depth, ?_⟩
  unfold canAccess derivesFrom
  split_ifs <;> first | rfl | exact hd

/-- Asked for the members of a type nobody inherits from, `CanAccess` follows all
the parents there are. -/
theorem acc_of_canAccess_ends
    (h : ∀ currentType access owner, ∃ depth,
      (canAccess types depth currentType access owner).isSome = true) (type : TypeName) :
    Acc (Below (declaredParents types)) type := by
  by_cases hempty : definitionName type = []
  · refine .intro type fun parent hparent => ?_
    have hnone : find types (definitionName type) = none :=
      find_eq_none_of_not_isName fun hn => hn.1 hempty
    simp [Below, declaredParents, hnone] at hparent
  · let names := definitionName type :: parentNames types
    have hself : definitionName (definitionName type) ≠ freshName names :=
      definitionName_ne_freshName List.mem_cons_self
    obtain ⟨depth, hd⟩ := h (definitionName type) .Protected (freshName names)
    unfold canAccess at hd
    rw [if_neg (by decide), if_neg (by simp [hempty, freshName]),
      definitionName_freshName, if_neg hself, if_pos rfl] at hd
    rw [definitionName_definitionName] at hd
    have hacc := acc_of_acc_seek (fun b hb => ?_) (search_ends_iff.mp ⟨depth, hd⟩)
    · refine .intro type fun parent hparent => hacc.inv ?_
      rwa [Below, declaredParents_definitionName]
    · rcases Relation.ReflTransGen.cases_tail_iff _ _ _ |>.mp hb with rfl | ⟨c, _, hc⟩
      · exact hself
      · exact definitionName_ne_freshName (List.mem_cons_of_mem _ (mem_parentNames hc))

/-! ## Parents that are named -/

/-- A declared name, and no parameter, or an application. -/
def Named (definition : TypeDefinition) (parent : TypeName) : Prop :=
  (∃ n : Ident, n.1 = parent ∧ n ∉ definition.genericParameters)
    ∨ ∃ base first rest, TypeTerm.canonicalName (.app base first rest) = parent

theorem substitutions_eq_none {definition : TypeDefinition} {arguments : List TypeName}
    {name : TypeName} (h : ∀ n ∈ definition.genericParameters, n.1 ≠ name) :
    definition.substitutions arguments name = none := by
  unfold TypeDefinition.substitutions
  split
  · rw [Option.map_eq_none_iff, List.find?_eq_none]
    intro entry hentry
    simpa using h entry.1 (List.of_mem_zip hentry).1
  · rfl

/-- A type puts nothing into its parents but for parameters of its definition. -/
theorem instanceOf_eq_none {type name : TypeName} {definition : TypeDefinition}
    (hfind : find types (instanceOf types type).1 = some definition)
    (h : ∀ n ∈ definition.genericParameters, n.1 ≠ name) :
    (instanceOf types type).2 name = none := by
  unfold instanceOf at hfind ⊢
  rcases hparse : parseGenericTypeName type with - | ⟨genericBase, genericArguments⟩
  · rfl
  · simp only [hparse] at hfind ⊢
    simp only [hfind]
    exact substitutions_eq_none h

/-- Putting arguments into a name that is not a parameter leaves it alone. -/
theorem substitute_name (n : Ident) {σ : Substitutions} (hσ : σ n.1 = none) :
    substituteGenericType n.1 σ = n.1 := by
  have href := TypeTerm.not_isValueReferenceType (.name n)
  have hb := TypeTerm.not_endsWith_brackets (t := .name n) (fun _ h => by cases h)
  have ho := TypeTerm.canonicalOpenOwnership_nameHead
    (TypeTerm.nameHead_of_unique (t := .name n) rfl)
  have hp := TypeTerm.canonicalOwnership_of_not_pointer (t := .name n)
    (fun _ _ h => by cases h)
  rw [TypeTerm.canonicalName] at href hb ho hp
  simp only [substituteGenericType_eq n.1, href, hσ, hb, ho, hp,
    TypeTerm.parseGenericTypeName_name]
  simp

/-- Putting arguments into an application leaves its base alone. -/
theorem substitute_application (base : Ident) (first : TypeTerm) (rest : List TypeTerm)
    {σ : Substitutions} (hσ : ∀ name, ¬IsName name → σ name = none) :
    ∃ arguments, substituteGenericType (TypeTerm.canonicalName (.app base first rest)) σ
      = genericTypeName base.1 arguments := by
  have hname : ¬IsName (TypeTerm.canonicalName (.app base first rest)) :=
    TypeTerm.not_isName_of_mem (c := '<') (by simp [TypeTerm.canonicalName, genericTypeName])
      (by decide)
  have href := TypeTerm.not_isValueReferenceType (.app base first rest)
  have hb := TypeTerm.not_endsWith_brackets (t := .app base first rest)
    (fun _ h => by cases h)
  have ho := TypeTerm.canonicalOpenOwnership_nameHead
    (TypeTerm.nameHead_of_unique (t := .app base first rest) rfl)
  have hp := TypeTerm.canonicalOwnership_of_not_pointer (t := .app base first rest)
    (fun _ _ h => by cases h)
  rw [substituteGenericType_eq]
  simp only [href, hσ _ hname, hb, ho, hp, TypeTerm.parseGenericTypeName_canonicalName]
  exact ⟨_, rfl⟩

theorem parseGenericTypeName_base {type base : TypeName} {arguments : List TypeName}
    (h : parseGenericTypeName type = some (base, arguments)) : base = definitionName type := by
  unfold parseGenericTypeName at h
  split at h
  · cases h
  · split at h
    · cases h
    · dsimp only at h
      split at h
      · cases h
      · split at h
        · exact (congrArg Prod.fst (Option.some.inj h)).symm
        · cases h

theorem definitionName_ident (n : Ident) : definitionName n.1 = n.1 := by
  refine List.takeWhile_eq_self_iff.mpr fun c hc => ?_
  have hchar := n.2.2 c hc
  rw [decide_eq_true_eq]
  rintro rfl
  exact absurd hchar (by decide)

theorem definitionName_application (base : Ident) (arguments : List TypeName) :
    definitionName (genericTypeName base.1 arguments) = base.1 := by
  have hbase := definitionName_ident base
  unfold definitionName at hbase ⊢
  rw [genericTypeName, List.append_assoc, List.append_assoc, List.takeWhile_append, hbase,
    if_pos rfl]
  simp

/-- A parent of an application is a parent of its base. -/
theorem instanceOf_application {base : Ident} {arguments : List TypeName}
    {found : TypeDefinition}
    (h : find types (instanceOf types (genericTypeName base.1 arguments)).1 = some found) :
    (instanceOf types (genericTypeName base.1 arguments)).1 = base.1 := by
  unfold instanceOf at h ⊢
  rcases hparse : parseGenericTypeName (genericTypeName base.1 arguments) with - | ⟨genericBase, _⟩
  · have hname : ¬IsName (genericTypeName base.1 arguments) :=
      TypeTerm.not_isName_of_mem (c := '<') (by simp [genericTypeName]) (by decide)
    simp only [hparse, find_eq_none_of_not_isName hname] at h
    cases h
  · dsimp only
    rw [parseGenericTypeName_base hparse, definitionName_application]

theorem mem_superTypes {type parent : TypeName} (h : parent ∈ superTypes types type) :
    ∃ found, find types (instanceOf types type).1 = some found ∧
      ∃ declared ∈ found.parents,
        substituteGenericType declared (instanceOf types type).2 = parent := by
  rw [superTypes] at h
  rcases hfind : find types (instanceOf types type).1 with - | found
  · simp [hfind] at h
  · simp only [hfind, List.mem_map] at h
    exact ⟨found, rfl, h⟩

/-- `type` is what `declared`, a parent of some definition, comes to in an instance. -/
def Instance (types : TypeTable) (type declared : TypeName) : Prop :=
  ∃ entry ∈ types, Named entry.2 declared ∧ ∃ σ : Substitutions,
    (∀ name, (∀ n ∈ entry.2.genericParameters, n.1 ≠ name) → σ name = none) ∧
      substituteGenericType declared σ = type

theorem instance_superTypes (hnamed : ∀ entry ∈ types, ∀ p ∈ entry.2.parents, Named entry.2 p)
    {type parent : TypeName} (h : parent ∈ superTypes types type) :
    ∃ found, find types (instanceOf types type).1 = some found ∧
      ∃ declared ∈ found.parents, Instance types parent declared := by
  obtain ⟨found, hfind, declared, hdeclared, rfl⟩ := mem_superTypes h
  have hfind' := hfind
  rw [find, Option.map_eq_some_iff] at hfind'
  obtain ⟨entry, hentry, rfl⟩ := hfind'
  have hmem : entry ∈ types := List.mem_of_find?_eq_some hentry
  exact ⟨_, hfind, declared, hdeclared, entry, hmem, hnamed entry hmem declared hdeclared,
    _, fun _ hn => instanceOf_eq_none hfind hn, rfl⟩

/-- The parents of an instance come from the parents of the name behind it. -/
theorem instance_step (hnamed : ∀ entry ∈ types, ∀ p ∈ entry.2.parents, Named entry.2 p)
    {type declared parent : TypeName} (h : Instance types type declared)
    (hparent : parent ∈ foundParents types type) :
    ∃ declared' ∈ declaredParents types declared, Instance types parent declared' := by
  obtain ⟨entry, -, hname, σ, hσ, rfl⟩ := h
  rcases hname with ⟨n, rfl, hn⟩ | ⟨base, first, rest, rfl⟩
  · have hnone : σ n.1 = none := hσ _ fun m hm heq => hn (Subtype.ext heq ▸ hm)
    have hobject : objectType n.1 = n.1 := by
      have hp := TypeTerm.canonicalOwnership_of_not_pointer (t := .name n)
        (fun _ _ h => by cases h)
      rw [TypeTerm.canonicalName] at hp
      simp [objectType, isPointerType, hp]
    rw [substitute_name n hnone, foundParents, hobject] at hparent
    obtain ⟨found, hfind, declared', hmem, hinst⟩ := instance_superTypes hnamed hparent
    refine ⟨declared', ?_, hinst⟩
    rw [instanceOf, TypeTerm.parseGenericTypeName_name] at hfind
    rw [declaredParents, definitionName_ident, hfind]
    exact hmem
  · obtain ⟨arguments, heq⟩ := substitute_application base first rest fun name hname =>
      hσ name fun n _ hn => hname (hn ▸ n.2)
    have hobject : objectType (genericTypeName base.1 arguments)
        = genericTypeName base.1 arguments := by
      have hstar : endsWith (genericTypeName base.1 arguments) "*".toList = false := by
        rw [Bool.eq_false_iff, ne_eq, endsWith_iff]
        rintro ⟨front, hfront⟩
        rw [genericTypeName] at hfront
        simpa using (List.append_inj' hfront rfl).2
      have howner : canonicalOwnership (genericTypeName base.1 arguments) = .None := by
        rw [canonicalOwnership, hstar, if_pos (by simp)]
      simp [objectType, isPointerType, howner]
    rw [heq, foundParents, hobject] at hparent
    obtain ⟨found, hfind, declared', hmem, hinst⟩ := instance_superTypes hnamed hparent
    refine ⟨declared', ?_, hinst⟩
    have hbase := instanceOf_application hfind
    rw [hbase] at hfind
    rw [declaredParents, TypeTerm.canonicalName_app, definitionName_application, hfind]
    exact hmem

/-- Where no parent is a parameter, only a cycle is an endless line of parents. -/
theorem acc_foundParents_of_acyclic
    (hnamed : ∀ entry ∈ types, ∀ p ∈ entry.2.parents, Named entry.2 p) (h : ¬Cyclic types)
    (type : TypeName) : Acc (Below (foundParents types)) type := by
  refine .intro type fun parent hparent => ?_
  obtain ⟨-, -, declared, -, hinst⟩ := instance_superTypes hnamed hparent
  exact acc_of_simulation (fun _ _ hR _ hb => instance_step hnamed hR hb) hinst
    (acc_declaredParents_iff.mpr h declared)

/-! ## The walks together -/

theorem walksEnd_of_linesEnd (h : LinesEnd types plugins) : WalksEnd types plugins := by
  have hparents : ∀ type, Acc (Below (foundParents types)) type :=
    fun type => not_endless_iff.mp (h.parents type)
  refine ⟨?_, ?_, ?_, ?_, ?_, ?_, ?_, ?_⟩
  · exact fun owner => gather_ends_iff.mpr (acc_superTypes (hparents owner))
  · exact fun methodInstance owner name => gather_ends_iff.mpr (hparents owner)
  · exact fun methodInstance owner name =>
      findInheritedMembers_ends methodInstance owner name hparents
  · exact fun type base => isDerivedFrom_ends base (hparents type)
  · exact canAccess_ends (acc_declaredParents_iff.mpr h.acyclic)
  · intro name
    simp only [copiesByParts, Option.isSome_map]
    exact search_ends_iff.mpr (not_endless_iff.mp (h.copied name))
  · exact releasesByParts_ends types plugins
  · exact fun name => search_ends_iff.mpr (not_endless_iff.mp (h.owned name))

theorem linesEnd_of_walksEnd (h : WalksEnd types plugins) : LinesEnd types plugins := by
  refine ⟨?_, ?_, ?_, ?_⟩
  · exact acc_declaredParents_iff.mp (acc_of_canAccess_ends h.accessed)
  · exact fun type =>
      not_endless_iff.mpr (gather_ends_iff.mp (h.found (fun _ m => m.symbol) type []))
  · intro type
    have hcopied := h.copied type
    simp only [copiesByParts, Option.isSome_map] at hcopied
    exact not_endless_iff.mpr (search_ends_iff.mp hcopied)
  · exact fun type => not_endless_iff.mpr (search_ends_iff.mp (h.owned type))

/-- The walks return and a cycle is an error exactly where every line of parents
and parts comes to an end. -/
theorem inheritance_walks_iff (types : TypeTable) (plugins : PluginResources) :
    WalksEnd types plugins ∧ CyclesReported types ↔ LinesEnd types plugins := by
  constructor
  · exact fun h => linesEnd_of_walksEnd h.1
  · exact fun h => ⟨walksEnd_of_linesEnd h, fun hcyclic => absurd hcyclic h.acyclic⟩

/-! ## A cycle nobody reports -/

/-- `class A : B` and `class B : A`. -/
def mutualParents : TypeTable :=
  [(⟨"A".toList, by decide⟩, ⟨.Class, [], [⟨"B".toList, "B".toList⟩], []⟩),
    (⟨"B".toList, by decide⟩, ⟨.Class, [], [⟨"A".toList, "A".toList⟩], []⟩)]

/-- The declarations have nothing to report of their parents, and the walk over
the members of `A` does not come back. -/
theorem mutualParents_unreported :
    (∀ entry ∈ mutualParents, parentReports mutualParents entry.1.1 entry.2 = [])
      ∧ ¬(WalksEnd mutualParents (fun _ => none) ∧ CyclesReported mutualParents) := by
  refine ⟨by decide, fun ⟨hends, _⟩ => ?_⟩
  have hup : Below (superTypes mutualParents) "B".toList "A".toList := by
    unfold Below; decide
  have hback : Below (superTypes mutualParents) "A".toList "B".toList := by
    unfold Below; decide
  exact not_cycle_of_acc (gather_ends_iff.mp (hends.visible "A".toList))
    (.tail (.single hback) hup)

end Hierarchy

end Absolute
