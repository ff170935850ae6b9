import Mathlib.Data.List.Basic
import Mathlib.Data.Prod.Lex
import Absolute.AnHierarchy

/-!
# Copying and releasing by parts

`CopiesByParts`, `ReleasesByParts` and `OwnsUniqueResourceByParts`
(`Absolute-Analyzer/src/analyzer.cpp`): three walks over the fields and parents of
a type, each up to the first part that decides the answer. All of them keep the
types they are inside of and turn back at one of these, but by different keys:
`ReleasesByParts` by the name of the definition, the other two by the whole name.
There are finitely many definitions, so the first always returns
(`releasesByParts_ends`); a generic type can have an endless line of instances.
-/

namespace Absolute

namespace Hierarchy

open Descent

/-! ## Handles and plugins -/

structure HandleSemantics where
  copyable : Bool
  movable : Bool
  needsDrop : Bool
deriving Repr, DecidableEq

def canonicalHandleSemantics : OwnershipKind → HandleSemantics
  | .Unique => ⟨false, true, true⟩
  | .Sub | .Weak | .Raw | .None => ⟨true, true, false⟩

/-- `GetPluginResourceDescriptor(name)`, with the descriptor's `isResource`. -/
abbrev PluginResources := TypeName → Option Bool

/-! ## The parts of a type -/

/-- The declared class or struct a type is an instance of. -/
def aggregateOf (types : TypeTable) (candidate : TypeName) : Option TypeDefinition :=
  (find types (instanceOf types candidate).1).filter fun found =>
    found.kind = .Class ∨ found.kind = .Struct

/-- `!substitutions.empty()`. -/
def isInstance (types : TypeTable) (candidate : TypeName) : Bool :=
  (parseGenericTypeName candidate).any fun parsed =>
    (find types parsed.1).any fun found => found.genericParameters.length = parsed.2.length

/-- Left alone where the candidate puts nothing in. -/
def asWritten (types : TypeTable) (candidate type : TypeName) : TypeName :=
  if isInstance types candidate then substituteGenericType type (instanceOf types candidate).2
  else type

/-- The members of these kinds that belong to an object. -/
def ownMembers (kinds : List SymbolKind) (overloads : List MemberSignature) :
    List MemberSignature :=
  overloads.filter fun member => !member.isStatic ∧ member.kind ∈ kinds

/-- A member named `destroy` decides for a release before its type is looked at. -/
def releasedMembers (write : TypeName → TypeName) (members : MemberMap) :
    List (Option TypeName) :=
  members.flatMap fun entry =>
    if entry.1 = "destroy".toList then [none]
    else (ownMembers [.Field, .Property] entry.2).map fun member => some (write member.type)

/-! ## The walks -/

/-- A part is found where it does not copy. -/
def copiesLook (types : TypeTable) (candidate : TypeName) : Look TypeName TypeName :=
  if isValueReferenceType candidate then
    .parts none [some (valueReferenceBaseType candidate)]
  else if canonicalOwnership candidate ≠ .None then
    .answer (!(canonicalHandleSemantics (canonicalOwnership candidate)).copyable)
  else if 0 < arrayRank candidate then .answer true
  else match (parseGenericTypeName candidate).filter (·.1 = "tuple".toList) with
    | some (_, genericArguments) => .parts none (genericArguments.map some)
    | none => .parts (some candidate) (match aggregateOf types candidate with
      | none => []
      | some found =>
          found.members.flatMap (fun entry => (ownMembers [.Field] entry.2).map fun member =>
            some (asWritten types candidate member.type))
          ++ found.parents.map fun parent => some (asWritten types candidate parent))

def copiesByParts (types : TypeTable) (depth : Nat) (name : TypeName) : Option Bool :=
  (search (copiesLook types) depth [] name).map (!·)

def releasesLook (types : TypeTable) (plugins : PluginResources) (candidate : TypeName) :
    Look TypeName TypeName :=
  if candidate = "string".toList then .answer true
  else if isValueReferenceType candidate then
    .parts none [some (valueReferenceBaseType candidate)]
  else if canonicalOwnership candidate ≠ .None then
    .answer (canonicalHandleSemantics (canonicalOwnership candidate)).needsDrop
  else if 0 < arrayRank candidate then .answer true
  else if plugins candidate = some true then .answer true
  else match (parseGenericTypeName candidate).filter
      (fun parsed => parsed.1 = "tuple".toList ∨ parsed.1 = "func".toList) with
    | some (genericBase, genericArguments) =>
        if genericBase = "func".toList then .answer true
        else .parts none (genericArguments.map some)
    | none => .parts (some (instanceOf types candidate).1)
        (match aggregateOf types candidate with
        | none => []
        | some found =>
            let write := (substituteGenericType · (instanceOf types candidate).2)
            releasedMembers write found.members
              ++ found.parents.map fun parent => some (write parent))

def releasesByParts (types : TypeTable) (plugins : PluginResources) (depth : Nat)
    (name : TypeName) : Option Bool :=
  search (releasesLook types plugins) depth [] name

def ownsLook (types : TypeTable) (plugins : PluginResources) (candidate : TypeName) :
    Look TypeName TypeName :=
  if isStrongManagedPointerType candidate ∨ 0 < arrayRank candidate then .answer true
  else if isPointerType candidate then .answer false
  else match plugins candidate with
    | some isResource => .answer isResource
    | none => match (parseGenericTypeName candidate).filter (·.1 = "tuple".toList) with
      | some (_, genericArguments) => .parts none (genericArguments.map some)
      | none => .parts (some candidate) (match aggregateOf types candidate with
        | none => []
        | some found =>
            releasedMembers (asWritten types candidate) found.members
              ++ found.parents.map fun parent => some (asWritten types candidate parent))

def ownsUniqueResourceByParts (types : TypeTable) (plugins : PluginResources) (depth : Nat)
    (name : TypeName) : Option Bool :=
  search (ownsLook types plugins) depth [] name

/-! ## The walk by definitions -/

/-- A part is shorter, or belongs to an instance of a declared type. -/
theorem releasesLook_parts {types : TypeTable} {plugins : PluginResources}
    {candidate part : TypeName} {key : Option TypeName} {next : List (Option TypeName)}
    (h : releasesLook types plugins candidate = .parts key next) (hpart : some part ∈ next) :
    (key = none ∧ part.length < candidate.length)
      ∨ ∃ name, key = some name ∧ (find types name).isSome := by
  unfold releasesLook at h
  split at h
  · cases h
  split at h
  · rename_i href
    obtain ⟨rfl, rfl⟩ := Look.parts.inj h
    obtain rfl : part = _ := by simpa using hpart
    exact .inl ⟨rfl, length_valueReferenceBaseType href⟩
  iterate 3
    split at h
    · cases h
  split at h
  · rename_i genericBase genericArguments hparse
    split at h
    · cases h
    · obtain ⟨rfl, rfl⟩ := Look.parts.inj h
      have hmem : part ∈ genericArguments := by simpa using hpart
      have hparsed := (Option.filter_eq_some_iff.mp hparse).1
      exact .inl ⟨rfl, (length_of_mem_parseGenericTypeName hparsed).2 part hmem⟩
  · obtain ⟨rfl, rfl⟩ := Look.parts.inj h
    refine .inr ⟨_, rfl, ?_⟩
    rw [aggregateOf] at hpart
    cases hfind : find types (instanceOf types candidate).1 with
    | none => simp [hfind] at hpart
    | some found => rfl

/-- The declared names the walk is not inside of. -/
def unvisited (types : TypeTable) (visiting : List TypeName) : Nat :=
  (types.filter fun entry => visiting.all (· ≠ entry.1.1)).length

theorem unvisited_lt {types : TypeTable} {visiting : List TypeName} {name : TypeName}
    (hname : name ∉ visiting) (hfind : (find types name).isSome) :
    unvisited types (name :: visiting) < unvisited types visiting := by
  rw [find, Option.isSome_map, findEntry, List.find?_isSome] at hfind
  obtain ⟨entry, hentry, heq⟩ := hfind
  have heq : entry.1.1 = name := by simpa using heq
  have hsub : (types.filter fun entry => (name :: visiting).all (· ≠ entry.1.1))
      = (types.filter fun entry => visiting.all (· ≠ entry.1.1)).filter
          fun entry => name ≠ entry.1.1 := by
    rw [List.filter_filter]
    exact List.filter_congr fun entry _ => by simp [List.all_cons]
  rw [unvisited, unvisited, hsub]
  refine List.length_filter_lt_length_iff_exists.mpr ⟨entry, ?_, by simp [heq]⟩
  refine List.mem_filter.mpr ⟨hentry, List.all_eq_true.mpr fun other hother => ?_⟩
  rw [decide_eq_true_eq, heq]
  rintro rfl
  exact hname hother

theorem releasesByParts_ends (types : TypeTable) (plugins : PluginResources) (name : TypeName) :
    ∃ depth, (releasesByParts types plugins depth name).isSome = true := by
  refine search_ends_iff.mpr ?_
  let measure : List TypeName × TypeName → ℕ ×ₗ ℕ :=
    fun x => toLex (unvisited types x.1, x.2.length)
  refine Subrelation.accessible (r := InvImage (· < ·) measure) ?_
    (InvImage.accessible measure (wellFounded_lt.apply _))
  intro y x hyx
  cases hyx with
  | @mk _ _ part _ front rest hlook hkey _ =>
      have hpart : some part ∈ front ++ some part :: rest := by simp
      rcases releasesLook_parts hlook hpart with ⟨rfl, hlt⟩ | ⟨name, rfl, hfind⟩
      · exact Prod.Lex.toLex_lt_toLex.mpr (.inr ⟨rfl, hlt⟩)
      · exact Prod.Lex.toLex_lt_toLex.mpr (.inl (unvisited_lt (hkey name (by simp)) hfind))

end Hierarchy

end Absolute
