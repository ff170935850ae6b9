import Mathlib.Data.List.Basic
import Absolute.AnInstantiate
import Absolute.LibDescent

/-!
# The class hierarchy and the walks over it

The declared types as the collecting phases leave them, with what the walks over
parents read, and those walks: `VisibleMembers`, `FindMembers`, `IsDerivedFrom`
and `CanAccess`. Each is written separately in the analyzer, and none keeps a list
of where it has been. They differ in what they take for a type's parents:

- `superTypes` puts the arguments of a generic application into the parents;
- `FindMembers` does so too, and takes a pointer for its pointee first;
- `CanAccess` cuts a name at its first `<` and puts nothing in.

The walks recurse on the machine stack and take the depth they may use.
-/

namespace Absolute

namespace Hierarchy

open Descent

/-! ## Declared types -/

inductive AccessLevel where
  | Public
  | Protected
  | Private
deriving Repr, DecidableEq

inductive SymbolKind where
  | Variable
  | Parameter
  | Function
  | Type
  | Field
  | Property
  | Indexer
  | Method
  | Constructor
  | Namespace
deriving Repr, DecidableEq

inductive TypeKind where
  | Other
  | Enum
  | Struct
  | Class
  | Interface
deriving Repr, DecidableEq

abbrev SymbolId := Nat

structure MemberSignature where
  kind : SymbolKind := .Field
  type : TypeName
  parameterTypes : List TypeName := []
  symbol : SymbolId
  isConst : Bool := false
  isStatic : Bool := false
  canRead : Bool := true
  canWrite : Bool := true
  access : AccessLevel := .Public
  readAccess : AccessLevel := .Public
  writeAccess : AccessLevel := .Public
  owner : TypeName := []
deriving DecidableEq

/-- Overloads by name, in the order a hash map is read. -/
abbrev MemberMap := List (TypeName × List MemberSignature)

/-- A parent as written and as `ResolveTypeReference` resolves it. -/
structure ParentClause where
  written : TypeName
  resolved : TypeName
deriving DecidableEq

/-- The part of the record that walks over members and parents read. -/
structure TypeDefinition where
  kind : TypeKind
  genericParameters : List Ident := []
  parentClauses : List ParentClause := []
  members : MemberMap := []

abbrev TypeTable := List (Ident × TypeDefinition)

def TypeDefinition.parents (definition : TypeDefinition) : List TypeName :=
  definition.parentClauses.map (·.resolved)

def find (types : TypeTable) (name : TypeName) : Option TypeDefinition :=
  (findEntry types name).map (·.2)

/-- `substitutions.emplace(genericParameters[i], genericArguments[i])` where the
counts agree; the first of two equal parameters counts. -/
def TypeDefinition.substitutions (definition : TypeDefinition) (arguments : List TypeName) :
    Substitutions := fun name =>
  if definition.genericParameters.length = arguments.length then
    ((definition.genericParameters.zip arguments).find? fun entry => entry.1.1 = name).map (·.2)
  else none

/-- The definition a type is an instance of and what its parameters stand for. -/
def instanceOf (types : TypeTable) (type : TypeName) : TypeName × Substitutions :=
  match parseGenericTypeName type with
  | none => (type, fun _ => none)
  | some (genericBase, genericArguments) =>
      (genericBase, match find types genericBase with
        | none => fun _ => none
        | some definition => definition.substitutions genericArguments)

def superTypes (types : TypeTable) (type : TypeName) : List TypeName :=
  let (definitionName, substitutions) := instanceOf types type
  match find types definitionName with
  | none => []
  | some found => found.parents.map (substituteGenericType · substitutions)

/-- A pointer's name ends in a star. -/
theorem endsWith_of_isPointerType {type : TypeName} (h : isPointerType type = true) :
    endsWith type "*".toList = true := by
  by_contra hnot
  rw [isPointerType, canonicalOwnership, if_pos (.inr hnot)] at h
  simp at h

/-- An application ends otherwise. -/
theorem parseGenericTypeName_of_isPointerType {type : TypeName} (h : isPointerType type = true) :
    parseGenericTypeName type = none := by
  obtain ⟨front, rfl⟩ := endsWith_iff.mp (endsWith_of_isPointerType h)
  unfold parseGenericTypeName
  split
  · rfl
  · rw [if_pos (by simp)]

/-! ## Members -/

def MemberMap.get (members : MemberMap) (name : TypeName) : List MemberSignature :=
  (members.find? fun entry => entry.1 = name).elim [] (·.2)

/-- `members[name]`, changed by `f`. -/
def MemberMap.alter (members : MemberMap) (name : TypeName)
    (f : List MemberSignature → List MemberSignature) : MemberMap :=
  match members with
  | [] => [(name, f [])]
  | (other, overloads) :: rest =>
      if other = name then (other, f overloads) :: rest
      else (other, overloads) :: MemberMap.alter rest name f

/-- A member a type declares takes the place of these it inherits. -/
def replaces (declared inherited : MemberSignature) : Bool :=
  match declared.kind with
  | .Method => inherited.kind = .Method ∧ inherited.parameterTypes = declared.parameterTypes
  | .Property => inherited.kind = .Property
  | .Indexer => inherited.kind = .Indexer ∧ inherited.parameterTypes = declared.parameterTypes
  | _ => false

def addDeclared (visible : List MemberSignature) (declared : MemberSignature) :
    List MemberSignature :=
  (visible.filter fun inherited => !replaces declared inherited) ++ [declared]

def MemberSignature.substitute (member : MemberSignature) (substitutions : Substitutions) :
    MemberSignature :=
  { member with
    type := substituteGenericType member.type substitutions
    parameterTypes := member.parameterTypes.map (substituteGenericType · substitutions) }

/-! ## VisibleMembers -/

/-- What `VisibleMembers` makes of the members of the parents. -/
def mergeVisible (types : TypeTable) (owner : TypeName) (inherited : List MemberMap) :
    MemberMap :=
  let (definitionName, substitutions) := instanceOf types owner
  match find types definitionName with
  | none => []
  | some found =>
      let result := inherited.flatten.foldl
        (fun result entry => MemberMap.alter result entry.1 (· ++ entry.2)) []
      found.members.foldl (fun result entry =>
        entry.2.foldl (fun result original =>
          MemberMap.alter result entry.1
            (addDeclared · (original.substitute substitutions))) result) result

def visibleMembers (types : TypeTable) (depth : Nat) (owner : TypeName) : Option MemberMap :=
  gather (superTypes types) (mergeVisible types) depth owner

/-! ## FindMembers -/

/-- `IsPointerType(owner) ? PointerPointee(owner) : owner`. -/
def objectType (owner : TypeName) : TypeName :=
  if isPointerType owner then canonicalPointeeName owner else owner

/-- The symbol of a method in a generic instance: what `InstantiateGenericFunction`
returns for it, where `FindMembers` calls it. -/
abbrev MethodInstances := Substitutions → MemberSignature → SymbolId

def mergeFound (types : TypeTable) (methodInstance : MethodInstances) (name owner : TypeName)
    (inherited : List (List MemberSignature)) : List MemberSignature :=
  let (definitionName, substitutions) := instanceOf types (objectType owner)
  match find types definitionName with
  | none => []
  | some type => (type.members.get name).foldl (fun result original =>
      let declared := original.substitute substitutions
      addDeclared result (if declared.kind = .Method then
        { declared with symbol := methodInstance substitutions declared } else declared))
      inherited.flatten

def findMembers (types : TypeTable) (methodInstance : MethodInstances) (depth : Nat)
    (owner name : TypeName) : Option (List MemberSignature) :=
  gather (fun owner => superTypes types (objectType owner))
    (mergeFound types methodInstance name) depth owner

/-- The parents here are the declared ones. -/
def findInheritedMembers (types : TypeTable) (methodInstance : MethodInstances) (depth : Nat)
    (owner name : TypeName) : Option (List MemberSignature) :=
  match find types (instanceOf types owner).1 with
  | none => some []
  | some type => (type.parents.mapM (findMembers types methodInstance depth · name)).map
      List.flatten

/-! ## IsDerivedFrom -/

def isDerivedFrom (types : TypeTable) (depth : Nat) (type base : TypeName) : Option Bool :=
  search (seek (· = base) (superTypes types)) depth ([] : List TypeName) type

/-! ## CanAccess -/

/-- `name.resize(name.find('<'))`. -/
def definitionName (name : TypeName) : TypeName := name.takeWhile (· ≠ '<')

/-- The parents the walk of `CanAccess` sees. -/
def declaredParents (types : TypeTable) (type : TypeName) : List TypeName :=
  match find types (definitionName type) with
  | none => []
  | some found => found.parents

def derivesFrom (types : TypeTable) (depth : Nat) (type declaring : TypeName) : Option Bool :=
  search (seek (definitionName · = declaring) (declaredParents types)) depth
    ([] : List TypeName) type

def canAccess (types : TypeTable) (depth : Nat) (currentType : TypeName) (access : AccessLevel)
    (owner : TypeName) : Option Bool :=
  if access = .Public then some true
  else if currentType = [] ∨ owner = [] then some false
  else if definitionName currentType = definitionName owner then some true
  else if access = .Protected then
    derivesFrom types depth (definitionName currentType) (definitionName owner)
  else some false

/-! ## The declarations -/

def classParentReport (types : TypeTable) (typeName : TypeName) (parent : ParentClause) :
    Option Diagnostic :=
  match find types (instanceOf types parent.resolved).1 with
  | none => some ⟨"unknown parent type '" ++ String.ofList parent.written ++ "' of class '"
      ++ String.ofList typeName ++ "'", "E_UNKNOWN_PARENT_TYPE"⟩
  | some found => match found.kind with
    | .Class | .Interface => none
    | _ => some ⟨"class '" ++ String.ofList typeName ++ "' cannot inherit non-class type '"
        ++ String.ofList parent.resolved ++ "'", "E_INVALID_CLASS_PARENT"⟩

/-- The parents that are classes. -/
def classParents (types : TypeTable) (definition : TypeDefinition) : List ParentClause :=
  definition.parentClauses.filter fun parent =>
    (find types (instanceOf types parent.resolved).1).any fun found => found.kind = .Class

def interfaceParentReport (types : TypeTable) (typeName : TypeName) (parent : ParentClause) :
    Option Diagnostic :=
  match find types (instanceOf types parent.resolved).1 with
  | none => some ⟨"unknown parent interface '" ++ String.ofList parent.written
      ++ "' of interface '" ++ String.ofList typeName ++ "'", "E_UNKNOWN_PARENT_INTERFACE"⟩
  | some found =>
      if found.kind = .Interface then none
      else some ⟨"interface '" ++ String.ofList typeName
        ++ "' can only inherit another interface", "E_INVALID_INTERFACE_PARENT"⟩

/-- What a declaration has reported of its parents. -/
def parentReports (types : TypeTable) (typeName : TypeName) (definition : TypeDefinition) :
    List Diagnostic :=
  match definition.kind with
  | .Class => definition.parentClauses.filterMap (classParentReport types typeName)
      ++ if 1 < (classParents types definition).length then
        [⟨"class '" ++ String.ofList typeName ++ "' cannot inherit more than one class",
          "E_MULTIPLE_CLASS_INHERITANCE"⟩] else []
  | .Interface => definition.parentClauses.filterMap (interfaceParentReport types typeName)
  | _ => []

/-- `Visit(ClassDeclStmt)` and `Visit(InterfaceDeclStmt)` up to the members: the
reports on the parents, then the walk that declares what is visible. -/
def visitDeclaration (types : TypeTable) (depth : Nat) (entry : Ident × TypeDefinition) :
    Option (List Diagnostic) :=
  match entry.2.kind with
  | .Class | .Interface => (visibleMembers types depth entry.1.1).map fun _ =>
      parentReports types entry.1.1 entry.2
  | _ => some []

def visitDeclarations (types : TypeTable) (depth : Nat) : Option (List Diagnostic) :=
  (types.mapM (visitDeclaration types depth)).map List.flatten

end Hierarchy

end Absolute
