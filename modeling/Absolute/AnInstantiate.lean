import Mathlib.Data.List.Basic
import Mathlib.Data.List.Perm.Basic
import Mathlib.Control.Basic
import Absolute.AnConversion
import Absolute.AnTypeTerms

/-!
# Resolving type references

`Analyzer::ResolveTypeReference` and the instantiation closure at the end of
`Analyzer::Analyze`. Resolving a generic application notes the instance in
`instantiatedGenericTypes` and, where it is new and not open, resolves the
types of its parents and members with the arguments put in; the closure does
this again for the members of every instance noted, until a round notes none.

The tables hold the names the earlier phases left there: `CanonicalType` is the
canonical name of some type, `WrittenType` what a declaration can say, which may
also be a value reference or nothing at all. Aliases are resolved.

The analysis recurses on the machine stack. `resolveTypeReference` takes the
depth it may use and is a failure where that is not enough.
-/

namespace Absolute

def IsCanonical (n : TypeName) : Prop := ∃ t, TypeTerm.canonicalName t = n

/-- The canonical name of some type. -/
abbrev CanonicalType := {n : TypeName // IsCanonical n}

def IsWritten (n : TypeName) : Prop :=
  IsCanonical n ∨ isValueReferenceType n = true ∨ n = []

/-- What the type of a member or parameter can be. -/
abbrev WrittenType := {n : TypeName // IsWritten n}

/-! ## Declarations -/

structure MemberSignature where
  type : WrittenType
  parameterTypes : List WrittenType

/-- `members` are the overloads by member name; the walk over them does not read
the names. -/
structure TypeDefinition where
  members : List (List MemberSignature)
  parents : List WrittenType
  genericParameters : List Ident
  genericConstraints : List String

/-- An entry of the symbol table; `isType` is `kind == SymbolKind::Type`. -/
structure Symbol where
  name : Ident
  isType : Bool
deriving DecidableEq

/-- What the collecting phases leave behind. `copyable` stands for
`SemanticsOfType(type).copyable`. -/
structure Declarations where
  types : List (Ident × TypeDefinition)
  typeAliases : List (Ident × CanonicalType)
  copyable : TypeName → Bool

/-- Where a reference stands: the generic scopes and symbol scopes around it,
innermost first, and the namespaces. -/
structure Context where
  genericTypeScopes : List (List (Ident × CanonicalType))
  symbolScopes : List (List Symbol)
  currentNamespace : TypeName
  importedNamespaces : List TypeName

/-- `map.find(name)`, with the key found. -/
def findEntry {α : Type} (entries : List (Ident × α)) (name : TypeName) : Option (Ident × α) :=
  entries.find? fun entry => entry.1.1 = name

/-- `table.Get(table.Lookup(name))`. -/
def Context.tableLookup (C : Context) (name : TypeName) : Option Symbol :=
  C.symbolScopes.findSome? fun scope => scope.find? fun symbol => symbol.name.1 = name

def qualified (scope name : TypeName) : TypeName := scope ++ ".".toList ++ name

/-- `scope.resize(scope.rfind('.'))`. -/
def enclosingNamespace (scope : TypeName) : TypeName :=
  ((scope.reverse.dropWhile (· ≠ '.')).drop 1).reverse

def enclosingNamespacesGo : Nat → TypeName → List TypeName
  | 0, _ => []
  | n + 1, scope =>
      if scope = [] then []
      else if '.' ∈ scope then scope :: enclosingNamespacesGo n (enclosingNamespace scope)
      else [scope]

/-- The namespaces a name is looked up in, innermost first. -/
def enclosingNamespaces (scope : TypeName) : List TypeName :=
  enclosingNamespacesGo scope.length scope

def Context.lookupSymbol (C : Context) (name : TypeName) : Option Symbol :=
  if name = [] then none
  else match C.tableLookup name with
    | some direct => some direct
    | none =>
        if '.' ∈ name then
          if C.currentNamespace ≠ [] then C.tableLookup (qualified C.currentNamespace name)
          else none
        else
          (enclosingNamespaces C.currentNamespace ++ C.importedNamespaces).findSome?
            fun scope => C.tableLookup (qualified scope name)

/-- The alias a name means, where it means one. -/
def lookupTypeAliasName (D : Declarations) (C : Context) (name : TypeName) : Option Ident :=
  let scopes :=
    if '.' ∉ name ∧ C.currentNamespace ≠ [] then enclosingNamespaces C.currentNamespace else []
  let candidates := name :: (scopes ++ C.importedNamespaces).map (qualified · name)
  candidates.findSome? fun candidate => (findEntry D.typeAliases candidate).map (·.1)

def resolveTypeAlias (D : Declarations) (name : Ident) : TypeName :=
  match findEntry D.typeAliases name.1 with
  | none => name.1
  | some (_, resolvedType) => resolvedType.1

/-- The innermost generic scope that binds the name. -/
def Context.genericParameter (C : Context) (name : TypeName) : Option CanonicalType :=
  C.genericTypeScopes.findSome? fun scope => (findEntry scope name).map (·.2)

/-- An argument that stands for itself in some scope. -/
def Context.isOpen (C : Context) (arguments : List TypeName) : Bool :=
  arguments.any fun argument => C.genericTypeScopes.any fun scope =>
    (findEntry scope argument).any fun entry => entry.2.1 = argument

/-- The end of `ResolveTypeReference`, for a name that is no application. -/
def resolveTypeName (D : Declarations) (C : Context) (name : TypeName) : TypeName :=
  if isPrimitiveName name ∨ name = "null".toList ∨ name = "error".toList then name
  else match (C.lookupSymbol name).filter (·.isType) with
    | some symbol => symbol.name.1
    | none =>
        if C.currentNamespace ≠ []
            ∧ (findEntry D.types (qualified C.currentNamespace name)).isSome then
          qualified C.currentNamespace name
        else match D.types.find? fun entry =>
            name.length < entry.1.1.length ∧ endsWith entry.1.1 (".".toList ++ name) with
          | some (typeName, _) => typeName.1
          | none => name

/-! ## What an instance mentions -/

/-- `substitutions.emplace(genericParameters[i], genericArguments[i])`: the first
of two equal parameters counts. -/
def TypeDefinition.substitutions (definition : TypeDefinition) (arguments : List TypeName) :
    Substitutions := fun name =>
  ((definition.genericParameters.zip arguments).find? fun entry => entry.1.1 = name).map (·.2)

def TypeDefinition.memberUses (definition : TypeDefinition) (arguments : List TypeName) :
    List TypeName :=
  (definition.members.flatten.flatMap fun member => member.type :: member.parameterTypes).map
    fun use => substituteGenericType use.1 (definition.substitutions arguments)

def TypeDefinition.parentUses (definition : TypeDefinition) (arguments : List TypeName) :
    List TypeName :=
  definition.parents.map fun use =>
    substituteGenericType use.1 (definition.substitutions arguments)

/-- What a new instance has resolved: its parents, then its members. -/
def TypeDefinition.uses (definition : TypeDefinition) (arguments : List TypeName) :
    List TypeName :=
  definition.parentUses arguments ++ definition.memberUses arguments

/-! ## The analysis -/

structure Diagnostic where
  message : String
  code : String
deriving Repr, DecidableEq

structure InstantiationState where
  instantiatedGenericTypes : List TypeName := []
  unmetConstraintInstantiations : List TypeName := []
  diagnostics : List Diagnostic := []

/-- A step of the analysis; `none` where the stack does not suffice. -/
abbrev Analysis := StateT InstantiationState Option

def InstantiationState.report (s : InstantiationState) (message code : String) :
    InstantiationState :=
  { s with diagnostics := s.diagnostics ++ [⟨message, code⟩] }

/-- `instantiatedGenericTypes.insert(name)` of a new name. -/
def InstantiationState.instantiate (s : InstantiationState) (name : TypeName) :
    InstantiationState :=
  { s with instantiatedGenericTypes := name :: s.instantiatedGenericTypes }

def InstantiationState.refuse (s : InstantiationState) (name : TypeName) :
    InstantiationState :=
  { s with unmetConstraintInstantiations := s.unmetConstraintInstantiations.insert name }

def arityMessage (resolvedBase : TypeName) (expected got : Nat) : String :=
  "generic type '" ++ String.ofList resolvedBase ++ "' expects " ++ toString expected
    ++ " type argument(s), got " ++ toString got

def constraintMessage (resolvedBase parameter argument : TypeName) : String :=
  "generic type '" ++ String.ofList resolvedBase ++ "' requires a copyable '"
    ++ String.ofList parameter ++ "', and '" ++ String.ofList argument
    ++ "' owns a resource there is one of, so a second name for it is not an "
    ++ "ordinary thing to have; borrow it with 'sub', or hand it over with move(...)"

/-- What the type asked of its parameters, asked of the arguments. -/
def checkConstraints (D : Declarations) (definition : TypeDefinition)
    (resolvedBase result : TypeName) (arguments : List TypeName) (s : InstantiationState) :
    InstantiationState :=
  let asked := definition.genericParameters.zip (arguments.zip definition.genericConstraints)
  asked.foldl (fun s ask =>
    let argument := ask.2.1
    let requirement := ask.2.2
    if requirement = "" then s
    else if argument = "error".toList ∨ argument = "auto".toList then s
    else if requirement = "copyable" ∧ ¬D.copyable argument then
      (s.refuse result).report (constraintMessage resolvedBase ask.1.1 argument)
        "E_GENERIC_CONSTRAINT"
    else s) s

/-- The end of `ResolveTypeReference` for an application that is an instance of
`definition`; `resolve` is the recursive call. -/
def resolveInstance (D : Declarations) (C : Context) (resolve : TypeName → Analysis TypeName)
    (definition : TypeDefinition) (resolvedBase : TypeName) (arguments : List TypeName) :
    Analysis TypeName := do
  let result := genericTypeName resolvedBase arguments
  let s ← get
  -- the only guard of the recursion below
  if result ∈ s.instantiatedGenericTypes then return result
  else if C.isOpen arguments then do
    set (s.instantiate result)
    return result
  else do
    set (checkConstraints D definition resolvedBase result arguments (s.instantiate result))
    let _ ← (definition.uses arguments).mapM resolve
    return result

/-- The rest of `ResolveTypeReference` for `name`, an application whose base and
arguments are resolved. -/
def resolveApplication (D : Declarations) (C : Context) (resolve : TypeName → Analysis TypeName)
    (name resolvedBase : TypeName) (arguments : List TypeName) : Analysis TypeName :=
  if resolvedBase = "tuple".toList then return genericTypeName "tuple".toList arguments
  else match findEntry D.types resolvedBase with
  | none => return name
  | some (_, definition) =>
      if definition.genericParameters = [] then return name
      else if definition.genericParameters.length ≠ arguments.length then do
        modify fun s => s.report (arityMessage resolvedBase
          definition.genericParameters.length arguments.length) "E_GENERIC_TYPE_ARITY"
        return "error".toList
      else resolveInstance D C resolve definition resolvedBase arguments

def resolveTypeReference (D : Declarations) (C : Context) : Nat → TypeName → Analysis TypeName
  | 0, _ => failure
  | depth + 1, name =>
      if endsWith name "[]".toList then do
        let element ← resolveTypeReference D C depth (dropBrackets name)
        return element ++ "[]".toList
      else if canonicalOwnership name ≠ .None then do
        let pointee ← resolveTypeReference D C depth (canonicalPointeeName name)
        return canonicalPointerName pointee (canonicalOwnership name)
      else match C.genericParameter name with
      | some found => return found.1
      | none => match lookupTypeAliasName D C name with
      | some aliasName => return resolveTypeAlias D aliasName
      | none => match parseGenericTypeName name with
      | none => return resolveTypeName D C name
      | some (genericBase, genericArguments) => do
          let resolvedBase ← resolveTypeReference D C depth genericBase
          let arguments ← genericArguments.mapM (resolveTypeReference D C depth)
          resolveApplication D C (resolveTypeReference D C depth) name resolvedBase arguments

/-! ## The closure -/

/-- An order in which a hash set may be read. -/
abbrev IterationOrder := {arrange : List TypeName → List TypeName // ∀ l, (arrange l).Perm l}

/-- The member types of an instance the closure resolves again. -/
def closureUses (D : Declarations) (genericType : TypeName) : List TypeName :=
  match parseGenericTypeName genericType with
  | none => []
  | some (genericBase, genericArguments) =>
      match findEntry D.types genericBase with
      | none => []
      | some (_, definition) =>
          if definition.genericParameters.length ≠ genericArguments.length then []
          else definition.memberUses genericArguments

/-- `while (addedNew)`, `rounds` times at most. -/
def instantiationClosure (D : Declarations) (C : Context) (order : IterationOrder)
    (depth : Nat) : Nat → Analysis Unit
  | 0 => failure
  | rounds + 1 => do
      let currentTypes := (← get).instantiatedGenericTypes
      let _ ← ((order.1 currentTypes).flatMap (closureUses D)).mapM
        (resolveTypeReference D C depth)
      if currentTypes.length < (← get).instantiatedGenericTypes.length then
        instantiationClosure D C order depth rounds

end Absolute
