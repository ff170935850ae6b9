import Mathlib.Data.List.Basic
import Absolute.AnHierarchy

/-!
# Targets

The expressions that can name a place, as the analyzer evaluates them
(`Visit(IdentifierExpr)`, `Visit(MemberAccessExpr)`, `Visit(ArrayAccessExpr)`,
`Visit(SliceExpr)` and the dereference of `Visit(PrefixUnaryExpr)`), and the checks
every mutation puts its target through: `IsConstMutationTarget` and the walk of
`CheckMutableTarget`.

An evaluation gives the symbol, the type and whether the expression is an lvalue,
or the code of what it reports. The flow of values through variables is not
followed.
-/

namespace Absolute

namespace Hierarchy

/-! ## Symbols and expressions -/

/-- What the walks over targets read of a symbol. -/
structure Symbol where
  kind : SymbolKind
  type : TypeName
  isConst : Bool := false
  isStatic : Bool := false
  valueReference : Bool := false
  canRead : Bool := true
  canWrite : Bool := true
  access : AccessLevel := .Public
  readAccess : AccessLevel := .Public
  writeAccess : AccessLevel := .Public
  memberOwner : TypeName := []
  scopeDepth : Nat := 0
deriving DecidableEq

/-- The symbol `DeclareMember` makes for a member. -/
def MemberSignature.declared (member : MemberSignature) : Symbol where
  kind := member.kind
  type := member.type
  isConst := member.isConst
  isStatic := member.isStatic
  canRead := member.canRead
  canWrite := member.canWrite
  access := member.access
  readAccess := member.readAccess
  writeAccess := member.writeAccess
  memberOwner := member.owner

structure Result where
  symbol : Option Symbol
  type : TypeName
  isLValue : Bool
deriving DecidableEq

inductive AccessMode where
  | Read
  | Write
  | Address
  | Delete
deriving Repr, DecidableEq

/-- An index or a bound stands for its type, an omitted one is `none`. Any other
expression brings the name `ExtractQualifiedName` finds in it. -/
inductive Expr where
  | identifier (name : TypeName)
  | memberAccess (base : Expr) (member : TypeName)
  | arrayAccess (base : Expr) (indexes : List (Option TypeName))
  | slice (base : Expr) (ranges : List (Option TypeName × Option TypeName))
  | dereference (operand : Expr)
  | other (qualifiedName : TypeName) (result : Except String Result)

/-- Where an expression stands and what the analyzer's tables answer there. -/
structure Scope where
  /-- `table.Get(LookupSymbol(name))`. -/
  lookupSymbol : TypeName → Option Symbol
  /-- `ResolveTypeReference(name)`, where `types` contains it. -/
  typeReceiver : TypeName → Option TypeName
  findMembers : TypeName → TypeName → List MemberSignature
  /-- The indexer a list of index types selects on a type. -/
  selectIndexer : TypeName → List TypeName → Except String (Option MemberSignature)
  canAccess : AccessLevel → TypeName → Bool
  typeOwnsUniqueResource : TypeName → Bool
  indexerBorrowProjection : TypeName → TypeName
  /-- The scope depths of the lambdas around. -/
  lambdaContexts : List Nat
  currentMethodStatic : Bool
  currentMethodConst : Bool
  currentConstructor : Bool

def qualifiedName : Expr → TypeName
  | .identifier name => name
  | .memberAccess base member =>
      if qualifiedName base = [] then member
      else qualifiedName base ++ ".".toList ++ member
  | .arrayAccess base _ => qualifiedName base
  | .slice base _ => qualifiedName base
  | .dereference operand => qualifiedName operand
  | .other qualifiedName _ => qualifiedName

/-! ## Evaluation -/

def accessCode : AccessLevel → String
  | .Private => "E_PRIVATE_ACCESS"
  | _ => "E_PROTECTED_ACCESS"

def requireAccess (C : Scope) (access : AccessLevel) (owner : TypeName) : Except String Unit :=
  if C.canAccess access owner then .ok () else .error (accessCode access)

/-- What the access mode asks of a property. -/
def checkAccessor (mode : AccessMode) (property : Symbol) : Except String Unit :=
  if mode = .Read ∧ !property.canRead then .error "E_PROPERTY_WRITE_ONLY"
  else if mode = .Write ∧ !property.canWrite then .error "E_PROPERTY_READ_ONLY"
  else if mode = .Address ∨ mode = .Delete then .error "E_PROPERTY_NOT_ADDRESSABLE"
  else .ok ()

/-- The accessor the access mode calls. -/
def accessorAccess (mode : AccessMode) (property : Symbol) : AccessLevel :=
  if mode = .Write then property.writeAccess else property.readAccess

def requireAccessor (C : Scope) (mode : AccessMode) (property : Symbol) :
    Except String Unit := do
  requireAccess C (accessorAccess mode property) property.memberOwner
  checkAccessor mode property

def isFunctionType (type : TypeName) : Bool :=
  (parseGenericTypeName type).any (·.1 = "func".toList)

def isTaskType (type : TypeName) : Bool :=
  (parseGenericTypeName type).any (·.1 = "task".toList)

/-- `captured.scopeDepth` lies outside of a lambda around. -/
def isCaptured (C : Scope) (symbol : Symbol) : Bool :=
  C.lambdaContexts.any fun scopeDepth =>
    0 < symbol.scopeDepth ∧ symbol.scopeDepth < scopeDepth

def recordCapture (C : Scope) (symbol : Symbol) : Except String Unit :=
  if !isCaptured C symbol then .ok ()
  else if symbol.valueReference then .error "E_VALUE_REF_CAPTURE"
  else if !isFunctionType symbol.type ∧ (isPointerType symbol.type ∨ isTaskType symbol.type ∨
      0 < arrayRank symbol.type ∨ C.typeOwnsUniqueResource symbol.type) then
    .error "E_LAMBDA_CAPTURE_RESOURCE"
  else .ok ()

/-- What a lambda captures by a mention of the symbol. -/
def capturedSymbol (C : Scope) (symbol : Symbol) : Option Symbol :=
  if symbol.kind = .Variable ∨ symbol.kind = .Parameter then some symbol
  else if (symbol.kind = .Field ∨ symbol.kind = .Property) ∧ !symbol.isStatic then
    C.lookupSymbol "this".toList
  else none

def isMember (symbol : Symbol) : Bool := symbol.kind = .Field ∨ symbol.kind = .Property

/-- The mention of a member by its bare name. -/
def requireMember (C : Scope) (mode : AccessMode) (symbol : Symbol) : Except String Unit :=
  match symbol.kind with
  | .Property =>
      if symbol.memberOwner = [] then checkAccessor mode symbol
      else requireAccessor C mode symbol
  | .Field | .Method =>
      if symbol.memberOwner = [] then .ok ()
      else requireAccess C symbol.access symbol.memberOwner
  | _ => .ok ()

def evaluateIdentifier (C : Scope) (mode : AccessMode) (name : TypeName) :
    Except String Result :=
  match C.lookupSymbol name with
  | none => .error "E_UNKNOWN_OBJECT"
  | some symbol =>
      if C.currentMethodStatic ∧ isMember symbol ∧ !symbol.isStatic then
        .error "E_STATIC_INSTANCE_ACCESS"
      else do
        requireMember C mode symbol
        let captured := capturedSymbol C symbol
        (captured.map (recordCapture C)).getD (.ok ())
        if captured.any (isCaptured C) then
          if mode = .Read then .ok ⟨some symbol, symbol.type, false⟩
          else .error "E_LAMBDA_CAPTURE_MUTATION"
        else match symbol.kind with
          | .Variable | .Parameter | .Field => .ok ⟨some symbol, symbol.type, true⟩
          | .Property => .ok ⟨some symbol, symbol.type, symbol.canWrite⟩
          | .Function => .ok ⟨some symbol, symbol.type, false⟩
          | _ => .error "E_OBJECT_NOT_A_VALUE"

/-- A name with dots that stands for a symbol of its own. -/
def evaluateQualified (C : Scope) (mode : AccessMode) (symbol : Symbol) :
    Except String Result :=
  match symbol.kind with
  | .Variable | .Parameter | .Field => .ok ⟨some symbol, symbol.type, true⟩
  | .Property => do
      requireAccessor C mode symbol
      .ok ⟨some symbol, symbol.type, symbol.canWrite⟩
  | .Function | .Method => .ok ⟨some symbol, symbol.type, false⟩
  | _ => .error "E_OBJECT_NOT_A_VALUE"

def evaluateStaticField (C : Scope) (typeReceiver member : TypeName) : Except String Result :=
  let members := C.findMembers typeReceiver member
  match members.find? fun m => m.kind = .Field ∧ m.isStatic with
  | some field => do
      requireAccess C field.access field.owner
      .ok ⟨some field.declared, field.type, true⟩
  | none =>
      if members.any fun m => (m.kind = .Field ∨ m.kind = .Property) ∧ !m.isStatic then
        .error "E_INSTANCE_MEMBER_ON_TYPE"
      else .error "E_UNKNOWN_STATIC_FIELD"

def isCountName (member : TypeName) : Bool :=
  member = "length".toList ∨ member = "count".toList

/-- `length` and `count`. -/
def evaluateCount (mode : AccessMode) : Except String Result :=
  if mode = .Read then .ok ⟨none, "int32".toList, false⟩ else .error "E_PROPERTY_READ_ONLY"

/-- The number behind `item`. -/
def tupleIndex (member : TypeName) : Option Nat :=
  if startsWith member "item".toList ∧ member.drop 4 ≠ [] ∧ (member.drop 4).all Char.isDigit then
    some ((member.drop 4).foldl (fun n c => 10 * n + (c.toNat - '0'.toNat)) 0)
  else none

/-- The elements of a tuple type. -/
def tupleElements (type : TypeName) : Option (List TypeName) :=
  ((parseGenericTypeName type).filter (·.1 = "tuple".toList)).map (·.2)

def evaluateField (C : Scope) (mode : AccessMode) (base : Result) (member : TypeName) :
    Except String Result :=
  let members := C.findMembers base.type member
  match members.find? fun m => m.kind = .Property ∧ !m.isStatic with
  | some property => do
      requireAccessor C mode property.declared
      .ok ⟨some property.declared, property.type, property.canWrite⟩
  | none => match members.find? fun m => m.kind = .Field ∧ !m.isStatic with
    | some field => do
        requireAccess C field.access field.owner
        .ok ⟨some field.declared, field.type, true⟩
    | none =>
        if members.any fun m => m.kind = .Field ∧ m.isStatic then
          .error "E_STATIC_MEMBER_ON_OBJECT"
        else .error "E_UNKNOWN_MEMBER"

/-- A member of an evaluated base. -/
def evaluateMember (C : Scope) (mode : AccessMode) (base : Result) (member : TypeName) :
    Except String Result :=
  if 0 < arrayRank base.type ∧ isCountName member then evaluateCount mode
  else match tupleElements base.type with
    | some elements =>
        if isCountName member then evaluateCount mode
        else match (tupleIndex member).bind (elements[·]?) with
          | some element => .ok ⟨base.symbol, element, base.isLValue⟩
          | none => .error "E_TUPLE_MEMBER"
    | none => evaluateField C mode base member

def isInteger (type : TypeName) : Bool := isIntegerTypeName type ∨ type = "char".toList

/-- An index of an array is an integer, or has been reported. -/
def isIndexType (type : TypeName) : Bool := isInteger type ∨ type = "error".toList

def evaluateIndexer (C : Scope) (mode : AccessMode) (indexer : MemberSignature) :
    Except String Result :=
  match mode with
  | .Read =>
      if !indexer.canRead then .error "E_INDEXER_WRITE_ONLY"
      else do
        requireAccess C indexer.readAccess indexer.owner
        .ok ⟨some indexer.declared, C.indexerBorrowProjection indexer.type, indexer.canWrite⟩
  | .Write =>
      if !indexer.canWrite then .error "E_INDEXER_READ_ONLY"
      else do
        requireAccess C indexer.writeAccess indexer.owner
        .ok ⟨some indexer.declared, indexer.type, indexer.canWrite⟩
  | .Address | .Delete => .error "E_INDEXER_NOT_ADDRESSABLE"

/-- `pointer[index]`. -/
def evaluatePointer (base : Result) (indexTypes : List TypeName) : Except String Result :=
  if !isRawPointerType base.type then .error "E_INDEXER_NOT_FOUND"
  else if indexTypes.length ≠ 1 then .error "E_POINTER_INDEX_COUNT"
  else if !indexTypes.all isIndexType then .error "E_POINTER_INDEX_TYPE"
  else .ok ⟨none, canonicalPointeeName base.type, true⟩

/-- `base[..]` where the base is no array. -/
def evaluateSubscript (C : Scope) (mode : AccessMode) (base : Result)
    (indexTypes : List TypeName) : Except String Result := do
  match ← C.selectIndexer base.type indexTypes with
  | some indexer => evaluateIndexer C mode indexer
  | none => evaluatePointer base indexTypes

def isFullSlice (base : Result) (indexes : List (Option TypeName)) : Bool :=
  arrayRank base.type = 1 ∧ indexes = [none]

/-- The subscripts of an evaluated base. -/
def evaluateAccess (C : Scope) (mode : AccessMode) (base : Result)
    (indexes : List (Option TypeName)) : Except String Result :=
  if isFullSlice base indexes then .ok ⟨base.symbol, base.type, false⟩
  else if indexes.any (·.isNone) then .error "E_ARRAY_INDEX_MISSING"
  else if arrayRank base.type = 0 then evaluateSubscript C mode base indexes.reduceOption
  else if !indexes.reduceOption.all isIndexType then .error "E_ARRAY_INDEX_TYPE"
  else if arrayRank base.type < indexes.length then .error "E_ARRAY_INDEX_COUNT"
  else .ok ⟨base.symbol, arrayElementTypeOf base.type indexes.length, true⟩

def evaluateSlice (base : Result) (ranges : List (Option TypeName × Option TypeName)) :
    Except String Result :=
  if arrayRank base.type = 0 then .error "E_SLICE_REQUIRES_ARRAY"
  else if arrayRank base.type < ranges.length then .error "E_SLICE_RANGE_COUNT"
  else if ranges.any fun range => !(range.1.all isInteger && range.2.all isInteger) then
    .error "E_SLICE_BOUND_TYPE"
  else .ok ⟨base.symbol, base.type, false⟩

def evaluateDereference (operand : Result) : Except String Result :=
  if isPointerType operand.type then .ok ⟨none, canonicalPointeeName operand.type, true⟩
  else .error "E_DEREFERENCE_REQUIRES_POINTER"

/-- The symbol a dotted name has of its own, or the type its base names: then the
base is not evaluated. -/
def isQualified (C : Scope) (base : Expr) (member : TypeName) : Bool :=
  (C.lookupSymbol (qualifiedName (.memberAccess base member))).isSome
    ∨ (C.typeReceiver (qualifiedName base)).isSome

def evaluateDotted (C : Scope) (mode : AccessMode) (base : Expr) (member : TypeName) :
    Except String Result :=
  let found := C.lookupSymbol (qualifiedName (.memberAccess base member))
  match found.filter fun symbol => !isMember symbol with
  | some symbol => evaluateQualified C mode symbol
  | none => match C.typeReceiver (qualifiedName base) with
    | some typeReceiver => evaluateStaticField C typeReceiver member
    | none => match found with
      | some symbol => evaluateQualified C mode symbol
      | none => .error "E_UNKNOWN_MEMBER"

def evaluate (C : Scope) (mode : AccessMode) : Expr → Except String Result
  | .identifier name => evaluateIdentifier C mode name
  | .memberAccess base member =>
      if isQualified C base member then evaluateDotted C mode base member
      else do
        let base ← evaluate C mode base
        evaluateMember C mode base member
  | .arrayAccess base indexes => do
      let base ← evaluate C mode base
      evaluateAccess C mode base indexes
  | .slice base ranges => do
      let base ← evaluate C mode base
      evaluateSlice base ranges
  | .dereference operand => do
      let operand ← evaluate C mode operand
      evaluateDereference operand
  | .other _ result => result

/-! ## The checks of a mutation -/

/-- What is left when the members and subscripts are taken off. -/
def receiverRoot : Expr → Expr
  | .memberAccess base _ => receiverRoot base
  | .arrayAccess base _ => receiverRoot base
  | e => e

/-- A member is among what `receiverRoot` takes off. -/
def hasExplicitReceiver : Expr → Bool
  | .memberAccess _ _ => true
  | .arrayAccess base _ => hasExplicitReceiver base
  | _ => false

def isThis : Expr → Bool
  | .identifier name => name = "this".toList
  | _ => false

/-- `GetExpressionInfo(expression)`: nothing where the expression was skipped. -/
def expressionInfo (C : Scope) (mode : AccessMode) (visited : Bool) (expression : Expr) :
    Option Result :=
  if visited then (evaluate C mode expression).toOption else none

def isConstSymbol (C : Scope) (symbol : Symbol) : Bool :=
  symbol.isConst ∧ ¬(C.currentConstructor ∧ symbol.kind = .Field)

/-- The second loop of `IsConstMutationTarget`, and what follows it. -/
def hasConstRoot (C : Scope) (mode : AccessMode) (visited : Bool) : Expr → Bool
  | .memberAccess base member =>
      let visited := visited && !isQualified C base member
      if (expressionInfo C mode visited base).any fun info => isPointerType info.type then false
      else hasConstRoot C mode visited base
  | .arrayAccess base _ => hasConstRoot C mode visited base
  | root => ((expressionInfo C mode visited root).bind (·.symbol)).any (isConstSymbol C)

def isConstMutationTarget (C : Scope) (mode : AccessMode) (expression : Expr)
    (target : Result) : Bool :=
  target.symbol.any (fun symbol => isConstSymbol C symbol ∨
      C.currentMethodConst ∧
        (symbol.kind = .Field ∨ symbol.kind = .Property ∨ symbol.kind = .Indexer) ∧
        (!hasExplicitReceiver expression ∨ isThis (receiverRoot expression)))
    || hasConstRoot C mode true expression

/-- `placeInfo.addressable`, as `Save` leaves it. -/
def addressable (result : Result) : Bool :=
  result.isLValue ∧ result.symbol.all fun symbol =>
    symbol.kind ≠ .Property ∧ symbol.kind ≠ .Indexer

/-- A base that is a copy rather than a place. -/
def isCopy (info : Result) : Bool :=
  !addressable info ∧ !isPointerType info.type ∧ arrayRank info.type = 0

/-- The loop of `CheckMutableTarget`. -/
def writesThroughCopy (C : Scope) (mode : AccessMode) (visited : Bool) : Expr → Bool
  | .memberAccess base member =>
      let visited := visited && !isQualified C base member
      (expressionInfo C mode visited base).any isCopy || writesThroughCopy C mode visited base
  | .arrayAccess base _ =>
      (expressionInfo C mode visited base).any isCopy || writesThroughCopy C mode visited base
  | _ => false

/-- What the language can do to a place. -/
inductive Mutation where
  | assignment
  | compoundAssignment
  | increment
  | delete
  | addressOf
  | move
  | referenceArgument
deriving Repr, DecidableEq

def Mutation.accessMode : Mutation → AccessMode
  | .assignment | .compoundAssignment | .increment => .Write
  | .delete => .Delete
  | .addressOf => .Address
  | .move | .referenceArgument => .Read

/-- `CheckMutableTarget` is made of these; the others ask `IsConstMutationTarget`. -/
def Mutation.checksCopies (m : Mutation) : Bool := m ≠ .move ∧ m ≠ .referenceArgument

/-- The target passes what the mutation asks of a target. -/
def acceptsTarget (C : Scope) (m : Mutation) (target : Expr) : Bool :=
  match evaluate C m.accessMode target with
  | .error _ => false
  | .ok result => result.isLValue ∧ !isConstMutationTarget C m.accessMode target result ∧
      !(m.checksCopies ∧ writesThroughCopy C m.accessMode true target)

end Hierarchy

end Absolute
