import Absolute.AnTargets
import Absolute.LibPaired

/-!
# Places

How the backend reaches the place an expression names: `EvaluateAddress` and
`Evaluate` over the visitors of `IdentifierExpr`, `MemberAccessExpr`,
`ArrayAccessExpr` and the dereference of `PrefixUnaryExpr`, with `ObjectPointer`,
`ViewOfArray`, `ArrayElementAddress`, `ManagedPointee` and `EmitPropertyAccessor`.

The values are those of the emitted code, as terms. A load is told apart from one of
the same address by what was written before it, and what a call brings is a value of
its own. Which function an accessor call reaches is left to dispatch.
-/

namespace Absolute

namespace Places

/-! ## Values, effects and operands -/

/-- A value of the emitted code. `given` is one that is there before the expression:
the storage of a variable, the data of an array, a dimension. A load carries how
often its address was written before, a result the position of what brought it. -/
inductive Value where
  | constant (n : Int)
  | given (n : Nat)
  | currentThis
  | function (name : TypeName)
  | result (position : Nat)
  | load (address : Value) (version : Nat)
  | field (object : Value) (member : TypeName)
  | offset (base index : Value)
  | pointee (handle : Value)
  | extract (aggregate : Value) (index : Nat)
  | unary (op : String) (operand : Value)
  | binary (op : String) (left right : Value)
deriving DecidableEq, Repr

/-- `CallableKey` of a getter or a setter: the property or the indexer, and the
parameter types. -/
structure Accessor where
  member : TypeName
  parameterTypes : List TypeName
deriving DecidableEq, Repr

/-- What an update acts on: an address, or a property or an indexer of an object. -/
inductive Place where
  | address (a : Value)
  | member (name : TypeName) (object : Value) (arguments : List Value)
deriving DecidableEq, Repr

/-- What the emitted code does, in order. Loads on the way to a place are part of
its value; the last four are what an update does to places. -/
inductive Effect where
  /-- `EmitOrExit(index < dimension, "array.bounds")`. -/
  | check (index dimension : Value)
  /-- `EmitManagedGet(handle, true)`. -/
  | managedGet (handle : Value)
  | spill (value : Value)
  | call (number : Nat)
  | get (accessor : Accessor) (object : Value) (arguments : List Value)
  | read (place : Place)
  | write (place : Place) (assigned : Value)
  /-- `EmitOrExit(flag, "delete.requires.owner")`. -/
  | requireOwner (flag : Value)
  /-- What the pointer in the place names is cleaned up and freed. -/
  | release (place : Place)
deriving DecidableEq, Repr

/-- An expression. `call` stands for any that brings a value of its own, with the
identifier a walk down its first parts ends at. -/
inductive Operand where
  | identifier (name : TypeName)
  | numberLiteral (value : Int)
  | memberAccess (base : Operand) (member : TypeName)
  | arrayAccess (base : Operand) (indexes : List Operand)
  | dereference (operand : Operand)
  | addressOf (operand : Operand)
  | unary (op : String) (operand : Operand)
  | binary (op : String) (left right : Operand)
  | call (callee : TypeName) (number : Nat)

/-- `IdentifierName`: the identifier `BaseIdentifierVisitor` saw last, empty when it
saw none. -/
def identifierName : Operand → TypeName
  | .identifier name => name
  | .numberLiteral _ => []
  | .memberAccess base _ => identifierName base
  | .arrayAccess base _ => identifierName base
  | .dereference operand => identifierName operand
  | .addressOf operand => identifierName operand
  | .unary _ operand => identifierName operand
  | .binary _ left right =>
      if identifierName right = [] then identifierName left else identifierName right
  | .call callee _ => callee

/-! ## What the backend knows -/

/-- A dimension of an array variable. -/
inductive Dimension where
  | constant (n : Nat)
  | measured (n : Nat)
deriving DecidableEq, Repr

def Dimension.value : Dimension → Value
  | constant n => .constant n
  | measured n => .given n

structure Variable where
  address : Nat
  /-- `One(type)` has a constant for the LLVM type. -/
  numeric : Bool := true
  managedOwner : Bool := false
  isArray : Bool := false
  arrayDimensions : List Dimension := []
  managedPointee : Option Nat := none
  ownershipFlagStorage : Option Nat := none
  symbol : Nat := 0
deriving DecidableEq, Repr

/-- `GetExpressionInfo` and the symbol it names. -/
structure Info where
  type : TypeName
  kind : Option Hierarchy.SymbolKind := none
  name : TypeName := []
  memberOwner : TypeName := []
  isStatic : Bool := false
  canRead : Bool := true
  isLValue : Bool := true
  addressable : Bool := true
  parameterTypes : List TypeName := []
  pointerOwner : Option Nat := none

structure Context where
  info : Operand → Info
  findVariable : TypeName → Option Variable
  /-- The storage of a static field, by its qualified name. -/
  globals : TypeName → Option Nat
  enumConstants : TypeName → Option Int
  /-- `fieldByName` of a class or struct; `none` where the type has no members. -/
  hasField : TypeName → Option (TypeName → Bool)
  currentClassName : TypeName := []
  /-- There is a receiver. -/
  hasThis : Bool
  /-- A call may store to the address. -/
  callWrites : Nat → Value → Bool
  getterWrites : Accessor → Value → Bool
  /-- What `IRBuilder` makes of operations on constants. -/
  foldUnary : String → Int → Option Int := fun _ _ => none
  foldBinary : String → Int → Int → Option Int := fun _ _ _ => none

/-- `SemanticType`. -/
def Context.type (C : Context) (e : Operand) : TypeName := (C.info e).type

def Effect.writes (C : Context) (address : Value) : Effect → Bool
  | .call number => C.callWrites number address
  | .get accessor _ _ => C.getterWrites accessor address
  | _ => false

/-! ## Emission -/

abbrev Emission := Paired.Computation (List Effect) String

/-- `Fail`. -/
def fail {α : Type} (message : String) : Emission α := fun _ => .error message

def emit (effect : Effect) : Emission Unit := fun trace => .ok ((), trace ++ [effect])

/-- An effect that brings a value. -/
def produce (effect : Effect) : Emission Value := fun trace =>
  .ok (.result trace.length, trace ++ [effect])

/-- How often an address was written. -/
def version (C : Context) (trace : List Effect) (address : Value) : Nat :=
  trace.countP (Effect.writes C address)

def load (C : Context) (address : Value) : Emission Value := fun trace =>
  .ok (.load address (version C trace address), trace)

/-! ## The visitors -/

/-- What follows the last dot of a name. -/
def lastComponent (name : TypeName) : TypeName := (name.reverse.takeWhile (· ≠ '.')).reverse

def qualifiedMember (owner member : TypeName) : TypeName := owner ++ ".".toList ++ member

/-- The variable whose cached pointee stands for an expression. -/
def cachedPointee (C : Context) : Operand → Option Nat
  | .identifier name => (C.findVariable name).bind fun v =>
      if (C.info (.identifier name)).pointerOwner = some v.symbol then v.managedPointee
      else none
  | _ => none

def managedPointee (C : Context) (e : Operand) (handle : Value) : Emission Value :=
  match cachedPointee C e with
  | some slot => load C (.given slot)
  | none => do
      emit (.managedGet handle)
      pure (.pointee handle)

/-- The expression a member or an element is taken of. -/
def baseOf : Operand → Option Operand
  | .memberAccess base _ => some base
  | .arrayAccess base _ => some base
  | _ => none

def hasAddressableStorage (C : Context) : Operand → Bool
  | .memberAccess base member =>
      (C.info (.memberAccess base member)).addressable &&
        (isPointerType (C.type base) || 0 < arrayRank (C.type base) ||
          hasAddressableStorage C base)
  | .arrayAccess base indexes =>
      (C.info (.arrayAccess base indexes)).addressable &&
        (isPointerType (C.type base) || 0 < arrayRank (C.type base) ||
          hasAddressableStorage C base)
  | e => (C.info e).addressable

/-- `ObjectPointer`, given how the expression is evaluated and how its address is. -/
def objectPointer (C : Context) (addressMode : Bool) (e : Operand)
    (value address : Emission Value) : Emission Value :=
  if isPointerType (C.type e) then do
    let pointer ← value
    if isManagedPointerType (C.type e) then managedPointee C e pointer else pure pointer
  else if !addressMode && !hasAddressableStorage C e then do
    let copied ← value
    produce (.spill copied)
  else address

/-- `receiver ? ObjectPointer(receiver, ..) : currentThis`, without a receiver. -/
def implicitReceiver (C : Context) : Emission Value :=
  if C.hasThis then pure .currentThis
  else fail "property accessor requires an object receiver"

def getterKey (property : TypeName) : Accessor := ⟨property, []⟩

def indexerMember : TypeName := "this[]".toList

/-- `EmitPropertyAccessor` of a getter. -/
def emitGetter (accessor : Accessor) (object : Emission Value) (arguments : List Value) :
    Emission Value := do
  let object ← object
  produce (.get accessor object arguments)

structure View where
  address : Value
  dimensions : List Value
deriving DecidableEq, Repr

def Variable.view (v : Variable) : View :=
  ⟨.given v.address, v.arrayDimensions.map Dimension.value⟩

def arrayViewFromValue (descriptor : Value) (type : TypeName) : Emission View :=
  if arrayRank type = 0 then fail "array expression does not produce a descriptor"
  else
    pure ⟨.extract descriptor 0, (List.range (arrayRank type)).map (.extract descriptor <| · + 2)⟩

/-- The variable an expression is by name. -/
def namedVariable (C : Context) : Operand → Option Variable
  | .identifier name => C.findVariable name
  | _ => none

/-- `ViewOfArray`. -/
def viewOfArray (C : Context) (e : Operand) (value : Emission Value) : Emission View :=
  match namedVariable C e with
  | some v => if v.isArray then pure v.view else fail "object is not an array"
  | none => do
      let descriptor ← value
      arrayViewFromValue descriptor (C.type e)

/-- The indexes after the first, each after its dimension's multiplication, then the
dimensions left. -/
def linearOffsetFrom : Value → List Value → List Value → Value
  | offset, [], dimensions => dimensions.foldl (.binary "*") offset
  | offset, _ :: _, [] => offset
  | offset, i :: indexes, d :: dimensions =>
      linearOffsetFrom (.binary "+" (.binary "*" offset d) i) indexes dimensions

def linearOffset : List Value → List Value → Value
  | i :: indexes, _ :: dimensions => linearOffsetFrom i indexes dimensions
  | _, dimensions => dimensions.foldl (.binary "*") (.constant 0)

def checkIndex (index : Value) : Option Value → Emission Unit
  | some dimension => emit (.check index dimension)
  | none => pure ()

/-- The value at an address, or the address itself in address mode. -/
def place (C : Context) (addressMode : Bool) (address : Value) : Emission Value :=
  if addressMode then pure address else load C address

/-- The storage a name stands for: a static field, a variable or a field of the
receiver. An array variable is its descriptor. -/
def visitStorage (C : Context) (addressMode : Bool) (name : TypeName) : Emission Value :=
  let info := C.info (.identifier name)
  if info.kind = some .Field ∧ info.isStatic then
    match C.globals (qualifiedMember info.memberOwner name) with
    | some slot => place C addressMode (.given slot)
    | none => fail "missing static field"
  else match C.findVariable name with
    | some v =>
        if v.isArray ∧ !addressMode then pure (.unary "descriptor" (.given v.address))
        else place C addressMode (.given v.address)
    | none =>
        if C.hasThis ∧ ((C.hasField C.currentClassName).any fun has => has name) then
          place C addressMode (.field .currentThis name)
        else fail "unknown variable or field"

def visitIdentifier (C : Context) (addressMode : Bool) (name : TypeName) : Emission Value :=
  match (C.info (.identifier name)).kind with
  | some .Function =>
      if addressMode then fail "a function value is not assignable"
      else pure (.function name)
  | some .Property =>
      if addressMode then fail "a property is not addressable"
      else emitGetter (getterKey name) (implicitReceiver C) []
  | _ => visitStorage C addressMode name

/-- `length` and `count` of an array. -/
def visitCount (addressMode : Bool) (descriptor : Emission Value) : Emission Value :=
  if addressMode then fail "array length property is not assignable"
  else do
    let descriptor ← descriptor
    pure (.unary "trunc" (.extract descriptor 2))

def visitTupleMember (addressMode : Bool) (elements : List TypeName) (member : TypeName)
    (value address : Emission Value) : Emission Value :=
  if Hierarchy.isCountName member then
    if addressMode then fail "tuple length property is not assignable"
    else pure (.constant elements.length)
  else match Hierarchy.tupleIndex member with
    | none => fail "invalid tuple member"
    | some index =>
        if elements.length ≤ index then fail "tuple member index is out of range"
        else if addressMode then do
          let base ← address
          pure (.field base member)
        else do
          let tuple ← value
          pure (.extract tuple index)

def visitField (C : Context) (addressMode : Bool) (base : Operand) (member : TypeName)
    (value address : Emission Value) : Emission Value :=
  match C.hasField (if isPointerType (C.type base) then canonicalPointeeName (C.type base)
      else C.type base) with
  | none => fail "type does not support member access"
  | some has =>
      if has member then do
        let object ← objectPointer C addressMode base value address
        place C addressMode (.field object member)
      else fail "aggregate has no such field"

/-- `Visit(MemberAccessExpr)`. -/
def visitMember (C : Context) (addressMode : Bool) (base : Operand) (member : TypeName)
    (value address : Emission Value) : Emission Value :=
  let info := C.info (.memberAccess base member)
  if info.kind = some .Property then
    if addressMode then fail "a property is not addressable"
    else emitGetter (getterKey member) (objectPointer C false base value address) []
  else if info.kind = some .Field ∧ info.isStatic then
    match C.globals (qualifiedMember info.memberOwner member) with
    | some slot => place C addressMode (.given slot)
    | none => fail "missing static field"
  else match info.kind.bind fun _ => C.enumConstants info.name with
    | some n =>
        if addressMode then fail "an enum constant is not assignable" else pure (.constant n)
    | none =>
        if 0 < arrayRank (C.type base) ∧ Hierarchy.isCountName member then
          visitCount addressMode value
        else match Hierarchy.tupleElements (C.type base) with
          | some elements => visitTupleMember addressMode elements member value address
          | none => visitField C addressMode base member value address

/-- `p[i]` on a raw pointer. -/
def visitPointerElement (C : Context) (addressMode : Bool) (count : Nat)
    (value : Emission Value) (indexes : Emission (List Value)) : Emission Value :=
  if count ≠ 1 then fail "a raw pointer takes exactly one index"
  else do
    let pointer ← value
    let indexes ← indexes
    place C addressMode (.offset pointer (indexes.headD (.constant 0)))

/-- An element of an array, or the row of one that too few indexes name. -/
def visitElement (C : Context) (addressMode : Bool) (count : Nat) (view : View)
    (indexes : Emission (List Value)) : Emission Value :=
  if view.dimensions.length < count then fail "array access provides too many dimensions"
  else if count < view.dimensions.length then
    if addressMode then fail "sub-array slice is not assignable"
    else do
      let indexes ← indexes
      pure (.unary "descriptor" (.offset view.address (linearOffset indexes view.dimensions)))
  else do
    let indexes ← indexes
    place C addressMode (.offset view.address (linearOffset indexes view.dimensions))

mutual

/-- `Accept` with `addressMode` on or off: the address or the value. -/
def visit (C : Context) (addressMode : Bool) : Operand → Emission Value
  | .identifier name => visitIdentifier C addressMode name
  | .numberLiteral n =>
      if addressMode then fail "expression is not assignable" else pure (.constant n)
  | .memberAccess base member =>
      visitMember C addressMode base member (visit C false base) (visit C true base)
  | .arrayAccess base indexes =>
      let info := C.info (.arrayAccess base indexes)
      if info.kind = some .Indexer then
        if addressMode then fail "an indexer is not addressable"
        else do
          let arguments ← visitIndexes C [] indexes
          emitGetter ⟨indexerMember, info.parameterTypes⟩
            (objectPointer C false base (visit C false base) (visit C true base)) arguments
      else if isRawPointerType (C.type base) then
        visitPointerElement C addressMode indexes.length (visit C false base)
          (visitIndexes C [] indexes)
      else do
        let view ← viewOfArray C base (visit C false base)
        visitElement C addressMode indexes.length view (visitIndexes C view.dimensions indexes)
  | .dereference operand => do
      let pointer ← visit C false operand
      let address ← if isManagedPointerType (C.type operand) then
        managedPointee C operand pointer else pure pointer
      place C addressMode address
  | .addressOf operand =>
      if addressMode then fail "expression is not assignable" else visit C true operand
  | .unary op operand =>
      if addressMode then fail "expression is not assignable"
      else do
        let operand ← visit C false operand
        pure (.unary op operand)
  | .binary op left right =>
      if addressMode then fail "expression is not assignable"
      else do
        let left ← visit C false left
        let right ← visit C false right
        pure (.binary op left right)
  | .call _ number =>
      if addressMode then fail "expression is not assignable" else produce (.call number)

/-- The indexes in order, each checked against the dimension it has. -/
def visitIndexes (C : Context) : List Value → List Operand → Emission (List Value)
  | _, [] => pure []
  | dimensions, e :: indexes => do
      let index ← visit C false e
      checkIndex index dimensions.head?
      let rest ← visitIndexes C dimensions.tail indexes
      pure (index :: rest)

end

end Places

end Absolute
