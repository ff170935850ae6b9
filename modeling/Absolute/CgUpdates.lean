import Absolute.CgPlacesAgain

/-!
# Updates

`++`, `--`, compound assignment and `delete`. An assignment reaches its target by
`EvaluateAddress`, or by the accessors of a property or an indexer
(`assignmentTarget`). Compound assignment and `delete` reach it the same way, `++` and
`--` take the variable named last in the operand (`AddressOf`), and `delete` of a
managed pointer updates what is recorded of that variable. Accessors are called on a
receiver evaluated once for the getter and once more for the setter.

`TouchesPlace` says that an update acts on the place of the assignment and on nothing
else, `Sound` when it does.
-/

namespace Absolute

namespace Places

/-! ## The operators -/

/-- The right side of a compound assignment: an expression evaluated for its value,
with `valueCreatesManagedOwner` and `valueManagedPointee`. -/
structure Assigned where
  number : Nat
  createsOwner : Bool := false
  pointee : Option Nat := none
deriving DecidableEq, Repr

/-- An update; `assignment` is a compound one, by the operator before the `=`. -/
inductive Update where
  | prefixUnary (op : String)
  | postfixUnary (op : String)
  | assignment (op : String) (assigned : Assigned)
  | destructorCall
deriving DecidableEq, Repr

/-- The operand is a property or an indexer. -/
def isAccessor (C : Context) (e : Operand) : Bool :=
  (C.info e).kind = some .Property ∨ (C.info e).kind = some .Indexer

/-- What the analyzer asks of the operand: `E_INCREMENT_OPERAND`,
`E_PROPERTY_COMPOUND_REQUIRES_GETTER`, `E_TARGET_NOT_ASSIGNABLE`,
`E_NUMERIC_OPERAND_REQUIRED`, `E_RAW_POINTER_COMPOUND_ASSIGNMENT`,
`E_DELETE_REQUIRES_POINTER`, `E_DELETE_REQUIRES_VARIABLE`, `E_WEAK_DELETE` and the
accessors that have no storage to delete. -/
def accepts (C : Context) (e : Operand) : Update → Bool
  | .prefixUnary _ | .postfixUnary _ =>
      (C.info e).isLValue ∧ (isNumeric (C.type e) ∨ isRawPointerType (C.type e)) ∧
        (isAccessor C e → (C.info e).canRead)
  | .assignment op _ =>
      (C.info e).isLValue ∧ (isAccessor C e → (C.info e).canRead) ∧
        if isRawPointerType (C.type e) then op = "+" ∨ op = "-" else isNumeric (C.type e)
  | .destructorCall =>
      (C.info e).isLValue ∧ isPointerType (C.type e) ∧ ¬isWeakPointerType (C.type e) ∧
        ¬isAccessor C e

/-- What is evaluated between the target of an assignment and its value. -/
def evaluateAssigned : Update → Emission Value
  | .assignment _ assigned => produce (.call assigned.number)
  | _ => pure (.constant 1)

/-- The step of an update, by its operator. -/
def operatorOf : Update → String
  | .prefixUnary op | .postfixUnary op => if op = "++" then "+" else "-"
  | .assignment op _ => op
  | .destructorCall => ""

/-! ## Accessors -/

/-- The object of a property or an indexer: that of the base, or the receiver at
hand. -/
def accessorReceiver (C : Context) (e : Operand) : Emission Value :=
  match (C.info e).kind, e with
  | some .Indexer, .arrayAccess base _ =>
      objectPointer C false base (visit C false base) (visit C true base)
  | some .Indexer, _ => fail "indexer assignment requires an indexed target"
  | _, .memberAccess base _ =>
      objectPointer C false base (visit C false base) (visit C true base)
  | _, _ => implicitReceiver C

def accessorArguments (C : Context) (e : Operand) : Emission (List Value) :=
  match (C.info e).kind, e with
  | some .Indexer, .arrayAccess _ indexes => visitIndexes C [] indexes
  | _, _ => pure []

/-- The property of a member access is its member, that of a bare name the last
component of the symbol's. -/
def accessorName (C : Context) (e : Operand) : TypeName :=
  match (C.info e).kind, e with
  | some .Indexer, _ => indexerMember
  | _, .memberAccess _ member => member
  | _, _ => lastComponent (C.info e).name

def getter (C : Context) (e : Operand) : Accessor :=
  ⟨accessorName C e, if (C.info e).kind = some .Indexer then (C.info e).parameterTypes else []⟩

/-- Arguments and value of an update through accessors, before the receiver. -/
def beforeReceiver (C : Context) (u : Update) (e : Operand) :
    Emission (List Value × Value) := do
  let arguments ← accessorArguments C e
  let assigned ← evaluateAssigned u
  pure (arguments, assigned)

/-- The message of `One` for a pointer, and of `CommonNumericType`. -/
def notNumeric : Update → String
  | .assignment _ _ => "binary operator requires numeric operands"
  | _ => "increment requires a numeric operand"

/-- The getter and the setter of a property or an indexer, each on a receiver of its
own. -/
def updateAccessor (C : Context) (u : Update) (e : Operand) : Emission (Value × Value) := do
  let (arguments, assigned) ← beforeReceiver C u e
  let object ← accessorReceiver C e
  emit (.read (.member (accessorName C e) object arguments))
  let current ← produce (.get (getter C e) object arguments)
  if isRawPointerType (C.type e) then fail (notNumeric u)
  else do
    let object ← accessorReceiver C e
    let updated := .binary (operatorOf u) current assigned
    emit (.write (.member (accessorName C e) object arguments) updated)
    pure (current, updated)

/-! ## Variables -/

/-- The read of an update. -/
def readAddress (C : Context) (address : Value) : Emission Value := do
  emit (.read (.address address))
  load C address

/-- `AddressOf`: the variable named last in the operand. -/
def addressOf (C : Context) (e : Operand) : Emission Variable :=
  if identifierName e = [] then fail "expected assignable identifier"
  else match C.findVariable (identifierName e) with
    | some v => pure v
    | none => fail "unknown variable"

/-- One element on for a raw pointer, one more for a number. -/
def stepValue (C : Context) (u : Update) (e : Operand) (numeric : Bool) (current : Value) :
    Emission Value :=
  if isRawPointerType (C.type e) then
    pure (.offset current (.constant (if operatorOf u = "-" then -1 else 1)))
  else if numeric then pure (.binary (operatorOf u) current (.constant 1))
  else fail (notNumeric u)

/-- `++` and `--` on anything but an accessor. -/
def stepVariable (C : Context) (u : Update) (e : Operand) : Emission (Value × Value) := do
  let v ← addressOf C e
  let current ← readAddress C (.given v.address)
  let updated ← stepValue C u e v.numeric current
  emit (.write (.address (.given v.address)) updated)
  pure (current, updated)

/-- The pointee cached with what a variable is assigned. -/
def Assigned.cached (assigned : Assigned) : Value :=
  match assigned.pointee with
  | some pointee => if assigned.createsOwner then .given pointee else .constant 0
  | none => .constant 0

/-- The owner a variable was is destroyed before it takes a managed pointer, and the
pointee cached for it is the new one or none. A cache made only now is left out. -/
def replaceOwner (C : Context) (e : Operand) (assigned : Assigned) : Emission Unit :=
  let kind := (C.info e).kind
  if isManagedPointerType (C.type e) ∧ identifierName e ≠ [] ∧
      (kind = none ∨ kind = some .Variable ∨ kind = some .Parameter) then
    match C.findVariable (identifierName e) with
    | none => fail "unknown variable"
    | some v =>
        if v.managedOwner then do
          emit (.release (.address (.given v.address)))
          match v.managedPointee with
          | some slot => emit (.write (.address (.given slot)) assigned.cached)
          | none => pure ()
        else pure ()
  else pure ()

/-- The value a compound assignment stores. -/
def compoundValue (C : Context) (op : String) (e : Operand) (current assigned : Value) : Value :=
  if isRawPointerType (C.type e) then
    .offset current (if op = "-" then .unary "-" assigned else assigned)
  else .binary op current assigned

/-- `Visit(AssignmentExpr)` of a compound assignment to an address. The branches for
strings, aggregates and functions are left out with their types. -/
def assignAddress (C : Context) (op : String) (assigned : Assigned) (e : Operand) :
    Emission (Value × Value) := do
  let target ← visit C true e
  let value ← produce (.call assigned.number)
  let current ← readAddress C target
  let updated := compoundValue C op e current value
  replaceOwner C e assigned
  emit (.write (.address target) updated)
  pure (updated, updated)

/-- Only an owner may delete, and owns no more. -/
def deleteFlag (v : Variable) : Emission Unit :=
  match v.ownershipFlagStorage with
  | some flag => do
      emit (.requireOwner (.given flag))
      emit (.write (.address (.given flag)) (.constant 0))
  | none => pure ()

def deletePointee (v : Variable) : Emission Unit :=
  match v.managedPointee with
  | some slot => emit (.write (.address (.given slot)) (.constant 0))
  | none => pure ()

/-- The variable named in the `delete` of a managed pointer gives up its ownership and
its cached pointee. -/
def deleteVariable (C : Context) (e : Operand) : Emission Unit :=
  if ¬isManagedPointerType (C.type e) ∨ identifierName e = [] then pure ()
  else match C.findVariable (identifierName e) with
    | none => fail "unknown variable"
    | some v => do
        deleteFlag v
        deletePointee v

/-- `Visit(DestructorCallExpr)`. -/
def visitDestructorCall (C : Context) (e : Operand) : Emission (Value × Value) := do
  let target ← visit C true e
  let pointer ← readAddress C target
  deleteVariable C e
  emit (.release (.address target))
  emit (.write (.address target) (.constant 0))
  pure (pointer, .constant 0)

/-- The code emitted for an update, with the value before it and the value after. -/
def emitUpdate (C : Context) (u : Update) (e : Operand) : Emission (Value × Value) :=
  match u with
  | .prefixUnary _ | .postfixUnary _ =>
      if isAccessor C e then updateAccessor C u e else stepVariable C u e
  | .assignment op assigned =>
      if isAccessor C e then updateAccessor C u e else assignAddress C op assigned e
  | .destructorCall => visitDestructorCall C e

/-- The place an assignment to the operand acts on. -/
def assignmentTarget (C : Context) (u : Update) (e : Operand) : Emission Place :=
  if isAccessor C e then do
    let (arguments, _) ← beforeReceiver C u e
    let object ← accessorReceiver C e
    pure (.member (accessorName C e) object arguments)
  else do
    let target ← visit C true e
    let _ ← evaluateAssigned u
    pure (.address target)

/-! ## What an update may touch -/

/-- The constant a value folds to. -/
def constant? (C : Context) : Value → Option Int
  | .constant n => some n
  | .unary op operand => (constant? C operand).bind (C.foldUnary op)
  | .binary op left right =>
      (constant? C left).bind fun a => (constant? C right).bind (C.foldBinary op a)
  | _ => none

/-- An offset of nothing is the base itself. -/
def normalize (C : Context) : Value → Value
  | .offset base index =>
      if constant? C index = some 0 then normalize C base else .offset base index
  | v => v

/-- One place. -/
def Place.Same (C : Context) : Place → Place → Prop
  | .address a, .address b => normalize C a = normalize C b
  | p, q => p = q

/-- A check of constants that holds emits no branch. -/
def isFolded (C : Context) (index dimension : Value) : Bool :=
  match constant? C index, constant? C dimension with
  | some i, some d => 0 ≤ i ∧ i < d
  | _, _ => false

/-- The bounds check an effect is. -/
def Effect.bounds (C : Context) : Effect → Option (Value × Value)
  | .check index dimension => if isFolded C index dimension then none else some (index, dimension)
  | _ => none

def boundsChecks (C : Context) (trace : List Effect) : List (Value × Value) :=
  trace.filterMap (Effect.bounds C)

/-- The places an update's own effect is on. -/
def Effect.place : Effect → Option Place
  | .read p | .write p _ | .release p => some p
  | .requireOwner flag => some (.address flag)
  | _ => none

/-- The ownership flag and the cached pointee recorded of a variable. -/
def Variable.records (v : Variable) : List Place :=
  (v.ownershipFlagStorage.toList ++ v.managedPointee.toList).map (.address <| .given ·)

def Variable.place (v : Variable) : Place := .address (.given v.address)

/-- The places an update may touch: its target, and where that is the variable the
operand starts from, what is recorded of it. -/
def Allowed (C : Context) (e : Operand) (target p : Place) : Prop :=
  p.Same C target ∨ ∃ v, C.findVariable (identifierName e) = some v ∧
    v.place.Same C target ∧ p ∈ v.records

/-- The effects of an update whose assignment target was reached by `path`. A check
may be made again, as it was. -/
structure Touches (C : Context) (e : Operand) (target : Place) (path trace : List Effect) :
    Prop where
  only : ∀ x ∈ trace, ∀ p ∈ x.place, Allowed C e target p
  reads : ∃ p, .read p ∈ trace ∧ p.Same C target
  writes : ∃ p value, .write p value ∈ trace ∧ p.Same C target
  checks : ∃ again, again <:+ boundsChecks C path ∧
    boundsChecks C trace = boundsChecks C path ++ again

/-- The update acts on the place the operand is as an assignment target. -/
def TouchesPlace (C : Context) (u : Update) (e : Operand) : Prop :=
  ∀ target path, assignmentTarget C u e [] = .ok (target, path) →
    ∃ values trace, emitUpdate C u e [] = .ok (values, trace) ∧ Touches C e target path trace

/-! ## When it is right -/

/-- The operand is the variable it names last: its storage is the target, reached
without a bounds check, and it can be stepped. -/
def IsVariable (C : Context) (e : Operand) (target : Place) (path : List Effect) : Prop :=
  identifierName e ≠ [] ∧ ∃ v, C.findVariable (identifierName e) = some v ∧
    v.place.Same C target ∧ boundsChecks C path = [] ∧
    (isRawPointerType (C.type e) = false → v.numeric = true)

/-- The variable named last is the target, or nothing is recorded of it that `delete`
would spoil. -/
def RecordsSafe (C : Context) (e : Operand) (target : Place) : Prop :=
  identifierName e ≠ [] → ∃ v, C.findVariable (identifierName e) = some v ∧
    (v.place.Same C target ∨ ∀ p ∈ v.records, p.Same C target)

/-- Nothing among the effects writes the address. -/
def Unwritten (C : Context) (effects : List Effect) (address : Value) : Prop :=
  ∀ x ∈ effects, x.writes C address = false

/-- The effects of the receiver and of the getter write nothing the receiver or its
bounds checks were loaded from, and no part of these is the result of a call. -/
def ReceiverSettled (C : Context) (u : Update) (e : Operand) : Prop :=
  ∀ values before object path, beforeReceiver C u e [] = .ok (values, before) →
    accessorReceiver C e before = .ok (object, path) →
    let receiver := path.drop before.length
    let unwritten := Unwritten C (receiver ++ [.get (getter C e) object values.1])
    object.Settled unwritten ∧
      ∀ check ∈ boundsChecks C receiver, check.1.Settled unwritten ∧ check.2.Settled unwritten

/-- The operands an update is right on. -/
def Sound (C : Context) (u : Update) (e : Operand) (target : Place) (path : List Effect) :
    Prop :=
  if isAccessor C e then isRawPointerType (C.type e) = false ∧ ReceiverSettled C u e
  else match u with
    | .prefixUnary _ | .postfixUnary _ => IsVariable C e target path
    | .assignment _ _ => True
    | .destructorCall => isManagedPointerType (C.type e) = true → RecordsSafe C e target

end Places

end Absolute
