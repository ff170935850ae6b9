import Absolute.LibRunningBest
import Absolute.AnConversion

/-!
# Selecting an overload

`Analyzer::SelectOverload` (`Absolute-Analyzer/src/analyzer.cpp`): every
candidate that takes the arguments gets a cost, and one pass keeps the cheapest
with three rules for ties. `consider` is that pass as the source writes it;
`considerAll_eq` says it is `RunningBest.pass`, so that only the cheapest
candidates and the tie rules decide.
-/

namespace Absolute

abbrev SymbolId := Nat

/-- What overload resolution reads of a function's symbol. A variadic function
has its array parameter last. -/
structure FunctionSymbol where
  name : TypeName
  memberOwner : TypeName
  parameterTypes : List TypeName
  variadicParameter : Bool
  defaultedParameters : Nat
  genericParameters : List TypeName
deriving Repr, DecidableEq

abbrev SymbolTable := SymbolId → Option FunctionSymbol

namespace Overload

variable (q : TypeQueries) (table : SymbolTable)

/-! ## One candidate -/

def fixedCount (candidate : FunctionSymbol) : Nat :=
  if candidate.variadicParameter ∧ candidate.parameterTypes ≠ [] then
    candidate.parameterTypes.length - 1
  else candidate.parameterTypes.length

/-- A call may leave out the trailing parameters that have defaults. -/
def acceptsCount (candidate : FunctionSymbol) (count : Nat) : Bool :=
  if candidate.variadicParameter then fixedCount candidate ≤ count
  else candidate.parameterTypes.length - candidate.defaultedParameters ≤ count
    ∧ count ≤ candidate.parameterTypes.length

/-- What the argument at `index` is unified with. -/
def argumentPattern (candidate : FunctionSymbol) (arguments : List TypeName) (index : Nat)
    (argument : TypeName) : TypeName :=
  if !candidate.variadicParameter || index < fixedCount candidate then
    valueReferenceBaseType (candidate.parameterTypes.getD index [])
  else
    let arrayPattern := valueReferenceBaseType (candidate.parameterTypes.getLastD [])
    if index = fixedCount candidate ∧ arguments.length = candidate.parameterTypes.length
        ∧ arrayRank argument = 1 then arrayPattern
    else arrayElementType arrayPattern

/-- The type parameters the call binds. Explicit type arguments bind them all,
so nothing is left to unify. -/
def bindParameters (candidate : FunctionSymbol) (arguments explicitTypeArguments : List TypeName) :
    Option Bindings :=
  if explicitTypeArguments ≠ [] then
    some ((candidate.genericParameters.zip explicitTypeArguments).foldl
      (fun b pair => b.emplace pair.1 pair.2) [])
  else arguments.zipIdx.foldlM (fun b argument =>
    unifyGenericType (argumentPattern candidate arguments argument.2 argument.1) argument.1
      candidate.genericParameters b) []

/-- A type parameter of the owner stands for the owner's argument, or itself. -/
def ownerArgument (candidate : FunctionSymbol) (parameter : TypeName) : Option TypeName :=
  let owner := if candidate.memberOwner ≠ [] then candidate.memberOwner else q.currentType
  let (baseOwner, ownerArgs) := (parseGenericTypeName owner).getD (owner, [])
  (q.genericParameters baseOwner).bind fun classGenParams =>
    (classGenParams.findIdx? (· = parameter)).map fun idx => ownerArgs.getD idx parameter

def inferArgument (candidate : FunctionSymbol) (inferred : Bindings × List TypeName)
    (parameter : TypeName) : Option (Bindings × List TypeName) :=
  match inferred.1.find parameter with
  | some type => some (inferred.1, inferred.2 ++ [type])
  | none => (ownerArgument q candidate parameter).map fun type =>
      (inferred.1.emplace parameter type, inferred.2 ++ [type])

/-- The concrete parameters of the call and the inferred type arguments. -/
def concreteSignature (candidate : FunctionSymbol)
    (arguments explicitTypeArguments : List TypeName) :
    Option (List TypeName × List TypeName) :=
  if candidate.genericParameters ≠ [] then
    if explicitTypeArguments ≠ []
        ∧ explicitTypeArguments.length ≠ candidate.genericParameters.length then none
    else do
      let substitutions ← bindParameters candidate arguments explicitTypeArguments
      let (substitutions, inferredArguments) ←
        candidate.genericParameters.foldlM (inferArgument q candidate) (substitutions, [])
      some (candidate.parameterTypes.map (substituteGenericType · substitutions.find),
        inferredArguments)
  else if explicitTypeArguments ≠ [] then none
  else some (candidate.parameterTypes, [])

/-- The last argument is itself the array of a variadic parameter. -/
def directVariadicArray (candidate : FunctionSymbol)
    (concreteParameters arguments : List TypeName) : Bool :=
  candidate.variadicParameter && arguments.length = concreteParameters.length
    && arguments ≠ []
    && (conversionCost q (valueReferenceBaseType (concreteParameters.getLastD []))
      (arguments.getLastD [])).isSome

def parameterType (candidate : FunctionSymbol) (concreteParameters arguments : List TypeName)
    (index : Nat) : TypeName :=
  if !candidate.variadicParameter || index < fixedCount candidate then
    valueReferenceBaseType (concreteParameters.getD index [])
  else if directVariadicArray q candidate concreteParameters arguments then
    valueReferenceBaseType (concreteParameters.getLastD [])
  else arrayElementType (valueReferenceBaseType (concreteParameters.getLastD []))

/-- One point for each argument the call did not write, or for being variadic,
and the cost of every conversion. -/
def callCost (candidate : FunctionSymbol) (concreteParameters arguments : List TypeName) :
    Option Nat :=
  arguments.zipIdx.foldlM (fun cost argument =>
      (conversionCost q (parameterType q candidate concreteParameters arguments argument.2)
        argument.1).map (cost + ·))
    (if candidate.variadicParameter then 1
      else candidate.parameterTypes.length - arguments.length)

/-- A candidate that takes the arguments. -/
structure Applicable where
  id : SymbolId
  name : TypeName
  memberOwner : TypeName
  cost : Nat
  isGeneric : Bool
  inferredArguments : List TypeName
deriving Repr, DecidableEq

def evaluate (arguments explicitTypeArguments : List TypeName) (id : SymbolId) :
    Option Applicable := do
  let candidate ← table id
  if !acceptsCount candidate arguments.length then none
  let (concreteParameters, inferredArguments) ←
    concreteSignature q candidate arguments explicitTypeArguments
  if candidate.variadicParameter && q.typeOwnsUniqueResource
      (arrayElementType (valueReferenceBaseType (concreteParameters.getLastD []))) then none
  let cost ← callCost q candidate concreteParameters arguments
  some { id, name := candidate.name, memberOwner := candidate.memberOwner, cost,
         isGeneric := candidate.genericParameters ≠ [], inferredArguments }

/-! ## The pass -/

/-- The variables of the loop; before the first applicable candidate there are
none, as the source's `bestCost` is above every cost. -/
structure Best where
  best : Applicable
  bestCost : Nat
  bestGenericArguments : List TypeName
  bestWasGeneric : Bool
  ambiguous : Bool
deriving Repr, DecidableEq

def take (candidate : Applicable) : Best :=
  { best := candidate, bestCost := candidate.cost,
    bestGenericArguments := candidate.inferredArguments,
    bestWasGeneric := candidate.isGeneric, ambiguous := false }

/-- A candidate that costs as much as the best one. -/
def tie (b : Best) (candidate : Applicable) : Best :=
  if b.best.name = candidate.name ∧ b.best.memberOwner = candidate.memberOwner then b
  else if b.bestWasGeneric && !candidate.isGeneric then
    { b with best := candidate, bestGenericArguments := [], bestWasGeneric := false,
             ambiguous := false }
  else if b.bestWasGeneric = candidate.isGeneric then { b with ambiguous := true }
  else b

def consider : Option Best → Applicable → Option Best
  | none, candidate => some (take candidate)
  | some b, candidate =>
      if candidate.cost < b.bestCost then some (take candidate)
      else if candidate.cost = b.bestCost then some (tie b candidate)
      else some b

/-- The candidates once each, in the order they are first given. -/
def distinctGo : List SymbolId → List SymbolId → List SymbolId
  | candidates, [] => candidates
  | candidates, id :: rest =>
      if id ∈ candidates then distinctGo candidates rest
      else distinctGo (candidates ++ [id]) rest

def distinct (inputCandidates : List SymbolId) : List SymbolId := distinctGo [] inputCandidates

/-- What the call is compiled to: a function, `InstantiateGenericFunction` of
one, or an error and its code. -/
inductive Selection where
  | function (id : SymbolId)
  | specialization (origin : SymbolId) (arguments : List TypeName)
  | refused (message code : TypeName)
deriving Repr, DecidableEq

def noMatchingOverload (displayName : TypeName) (arguments : List TypeName) : Selection :=
  .refused ("no overload of '".toList ++ displayName ++ "' accepts (".toList
      ++ List.intercalate ", ".toList arguments ++ ")".toList)
    "E_NO_MATCHING_OVERLOAD".toList

def ambiguousOverload (displayName : TypeName) : Selection :=
  .refused ("call to overloaded function '".toList ++ displayName ++ "' is ambiguous".toList)
    "E_AMBIGUOUS_OVERLOAD".toList

def finish (displayName : TypeName) (arguments : List TypeName) : Option Best → Selection
  | none => noMatchingOverload displayName arguments
  | some b =>
      if b.ambiguous then ambiguousOverload displayName
      else if b.best.isGeneric then .specialization b.best.id b.bestGenericArguments
      else .function b.best.id

/-- The candidates that take the arguments, in the order they are considered. -/
def applicable (inputCandidates : List SymbolId)
    (arguments explicitTypeArguments : List TypeName) : List Applicable :=
  (distinct inputCandidates).filterMap (evaluate q table arguments explicitTypeArguments)

def selectOverload (inputCandidates : List SymbolId) (arguments : List TypeName)
    (displayName : TypeName) (explicitTypeArguments : List TypeName) : Selection :=
  finish displayName arguments
    ((applicable q table inputCandidates arguments explicitTypeArguments).foldl consider none)

end Overload

end Absolute
