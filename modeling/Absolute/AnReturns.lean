import Absolute.AnTypeNames

/-!
# Statements that do not end normally

The visitors of `analyzer_statements.cpp` with the flag `flowTerminated`, by which
`ResolveFunction` tells a function that lacks a return. Conditions and expressions leave the flag
alone, so a statement keeps of them what the visitors ask: the type of a selector and the form of
a case label. `executes` says in which ways a statement may end, whatever its conditions yield.
-/

namespace Absolute

namespace Returns

/-! ## Statements -/

/-- A case label, as `constantKey` looks at it; a floating number has no value. -/
inductive LabelExpression where
  | boolean (value : Bool)
  | number (value : Option Int)
  | character (value : UInt8)
  | prefixUnary (op : Char) (number : Option Int)
  | memberAccess (qualifiedName : TypeName) (symbol : Option TypeName)
  | other
deriving DecidableEq

inductive Statement where
  /-- Evaluates expressions only. -/
  | expression
  | compound (statements : List Statement)
  | ifStmt (branches : List Statement) (elseBranch : Option Statement)
  | switchStmt (selectorType : TypeName) (cases : List (LabelExpression × Statement))
      (defaultCase : Option Statement) (exhaustive : Bool)
  | returnStmt
  | throwStmt (hasValue : Bool)
  | breakStmt
  | continueStmt
  | whileStmt (body : Statement)
  | doWhileStmt (body : Statement)
  | forStmt (hasCondition : Bool) (body : Statement)
  | forEachStmt (body : Statement)
  | tryStmt (body : Statement) (catches : List (TypeName × Statement))
      (finallyBody : Option Statement)

/-- What is asked of the declarations. -/
structure Declarations where
  /-- The members of an enumeration. -/
  enumMembers : TypeName → Option (List TypeName)
  /-- The number that stands for a member, by its qualified name. -/
  memberValue : TypeName → Int
  isDerivedFrom : TypeName → TypeName → Bool
  currentFunctionNoThrow : Bool

structure FunctionDecl where
  name : TypeName
  returnType : TypeName
  body : Statement
  isExternal : Bool
  autoPropertyAccessor : Bool

/-! ## The visitors -/

structure Report where
  message : List Char
  code : String
deriving DecidableEq

structure FlowState where
  flowTerminated : Bool
  loopDepth : Nat
  switchDepth : Nat
  catchDepth : Nat
  finallyDepth : Nat
  reports : List Report

def FlowState.report (s : FlowState) (message : List Char) (code : String) : FlowState :=
  { s with reports := s.reports ++ [⟨message, code⟩] }

def FlowState.reportIf (s : FlowState) (condition : Bool) (message code : String) : FlowState :=
  if condition then s.report message.toList code else s

def FlowState.terminated (s : FlowState) (value : Bool) : FlowState :=
  { s with flowTerminated := value }

/-- `constantKey`; the source spells it `bool:true`, `integer:1`, `enum:Color.Red`. -/
inductive ConstantKey where
  | bool (value : Bool)
  | integer (value : Int)
  | enum (name : TypeName)
deriving DecidableEq

/-- What follows the colon. -/
def ConstantKey.text : ConstantKey → List Char
  | .bool value => (if value then "true" else "false").toList
  | .integer value => (toString value).toList
  | .enum name => name

def constantKey : LabelExpression → Option ConstantKey
  | .boolean value => some (.bool value)
  | .number value => value.map .integer
  | .character value => some (.integer value.toNat)
  | .prefixUnary op number =>
      if op = '+' ∨ op = '-' then number.map fun magnitude =>
        .integer (if op = '-' then -magnitude else magnitude)
      else none
  | .memberAccess qualifiedName symbol => match symbol with
      | some name => some (.enum name)
      | none => if qualifiedName ≠ [] then some (.enum qualifiedName) else none
  | .other => none

/-- What the loop over the cases of a switch collects. -/
structure Coverage where
  labels : List ConstantKey
  enumCoverage : List TypeName
  coversTrue : Bool
  coversFalse : Bool

def Coverage.insert (coverage : Coverage) (key : ConstantKey) : Coverage :=
  let coverage := { coverage with labels := key :: coverage.labels }
  match key with
  | .bool true => { coverage with coversTrue := true }
  | .bool false => { coverage with coversFalse := true }
  | .enum name => { coverage with enumCoverage := name :: coverage.enumCoverage }
  | .integer _ => coverage

def visitLabel (label : LabelExpression) (coverage : Coverage) (s : FlowState) :
    Coverage × FlowState :=
  match constantKey label with
  | none => (coverage, s.report
      "case label must be a compile-time bool, integer, char, or enum constant".toList
      "E_SWITCH_CASE_CONSTANT")
  | some key =>
      if key ∈ coverage.labels then
        (coverage, s.report ("duplicate case label '".toList ++ key.text ++ "'".toList)
          "E_DUPLICATE_SWITCH_CASE")
      else (coverage.insert key, s)

/-- `selector.type + "." + member` -/
def memberName (selectorType member : TypeName) : TypeName := selectorType ++ ".".toList ++ member

def exhausts (d : Declarations) (selectorType : TypeName) (hasDefault : Bool)
    (coverage : Coverage) : Bool :=
  hasDefault || (selectorType = "bool".toList && coverage.coversTrue && coverage.coversFalse) ||
    match d.enumMembers selectorType with
    | some members => members.all fun member =>
        coverage.enumCoverage.contains (memberName selectorType member)
    | none => false

def reportNonExhaustive (d : Declarations) (selectorType : TypeName) (coverage : Coverage)
    (s : FlowState) : FlowState :=
  if selectorType = "bool".toList then
    s.report "non-exhaustive match: bool requires both true and false cases".toList
      "E_NON_EXHAUSTIVE_MATCH"
  else match d.enumMembers selectorType with
    | some members =>
        let missing := (members.map (memberName selectorType)).filter fun name =>
          !coverage.enumCoverage.contains name
        s.report ("non-exhaustive match; missing: ".toList ++
          List.intercalate ", ".toList missing) "E_NON_EXHAUSTIVE_MATCH"
    | none => s.report "non-exhaustive match requires a default branch".toList
        "E_NON_EXHAUSTIVE_MATCH"

def inFinally (s : FlowState) (what : String) : FlowState :=
  s.reportIf (0 < s.finallyDepth) (what ++ " is not allowed inside finally")
    "E_FINALLY_CONTROL_TRANSFER"

def visitThrow (d : Declarations) (hasValue : Bool) (s : FlowState) : FlowState :=
  let s := s.reportIf d.currentFunctionNoThrow "nothrow callable cannot throw"
    "E_NOTHROW_THROWS"
  let s := inFinally s "throw"
  let s := s.reportIf (!hasValue && s.catchDepth = 0) "rethrow is only valid inside catch"
    "E_RETHROW_OUTSIDE_CATCH"
  s.terminated true

def visitContinue (s : FlowState) : FlowState :=
  let s := inFinally s "continue"
  if s.loopDepth = 0 then
    s.report "continue statement is outside a loop".toList "E_CONTINUE_OUTSIDE_LOOP"
  else s.terminated true

def visitBreak (s : FlowState) : FlowState :=
  let s := inFinally s "break"
  if s.loopDepth = 0 then
    s.report (if 0 < s.switchDepth then
        ("break statement is outside a loop; switch and match cases " ++
          "do not fall through, so break is unnecessary").toList
      else "break statement is outside a loop".toList) "E_BREAK_OUTSIDE_LOOP"
  else s.terminated true

/-- What every visitor of a loop does around its body. -/
def visitLoop (body : FlowState → FlowState) (s : FlowState) : FlowState :=
  let s := body { s with loopDepth := s.loopDepth + 1, flowTerminated := false }
  { s with loopDepth := s.loopDepth - 1, flowTerminated := false }

/-- A body that starts from the base of its statement; how many of these go on is counted. -/
def visitPath (body : FlowState → FlowState) (paths : Nat × FlowState) : Nat × FlowState :=
  let s := body (paths.2.terminated false)
  (if s.flowTerminated then paths.1 else paths.1 + 1, s)

/-- After the bodies of a switch. -/
def leaveSwitch (d : Declarations) (selectorType : TypeName) (hasDefault exhaustive : Bool)
    (coverage : Coverage) (paths : Nat × FlowState) : FlowState :=
  let covered := exhausts d selectorType hasDefault coverage
  let s := if exhaustive && !covered then
      reportNonExhaustive d selectorType coverage paths.2
    else paths.2
  let continuingPaths := if covered then paths.1 else paths.1 + 1
  { s with switchDepth := s.switchDepth - 1, flowTerminated := covered && continuingPaths = 0 }

def visitFinally (finallyBody : FlowState → FlowState) (s : FlowState) : FlowState :=
  let terminatedBeforeFinally := s.flowTerminated
  let s := finallyBody { s with flowTerminated := false, finallyDepth := s.finallyDepth + 1 }
  let s := { s with finallyDepth := s.finallyDepth - 1 }
  if s.flowTerminated then s else s.terminated terminatedBeforeFinally

mutual

def visit (d : Declarations) : Statement → FlowState → FlowState
  | .expression, s => s
  | .compound statements, s => visitStatements d statements s
  | .ifStmt branches elseBranch, s =>
      let paths := visitBranches d branches (0, s)
      let paths := match elseBranch with
        | some branch => visitPath (visit d branch) paths
        | none => (paths.1 + 1, paths.2)
      paths.2.terminated (paths.1 = 0)
  | .switchStmt selectorType cases defaultCase exhaustive, s =>
      let (coverage, paths) := visitCases d cases ⟨[], [], false, false⟩
        (0, { s with switchDepth := s.switchDepth + 1 })
      let paths := match defaultCase with
        | some body => visitPath (visit d body) paths
        | none => paths
      leaveSwitch d selectorType defaultCase.isSome exhaustive coverage paths
  | .returnStmt, s => (inFinally s "return").terminated true
  | .throwStmt hasValue, s => visitThrow d hasValue s
  | .breakStmt, s => visitBreak s
  | .continueStmt, s => visitContinue s
  | .whileStmt body, s => visitLoop (visit d body) s
  | .doWhileStmt body, s => visitLoop (visit d body) s
  | .forStmt _ body, s => visitLoop (visit d body) s
  | .forEachStmt body, s => visitLoop (visit d body) s
  | .tryStmt body catches finallyBody, s =>
      let paths := visitPath (visit d body) (0, s)
      let paths := visitCatches d catches paths
      let s := paths.2.terminated (paths.1 = 0)
      match finallyBody with
      | none => s
      | some finallyBody => visitFinally (visit d finallyBody) s

/-- The loop of a block, left at the first statement that terminates. -/
def visitStatements (d : Declarations) : List Statement → FlowState → FlowState
  | [], s => s
  | statement :: rest, s =>
      let s := visit d statement s
      if s.flowTerminated then s else visitStatements d rest s

def visitBranches (d : Declarations) : List Statement → Nat × FlowState → Nat × FlowState
  | [], paths => paths
  | branch :: rest, paths => visitBranches d rest (visitPath (visit d branch) paths)

def visitCases (d : Declarations) : List (LabelExpression × Statement) → Coverage →
    Nat × FlowState → Coverage × (Nat × FlowState)
  | [], coverage, paths => (coverage, paths)
  | (label, body) :: rest, coverage, paths =>
      let (coverage, s) := visitLabel label coverage (paths.2.terminated false)
      visitCases d rest coverage (visitPath (visit d body) (paths.1, s))

def visitCatches (d : Declarations) : List (TypeName × Statement) → Nat × FlowState →
    Nat × FlowState
  | [], paths => paths
  | (_, body) :: rest, paths =>
      let paths := visitPath (fun s => visit d body s)
        (paths.1, { paths.2 with catchDepth := paths.2.catchDepth + 1 })
      visitCatches d rest (paths.1, { paths.2 with catchDepth := paths.2.catchDepth - 1 })

end

/-- `ResolveFunction`, from the flag on. -/
def resolveFunction (d : Declarations) (statement : FunctionDecl) : FlowState :=
  let s : FlowState := ⟨false, 0, 0, 0, 0, []⟩
  let s := if statement.isExternal then s else visit d statement.body s
  if !statement.isExternal && statement.returnType ≠ "void".toList && !s.flowTerminated &&
      !statement.autoPropertyAccessor then
    s.report ("function '".toList ++ statement.name ++
      "' does not return a value on every control-flow path".toList) "E_MISSING_RETURN"
  else s

/-! ## Ways to end -/

inductive Outcome where
  | normal
  | broke
  | continued
  | returned
  /-- With an exception of a type. -/
  | threw (type : TypeName)
deriving DecidableEq

/-- The values a selector may have: a number for a bool and for a member of an enumeration. -/
def SelectorValue (d : Declarations) (selectorType : TypeName) (value : Int) : Prop :=
  (selectorType = "bool".toList → value = 0 ∨ value = 1) ∧
    ∀ members, d.enumMembers selectorType = some members →
      ∃ member ∈ members, value = d.memberValue (memberName selectorType member)

/-- The values a label may have; of one that is no constant nothing is known. -/
def LabelValue (d : Declarations) : LabelExpression → Int → Prop
  | .boolean b, value => value = if b then 1 else 0
  | .number (some n), value => value = n
  | .character c, value => value = c.toNat
  | .prefixUnary op (some n), value =>
      (op = '+' → value = n) ∧ (op = '-' → value = -n)
  | .memberAccess qualifiedName symbol, value =>
      value = d.memberValue (symbol.getD qualifiedName)
  | _, _ => True

/-- A loop around a body, from a test of its condition on. -/
inductive Iterates (mayExit : Prop) (body : Outcome → Prop) : Outcome → Prop where
  | exit : mayExit → Iterates mayExit body .normal
  /-- The condition, the update or the iterator throws. -/
  | fails (type : TypeName) : Iterates mayExit body (.threw type)
  | again {o o' : Outcome} : body o → o = .normal ∨ o = .continued → Iterates mayExit body o' →
      Iterates mayExit body o'
  | broke : body .broke → Iterates mayExit body .normal
  | returned : body .returned → Iterates mayExit body .returned
  | threw {type : TypeName} : body (.threw type) → Iterates mayExit body (.threw type)

/-- A finally body runs however the rest ended, and what it ends with other than normally
takes the place of that. -/
def Finally (finallyBody : Outcome → Prop) (before : Outcome → Prop) (o : Outcome) : Prop :=
  ∃ o₁, before o₁ ∧ ((finallyBody .normal ∧ o = o₁) ∨ (finallyBody o ∧ o ≠ .normal))

mutual

/-- The ways a statement may end. -/
def executes (d : Declarations) : Statement → Outcome → Prop
  | .expression, o => o = .normal ∨ ∃ type, o = .threw type
  | .compound statements, o => executesAll d statements o
  | .ifStmt branches elseBranch, o =>
      (∃ type, o = .threw type) ∨ executesAny d branches o ∨
        match elseBranch with
        | some branch => executes d branch o
        | none => o = .normal
  | .switchStmt selectorType cases defaultCase _, o =>
      (∃ type, o = .threw type) ∨ ∃ value, SelectorValue d selectorType value ∧
        executesCases d cases value (match defaultCase with
          | some body => executes d body
          | none => fun o => o = .normal) o
  | .returnStmt, o => o = .returned ∨ ∃ type, o = .threw type
  | .throwStmt _, o => ∃ type, o = .threw type
  | .breakStmt, o => o = .broke
  | .continueStmt, o => o = .continued
  | .whileStmt body, o => Iterates True (executes d body) o
  | .doWhileStmt body, o =>
      ∃ o₁, executes d body o₁ ∧
        (((o₁ = .normal ∨ o₁ = .continued) ∧ Iterates True (executes d body) o) ∨
          (o₁ = .broke ∧ o = .normal) ∨
            (o₁ ≠ .normal ∧ o₁ ≠ .continued ∧ o₁ ≠ .broke ∧ o = o₁))
  | .forStmt hasCondition body, o =>
      (∃ type, o = .threw type) ∨ Iterates (hasCondition = true) (executes d body) o
  | .forEachStmt body, o => Iterates True (executes d body) o
  | .tryStmt body catches finallyBody, o =>
      let handled := fun o => ∃ o₁, executes d body o₁ ∧
        match o₁ with
        | .threw type => executesCatches d catches type o
        | o₁ => o = o₁
      match finallyBody with
      | none => handled o
      | some finallyBody => Finally (executes d finallyBody) handled o

def executesAll (d : Declarations) : List Statement → Outcome → Prop
  | [], o => o = .normal
  | statement :: rest, o =>
      (executes d statement .normal ∧ executesAll d rest o) ∨
        (executes d statement o ∧ o ≠ .normal)

/-- The body of one of the branches. -/
def executesAny (d : Declarations) : List Statement → Outcome → Prop
  | [], _ => False
  | branch :: rest, o => executes d branch o ∨ executesAny d rest o

/-- The body of the first case whose label is the value, or else the default. -/
def executesCases (d : Declarations) : List (LabelExpression × Statement) → Int →
    (Outcome → Prop) → Outcome → Prop
  | [], _, otherwise, o => otherwise o
  | (label, body) :: rest, value, otherwise, o =>
      ∃ labelValue, LabelValue d label labelValue ∧
        ((labelValue = value ∧ executes d body o) ∨
          (labelValue ≠ value ∧ executesCases d rest value otherwise o))

/-- The body of the first clause for the type, or else the exception goes on. -/
def executesCatches (d : Declarations) : List (TypeName × Statement) → TypeName → Outcome → Prop
  | [], type, o => o = .threw type
  | (catchType, body) :: rest, type, o =>
      if d.isDerivedFrom type catchType then executes d body o
      else executesCatches d rest type o

end

end Returns

end Absolute
