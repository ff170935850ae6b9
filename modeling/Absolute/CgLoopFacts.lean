import Absolute.CgArithmetic
import Absolute.CgPlaces

/-!
# What the backend states about a loop's variable

`UnitDecrementLoopVariable` finds the loops that count down to zero, and `Visit(WhileStmt)`
states behind such a loop that its variable is at least -1. The loops run here as their
emitted code does: names, elements and integers as the backend lowers them, and what calls
do (accessors, operators of plugins, what is released) is the program's.

Each effect a run has on the memory is put to a test first (`Effect`), so that the runs with
some effects only are those of the same definitions.
-/

namespace Absolute

namespace Loops

/-! ## Syntax -/

inductive Operator where
  | builtin (op : BinaryOp)
  | logicalAnd
  | logicalOr
  | other (text : TypeName)
deriving DecidableEq

/-- `=`, or an operator before the `=`. -/
inductive AssignmentOperator where
  | assign
  | compound (op : Operator)
deriving DecidableEq

inductive Literal where
  | boolean (value : Bool)
  | string (value : TypeName)
  | character (value : Char)
  | null

/-- `other` is an expression of any other kind, with the parts `BaseIdentifierVisitor` goes
into. -/
inductive Expression where
  | identifier (name : TypeName)
  | numberLiteral (value : List Char)
  | literal (value : Literal)
  | binary (op : Operator) (left right : Expression)
  | arrayAccess (base : Expression) (indexes : List Expression)
  | assignment (target : Expression) (op : AssignmentOperator) (value : Expression)
  | other (parts : List Expression)

inductive Statement where
  | assignmentStmt (target : Expression) (op : AssignmentOperator) (value : Expression)
  | singleStatement (expr : Expression)
  | compoundStmt (statements : List Statement)
  | ifStmt (branches : List (Expression × Statement)) (elseBranch : Option Statement)
  | breakStmt
  | continueStmt
  | other

structure WhileStmt where
  condition : Expression
  body : Statement

/-! ## The recognizer -/

mutual

/-- `IdentifierName`: the identifier `BaseIdentifierVisitor` saw last, empty when it saw
none. -/
def identifierName : Expression → TypeName
  | .identifier name => name
  | .numberLiteral _ | .literal _ => []
  | .binary _ left right =>
      if identifierName right = [] then identifierName left else identifierName right
  | .arrayAccess base _ => identifierName base
  | .assignment target _ _ => identifierName target
  | .other parts => lastIdentifierName parts

def lastIdentifierName : List Expression → TypeName
  | [] => []
  | part :: rest =>
      if lastIdentifierName rest = [] then identifierName part else lastIdentifierName rest

end

mutual

def expressionMayWriteVariable (name : TypeName) : Expression → Bool
  | .assignment target _ value =>
      identifierName target == name ||
        (expressionMayWriteVariable name target || expressionMayWriteVariable name value)
  | .binary _ left right =>
      expressionMayWriteVariable name left || expressionMayWriteVariable name right
  | .arrayAccess base indexes =>
      expressionMayWriteVariable name base || expressionsMayWriteVariable name indexes
  | .identifier _ | .numberLiteral _ | .literal _ => false
  | .other _ => true

def expressionsMayWriteVariable (name : TypeName) : List Expression → Bool
  | [] => false
  | e :: rest =>
      expressionMayWriteVariable name e || expressionsMayWriteVariable name rest

end

mutual

def statementMayWriteVariable (name : TypeName) : Statement → Bool
  | .assignmentStmt target op value =>
      expressionMayWriteVariable name (.assignment target op value)
  | .singleStatement expr => expressionMayWriteVariable name expr
  | .compoundStmt statements => statementsMayWriteVariable name statements
  | .ifStmt branches elseBranch =>
      branchesMayWriteVariable name branches || elseMayWriteVariable name elseBranch
  | .breakStmt | .continueStmt => false
  | .other => true

def statementsMayWriteVariable (name : TypeName) : List Statement → Bool
  | [] => false
  | s :: rest => statementMayWriteVariable name s || statementsMayWriteVariable name rest

def branchesMayWriteVariable (name : TypeName) : List (Expression × Statement) → Bool
  | [] => false
  | (condition, body) :: rest =>
      (expressionMayWriteVariable name condition ||
        statementMayWriteVariable name body) || branchesMayWriteVariable name rest

def elseMayWriteVariable (name : TypeName) : Option Statement → Bool
  | none => false
  | some body => statementMayWriteVariable name body

end

/-- The assignment a statement is, by its target, operator and value. -/
def assignmentOf : Statement → Option (Expression × AssignmentOperator × Expression)
  | .assignmentStmt target op value => some (target, op, value)
  | .singleStatement (.assignment target op value) => some (target, op, value)
  | _ => none

def greaterEqual : Operator := .builtin (.comparison .ge)

def minusAssign : AssignmentOperator := .compound (.builtin (.arithmetic .sub))

/-- The last statement takes one from the variable. -/
def isUnitDecrement (name : TypeName) (last : Statement) : Bool :=
  match assignmentOf last with
  | some (target, op, .numberLiteral amount) =>
      op = minusAssign ∧ identifierName target = name ∧ amount = ['1']
  | _ => false

def unitDecrementLoopVariable (statement : WhileStmt) : Option TypeName :=
  match statement.condition, statement.body with
  | .binary op left (.numberLiteral lowerBound), .compoundStmt statements =>
      let name := identifierName left
      if op ≠ greaterEqual ∨ name = [] ∨ lowerBound ≠ ['0'] then none
      else match statements.getLast? with
        | none => none
        | some last =>
            if isUnitDecrement name last = false ∨
                statementsMayWriteVariable name statements.dropLast = true then none
            else some name
  | _, _ => none

/-- The sum names the variable as well. -/
example (name : TypeName) (h : name ≠ []) (target : Expression)
    (ht : identifierName target = name) :
    unitDecrementLoopVariable
      ⟨.binary greaterEqual (.binary (.builtin (.arithmetic .add)) (.identifier name)
        (.numberLiteral ['1', '0'])) (.numberLiteral ['0']),
        .compoundStmt [.assignmentStmt target minusAssign (.numberLiteral ['1'])]⟩ = some name := by
  simp [unitDecrementLoopVariable, isUnitDecrement, assignmentOf, identifierName,
    statementsMayWriteVariable, h, ht]

/-! ## The program around a loop -/

/-- What a storage holds: an integer, or anything else by a number. -/
inductive Value where
  | integer (word : Word)
  | other (n : ℕ)
deriving DecidableEq

abbrev Memory := ℕ → Value

/-- A variable with its storage and, where it has one that `-=` takes, its integer type. -/
structure Variable where
  address : ℕ
  type : Option IntegerType

/-- The calls the code of an expression makes: the getter and the setter of a property or an
indexer, the operator of a plugin, what is released of a target that is assigned to and at
the end of a full expression, and all that an expression of another kind does. -/
inductive Site where
  | getter (e : Expression)
  | setter (e : Expression)
  | operator (e : Expression)
  | cleanup (target : Expression)
  | temporaries (e : Expression)
  | expression (e : Expression)

/-- What the analyzer and the backend know, and the code outside the loop. -/
structure Program where
  /-- `SemanticType` of what is no literal, an integer type or `bool`. -/
  typeOf : Expression → Option ValueType
  /-- `FindVariable` -/
  findVariable : TypeName → Option Variable
  /-- The storage a name stands for in an expression. -/
  storage : TypeName → ℕ
  /-- A property, an indexer or an operator of a plugin. -/
  isCall : Expression → Bool
  call : Site → List Value → Memory → Emit (Value × Memory)
  /-- `ArrayElementAddress`, or that of an element of a raw pointer, after the bounds
  checks. -/
  elementAddress : Expression → Value → List Value → Emit ℕ
  /-- The address of a target of another kind. -/
  otherAddress : Expression → Memory → Emit ℕ
  constant : Expression → Value
  /-- Operators and conversions between other operands. -/
  operation : Operator → Value → Value → Emit Value
  conversion : Expression → Expression → Value → Value
  /-- `AsCondition` -/
  truth : ℕ → Bool

def integerLiteral (text : List Char) : Option ℕ :=
  if text.all Char.isDigit then
    some (text.foldl (fun n c => 10 * n + (c.toNat - '0'.toNat)) 0)
  else none

def Program.semanticType (P : Program) : Expression → Option ValueType
  | .numberLiteral text =>
      (integerLiteral text).map fun n => .integer (integerLiteralType n false)
  | e => P.typeOf e

/-! ## Effects -/

/-- What a run does to the memory: a call, or the store of an assignment. -/
inductive Effect where
  | call (before after : Memory)
  | store (target : Expression) (address : ℕ)

/-- Why there is no result: the program stops, or an effect is not allowed. -/
inductive Halt where
  | stop (reason : Stop)
  | refused

abbrev Execution := Paired.Computation Memory Halt

def ofEmit {α : Type} (x : Emit α) : Execution α := fun m =>
  match x with
  | .ok a => .ok (a, m)
  | .error reason => .error (.stop reason)

def load (address : ℕ) : Execution Value := fun m => .ok (m address, m)

section Execution

variable (P : Program) (allowed : Effect → Bool)

def invoke (site : Site) (arguments : List Value) : Execution Value := fun m =>
  match P.call site arguments m with
  | .ok (d, m') => if allowed (.call m m') then .ok (d, m') else .error .refused
  | .error reason => .error (.stop reason)

def store (target : Expression) (address : ℕ) (d : Value) : Execution Unit := fun m =>
  if allowed (.store target address) then .ok ((), Function.update m address d)
  else .error .refused

/-! ## Expressions -/

/-- `Visit(NumberLiteralExpr)` -/
def numberValue (text : List Char) : Emit Value :=
  match integerLiteral text with
  | some n => do
      let value ← emit (V := Empty) Empty.elim (fun x => x.elim) (.number n)
      return .integer value.word
  | none => .ok (P.constant (.numberLiteral text))

/-- `ApplyBinary` -/
def applyOperator (op : Operator) (left right : Expression) (a b : Value) : Emit Value :=
  match op, P.semanticType left, P.semanticType right, a, b with
  | .builtin op, some leftType, some rightType, .integer x, .integer y => do
      let value ← applyBinary op ⟨x, false⟩ ⟨y, false⟩ leftType rightType
      return .integer value.word
  | _, _, _, _, _ => P.operation op a b

/-- `Coerce` to the type of the target. -/
def coerce (target value : Expression) : Value → Value
  | .integer word =>
      match P.semanticType target, P.semanticType value with
      | some type, some source =>
          .integer ⟨type.width, source.extension.cast type.width word.bits⟩
      | _, _ => P.conversion target value (.integer word)
  | d => P.conversion target value d

/-- What an assignment stores. -/
def assigned (target : Expression) (op : AssignmentOperator) (value : Expression)
    (current d : Value) : Emit Value :=
  match op with
  | .assign => .ok (coerce P target value d)
  | .compound op => do
      let d ← applyOperator P op target value current d
      return coerce P target value d

/-- What the setter is given; the getter is called for a compound assignment. -/
def assignedByAccessor (getter : Execution Value) (d : Value) :
    AssignmentOperator → Execution Value
  | .assign => pure d
  | .compound op => do
      let current ← getter
      ofEmit (P.operation op current d)

/-- `AsCondition` -/
def asCondition : Value → Bool
  | .integer word => word.bits ≠ 0
  | .other n => P.truth n

def ofCondition (c : Bool) : Value := .integer ⟨1, BitVec.ofBool c⟩

mutual

/-- `Evaluate` -/
def evaluate : Expression → Execution Value
  | .identifier name =>
      if P.isCall (.identifier name) then invoke P allowed (.getter (.identifier name)) []
      else load (P.storage name)
  | .numberLiteral text => ofEmit (numberValue P text)
  | .literal value => pure (P.constant (.literal value))
  | .binary op left right => do
      let a ← evaluate left
      if op = .logicalAnd ∨ op = .logicalOr then
        -- the right side is reached where the left one does not decide
        if asCondition P a = (op = .logicalOr : Bool) then pure (ofCondition (op = .logicalOr))
        else do
          let b ← evaluate right
          let _ ← invoke P allowed (.temporaries right) []
          pure (ofCondition (asCondition P b))
      else do
        let b ← evaluate right
        if P.isCall (.binary op left right) then
          invoke P allowed (.operator (.binary op left right)) [a, b]
        else ofEmit (applyOperator P op left right a b)
  | .arrayAccess base indexes =>
      if P.isCall (.arrayAccess base indexes) then do
        let arguments ← evaluateAll indexes
        let receiver ← evaluate base
        invoke P allowed (.getter (.arrayAccess base indexes)) (receiver :: arguments)
      else do
        let object ← evaluate base
        let arguments ← evaluateAll indexes
        let address ← ofEmit (P.elementAddress (.arrayAccess base indexes) object arguments)
        load address
  | .assignment target op value =>
      if P.isCall target then do
        let arguments ← evaluateIndexes target
        let d ← evaluate value
        let d ← assignedByAccessor P (do
          let receiver ← evaluateReceiver target
          invoke P allowed (.getter target) (receiver ++ arguments)) d op
        let receiver ← evaluateReceiver target
        let _ ← invoke P allowed (.setter target) (receiver ++ arguments ++ [d])
        pure d
      else do
        let address ← evaluateAddress target
        let d ← evaluate value
        let current ← load address
        let d ← ofEmit (assigned P target op value current d)
        let _ ← invoke P allowed (.cleanup target) [d]
        store allowed target address d
        pure d
  | .other parts => invoke P allowed (.expression (.other parts)) []

def evaluateAll : List Expression → Execution (List Value)
  | [] => pure []
  | e :: rest => do
      let d ← evaluate e
      let ds ← evaluateAll rest
      pure (d :: ds)

/-- `EvaluateAddress` -/
def evaluateAddress : Expression → Execution ℕ
  | .identifier name => pure (P.storage name)
  | .arrayAccess base indexes => do
      let object ← evaluate base
      let arguments ← evaluateAll indexes
      ofEmit (P.elementAddress (.arrayAccess base indexes) object arguments)
  | .other parts => do
      let _ ← invoke P allowed (.expression (.other parts)) []
      fun m => ofEmit (P.otherAddress (.other parts) m) m
  | _ => ofEmit (.error (.fail "expression is not assignable"))

/-- The arguments of an indexer. -/
def evaluateIndexes : Expression → Execution (List Value)
  | .arrayAccess _ indexes => evaluateAll indexes
  | _ => pure []

/-- The object of an indexer; that of a property is the call's. -/
def evaluateReceiver : Expression → Execution (List Value)
  | .arrayAccess base _ => do
      let receiver ← evaluate base
      pure [receiver]
  | _ => pure []

end

/-! ## Statements -/

/-- An expression and the temporaries it leaves. -/
def complete (e : Expression) : Execution Value := do
  let d ← evaluate P allowed e
  let _ ← invoke P allowed (.temporaries e) []
  pure d

/-- How a statement ends. -/
inductive Outcome where
  | normal
  | breaks
  | continues
deriving DecidableEq

mutual

/-- The code of a statement. What the recognizer does not admit has no run here. -/
def execute : Statement → Execution Outcome
  | .assignmentStmt target op value => do
      let _ ← complete P allowed (.assignment target op value)
      pure .normal
  | .singleStatement expr => do
      let _ ← complete P allowed expr
      pure .normal
  | .compoundStmt statements => executeAll statements
  | .ifStmt branches elseBranch => executeBranches branches (executeElse elseBranch)
  | .breakStmt => pure .breaks
  | .continueStmt => pure .continues
  | .other => fun _ => .error .refused

def executeAll : List Statement → Execution Outcome
  | [] => pure .normal
  | s :: rest => do
      let outcome ← execute s
      if outcome = .normal then executeAll rest else pure outcome

def executeBranches : List (Expression × Statement) → Execution Outcome → Execution Outcome
  | [], otherwise => otherwise
  | (condition, body) :: rest, otherwise => do
      let d ← complete P allowed condition
      if asCondition P d then execute body else executeBranches rest otherwise

def executeElse : Option Statement → Execution Outcome
  | none => pure .normal
  | some body => execute body

end

/-! ## Loops -/

def test (statement : WhileStmt) : Execution Bool := do
  let d ← complete P allowed statement.condition
  pure (asCondition P d)

/-- From the memory a loop is entered with to the one in `while.end`. `tested` is what is
asked of the tests of its condition, by the memory before and after. -/
inductive Exits (tested : Memory → Bool → Memory → Prop) (statement : WhileStmt) :
    Memory → Memory → Prop
  | done {m m' : Memory} (htest : test P allowed statement m = .ok (false, m'))
      (hok : tested m false m') : Exits tested statement m m'
  | breaks {m m₁ m' : Memory} (htest : test P allowed statement m = .ok (true, m₁))
      (hok : tested m true m₁)
      (hbody : execute P allowed statement.body m₁ = .ok (.breaks, m')) :
      Exits tested statement m m'
  | next {m m₁ m₂ m' : Memory} {outcome : Outcome}
      (htest : test P allowed statement m = .ok (true, m₁)) (hok : tested m true m₁)
      (hbody : execute P allowed statement.body m₁ = .ok (outcome, m₂))
      (hgoes : outcome ≠ .breaks) (hrest : Exits tested statement m₂ m') :
      Exits tested statement m m'

end Execution

/-- What the assumption in `while.end` says, where `Visit(WhileStmt)` makes one. -/
def assumption (P : Program) (statement : WhileStmt) (m : Memory) : Emit (Option Bool) :=
  match unitDecrementLoopVariable statement with
  | none => .ok none
  | some name =>
      match P.findVariable name with
      | none => .error (.fail "unknown variable")
      | some v =>
          match v.type, m v.address with
          | some type, .integer word =>
              if (ValueType.integer type).startsWithUint then .ok none
              else .ok (some (compareWords .signed .ge word.bits (-1)))
          | _, _ => .ok none

end Loops

end Absolute
