import Absolute.CgRuntime

/-!
# Integer arithmetic as the backend emits it

`ApplyBinary` takes the wider of the two LLVM widths, extends each operand to
it by the sign of its static type, and picks the signed or the unsigned
instruction by a ladder over the names of the static types. The literals
choose their width by value. `emit` is what the emitted code of an expression
computes; `staticValue` is what its static types say it is: operands converted
to their common type, the operation done at that type.
-/

namespace Absolute

/-- A value of some LLVM integer type. -/
structure Word where
  width : Nat
  bits : BitVec width
deriving DecidableEq

/-- A word, and whether it is a constant of the module: the builder folds
operations on constants. -/
structure EmittedValue where
  word : Word
  constant : Bool
deriving DecidableEq

/-! ## The instructions -/

section Instructions

variable {w : Nat}

/-- The `icmp` instructions. -/
def compareWords (s : Signedness) (op : ComparisonOp) (a b : BitVec w) : Bool :=
  match op, s with
  | .eq, _ => a == b
  | .ne, _ => a != b
  | .lt, .unsigned => a.ult b
  | .lt, .signed => a.slt b
  | .le, .unsigned => a.ule b
  | .le, .signed => a.sle b
  | .gt, .unsigned => b.ult a
  | .gt, .signed => b.slt a
  | .ge, .unsigned => b.ule a
  | .ge, .signed => b.sle a

/-- The checks before a division: a divisor that is the constant zero is
refused, any other is checked, and so is the one quotient a signed division
cannot represent. -/
def checkDivision (s : Signedness) (op : ArithmeticOp) (constant : Bool) (a b : BitVec w) :
    Emit Unit :=
  if constant ∧ b = 0 then
    .error (.fail (if op = .div then "division by zero" else "remainder by zero"))
  else do
    emitOrExit (b != 0) .divisionByZero
    match s with
    | .signed => emitOrExit (!(a == BitVec.intMin w && b == -1)) .divisionOverflow
    | .unsigned => .ok ()

/-- The check before a shift. -/
def checkShift (constant : Bool) (b : BitVec w) : Emit Unit :=
  if constant ∧ w ≤ b.toNat then
    .error (.fail "shift amount is not less than the width of the shifted value")
  else emitOrExit (b.ult (BitVec.ofNat w w)) .shiftAmount

/-- The checks of an operator; most have none. -/
def checkOperation (s : Signedness) (op : ArithmeticOp) (constant : Bool) (a b : BitVec w) :
    Emit Unit :=
  match op with
  | .div | .rem => checkDivision s op constant a b
  | .shl | .shr => checkShift constant b
  | _ => .ok ()

/-- The arithmetic instructions. -/
def compute (s : Signedness) (op : ArithmeticOp) (a b : BitVec w) : BitVec w :=
  match op, s with
  | .add, _ => a + b
  | .sub, _ => a - b
  | .mul, _ => a * b
  | .div, .unsigned => a / b
  | .div, .signed => a.sdiv b
  | .rem, .unsigned => a % b
  | .rem, .signed => a.srem b
  | .and, _ => a &&& b
  | .or, _ => a ||| b
  | .xor, _ => a ^^^ b
  | .shl, _ => a <<< b.toNat
  | .shr, .unsigned => a >>> b.toNat
  | .shr, .signed => a.sshiftRight b.toNat

/-- One operator at a width and a sign, its checks first; `constant` says that
the right operand is one. -/
def operate (s : Signedness) (op : BinaryOp) (constant : Bool) (a b : BitVec w) : Emit Word :=
  match op with
  | .comparison op => .ok ⟨1, BitVec.ofBool (compareWords s op a b)⟩
  | .arithmetic op => do
      checkOperation s op constant a b
      return ⟨w, compute s op a b⟩

end Instructions

/-! ## What the backend emits -/

/-- `starts_with("uint")`. -/
def ValueType.startsWithUint : ValueType → Bool
  | .integer .uint8 | .integer .uint16 | .integer .uint32 | .integer .uint64 => true
  | _ => false

/-- The sign `Coerce` extends a value of a static type by. -/
def ValueType.extension : ValueType → Signedness
  | .integer t => t.signedness
  | .bool => .unsigned

/-- The ladder of `ApplyBinary`: whether the operation is unsigned. -/
def unsignedOperation (left right : ValueType) : Bool :=
  if left = .integer .uint64 ∨ right = .integer .uint64 then true
  else if left = .integer .int64 ∨ right = .integer .int64 then false
  else left.startsWithUint || right.startsWithUint

/-- The width of `CommonNumericType`. -/
def commonNumericWidth (left right : Word) : Nat := max (max left.width right.width) 1

/-- `ApplyBinary` on integers. -/
def applyBinary (op : BinaryOp) (left right : EmittedValue) (leftType rightType : ValueType) :
    Emit EmittedValue := do
  let width := commonNumericWidth left.word right.word
  let s := if unsignedOperation leftType rightType then Signedness.unsigned else .signed
  let word ← operate s op right.constant (leftType.extension.cast width left.word.bits)
    (rightType.extension.cast width right.word.bits)
  return ⟨word, left.constant && right.constant⟩

/-- The prefix operators: negation and complement at the width of the operand. -/
def applyUnary (op : UnaryOp) (word : Word) : Word :=
  match op with
  | .plus => word
  | .minus => ⟨word.width, -word.bits⟩
  | .complement => ⟨word.width, ~~~word.bits⟩

section Emission

variable {V : Type*} (typing : V → IntegerType) (env : (x : V) → BitVec (typing x).width)

/-- What the emitted code of an expression computes. -/
def emit : IntegerExpr V → Emit EmittedValue
  | .number value =>
      if 2 ^ 64 ≤ value then 
        .error (.fail ("integer literal '" ++ toString value ++ "' does not fit in 64 bits"))
      else if value ≤ 2 ^ 31 - 1 then .ok ⟨⟨32, BitVec.ofNat 32 value⟩, true⟩
      else .ok ⟨⟨64, BitVec.ofNat 64 value⟩, true⟩
  | .character value => .ok ⟨⟨8, value⟩, true⟩
  | .identifier x => .ok ⟨⟨(typing x).width, env x⟩, false⟩
  | .unary op operand => do
      let value ← emit operand
      return ⟨applyUnary op value.word, value.constant⟩
  | .binary op left right => do
      let l ← emit left
      let r ← emit right
      match typeOf typing false left, typeOf typing false right with
      | some leftType, some rightType => applyBinary op l r leftType rightType
      | _, _ => .error (.fail "binary operator requires numeric operands")

/-! ## What the static types say -/

/-- The type both operands are converted to. -/
def operationType : ValueType → ValueType → ValueType
  | .integer left, .integer right => .integer (commonType left right)
  | _, _ => .bool

/-- One operator over two words of static types: both converted to the common
type, the operation done at its width and sign. -/
def staticOperation (op : BinaryOp) (left right : Word) (leftType rightType : ValueType) :
    Emit Word :=
  let common := operationType leftType rightType
  operate common.extension op false (leftType.extension.cast common.width left.bits)
    (rightType.extension.cast common.width right.bits)

/-- The value of an expression by its static types. -/
def staticValue : Bool → IntegerExpr V → Emit Word
  | negated, .number value =>
      .ok ⟨(integerLiteralType value negated).width, BitVec.ofNat _ value⟩
  | _, .character value => .ok ⟨8, value⟩
  | _, .identifier x => .ok ⟨(typing x).width, env x⟩
  | _, .unary op operand => do
      let word ← staticValue (op == .minus) operand
      return applyUnary op word
  | _, .binary op left right => do
      let l ← staticValue false left
      let r ← staticValue false right
      match typeOf typing false left, typeOf typing false right with
      | some leftType, some rightType => staticOperation op l r leftType rightType
      | _, _ => .error (.fail "binary operator requires numeric operands")

end Emission

end Absolute
