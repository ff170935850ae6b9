import Absolute.LibMachineInt

/-!
# The integer types, and how the analyzer types an integer expression

`CommonType` decides the type two operands meet at, `IntegerLiteralType` that
of a literal, and `Visit(BinaryExpr)`, `Visit(PrefixUnaryExpr)` and the
literals put them together over an expression (`typeOf`); an expression some
rule reports on has no type here.
-/

namespace Absolute

/-- The integer types of the language, and `char`. -/
inductive IntegerType where
  | int8
  | uint8
  | int16
  | uint16
  | int32
  | uint32
  | int64
  | uint64
  | char
deriving DecidableEq, Repr

namespace IntegerType

/-- The width of the LLVM type (`TypeFromName`). -/
def width : IntegerType → Nat
  | int8 | uint8 | char => 8
  | int16 | uint16 => 16
  | int32 | uint32 => 32
  | int64 | uint64 => 64

/-- `starts_with("uint") || == "char"`, the test of every widening. -/
def signedness : IntegerType → Signedness
  | int8 | int16 | int32 | int64 => .signed
  | uint8 | uint16 | uint32 | uint64 | char => .unsigned

theorem width_le (t : IntegerType) : t.width ≤ 64 := by cases t <;> decide

end IntegerType

/-! ## Expressions -/

inductive UnaryOp where
  | plus
  | minus
  | complement
deriving DecidableEq, Repr

inductive ArithmeticOp where
  | add
  | sub
  | mul
  | div
  | rem
  | and
  | or
  | xor
  | shl
  | shr
deriving DecidableEq, Repr

inductive ComparisonOp where
  | eq
  | ne
  | lt
  | le
  | gt
  | ge
deriving DecidableEq, Repr

inductive BinaryOp where
  | arithmetic (op : ArithmeticOp)
  | comparison (op : ComparisonOp)
deriving DecidableEq, Repr

/-- Integer expressions over variables of some kind. A number is the literal
as written, without a sign. -/
inductive IntegerExpr (V : Type*) where
  | number (value : Nat)
  | character (value : BitVec 8)
  | identifier (x : V)
  | unary (op : UnaryOp) (operand : IntegerExpr V)
  | binary (op : BinaryOp) (left right : IntegerExpr V)

/-- The static types these expressions have. -/
inductive ValueType where
  | integer (t : IntegerType)
  | bool
deriving DecidableEq, Repr

/-- The width of the LLVM type. -/
def ValueType.width : ValueType → Nat
  | .integer t => t.width
  | .bool => 1

/-! ## The analyzer's rules -/

/-- `CommonType` between integer types. -/
def commonType (left right : IntegerType) : IntegerType :=
  if left = right then left
  else if left = .uint64 ∨ right = .uint64 then .uint64
  else if left = .int64 ∨ right = .int64 then .int64
  else if left = .uint32 ∨ right = .uint32 then .uint32
  else .int32

/-- `IntegerLiteralType`: the narrowest type for the value a literal and the
minus in front of it spell. -/
def integerLiteralType (value : Nat) (negated : Bool) : IntegerType :=
  if 2 ^ 64 ≤ value then .uint64
  else if value ≤ (if negated then 2 ^ 31 else 2 ^ 31 - 1) then .int32
  else if value ≤ (if negated then 2 ^ 63 else 2 ^ 63 - 1) then .int64
  else .uint64

section Typing

variable {V : Type*}

/-- `WrittenShiftAmount`: the magnitude and the sign of an amount the source
writes out. -/
def writtenShiftAmount : IntegerExpr V → Option (Nat × Bool)
  | .number value => if value < 2 ^ 64 then some (value, false) else none
  | .unary .minus (.number value) => if value < 2 ^ 64 then some (value, true) else none
  | .unary .plus (.number value) => if value < 2 ^ 64 then some (value, false) else none
  | _ => none

/-- `CheckShiftAmount` has nothing to report. -/
def checkShiftAmount (amount : IntegerExpr V) (resultType : IntegerType) : Bool :=
  match writtenShiftAmount amount with
  | none => true
  | some (magnitude, negative) =>
      magnitude < resultType.width && !(negative && magnitude != 0)

/-- The static type of an expression; `negated` says that it is the operand of
a minus, which a literal takes into account (`literalSign`). -/
def typeOf (typing : V → IntegerType) : Bool → IntegerExpr V → Option ValueType
  | negated, .number value => some (.integer (integerLiteralType value negated))
  | _, .character _ => some (.integer .char)
  | _, .identifier x => some (.integer (typing x))
  | _, .unary op operand =>
      match typeOf typing (op == .minus) operand with
      | some (.integer t) => some (.integer t)
      | _ => none
  | _, .binary (.arithmetic op) left right =>
      match typeOf typing false left, typeOf typing false right with
      | some (.integer l), some (.integer r) =>
          if (op = .shl ∨ op = .shr) ∧ checkShiftAmount right (commonType l r) = false then none
          else some (.integer (commonType l r))
      | _, _ => none
  | _, .binary (.comparison op) left right =>
      match typeOf typing false left, typeOf typing false right with
      | some (.integer _), some (.integer _) => some .bool
      | some .bool, some .bool => if op = .eq ∨ op = .ne then some .bool else none
      | _, _ => none

end Typing

end Absolute
