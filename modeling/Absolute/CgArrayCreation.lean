import Absolute.CgArrayAccess

/-!
# Array creation

Every place the backend makes an array: a sized declaration, `new T[n]`, an
array literal, the pack of variadic arguments and a slice. Each builds a view
(`BuildArrayDescriptor`) over storage it allocates, or over part of the
storage of its source. Sizes are 64-bit words and their products wrap; what
the allocators do with a request is a parameter (`Memory`).
-/

namespace Absolute

/-- A block of memory. -/
structure Block where
  start : BitVec 64
  size : Nat

/-- Where the frame (`alloca`) and the heap (`malloc`, `calloc`) would place a
block of so many bytes; nowhere if there is no room. -/
structure Memory where
  stack : Nat → Option (BitVec 64)
  heap : Nat → Option (BitVec 64)

/-- The block a request gets. A failed request leaves a null pointer with
nothing behind it, and nothing checks for that. -/
def allocate (place : Nat → Option (BitVec 64)) (bytes : Nat) : Block :=
  match place bytes with
  | some start => ⟨start, bytes⟩
  | none => ⟨0, 0⟩

/-- `CreateAlloca` of so many elements: the size in bytes is a 64-bit product. -/
def alloca (memory : Memory) (elementSize : Nat) (count : BitVec 64) : Block :=
  allocate memory.stack (count * BitVec.ofNat 64 elementSize).toNat

/-- `Malloc()`. -/
def malloc (memory : Memory) (bytes : BitVec 64) : Block := allocate memory.heap bytes.toNat

/-- `Calloc()`, which refuses a product that does not fit a size. -/
def calloc (memory : Memory) (count : BitVec 64) (elementSize : Nat) : Block :=
  if count.toNat * elementSize < 2 ^ 64 then allocate memory.heap (count.toNat * elementSize)
  else ⟨0, 0⟩

/-- What a creation leaves behind: the descriptor, the rank of its type, and
the block its data pointer points into. -/
structure CreatedArray where
  view : ArrayView
  rank : Nat
  block : Block

/-! ## Array literals -/

/-- A value of an array literal: an expression, or a literal in turn. -/
inductive LiteralValue (α : Type*) where
  | scalar (value : α)
  | nested (values : List (LiteralValue α))

section Literals

variable {α : Type*}

mutual
/-- The shape of one value: of an expression, none; of a literal, what
`InferArrayShape` gives it. -/
def LiteralValue.shape : LiteralValue α → Option (List Nat)
  | .scalar _ => some []
  | .nested values => (childShape none values).map (values.length :: ·)

/-- The loop of `InferArrayShape`: the shape shared by the values so far
against that of the next. -/
def childShape : Option (List Nat) → List (LiteralValue α) → Option (List Nat)
  | shared, [] => some (shared.getD [])
  | shared, value :: values =>
      match value.shape, shared with
      | none, _ => none
      | some current, none => childShape (some current) values
      | some current, some child =>
          if child = current then childShape (some child) values else none
end

mutual
/-- The expressions of one value, in order. -/
def LiteralValue.flatten : LiteralValue α → List α
  | .scalar value => [value]
  | .nested values => flattenArrayValues values

/-- `FlattenArrayValues`. -/
def flattenArrayValues : List (LiteralValue α) → List α
  | [] => []
  | value :: values => value.flatten ++ flattenArrayValues values
end

/-- `InferArrayShape`. -/
def inferArrayShape (values : List (LiteralValue α)) : Option (List Nat) :=
  (childShape none values).map (values.length :: ·)

/-- The guarded product of `InferArrayStorageShape`, in `size_t`. -/
def guardedProduct (count : Nat) : List Nat → Option Nat
  | [] => some count
  | d :: shape =>
      if d ≠ 0 ∧ (2 ^ 64 - 1) / d < count then none else guardedProduct (count * d) shape

/-- `InferArrayStorageShape`: a nested literal for an array of rank one is
laid out flat. -/
def inferArrayStorageShape (values : List (LiteralValue α)) (declaredRank : Nat) :
    Option (List Nat) :=
  match inferArrayShape values with
  | none => none
  | some shape =>
      if declaredRank ≠ 1 ∨ shape.length ≤ 1 then some shape
      else (guardedProduct 1 shape).map ([·])

/-- An array literal as the parser holds it: its values, and those of every
literal in it, are vectors of pointers. -/
structure ArrayExpr (α : Type*) where
  values : List (LiteralValue α)
  sizes_lt : ∀ shape, inferArrayShape values = some shape → ∀ d ∈ shape, d < 2 ^ 60
  length_lt : (flattenArrayValues values).length < 2 ^ 60

end Literals

/-! ## The creations -/

section Creations

variable {α : Type*} (memory : Memory)

/-- One dimension of a sized declaration: its size as written, or the one the
literal has there. -/
def dimensionSize (shape : Option (List Nat)) (dimension : Nat) :
    Option IntegerValue → Emit (BitVec 64)
  | some size => .ok size.wide
  | none =>
      match shape.bind (·[dimension]?) with
      | some size => .ok (BitVec.ofNat 64 size)
      | none => .error (.fail "array dimension requires a size or an initializer")

/-- The dimensions of a sized declaration, each checked to be positive. -/
def declaredDimensions (shape : Option (List Nat)) :
    Nat → List (Option IntegerValue) → Emit (List (BitVec 64))
  | _, [] => .ok []
  | dimension, index :: indexes => do
      let size ← dimensionSize shape dimension index
      emitOrExit ((0 : BitVec 64).slt size) .arraySize
      let dimensions ← declaredDimensions shape (dimension + 1) indexes
      return size :: dimensions

/-- The 64-bit product every path takes. -/
def elementCount (dimensions : List (BitVec 64)) : BitVec 64 := dimensions.foldl (· * ·) 1

/-- `Visit(VarDeclExpr)` with declarator indexes: storage in the frame. The
type of the variable has a rank for each index on top of the base type's. -/
def declareArray (baseRank elementSize : Nat) (indexes : List (Option IntegerValue))
    (literal : Option (ArrayExpr α)) : Emit CreatedArray := do
  let shape := literal.bind fun l => inferArrayStorageShape l.values indexes.length
  let dimensions ← declaredDimensions shape 0 indexes
  let block := alloca memory elementSize (elementCount dimensions)
  return ⟨⟨block.start, elementSize, dimensions⟩, indexes.length + baseRank, block⟩

/-- `Visit(ConstructorCallExpr)` for an array type: `new T[n]`, or no size at
all. One dimension is recorded whatever the rank of the type. -/
def newArray (rank elementSize : Nat) (size : Option IntegerValue) : Emit CreatedArray :=
  let count := size.elim 0 IntegerValue.wide
  let block := calloc memory count elementSize
  .ok ⟨⟨block.start, elementSize, [count]⟩, rank, block⟩

/-- `Visit(ArrayExpr)`. -/
def arrayLiteral (rank elementSize : Nat) (literal : ArrayExpr α) : Emit CreatedArray :=
  if rank = 0 then .error (.fail "array literal does not have an array type")
  else match inferArrayStorageShape literal.values rank with
    | none => .error (.fail "array literal must be rectangular")
    | some shape =>
        if shape.length ≠ rank then
          .error (.fail "array literal rank does not match its semantic type")
        else
          let byteCount := BitVec.ofNat 64 (flattenArrayValues literal.values).length *
            BitVec.ofNat 64 elementSize
          let block := malloc memory byteCount
          .ok ⟨⟨block.start, elementSize, shape.map (BitVec.ofNat 64)⟩, rank, block⟩

/-- The pack `EvaluateCallArguments` makes of the arguments that stand for a
`params` parameter of an array type of some rank. -/
def paramsPack (rank elementSize : Nat) (arguments : List α) : Emit CreatedArray :=
  let count := BitVec.ofNat 64 arguments.length
  let block := alloca memory elementSize count
  .ok ⟨⟨block.start, elementSize, [count]⟩, rank, block⟩

end Creations

/-! ## Slices -/

/-- One range of a slice. -/
structure SliceRange where
  hasColon : Bool
  start : Option IntegerValue
  stop : Option IntegerValue

/-- Where a range begins and ends in a dimension. -/
def SliceRange.bounds (range : SliceRange) (dimension : BitVec 64) : BitVec 64 × BitVec 64 :=
  if range.hasColon then
    (range.start.elim 0 IntegerValue.wide, range.stop.elim dimension IntegerValue.wide)
  else match range.start with
    | some start => (start.wide, start.wide + 1)
    | none => (0, dimension)

/-- The bounds of the next dimension: one without a range is whole. -/
def nextBounds (ranges : List SliceRange) (dimension : BitVec 64) : BitVec 64 × BitVec 64 :=
  match ranges with
  | [] => (0, dimension)
  | range :: _ => range.bounds dimension

/-- The bounds of every dimension, each checked. -/
def sliceBounds : List SliceRange → List (BitVec 64) → Emit (List (BitVec 64 × BitVec 64))
  | _, [] => .ok []
  | ranges, d :: dimensions => do
      let b := nextBounds ranges d
      emitOrExit ((0 : BitVec 64).sle b.1 && b.1.sle b.2 && b.2.sle d) .arrayBounds
      let rest ← sliceBounds ranges.tail dimensions
      return b :: rest

/-- The array a slice makes once its bounds are checked. A slice of the first
dimension only is a view of the source's storage; any other is given storage
of its own. -/
def slicedArray (memory : Memory) (source : CreatedArray) (ranges : List SliceRange)
    (bounds : List (BitVec 64 × BitVec 64)) : CreatedArray :=
  let dimensions := bounds.map fun b => b.2 - b.1
  if ranges.length ≤ 1 then
    let stride := elementCount source.view.dimensions.tail
    let offset := (bounds.map Prod.fst).headD 0 * stride
    let address := inBoundsGEP source.view.elementSize source.view.address offset
    ⟨⟨address, source.view.elementSize, dimensions⟩, source.rank, source.block⟩
  else
    let block := alloca memory source.view.elementSize (elementCount dimensions)
    ⟨⟨block.start, source.view.elementSize, dimensions⟩, source.rank, block⟩

/-- `Visit(SliceExpr)`. -/
def sliceArray (memory : Memory) (source : CreatedArray) (ranges : List SliceRange) :
    Emit CreatedArray :=
  if source.view.dimensions = [] then .error (.fail "slice target is not an array")
  else if source.view.dimensions.length < ranges.length then
    .error (.fail "slice range count exceeds array rank")
  else do
    let bounds ← sliceBounds ranges source.view.dimensions
    return slicedArray memory source ranges bounds

end Absolute
