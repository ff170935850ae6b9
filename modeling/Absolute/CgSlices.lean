import Absolute.CgArrayStorage
import Absolute.LibBytes

/-!
# What a slice holds

`Visit(SliceExpr)` with the elements of the array it makes. A slice of the first dimension
is a view and holds what its source holds. Storage of its own is filled by loops
that are written for rank two (`copyRows`), and at a higher rank not at all.

A slice is to agree with indexing (`Slicing.Agrees`): it stops unless every span lies in
its dimension, and at every index it has the element its source has at that index
moved by where the spans begin.
-/

namespace Absolute

/-- The loops over the rows and columns of a slice of rank two. -/
def copyRows (source slice : ArrayView) (srcCols dstCols : BitVec 64)
    (rows cols : BitVec 64 × BitVec 64) (contents : Bytes.Contents) : Bytes.Contents :=
  Bytes.countUp rows.2 (fun r contents =>
    Bytes.countUp cols.2 (fun c contents =>
      let srcIdx := r * srcCols + c
      let dstIdx := (r - rows.1) * dstCols + (c - cols.1)
      Bytes.store contents (inBoundsGEP source.elementSize slice.address dstIdx)
        (Bytes.load contents (inBoundsGEP source.elementSize source.address srcIdx)
          source.elementSize))
      cols.1 contents)
    rows.1 contents

/-- What is in memory after the slice: the elements are copied where an inner dimension
is sliced and the rank is two. -/
def sliceContents (source slice : ArrayView) (ranges : List SliceRange)
    (bounds : List (BitVec 64 × BitVec 64)) (contents : Bytes.Contents) : Bytes.Contents :=
  if ranges.length ≤ 1 then contents
  else match bounds, source.dimensions, slice.dimensions with
    | [rows, cols], [_, srcCols], [_, dstCols] =>
        copyRows source slice srcCols dstCols rows cols contents
    | _, _, _ => contents

/-- `Visit(SliceExpr)`: the array it makes and what is in memory then. -/
def sliceExpr (memory : Memory) (source : CreatedArray) (ranges : List SliceRange)
    (contents : Bytes.Contents) : Emit (CreatedArray × Bytes.Contents) :=
  if source.view.dimensions = [] then .error (.fail "slice target is not an array")
  else if source.view.dimensions.length < ranges.length then
    .error (.fail "slice range count exceeds array rank")
  else do
    let bounds ← sliceBounds ranges source.view.dimensions
    let slice := slicedArray memory source ranges bounds
    return (slice, sliceContents source.view slice.view ranges bounds contents)

/-- The array is the one that is created, whatever is in memory. -/
theorem sliceExpr_array (memory : Memory) (source : CreatedArray) (ranges : List SliceRange)
    (contents : Bytes.Contents) :
    (sliceExpr memory source ranges contents).map Prod.fst = sliceArray memory source ranges := by
  unfold sliceExpr sliceArray
  split
  · rfl
  · split
    · rfl
    · cases sliceBounds ranges source.view.dimensions <;> rfl

/-! ## What a slice is for -/

/-- An `int64` that is used as an index. -/
def int64Index (i : BitVec 64) : IntegerValue := ⟨.int64, 64, i, le_refl 64⟩

/-- A slice the analyzer lets through, of an array that covers its storage. Storage of its
own is granted, and is nobody else's. -/
structure Slicing where
  source : SourceArray
  ranges : List SliceRange
  memory : Memory
  rank_pos : source.array.view.dimensions ≠ []
  ranges_le : ranges.length ≤ source.array.view.dimensions.length
  granted : SpansFit (sliceSpans ranges source.array.view.lengths) source.array.view.lengths →
    1 < ranges.length →
      let bytes := ((sliceSpans ranges source.array.view.lengths).map spanLength).prod
        * source.array.view.elementSize
      ∃ start, memory.stack bytes = some start ∧ start.toNat + bytes ≤ 2 ^ 64 ∧
        (start.toNat + bytes ≤ source.array.block.start.toNat
          ∨ source.array.block.start.toNat + source.array.block.size ≤ start.toNat)

namespace Slicing

variable (s : Slicing)

abbrev view : ArrayView := s.source.array.view

/-- Where the ranges begin and end. -/
abbrev spans : List (Int × Int) := sliceSpans s.ranges s.view.lengths

/-- Every span lies in its dimension. -/
abbrev Fits : Prop := SpansFit s.spans s.view.lengths

def run (contents : Bytes.Contents) : Emit (CreatedArray × Bytes.Contents) :=
  sliceExpr s.memory s.source.array s.ranges contents

/-- An index into the slice as one into the source. -/
def shift (indexes : List (BitVec 64)) : List (BitVec 64) :=
  List.zipWith (fun i span => i + BitVec.ofInt 64 span.1) indexes s.spans

/-- The element of the slice at the index is that of the source at the index moved. -/
def SameElement (slice : ArrayView) (contents after : Bytes.Contents)
    (indexes : List (BitVec 64)) : Prop :=
  ∃ address sourceAddress,
    arrayElementAddress slice (indexes.map int64Index) = .ok address ∧
      arrayElementAddress s.view ((s.shift indexes).map int64Index) = .ok sourceAddress ∧
        Bytes.load after address s.view.elementSize =
          Bytes.load contents sourceAddress s.view.elementSize

/-- A slice agrees with indexing, whatever is in memory. -/
structure Agrees : Prop where
  exits : ¬s.Fits → ∀ contents, s.run contents = .error (.exit "Array index out of bounds")
  yields : s.Fits → ∀ contents, ∃ slice after, s.run contents = .ok (slice, after) ∧
    slice.rank = s.source.array.rank ∧
    slice.view.dimensions.map BitVec.toInt = s.spans.map (fun span => span.2 - span.1) ∧
    ∀ indexes : List (BitVec 64), indexes.length = slice.view.dimensions.length →
      InBounds (indexes.map int64Index) slice.view.dimensions →
        s.SameElement slice.view contents after indexes

/-- There is nothing to fill, or it is filled. -/
def Filled : Prop :=
  s.ranges.length ≤ 1 ∨ s.view.dimensions.length ≤ 2
    ∨ (s.spans.map spanLength).prod * s.view.elementSize = 0

end Slicing

end Absolute
