import Absolute.CgArrayCreation

/-!
# Does a descriptor cover its storage?

What every bounds check relies on: one recorded dimension for each rank of the
type, none negative, and storage for their product (`CreatedArray.Covered`).
No path that allocates checks that it got what it asked for, two of them do
not check the sign or the product of the sizes, and none looks at the rank of
the element type. `creation_covered_iff` says for every creation exactly when
all this is harmless.
-/

namespace Absolute

/-- The descriptor can be trusted. -/
structure CreatedArray.Covered (a : CreatedArray) : Prop where
  one_per_rank : a.view.dimensions.length = a.rank
  dimensions_nonneg : ∀ d ∈ a.view.dimensions, 0 ≤ d.toInt
  starts_in : a.block.start.toNat ≤ a.view.address.toNat
  holds : a.view.address.toNat + a.view.lengths.prod * a.view.elementSize ≤
    a.block.start.toNat + a.block.size

/-- A request for so many bytes is met, or is for none. -/
def Granted (place : Nat → Option (BitVec 64)) (bytes : Nat) : Prop :=
  bytes = 0 ∨ bytes < 2 ^ 64 ∧ (place bytes).isSome = true

theorem size_allocate (place : Nat → Option (BitVec 64)) (bytes : Nat) :
    (allocate place bytes).size = if (place bytes).isSome then bytes else 0 := by
  unfold allocate
  split <;> rename_i h <;> simp [h]

/-- A request whose size was computed modulo the width covers what was meant
exactly when nothing wrapped and the request is met. -/
theorem le_size_allocate_mod (place : Nat → Option (BitVec 64)) (bytes : Nat) :
    bytes ≤ (allocate place (bytes % 2 ^ 64)).size ↔ Granted place bytes := by
  rw [size_allocate]
  have hmod := Nat.mod_lt bytes (Nat.two_pow_pos 64)
  constructor
  · intro hle
    by_cases hsome : (place (bytes % 2 ^ 64)).isSome = true
    · rw [if_pos hsome] at hle
      have heq : bytes % 2 ^ 64 = bytes := Nat.mod_eq_of_lt (Nat.lt_of_le_of_lt hle hmod)
      rw [heq] at hsome hmod
      exact .inr ⟨hmod, hsome⟩
    · rw [if_neg hsome] at hle
      exact .inl (Nat.le_zero.mp hle)
  · rintro (rfl | ⟨hlt, hsome⟩)
    · exact Nat.zero_le _
    · rw [Nat.mod_eq_of_lt hlt, if_pos hsome]

theorem toNat_elementCount (dimensions : List (BitVec 64)) :
    elementCount dimensions = BitVec.ofNat 64 (dimensions.map BitVec.toNat).prod := by
  have hfold := foldl_mul_ofNat 1 dimensions
  rw [RowMajor.horner_eq 1 (Nat.zero_le _), Nat.one_mul, RowMajor.offset_nil, Nat.add_zero]
    at hfold
  exact hfold

/-! ## Literals: the shape counts the values -/

section Shapes

variable {α : Type*}

mutual
theorem LiteralValue.length_flatten {value : LiteralValue α} {shape : List Nat}
    (h : value.shape = some shape) : value.flatten.length = shape.prod := by
  cases value with
  | scalar value => cases h; rfl
  | nested values =>
      rw [LiteralValue.shape, Option.map_eq_some_iff] at h
      obtain ⟨child, hchild, rfl⟩ := h
      rw [LiteralValue.flatten, List.prod_cons]
      exact (length_flatten_of_childShape hchild).2

/-- The loop keeps the shape it started with, and every value has it. -/
theorem length_flatten_of_childShape {shared : Option (List Nat)}
    {values : List (LiteralValue α)} {child : List Nat}
    (h : childShape shared values = some child) :
    (∀ c, shared = some c → c = child) ∧
      (flattenArrayValues values).length = values.length * child.prod := by
  cases values with
  | nil =>
      rw [childShape, Option.some.injEq] at h
      refine ⟨fun c hc => by rw [hc] at h; exact h, by simp [flattenArrayValues]⟩
  | cons value values =>
      unfold childShape at h
      have hstep : ∃ current, value.shape = some current ∧
          childShape (some current) values = some child ∧
            ∀ c, shared = some c → c = current := by
        cases hshape : value.shape with
        | none =>
            simp only [hshape] at h
            cases h
        | some current =>
            simp only [hshape] at h
            cases shared with
            | none => exact ⟨current, rfl, h, by intro c hc; cases hc⟩
            | some c =>
                dsimp only at h
                split at h
                · rename_i heq
                  subst heq
                  exact ⟨c, rfl, h, by intro c' hc'; exact (Option.some.inj hc').symm⟩
                · cases h
      obtain ⟨current, hshape, hrest, hshared⟩ := hstep
      obtain ⟨hcurrent, hlength⟩ := length_flatten_of_childShape hrest
      have hchild := hcurrent current rfl
      subst hchild
      refine ⟨hshared, ?_⟩
      rw [flattenArrayValues, List.length_append, LiteralValue.length_flatten hshape, hlength,
        List.length_cons, Nat.succ_mul, Nat.add_comm]
end

/-- A rectangular literal has as many values as the product of its shape. -/
theorem length_flatten {values : List (LiteralValue α)} {shape : List Nat}
    (h : inferArrayShape values = some shape) :
    (flattenArrayValues values).length = shape.prod := by
  rw [inferArrayShape, Option.map_eq_some_iff] at h
  obtain ⟨child, hchild, rfl⟩ := h
  rw [List.prod_cons]
  exact (length_flatten_of_childShape hchild).2

theorem guardedProduct_eq_some {count product : Nat} {shape : List Nat}
    (h : guardedProduct count shape = some product) : product = count * shape.prod := by
  induction shape generalizing count with
  | nil => simpa [guardedProduct] using h.symm
  | cons d shape ih =>
      rw [guardedProduct] at h
      split at h
      · cases h
      · rw [ih h, List.prod_cons, Nat.mul_assoc]

/-- The storage shape, flat or not, multiplies out to the number of values. -/
theorem prod_storageShape {values : List (LiteralValue α)} {declaredRank : Nat}
    {shape : List Nat} (h : inferArrayStorageShape values declaredRank = some shape) :
    shape.prod = (flattenArrayValues values).length := by
  unfold inferArrayStorageShape at h
  cases hshape : inferArrayShape values with
  | none => simp [hshape] at h
  | some whole =>
      simp only [hshape] at h
      rw [length_flatten hshape]
      split at h
      · rw [Option.some.inj h]
      · obtain ⟨product, hproduct, rfl⟩ := Option.map_eq_some_iff.mp h
        rw [List.prod_singleton, guardedProduct_eq_some hproduct, Nat.one_mul]

theorem storageShape_lt (literal : ArrayExpr α) {declaredRank : Nat} {shape : List Nat}
    (h : inferArrayStorageShape literal.values declaredRank = some shape) :
    ∀ d ∈ shape, d < 2 ^ 60 := by
  have hprod := prod_storageShape h
  unfold inferArrayStorageShape at h
  cases hshape : inferArrayShape literal.values with
  | none => simp [hshape] at h
  | some whole =>
      simp only [hshape] at h
      split at h
      · rw [← Option.some.inj h]
        exact literal.sizes_lt whole hshape
      · obtain ⟨product, hproduct, rfl⟩ := Option.map_eq_some_iff.mp h
        rw [List.prod_singleton] at hprod
        intro d hd
        rw [List.mem_singleton.mp hd, hprod]
        exact literal.length_lt

end Shapes

/-! ## Storage a creation allocates -/

/-- Over storage of its own, a view is covered by the size of the block. -/
theorem covered_at_start {block : Block} {elementSize rank : Nat}
    {dimensions : List (BitVec 64)} :
    (⟨⟨block.start, elementSize, dimensions⟩, rank, block⟩ : CreatedArray).Covered ↔
      dimensions.length = rank ∧ (∀ d ∈ dimensions, 0 ≤ d.toInt) ∧
        (dimensions.map BitVec.toNat).prod * elementSize ≤ block.size := by
  constructor
  · intro h
    exact ⟨h.one_per_rank, h.dimensions_nonneg, Nat.le_of_add_le_add_left h.holds⟩
  · intro ⟨hrank, hdims, hsize⟩
    exact ⟨hrank, hdims, Nat.le_refl _, Nat.add_le_add_left hsize _⟩

theorem le_size_alloca (memory : Memory) (elementSize : Nat) (dimensions : List (BitVec 64)) :
    (dimensions.map BitVec.toNat).prod * elementSize ≤
        (alloca memory elementSize (elementCount dimensions)).size ↔
      Granted memory.stack ((dimensions.map BitVec.toNat).prod * elementSize) := by
  rw [alloca, toNat_elementCount, ← BitVec.ofNat_mul, BitVec.toNat_ofNat]
  exact le_size_allocate_mod _ _

theorem le_size_malloc (memory : Memory) (count elementSize : Nat) :
    count * elementSize ≤
        (malloc memory (BitVec.ofNat 64 count * BitVec.ofNat 64 elementSize)).size ↔
      Granted memory.heap (count * elementSize) := by
  rw [malloc, ← BitVec.ofNat_mul, BitVec.toNat_ofNat]
  exact le_size_allocate_mod _ _

theorem le_size_calloc (memory : Memory) (count : BitVec 64) (elementSize : Nat) :
    count.toNat * elementSize ≤ (calloc memory count elementSize).size ↔
      Granted memory.heap (count.toNat * elementSize) := by
  unfold calloc
  split
  · rename_i hlt
    rw [← le_size_allocate_mod, Nat.mod_eq_of_lt hlt]
  · rename_i hlt
    constructor
    · intro h
      exact .inl (Nat.le_zero.mp h)
    · rintro (h | h)
      · exact Nat.le_zero.mpr h
      · exact absurd h.1 hlt

/-! ## Sized declarations -/

/-- The size one dimension is declared with. -/
def writtenSize (shape : Option (List Nat)) (dimension : Nat) : Option IntegerValue → Option Int
  | some size => some size.value
  | none => (shape.bind (·[dimension]?)).map Int.ofNat

/-- The sizes of a declaration, as values. -/
def writtenSizes (shape : Option (List Nat)) : Nat → List (Option IntegerValue) → Option (List Int)
  | _, [] => some []
  | dimension, index :: indexes => do
      let size ← writtenSize shape dimension index
      let sizes ← writtenSizes shape (dimension + 1) indexes
      return size :: sizes

/-- A size the check accepts: positive, and no more than a signed word holds. -/
def PositiveSize (size : Int) : Prop := 0 < size ∧ size < 2 ^ 63

theorem zero_slt {word : BitVec 64} : (0 : BitVec 64).slt word = true ↔ 0 < word.toInt := by
  simp [BitVec.slt]

theorem dimensionSize_spec {shape : Option (List Nat)}
    (hshape : ∀ s, shape = some s → ∀ d ∈ s, d < 2 ^ 60) (dimension : Nat)
    (index : Option IntegerValue) :
    (writtenSize shape dimension index = none ∧
      dimensionSize shape dimension index =
        .error (.fail "array dimension requires a size or an initializer")) ∨
    ∃ size word, writtenSize shape dimension index = some size ∧
      dimensionSize shape dimension index = .ok word ∧ Reads word size := by
  cases index with
  | some index => exact .inr ⟨_, _, rfl, rfl, index.reads_wide⟩
  | none =>
      rw [writtenSize, dimensionSize]
      cases hsize : shape.bind (·[dimension]?) with
      | none => exact .inl ⟨rfl, rfl⟩
      | some size =>
          have hlt : size < 2 ^ 60 := by
            obtain ⟨s, hs, hget⟩ := Option.bind_eq_some_iff.mp hsize
            exact hshape s hs size (List.mem_of_getElem? hget)
          exact .inr ⟨size, _, rfl, rfl, reads_ofNat (by omega)⟩

theorem Reads.positive_iff {word : BitVec 64} {size : Int} (h : Reads word size) :
    (0 : BitVec 64).slt word = true ↔ PositiveSize size := by
  rw [zero_slt, PositiveSize]
  unfold Reads at h
  omega

/-- What the checked loop lets through are the sizes as written. -/
theorem declaredDimensions_ok {shape : Option (List Nat)}
    (hshape : ∀ s, shape = some s → ∀ d ∈ s, d < 2 ^ 60) {dimension : Nat}
    {indexes : List (Option IntegerValue)} {dimensions : List (BitVec 64)}
    (h : declaredDimensions shape dimension indexes = .ok dimensions) :
    dimensions.length = indexes.length ∧ (∀ d ∈ dimensions, 0 ≤ d.toInt) ∧
      ∃ sizes, writtenSizes shape dimension indexes = some sizes ∧
        (∀ s ∈ sizes, PositiveSize s) ∧
          dimensions.map BitVec.toNat = sizes.map Int.toNat := by
  induction indexes generalizing dimension dimensions with
  | nil =>
      cases h
      exact ⟨rfl, by simp, [], rfl, by simp, rfl⟩
  | cons index indexes ih =>
      rw [declaredDimensions, bind_eq_ok] at h
      obtain ⟨word, hword, h⟩ := h
      obtain ⟨_, hcheck, h⟩ := bind_eq_ok.mp h
      obtain ⟨rest, hrest, h⟩ := bind_eq_ok.mp h
      cases h
      have hslt := emitOrExit_eq_ok.mp hcheck
      obtain ⟨hlength, hnonneg, sizes, hsizes, hall, hmap⟩ := ih hrest
      rcases dimensionSize_spec hshape dimension index with
        ⟨_, hfail⟩ | ⟨size, word', hwritten, hword', hreads⟩
      · rw [hfail] at hword
        cases hword
      · rw [hword'] at hword
        cases hword
        have hword_nonneg := (zero_slt.mp hslt).le
        refine ⟨by simp [hlength], ?_, size :: sizes, ?_, ?_, ?_⟩
        · exact List.forall_mem_cons.mpr ⟨hword_nonneg, hnonneg⟩
        · rw [writtenSizes, hwritten, hsizes]
          rfl
        · exact List.forall_mem_cons.mpr ⟨hreads.positive_iff.mp hslt, hall⟩
        · have := hreads.toNat_eq hword_nonneg
          rw [List.map_cons, List.map_cons, hmap, ← this]
          rfl

theorem declaredDimensions_of_positive {shape : Option (List Nat)}
    (hshape : ∀ s, shape = some s → ∀ d ∈ s, d < 2 ^ 60) {dimension : Nat}
    {indexes : List (Option IntegerValue)} {sizes : List Int}
    (h : writtenSizes shape dimension indexes = some sizes) (hpos : ∀ s ∈ sizes, PositiveSize s) :
    ∃ dimensions, declaredDimensions shape dimension indexes = .ok dimensions := by
  induction indexes generalizing dimension sizes with
  | nil => exact ⟨[], rfl⟩
  | cons index indexes ih =>
      rcases dimensionSize_spec hshape dimension index with
        ⟨hnone, _⟩ | ⟨size, word, hwritten, hword, hreads⟩
      · rw [writtenSizes, hnone] at h
        cases h
      · cases hrest : writtenSizes shape (dimension + 1) indexes with
        | none =>
            rw [writtenSizes, hwritten, hrest] at h
            cases h
        | some rest =>
            rw [writtenSizes, hwritten, hrest] at h
            cases h
            obtain ⟨hsize, hall⟩ := List.forall_mem_cons.mp hpos
            obtain ⟨dimensions, hdims⟩ := ih hrest hall
            refine ⟨word :: dimensions, ?_⟩
            rw [declaredDimensions, hword, ok_bind, hreads.positive_iff.mpr hsize,
              emitOrExit_true, ok_bind,
              hdims]
            rfl

/-! ## Slices -/

/-- Where a range begins and ends, as values. -/
def SliceRange.span (range : SliceRange) (dimension : Nat) : Int × Int :=
  if range.hasColon then
    (range.start.elim 0 IntegerValue.value, range.stop.elim dimension IntegerValue.value)
  else match range.start with
    | some start => (start.value, start.value + 1)
    | none => (0, dimension)

def nextSpan (ranges : List SliceRange) (dimension : Nat) : Int × Int :=
  match ranges with
  | [] => (0, dimension)
  | range :: _ => range.span dimension

/-- The span of every dimension; one without a range is whole. -/
def sliceSpans : List SliceRange → List Nat → List (Int × Int)
  | _, [] => []
  | ranges, d :: dimensions => nextSpan ranges d :: sliceSpans ranges.tail dimensions

/-- The span lies in the dimension. -/
def SpanFits (span : Int × Int) (dimension : Nat) : Prop :=
  0 ≤ span.1 ∧ span.1 ≤ span.2 ∧ span.2 ≤ dimension

/-- The number of elements a span has. -/
def spanLength (span : Int × Int) : Nat := (span.2 - span.1).toNat

theorem sliceSpans_nil (dimensions : List Nat) :
    sliceSpans [] dimensions = dimensions.map fun d : Nat => (0, (d : Int)) := by
  induction dimensions with
  | nil => rfl
  | cons d dimensions ih => rw [sliceSpans, List.tail_nil, ih]; rfl

theorem map_spanLength_whole (dimensions : List Nat) :
    (dimensions.map fun d : Nat => ((0 : Int), (d : Int))).map spanLength = dimensions := by
  rw [List.map_map]
  calc dimensions.map (spanLength ∘ fun d : Nat => ((0 : Int), (d : Int)))
      = dimensions.map id := List.map_congr_left fun d _ => by simp [spanLength]
    _ = dimensions := List.map_id _

theorem sliceCheck_iff {a b d : BitVec 64} :
    ((0 : BitVec 64).sle a && a.sle b && b.sle d) = true ↔
      0 ≤ a.toInt ∧ a.toInt ≤ b.toInt ∧ b.toInt ≤ d.toInt := by
  simp [BitVec.sle, and_assoc]

/-- The check of one dimension, and what it leaves: the bounds as words, in
order and below the dimension. -/
theorem nextBounds_spec (ranges : List SliceRange) {d : BitVec 64} (hd : 0 ≤ d.toInt) :
    let b := nextBounds ranges d
    let span := nextSpan ranges d.toNat
    (((0 : BitVec 64).sle b.1 && b.1.sle b.2 && b.2.sle d) = true ↔ SpanFits span d.toNat) ∧
      (SpanFits span d.toNat → (b.1.toNat : Int) = span.1 ∧ (b.2.toNat : Int) = span.2) := by
  have hdim := toNat_of_toInt_nonneg hd
  have hlt : d.toInt < 2 ^ 63 := BitVec.toInt_lt
  -- two words that stand for the ends of the span settle it
  have hends : ∀ {a b : BitVec 64} {x y : Int}, Reads a x → Reads b y →
      (((0 : BitVec 64).sle a && a.sle b && b.sle d) = true ↔ SpanFits (x, y) d.toNat) ∧
        (SpanFits (x, y) d.toNat → (a.toNat : Int) = x ∧ (b.toNat : Int) = y) := by
    intro a b x y ha hb
    rw [sliceCheck_iff]
    have hcheck : (0 ≤ a.toInt ∧ a.toInt ≤ b.toInt ∧ b.toInt ≤ d.toInt) ↔
        SpanFits (x, y) d.toNat := by
      unfold Reads at ha hb
      unfold SpanFits
      constructor <;> intro h <;> omega
    refine ⟨hcheck, fun h => ?_⟩
    obtain ⟨h0, h1, _⟩ := hcheck.mpr h
    exact ⟨ha.toNat_eq h0, hb.toNat_eq (h0.trans h1)⟩
  have hzero : Reads 0 0 := .inl ⟨by decide, by decide⟩
  have hwhole : Reads d d.toNat := .inl ⟨by omega, hdim.symm⟩
  intro b span
  cases ranges with
  | nil => exact hends hzero hwhole
  | cons range _ =>
      obtain ⟨hasColon, start, stop⟩ := range
      cases hasColon with
      | true =>
          cases start with
          | none =>
              cases stop with
              | none => exact hends hzero hwhole
              | some stop => exact hends hzero stop.reads_wide
          | some start =>
              cases stop with
              | none => exact hends start.reads_wide hwhole
              | some stop => exact hends start.reads_wide stop.reads_wide
      | false =>
          cases start with
          | none => exact hends hzero hwhole
          | some start =>
              have hstart := start.reads_wide
              by_cases hin : 0 ≤ start.value ∧ start.value < 2 ^ 63 - 1
              · exact hends hstart (hstart.succ hin.1 hin.2)
              · -- a start at the end of the range has no word after it
                have hbad : ¬ SpanFits (start.value, start.value + 1) d.toNat := by
                  unfold SpanFits
                  omega
                refine ⟨⟨fun h => absurd (sliceCheck_iff.mp h) ?_, fun h => absurd h hbad⟩,
                  fun h => absurd h hbad⟩
                intro ⟨h0, h1, h2⟩
                change 0 ≤ start.wide.toInt at h0
                change start.wide.toInt ≤ (start.wide + 1).toInt at h1
                have hmax : start.wide.toInt = 2 ^ 63 - 1 := by
                  have : start.wide.toInt < 2 ^ 63 := BitVec.toInt_lt
                  unfold Reads at hstart
                  omega
                rw [BitVec.toInt_add, hmax] at h1
                exact absurd h1 (by decide)

/-- The bounds of a slice, once checked, lie in the dimensions. -/
def SpansFit : List (Int × Int) → List Nat → Prop := List.Forall₂ SpanFits

/-- A checked slice: the lengths recorded for it are those of the spans. -/
theorem sliceBounds_ok {ranges : List SliceRange} {dimensions : List (BitVec 64)}
    {bounds : List (BitVec 64 × BitVec 64)} (hdims : ∀ d ∈ dimensions, 0 ≤ d.toInt)
    (h : sliceBounds ranges dimensions = .ok bounds) :
    let spans := sliceSpans ranges (dimensions.map BitVec.toNat)
    SpansFit spans (dimensions.map BitVec.toNat) ∧
      List.Forall₂ (fun b span => (b.1.toNat : Int) = span.1 ∧ (b.2.toNat : Int) = span.2)
        bounds spans := by
  induction dimensions generalizing ranges bounds with
  | nil =>
      cases h
      exact ⟨.nil, .nil⟩
  | cons d dimensions ih =>
      rw [sliceBounds] at h
      obtain ⟨_, hcheck, h⟩ := bind_eq_ok.mp h
      obtain ⟨rest, hrest, h⟩ := bind_eq_ok.mp h
      cases h
      have hd := hdims d (List.mem_cons_self ..)
      obtain ⟨hvalid, hvalue⟩ := nextBounds_spec ranges hd
      have hfits := hvalid.mp (emitOrExit_eq_ok.mp hcheck)
      obtain ⟨hspans, hbounds⟩ := ih (fun d' hd' => hdims d' (List.mem_cons_of_mem _ hd')) hrest
      exact ⟨.cons hfits hspans, .cons (hvalue hfits) hbounds⟩

theorem sliceBounds_of_fit {ranges : List SliceRange} {dimensions : List (BitVec 64)}
    (hdims : ∀ d ∈ dimensions, 0 ≤ d.toInt)
    (h : SpansFit (sliceSpans ranges (dimensions.map BitVec.toNat))
      (dimensions.map BitVec.toNat)) :
    ∃ bounds, sliceBounds ranges dimensions = .ok bounds := by
  induction dimensions generalizing ranges with
  | nil => exact ⟨[], rfl⟩
  | cons d dimensions ih =>
      rw [List.map_cons, sliceSpans, SpansFit, List.forall₂_cons] at h
      have hd := hdims d (List.mem_cons_self ..)
      obtain ⟨hvalid, _⟩ := nextBounds_spec ranges hd
      obtain ⟨rest, hrest⟩ := ih (fun d' hd' => hdims d' (List.mem_cons_of_mem _ hd')) h.2
      refine ⟨nextBounds ranges d :: rest, ?_⟩
      rw [sliceBounds]
      exact bind_eq_ok.mpr
        ⟨(), emitOrExit_eq_ok.mpr (hvalid.mpr h.1), bind_eq_ok.mpr ⟨rest, hrest, rfl⟩⟩

theorem toNat_sub_of_le {a b : BitVec 64} (h : a.toNat ≤ b.toNat) :
    (b - a).toNat = b.toNat - a.toNat := by
  have := a.isLt
  have := b.isLt
  rw [BitVec.toNat_sub]
  omega

/-- The dimensions a slice records: not negative, and as long as the spans. -/
theorem slice_dimensions {bounds : List (BitVec 64 × BitVec 64)} {spans : List (Int × Int)}
    {lengths : List Nat} (hlengths : ∀ n ∈ lengths, n < 2 ^ 63) (hfit : SpansFit spans lengths)
    (h : List.Forall₂ (fun b span => (b.1.toNat : Int) = span.1 ∧ (b.2.toNat : Int) = span.2)
      bounds spans) :
    (bounds.map fun b => b.2 - b.1).map BitVec.toNat = spans.map spanLength ∧
      ∀ d ∈ bounds.map fun b => b.2 - b.1, 0 ≤ d.toInt := by
  induction h generalizing lengths with
  | nil => exact ⟨rfl, by simp⟩
  | @cons b span bounds spans hb _ ih =>
      cases hfit with
      | @cons _ n _ ns hspan hspans =>
          obtain ⟨h0, h1, h2⟩ := hspan
          obtain ⟨hn, hns⟩ := List.forall_mem_cons.mp hlengths
          obtain ⟨hmap, hnonneg⟩ := ih hns hspans
          have hsub : (b.2 - b.1).toNat = spanLength span := by
            rw [toNat_sub_of_le (by omega), spanLength]
            omega
          refine ⟨by rw [List.map_cons, List.map_cons, List.map_cons, hmap, hsub], ?_⟩
          refine List.forall_mem_cons.mpr ⟨?_, hnonneg⟩
          rw [BitVec.toInt_eq_toNat_of_lt] <;> rw [hsub, spanLength] <;> omega

/-! ## Every creation -/

/-- An array to slice: a view over storage it covers, wherever it came from. -/
structure SourceArray where
  array : CreatedArray
  covered : array.Covered
  in_memory : array.block.start.toNat + array.block.size < 2 ^ 64

/-- The array creations of a program. -/
inductive Creation (α : Type*) where
  | declaration (baseRank elementSize : Nat) (indexes : List (Option IntegerValue))
      (init : Option (ArrayExpr α))
  | new (rank elementSize : Nat) (size : Option IntegerValue)
  | literal (rank elementSize : Nat) (array : ArrayExpr α)
  | pack (rank elementSize : Nat) (arguments : List α) (length_lt : arguments.length < 2 ^ 60)
  | slice (source : SourceArray) (ranges : List SliceRange)

section

variable {α : Type*}

/-- The array the emitted code makes, if it does not stop at a check. -/
def Creation.emit (memory : Memory) : Creation α → Emit CreatedArray
  | .declaration baseRank elementSize indexes init =>
      declareArray memory baseRank elementSize indexes init
  | .new rank elementSize size => newArray memory rank elementSize size
  | .literal rank elementSize array => arrayLiteral memory rank elementSize array
  | .pack rank elementSize arguments _ => paramsPack memory rank elementSize arguments
  | .slice source ranges => sliceArray memory source.array ranges

/-- The descriptor built, if any, covers its storage. -/
def Creation.Covers (memory : Memory) (creation : Creation α) : Prop :=
  ∀ array, creation.emit memory = .ok array → array.Covered

/-- The size a `new` expression asks for. -/
def newSize (size : Option IntegerValue) : Int := size.elim 0 IntegerValue.value

/-- The literal is one the backend makes storage for. -/
def Rectangular (rank : Nat) (literal : ArrayExpr α) : Prop :=
  rank ≠ 0 ∧ (inferArrayStorageShape literal.values rank).map List.length = some rank

/-- When a creation can be trusted. Whatever is allocated must be granted at
its exact size; `new` also needs a size that is not negative; and an array
type of more dimensions than are recorded never can. -/
def Creation.Safe (memory : Memory) : Creation α → Prop
  | .declaration baseRank elementSize indexes init =>
      ∀ sizes, writtenSizes
          (init.bind fun l => inferArrayStorageShape l.values indexes.length) 0 indexes =
            some sizes →
        (∀ size ∈ sizes, PositiveSize size) →
          baseRank = 0 ∧ Granted memory.stack ((sizes.map Int.toNat).prod * elementSize)
  | .new rank elementSize size =>
      rank = 1 ∧ 0 ≤ newSize size ∧ newSize size < 2 ^ 63 ∧
        Granted memory.heap ((newSize size).toNat * elementSize)
  | .literal rank elementSize array =>
      Rectangular rank array →
        Granted memory.heap ((flattenArrayValues array.values).length * elementSize)
  | .pack rank elementSize arguments _ =>
      rank = 1 ∧ Granted memory.stack (arguments.length * elementSize)
  | .slice source ranges =>
      let lengths := source.array.view.lengths
      1 < ranges.length → ranges.length ≤ lengths.length →
        SpansFit (sliceSpans ranges lengths) lengths →
          Granted memory.stack
            (((sliceSpans ranges lengths).map spanLength).prod *
              source.array.view.elementSize)

variable {memory : Memory}

theorem covers_of_eq_ok {creation : Creation α} {array : CreatedArray}
    (h : creation.emit memory = .ok array) : creation.Covers memory ↔ array.Covered := by
  constructor
  · intro hcovers
    exact hcovers array h
  · intro hcovered other hother
    rw [h] at hother
    cases hother
    exact hcovered

theorem covers_of_error {creation : Creation α} (stop : Stop)
    (h : creation.emit memory = .error stop) : creation.Covers memory := by
  intro array harray
  rw [h] at harray
  cases harray

theorem declaration_covers_iff (baseRank elementSize : Nat)
    (indexes : List (Option IntegerValue)) (init : Option (ArrayExpr α)) :
    (Creation.declaration baseRank elementSize indexes init).Covers memory ↔
      (Creation.declaration baseRank elementSize indexes init).Safe memory := by
  have hshape : ∀ s, (init.bind fun l => inferArrayStorageShape l.values indexes.length) =
      some s → ∀ d ∈ s, d < 2 ^ 60 := by
    intro s hs
    obtain ⟨l, _, hl⟩ := Option.bind_eq_some_iff.mp hs
    exact storageShape_lt l hl
  cases hdims : declaredDimensions
      (init.bind fun l => inferArrayStorageShape l.values indexes.length) 0 indexes with
  | error stop =>
      have hstop : (Creation.declaration baseRank elementSize indexes init).emit memory =
          .error stop := by
        rw [Creation.emit, declareArray, hdims]
        rfl
      refine ⟨fun _ => ?_, fun _ => covers_of_error stop hstop⟩
      intro sizes hsizes hpositive
      obtain ⟨dimensions, hok⟩ := declaredDimensions_of_positive hshape hsizes hpositive
      rw [hdims] at hok
      cases hok
  | ok dimensions =>
      obtain ⟨hlength, hnonneg, sizes, hsizes, hpositive, hmap⟩ :=
        declaredDimensions_ok hshape hdims
      let block := alloca memory elementSize (elementCount dimensions)
      have hok : (Creation.declaration baseRank elementSize indexes init).emit memory =
          .ok ⟨⟨block.start, elementSize, dimensions⟩, indexes.length + baseRank, block⟩ := by
        rw [Creation.emit, declareArray, hdims]
        rfl
      rw [covers_of_eq_ok hok, covered_at_start, le_size_alloca, hmap, Creation.Safe, hsizes]
      constructor
      · intro ⟨hrank, _, hgranted⟩ sizes' hsizes' _
        cases hsizes'
        exact ⟨by omega, hgranted⟩
      · intro h
        obtain ⟨hbase, hgranted⟩ := h sizes rfl hpositive
        exact ⟨by omega, hnonneg, hgranted⟩

theorem new_covers_iff (rank elementSize : Nat) (size : Option IntegerValue) :
    (Creation.new rank elementSize size : Creation α).Covers memory ↔
      (Creation.new rank elementSize size : Creation α).Safe memory := by
  let count := size.elim 0 IntegerValue.wide
  let block := calloc memory count elementSize
  have hok : (Creation.new rank elementSize size : Creation α).emit memory =
      .ok ⟨⟨block.start, elementSize, [count]⟩, rank, block⟩ := rfl
  have hreads : Reads count (newSize size) := by
    cases size with
    | none => exact .inl ⟨by decide, by decide⟩
    | some size => exact size.reads_wide
  rw [covers_of_eq_ok hok, covered_at_start, Creation.Safe]
  simp only [List.length_singleton, List.mem_singleton, forall_eq, List.map_singleton,
    List.prod_singleton]
  rw [le_size_calloc]
  have hsign : 0 ≤ count.toInt ↔ 0 ≤ newSize size ∧ newSize size < 2 ^ 63 := by
    unfold Reads at hreads
    omega
  constructor
  · intro ⟨hrank, hnonneg, hgranted⟩
    obtain ⟨h0, h1⟩ := hsign.mp hnonneg
    have hvalue : count.toNat = (newSize size).toNat := by
      have := hreads.toNat_eq hnonneg
      omega
    exact ⟨hrank.symm, h0, h1, hvalue ▸ hgranted⟩
  · intro ⟨hrank, h0, h1, hgranted⟩
    have hnonneg := hsign.mpr ⟨h0, h1⟩
    have hvalue : count.toNat = (newSize size).toNat := by
      have := hreads.toNat_eq hnonneg
      omega
    exact ⟨hrank.symm, hnonneg, hvalue ▸ hgranted⟩

theorem map_toNat_ofNat {shape : List Nat} (h : ∀ d ∈ shape, d < 2 ^ 60) :
    (shape.map (BitVec.ofNat 64)).map BitVec.toNat = shape := by
  rw [List.map_map]
  calc shape.map (BitVec.toNat ∘ BitVec.ofNat 64)
      = shape.map id := List.map_congr_left fun d hd => by
        have := h d hd
        rw [Function.comp_apply, BitVec.toNat_ofNat, Nat.mod_eq_of_lt (by omega), id]
    _ = shape := List.map_id _

theorem toInt_ofNat_nonneg {n : Nat} (h : n < 2 ^ 60) : 0 ≤ (BitVec.ofNat 64 n).toInt := by
  have := reads_ofNat (n := n) (by omega)
  unfold Reads at this
  omega

theorem literal_covers_iff (rank elementSize : Nat) (array : ArrayExpr α) :
    (Creation.literal rank elementSize array).Covers memory ↔
      (Creation.literal rank elementSize array).Safe memory := by
  by_cases hrect : Rectangular rank array
  · obtain ⟨hrank, hshape⟩ := hrect
    obtain ⟨shape, hshape, hlength⟩ := Option.map_eq_some_iff.mp hshape
    let count := (flattenArrayValues array.values).length
    let block := malloc memory (BitVec.ofNat 64 count * BitVec.ofNat 64 elementSize)
    have hok : (Creation.literal rank elementSize array).emit memory =
        .ok ⟨⟨block.start, elementSize, shape.map (BitVec.ofNat 64)⟩, rank, block⟩ := by
      rw [Creation.emit, arrayLiteral, if_neg hrank]
      simp only [hshape, hlength, ne_eq, not_true_eq_false, if_false]
      rfl
    have hlt := storageShape_lt array hshape
    rw [covers_of_eq_ok hok, covered_at_start, map_toNat_ofNat hlt, prod_storageShape hshape,
      le_size_malloc, Creation.Safe]
    constructor
    · intro h _
      exact h.2.2
    · intro h
      refine ⟨by rw [List.length_map, hlength], ?_, h ⟨hrank, ?_⟩⟩
      · intro d hd
        obtain ⟨n, hn, rfl⟩ := List.mem_map.mp hd
        exact toInt_ofNat_nonneg (hlt n hn)
      · rw [hshape, Option.map_some, hlength]
  · refine ⟨fun _ h => absurd h hrect, fun _ => ?_⟩
    have hstop : ∃ stop, (Creation.literal rank elementSize array).emit memory = .error stop := by
      rw [Creation.emit, arrayLiteral]
      by_cases hrank : rank = 0
      · rw [if_pos hrank]
        exact ⟨_, rfl⟩
      · rw [if_neg hrank]
        cases hshape : inferArrayStorageShape array.values rank with
        | none => exact ⟨_, rfl⟩
        | some shape =>
            have hlength : shape.length ≠ rank := by
              intro heq
              exact hrect ⟨hrank, by rw [hshape, Option.map_some, heq]⟩
            simp only [hlength, ne_eq, not_false_eq_true, if_true]
            exact ⟨_, rfl⟩
    obtain ⟨stop, hstop⟩ := hstop
    exact covers_of_error stop hstop

theorem pack_covers_iff (rank elementSize : Nat) (arguments : List α)
    (hlt : arguments.length < 2 ^ 60) :
    (Creation.pack rank elementSize arguments hlt).Covers memory ↔
      (Creation.pack rank elementSize arguments hlt).Safe memory := by
  let count := BitVec.ofNat 64 arguments.length
  let block := alloca memory elementSize count
  have hok : (Creation.pack rank elementSize arguments hlt).emit memory =
      .ok ⟨⟨block.start, elementSize, [count]⟩, rank, block⟩ := rfl
  have hone : elementCount [count] = count := BitVec.one_mul _
  have hnat : count.toNat = arguments.length := by
    rw [BitVec.toNat_ofNat, Nat.mod_eq_of_lt (by omega)]
  have hsize := le_size_alloca memory elementSize [count]
  rw [hone] at hsize
  rw [covers_of_eq_ok hok, covered_at_start, hsize, Creation.Safe]
  simp only [List.length_singleton, List.mem_singleton, forall_eq, List.map_singleton,
    List.prod_singleton, hnat]
  constructor
  · intro ⟨hrank, _, hgranted⟩
    exact ⟨hrank.symm, hgranted⟩
  · intro ⟨hrank, hgranted⟩
    exact ⟨hrank.symm, toInt_ofNat_nonneg hlt, hgranted⟩

/-- A slice of the first dimension stays in the storage of its source. -/
theorem covered_outer_slice (source : SourceArray) {d : BitVec 64} {ds : List (BitVec 64)}
    (hdims : source.array.view.dimensions = d :: ds) {bounds : List (BitVec 64 × BitVec 64)}
    {b : BitVec 64 × BitVec 64} {span : Int × Int}
    (hb : (b.1.toNat : Int) = span.1) (hspan : SpanFits span d.toNat)
    (hlengths : (bounds.map fun b => b.2 - b.1).map BitVec.toNat =
      spanLength span :: ds.map BitVec.toNat)
    (hnonneg : ∀ d ∈ bounds.map fun b => b.2 - b.1, 0 ≤ d.toInt) :
    let view := source.array.view
    (⟨⟨inBoundsGEP view.elementSize view.address (b.1 * elementCount ds), view.elementSize,
      bounds.map fun b => b.2 - b.1⟩, source.array.rank, source.array.block⟩ :
        CreatedArray).Covered := by
  intro view
  obtain ⟨hrank, _, hstart, hholds⟩ := source.covered
  have hmemory := source.in_memory
  obtain ⟨h0, h1, h2⟩ := hspan
  obtain ⟨rest, hrest⟩ : ∃ rest, (ds.map BitVec.toNat).prod * view.elementSize = rest := ⟨_, rfl⟩
  have hwhole : view.address.toNat + d.toNat * rest ≤
      source.array.block.start.toNat + source.array.block.size := by
    rw [← hrest, ← Nat.mul_assoc]
    simpa [ArrayView.lengths, hdims] using hholds
  have hskip : b.1.toNat * rest + spanLength span * rest ≤ d.toNat * rest := by
    rw [← Nat.add_mul, spanLength]
    exact Nat.mul_le_mul_right _ (by omega)
  have hoffset : b.1 * elementCount ds =
      BitVec.ofNat 64 (b.1.toNat * (ds.map BitVec.toNat).prod) := by
    rw [toNat_elementCount, BitVec.ofNat_mul, BitVec.ofNat_toNat, BitVec.setWidth_eq]
  have haddress : (inBoundsGEP view.elementSize view.address (b.1 * elementCount ds)).toNat =
      view.address.toNat + b.1.toNat * rest := by
    rw [hoffset, toNat_inBoundsGEP] <;> rw [Nat.mul_assoc, hrest]
    omega
  refine ⟨?_, hnonneg, ?_, ?_⟩
  · have hlen := congrArg List.length hlengths
    rw [hdims] at hrank
    simpa using hlen.trans (by simpa using hrank)
  · rw [haddress]
    exact Nat.le_trans hstart (Nat.le_add_right _ _)
  · change (inBoundsGEP view.elementSize view.address (b.1 * elementCount ds)).toNat +
      ((bounds.map fun b => b.2 - b.1).map BitVec.toNat).prod * view.elementSize ≤
        source.array.block.start.toNat + source.array.block.size
    rw [haddress, hlengths, List.prod_cons, Nat.mul_assoc, hrest]
    omega

theorem slice_stops {source : SourceArray} {ranges : List SliceRange} {stop : Stop}
    (h : sliceBounds ranges source.array.view.dimensions = .error stop) :
    ∃ stop, (Creation.slice source ranges : Creation α).emit memory = .error stop := by
  rw [Creation.emit, sliceArray, h]
  split
  · exact ⟨_, rfl⟩
  · split
    · exact ⟨_, rfl⟩
    · exact ⟨_, rfl⟩

/-- What `Visit(SliceExpr)` gives once the bounds are checked. -/
theorem emit_slice {source : SourceArray} {ranges : List SliceRange}
    {bounds : List (BitVec 64 × BitVec 64)} (hne : source.array.view.dimensions ≠ [])
    (hle : ranges.length ≤ source.array.view.dimensions.length)
    (hbounds : sliceBounds ranges source.array.view.dimensions = .ok bounds) :
    (Creation.slice source ranges : Creation α).emit memory =
      .ok (slicedArray memory source.array ranges bounds) := by
  rw [Creation.emit, sliceArray, if_neg hne, if_neg (Nat.not_lt.mpr hle), hbounds, ok_bind]
  rfl

theorem slice_covers_iff (source : SourceArray) (ranges : List SliceRange) :
    (Creation.slice source ranges : Creation α).Covers memory ↔
      (Creation.slice source ranges : Creation α).Safe memory := by
  have hnonneg := source.covered.dimensions_nonneg
  cases hbounds : sliceBounds ranges source.array.view.dimensions with
  | error stop =>
      obtain ⟨stop, hstop⟩ := @slice_stops α memory _ _ _ hbounds
      refine ⟨fun _ _ _ hfit => ?_, fun _ => covers_of_error stop hstop⟩
      obtain ⟨bounds, hok⟩ := sliceBounds_of_fit hnonneg hfit
      rw [hbounds] at hok
      cases hok
  | ok bounds =>
      obtain ⟨hfit, hvalues⟩ := sliceBounds_ok hnonneg hbounds
      have hlt : ∀ n ∈ source.array.view.lengths, n < 2 ^ 63 := by
        intro n hn
        obtain ⟨d, hd, rfl⟩ := List.mem_map.mp hn
        have := two_mul_le_of_nonneg (hnonneg d hd)
        have := toNat_of_toInt_nonneg (hnonneg d hd)
        have : d.toInt < 2 ^ 63 := BitVec.toInt_lt
        omega
      obtain ⟨hmap, hdims⟩ := slice_dimensions hlt hfit hvalues
      by_cases hemits : source.array.view.dimensions ≠ [] ∧
          ranges.length ≤ source.array.view.dimensions.length
      · obtain ⟨hne, hle⟩ := hemits
        rw [covers_of_eq_ok (emit_slice hne hle hbounds)]
        by_cases houter : ranges.length ≤ 1
        · rw [slicedArray, if_pos houter]
          obtain ⟨d, ds, hcons⟩ := List.exists_cons_of_ne_nil hne
          refine ⟨fun _ h1 => absurd h1 (Nat.not_lt.mpr houter), fun _ => ?_⟩
          rw [hcons, List.map_cons] at hfit hvalues hmap
          have htail : ranges.tail = [] := by
            cases ranges with
            | nil => rfl
            | cons r rs => exact List.length_eq_zero_iff.mp (by simpa using houter)
          rw [sliceSpans, htail, sliceSpans_nil] at hfit hvalues hmap
          cases hvalues with
          | @cons b _ bounds' _ hb _ =>
              have hlengths := hmap.trans (by rw [List.map_cons, map_spanLength_whole])
              rw [hcons, List.tail_cons]
              exact covered_outer_slice source hcons hb.1 (List.forall₂_cons.mp hfit).1
                hlengths hdims
        · rw [slicedArray, if_neg houter, covered_at_start, le_size_alloca, hmap, Creation.Safe]
          constructor
          · intro h _ _ _
            exact h.2.2
          · intro h
            refine ⟨?_, hdims,
              h (Nat.not_le.mp houter) (by simpa [ArrayView.lengths] using hle) hfit⟩
            rw [List.length_map, hvalues.length_eq, hfit.length_eq, List.length_map]
            exact source.covered.one_per_rank
      · constructor
        · intro _ h1 h2 _
          rw [ArrayView.lengths, List.length_map] at h2
          refine absurd ⟨fun hempty => ?_, h2⟩ hemits
          rw [hempty, List.length_nil] at h2
          omega
        · intro _
          by_cases hempty : source.array.view.dimensions = []
          · refine covers_of_error (.fail "slice target is not an array") ?_
            rw [Creation.emit, sliceArray, if_pos hempty]
          · have hmany := Nat.not_le.mp fun hle => hemits ⟨hempty, hle⟩
            refine covers_of_error (.fail "slice range count exceeds array rank") ?_
            rw [Creation.emit, sliceArray, if_neg hempty, if_pos hmany]

/-- Every array creation: the descriptor covers its storage exactly when the
creation is safe. -/
theorem creation_covers_iff (memory : Memory) (creation : Creation α) :
    creation.Covers memory ↔ creation.Safe memory := by
  cases creation with
  | declaration baseRank elementSize indexes init =>
      exact declaration_covers_iff baseRank elementSize indexes init
  | new rank elementSize size => exact new_covers_iff rank elementSize size
  | literal rank elementSize array => exact literal_covers_iff rank elementSize array
  | pack rank elementSize arguments hlt => exact pack_covers_iff rank elementSize arguments hlt
  | slice source ranges => exact slice_covers_iff source ranges

end

/-- A heap that never refuses. -/
def grantingMemory : Memory where
  stack _ := some 4096
  heap _ := some 4096

/-- `new int32[-1]`, with -1 of type `int32`. -/
def negativeNew : Creation Unit := .new 1 4 (some ⟨.int32, 32, -1, by decide⟩)

/-- The descriptor records -1 elements over no storage: as an unsigned bound
that is every index there is. -/
theorem negativeNew_not_covered :
    negativeNew.emit grantingMemory = .ok ⟨⟨0, 4, [-1]⟩, 1, ⟨0, 0⟩⟩ ∧
      ¬ ∀ (memory : Memory) (creation : Creation Unit), creation.Covers memory := by
  have hemit : negativeNew.emit grantingMemory = .ok ⟨⟨0, 4, [-1]⟩, 1, ⟨0, 0⟩⟩ := by rfl
  refine ⟨hemit, fun h => ?_⟩
  have hnonneg := (h grantingMemory negativeNew _ hemit).dimensions_nonneg (-1) (by simp)
  exact absurd hnonneg (by decide)

/-! ## What a bounds check may rely on -/

/-- A covered descriptor is what checked access asks for. -/
theorem CreatedArray.Covered.covers {a : CreatedArray} (h : a.Covered)
    (hsize : a.block.size < 2 ^ 63) (hmemory : a.block.start.toNat + a.block.size ≤ 2 ^ 64) :
    a.view.Covers (a.block.start.toNat + a.block.size - a.view.address.toNat) := by
  obtain ⟨_, hnonneg, hstart, hholds⟩ := h
  exact ⟨hnonneg, by omega, by omega, by omega⟩

end Absolute
