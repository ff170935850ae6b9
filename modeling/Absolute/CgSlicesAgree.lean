import Absolute.CgSlices

/-!
# Where slices agree with indexing

With every span in its dimension the bounds do not wrap, and an index into the slice moved
by where they begin is one into the source (`shift_spec`). A view starts where its
first element is (`sameElement_view`), and the loops of rank two fill what they take
(`sameElement_copy`). A slice of an inner dimension of a higher rank holds whatever
was in its storage (`slice_agrees_iff`).
-/

namespace Absolute

/-! ## Indexes -/

theorem value_int64Index (i : BitVec 64) : (int64Index i).value = i.toInt := rfl

theorem positions_int64Index {indexes : List (BitVec 64)}
    (h : ∀ i ∈ indexes, 0 ≤ i.toInt) :
    positions (indexes.map int64Index) = indexes.map BitVec.toNat := by
  rw [positions, List.map_map]
  refine List.map_congr_left fun i hi => ?_
  have hnat := toNat_of_toInt_nonneg (h i hi)
  change (int64Index i).value.toNat = i.toNat
  rw [value_int64Index]
  omega

theorem nonneg_of_inBounds {indexes : List (BitVec 64)} {dimensions : List (BitVec 64)}
    (h : InBounds (indexes.map int64Index) dimensions) : ∀ i ∈ indexes, 0 ≤ i.toInt := by
  induction indexes generalizing dimensions with
  | nil => simp
  | cons i indexes ih =>
    cases dimensions with
    | nil => exact h.elim
    | cons d dimensions => exact List.forall_mem_cons.mpr ⟨h.1.1, ih h.2⟩

/-- An access with one `int64` for each dimension is to the row-major address. -/
theorem arrayElementAddress_int64 {view : ArrayView} {indexes : List (BitVec 64)}
    (hdims : ∀ d ∈ view.dimensions, 0 ≤ d.toInt)
    (hlen : indexes.length = view.dimensions.length)
    (h : InBounds (indexes.map int64Index) view.dimensions) :
    arrayElementAddress view (indexes.map int64Index) =
      .ok (inBoundsGEP view.elementSize view.address
        (BitVec.ofNat 64 (RowMajor.offset (indexes.map BitVec.toNat) view.lengths))) := by
  have hpositions := positions_int64Index (nonneg_of_inBounds h)
  have hoffset := linearOffset_of_inBounds hdims h (fun _ : 0 = 0 => rfl)
  rw [hpositions, RowMajor.horner_eq 0 (by simp [hlen]), Nat.zero_mul, Nat.zero_add] at hoffset
  rw [arrayElementAddress, if_neg (by simp [hlen])]
  change (linearOffset 0 (BitVec.ofNat 64 0) _ _ >>= _) = _
  rw [hoffset, ok_bind]
  cases hone : oneDimensionalIndex (indexes.map int64Index) view.dimensions with
  | none => rfl
  | some i =>
    -- the index of the fast path is the offset: it has the width of the offset
    obtain ⟨d, hi, hd⟩ := ArrayAccess.oneDimensionalIndex_eq_some hone
    obtain ⟨index, rfl, rfl⟩ : ∃ index, indexes = [index] ∧ int64Index index = i := by
      cases indexes with
      | nil => cases hi
      | cons index rest =>
        obtain ⟨hfirst, hrest⟩ := List.cons.inj hi
        exact ⟨index, by rw [List.map_eq_nil_iff.mp hrest], hfirst⟩
    simp [ArrayView.lengths, hd, int64Index, inBoundsGEP, pure, Except.pure]

/-! ## Spans -/

/-- Bounds and the spans they stand for. -/
abbrev Bounds (bounds : List (BitVec 64 × BitVec 64)) (spans : List (Int × Int)) : Prop :=
  List.Forall₂ (fun b span => (b.1.toNat : Int) = span.1 ∧ (b.2.toNat : Int) = span.2) bounds spans

theorem sliceBounds_of_not_fit {ranges : List SliceRange} {dimensions : List (BitVec 64)}
    (hdims : ∀ d ∈ dimensions, 0 ≤ d.toInt)
    (h : ¬SpansFit (sliceSpans ranges (dimensions.map BitVec.toNat))
      (dimensions.map BitVec.toNat)) :
    sliceBounds ranges dimensions = .error (.exit Check.arrayBounds.message) := by
  induction dimensions generalizing ranges with
  | nil => exact absurd .nil h
  | cons d dimensions ih =>
    obtain ⟨hd, hrest⟩ := List.forall_mem_cons.mp hdims
    obtain ⟨hvalid, -⟩ := nextBounds_spec ranges hd
    rw [List.map_cons, sliceSpans, SpansFit, List.forall₂_cons, not_and] at h
    rw [sliceBounds]
    by_cases hfits : SpanFits (nextSpan ranges d.toNat) d.toNat
    · rw [hvalid.mpr hfits, emitOrExit_true, ih hrest (h hfits)]
      rfl
    · rw [Bool.not_eq_true _ |>.mp (mt hvalid.mp hfits), emitOrExit_false]
      rfl

theorem sliceBounds_nil {dimensions : List (BitVec 64)} {bounds : List (BitVec 64 × BitVec 64)}
    (h : sliceBounds [] dimensions = .ok bounds) : bounds = dimensions.map fun d => (0, d) := by
  induction dimensions generalizing bounds with
  | nil =>
    cases h
    rfl
  | cons d dimensions ih =>
    rw [sliceBounds] at h
    obtain ⟨_, -, h⟩ := bind_eq_ok.mp h
    obtain ⟨rest, hrest, h⟩ := bind_eq_ok.mp h
    cases h
    rw [ih hrest]
    rfl

/-- What the loop over the dimensions computes of a slice that fits. -/
theorem sliceBounds_spec {ranges : List SliceRange} {dimensions : List (BitVec 64)}
    (hdims : ∀ d ∈ dimensions, 0 ≤ d.toInt)
    (h : SpansFit (sliceSpans ranges (dimensions.map BitVec.toNat))
      (dimensions.map BitVec.toNat)) :
    ∃ bounds, sliceBounds ranges dimensions = .ok bounds ∧
      Bounds bounds (sliceSpans ranges (dimensions.map BitVec.toNat)) ∧
      (bounds.map fun b => b.2 - b.1).map BitVec.toNat =
        (sliceSpans ranges (dimensions.map BitVec.toNat)).map spanLength ∧
      ∀ d ∈ bounds.map fun b => b.2 - b.1, 0 ≤ d.toInt := by
  obtain ⟨bounds, hbounds⟩ := sliceBounds_of_fit hdims h
  obtain ⟨-, hspans⟩ := sliceBounds_ok hdims hbounds
  have hlengths : ∀ n ∈ dimensions.map BitVec.toNat, n < 2 ^ 63 := by
    intro n hn
    obtain ⟨d, hd, rfl⟩ := List.mem_map.mp hn
    have hnat := toNat_of_toInt_nonneg (hdims d hd)
    have hlt : d.toInt < 2 ^ 63 := BitVec.toInt_lt
    omega
  obtain ⟨hmap, hnonneg⟩ := slice_dimensions hlengths h hspans
  exact ⟨bounds, hbounds, hspans, hmap, hnonneg⟩

/-- The index moved by where the spans begin is in the source, and does not wrap. -/
theorem shift_spec {bounds : List (BitVec 64 × BitVec 64)} {spans : List (Int × Int)}
    {dimensions indexes : List (BitVec 64)} (hdims : ∀ d ∈ dimensions, 0 ≤ d.toInt)
    (hfit : SpansFit spans (dimensions.map BitVec.toNat)) (hbounds : Bounds bounds spans)
    (h : InBounds (indexes.map int64Index) (bounds.map fun b => b.2 - b.1)) :
    let shifted := List.zipWith (fun i span => i + BitVec.ofInt 64 span.1) indexes spans
    InBounds (shifted.map int64Index) dimensions ∧
      shifted.map BitVec.toNat =
        List.zipWith (fun i b => i.toNat + b.1.toNat) indexes bounds := by
  induction hbounds generalizing dimensions indexes with
  | nil =>
    cases indexes with
    | nil => exact ⟨trivial, rfl⟩
    | cons i indexes => exact h.elim
  | @cons b span bounds spans hb _ ih =>
    cases dimensions with
    | nil => cases hfit
    | cons d dimensions =>
      obtain ⟨hspan, hrest⟩ := List.forall₂_cons.mp hfit
      obtain ⟨hd, hdims⟩ := List.forall_mem_cons.mp hdims
      cases indexes with
      | nil => exact ⟨trivial, rfl⟩
      | cons i indexes =>
        obtain ⟨⟨hlo, hhi⟩, hin⟩ := h
        obtain ⟨ihin, ihnat⟩ := ih hdims hrest hin
        rw [value_int64Index] at hlo hhi
        obtain ⟨h0, h1, h2⟩ := hspan
        have hi := toNat_of_toInt_nonneg hlo
        have hdim := toNat_of_toInt_nonneg hd
        have hlt : d.toInt < 2 ^ 63 := BitVec.toInt_lt
        rw [toNat_sub_of_le (by omega)] at hhi
        have hbegin : BitVec.ofInt 64 span.1 = b.1 := by
          rw [← hb.1, BitVec.ofInt_natCast, BitVec.ofNat_toNat, BitVec.setWidth_eq]
        have hsum : (i + b.1).toNat = i.toNat + b.1.toNat := by
          rw [BitVec.toNat_add]
          exact Nat.mod_eq_of_lt (by omega)
        have hint : (i + b.1).toInt = i.toNat + b.1.toNat := by
          rw [BitVec.toInt_eq_toNat_of_lt (by omega), hsum]
          rfl
        refine ⟨⟨?_, ihin⟩, ?_⟩
        · change 0 ≤ (i + BitVec.ofInt 64 span.1).toInt ∧
            (i + BitVec.ofInt 64 span.1).toInt < d.toNat
          rw [hbegin, hint]
          omega
        · rw [List.zipWith_cons_cons, List.map_cons, ihnat, hbegin, hsum, List.zipWith_cons_cons]

theorem prod_spanLength_le {spans : List (Int × Int)} {lengths : List Nat}
    (h : SpansFit spans lengths) : (spans.map spanLength).prod ≤ lengths.prod := by
  refine List.Forall₂.prod_le_prod' (List.forall₂_map_left_iff.mpr (h.imp fun span n hspan => ?_))
  obtain ⟨h0, h1, h2⟩ := hspan
  unfold spanLength
  omega

namespace Slicing

variable {s : Slicing}

theorem dims_nonneg : ∀ d ∈ s.view.dimensions, 0 ≤ d.toInt := s.source.covered.dimensions_nonneg

theorem run_of_bounds {bounds : List (BitVec 64 × BitVec 64)}
    (h : sliceBounds s.ranges s.view.dimensions = .ok bounds) (contents : Bytes.Contents) :
    s.run contents = .ok (slicedArray s.memory s.source.array s.ranges bounds,
      sliceContents s.view (slicedArray s.memory s.source.array s.ranges bounds).view s.ranges
        bounds contents) := by
  rw [run, sliceExpr, if_neg s.rank_pos, if_neg (Nat.not_lt.mpr s.ranges_le), h]
  rfl

theorem run_of_not_fits (h : ¬s.Fits) (contents : Bytes.Contents) :
    s.run contents = .error (.exit "Array index out of bounds") := by
  rw [run, sliceExpr, if_neg s.rank_pos, if_neg (Nat.not_lt.mpr s.ranges_le),
    sliceBounds_of_not_fit dims_nonneg h]
  rfl

/-- A slice that fits, with its bounds. -/
structure Bounded (s : Slicing) (bounds : List (BitVec 64 × BitVec 64)) : Prop where
  fits : s.Fits
  computed : sliceBounds s.ranges s.view.dimensions = .ok bounds
  spans : Bounds bounds s.spans
  lengths : (bounds.map fun b => b.2 - b.1).map BitVec.toNat = s.spans.map spanLength
  nonneg : ∀ d ∈ bounds.map fun b => b.2 - b.1, 0 ≤ d.toInt

theorem bounded_of_fits (h : s.Fits) : ∃ bounds, s.Bounded bounds := by
  obtain ⟨bounds, hok, hspans, hmap, hnonneg⟩ := sliceBounds_spec dims_nonneg h
  exact ⟨bounds, h, hok, hspans, hmap, hnonneg⟩

/-- Where an index leads in a slice with these dimensions, and in the source. -/
theorem addresses {bounds : List (BitVec 64 × BitVec 64)} (h : s.Bounded bounds)
    {slice : ArrayView} (hdims : slice.dimensions = bounds.map fun b => b.2 - b.1)
    {indexes : List (BitVec 64)} (hlen : indexes.length = slice.dimensions.length)
    (hin : InBounds (indexes.map int64Index) slice.dimensions) :
    arrayElementAddress slice (indexes.map int64Index) =
        .ok (inBoundsGEP slice.elementSize slice.address
          (BitVec.ofNat 64 (RowMajor.offset (indexes.map BitVec.toNat) slice.lengths))) ∧
      arrayElementAddress s.view ((s.shift indexes).map int64Index) =
        .ok (inBoundsGEP s.view.elementSize s.view.address
          (BitVec.ofNat 64 (RowMajor.offset
            (List.zipWith (fun i b => i.toNat + b.1.toNat) indexes bounds) s.view.lengths))) ∧
      InBounds ((s.shift indexes).map int64Index) s.view.dimensions ∧
      (s.shift indexes).length = s.view.dimensions.length := by
  rw [hdims] at hin
  obtain ⟨hshift, hnat⟩ := shift_spec dims_nonneg h.fits h.spans hin
  have hspans : s.spans.length = s.view.dimensions.length := by
    rw [h.fits.length_eq, ArrayView.lengths, List.length_map]
  have hshiftlen : (s.shift indexes).length = s.view.dimensions.length := by
    rw [shift, List.length_zipWith, hlen, hdims, List.length_map, h.spans.length_eq, hspans,
      Nat.min_self]
  refine ⟨arrayElementAddress_int64 (hdims ▸ h.nonneg) hlen (hdims ▸ hin), ?_, hshift, hshiftlen⟩
  rw [← hnat]
  exact arrayElementAddress_int64 dims_nonneg hshiftlen hshift

/-! ## A view -/

theorem inBoundsGEP_add {size m n : Nat} (base : BitVec 64) :
    inBoundsGEP size (inBoundsGEP size base (BitVec.ofNat 64 m)) (BitVec.ofNat 64 n) =
      inBoundsGEP size base (BitVec.ofNat 64 (m + n)) := by
  simp only [inBoundsGEP, BitVec.signExtend_eq, BitVec.ofNat_add, BitVec.add_mul, BitVec.add_assoc]

theorem sameElement_view (houter : s.ranges.length ≤ 1) {bounds : List (BitVec 64 × BitVec 64)}
    (h : s.Bounded bounds) (contents : Bytes.Contents) {indexes : List (BitVec 64)}
    (hlen : indexes.length =
      (slicedArray s.memory s.source.array s.ranges bounds).view.dimensions.length)
    (hin : InBounds (indexes.map int64Index)
      (slicedArray s.memory s.source.array s.ranges bounds).view.dimensions) :
    s.SameElement (slicedArray s.memory s.source.array s.ranges bounds).view contents contents
      indexes := by
  have hslice : slicedArray s.memory s.source.array s.ranges bounds =
      ⟨⟨inBoundsGEP s.view.elementSize s.view.address
        ((bounds.map Prod.fst).headD 0 * elementCount s.view.dimensions.tail),
        s.view.elementSize, bounds.map fun b => b.2 - b.1⟩, s.source.array.rank,
        s.source.array.block⟩ := by
    rw [slicedArray, if_pos houter]
  rw [hslice] at hlen hin ⊢
  obtain ⟨haddress, hsource, -, -⟩ := addresses h rfl hlen hin
  refine ⟨_, _, haddress, hsource, ?_⟩
  -- the bounds past the first dimension are the whole ones
  obtain ⟨d, ds, hcons⟩ := List.exists_cons_of_ne_nil s.rank_pos
  have htail : s.ranges.tail = [] := by
    cases hr : s.ranges with
    | nil => rfl
    | cons r rs => exact List.length_eq_zero_iff.mp (by simpa [hr] using houter)
  have hcomputed := h.computed
  rw [view, hcons, sliceBounds, htail] at hcomputed
  obtain ⟨_, -, hcomputed⟩ := bind_eq_ok.mp hcomputed
  obtain ⟨rest, hrest, hcomputed⟩ := bind_eq_ok.mp hcomputed
  rw [sliceBounds_nil hrest] at hcomputed
  generalize nextBounds s.ranges d = b at hcomputed
  cases hcomputed
  cases indexes with
  | nil => simp at hlen
  | cons i indexes =>
    have hlen : indexes.length = ds.length := by simpa using hlen
    have hzip : List.zipWith (fun (i : BitVec 64) (b : BitVec 64 × BitVec 64) =>
        i.toNat + b.1.toNat) indexes (ds.map fun d => (0, d)) = indexes.map BitVec.toNat := by
      rw [List.zipWith_map_right]
      refine List.ext_getElem (by simp [hlen]) fun k _ _ => ?_
      simp
    have hdims : (ds.map fun d => ((0 : BitVec 64), d)).map (fun b => b.2 - b.1) = ds := by
      rw [List.map_map]
      exact (List.map_congr_left fun d _ => BitVec.sub_zero d).trans (List.map_id ds)
    have hoffset : b.1 * elementCount ds =
        BitVec.ofNat 64 (b.1.toNat * (ds.map BitVec.toNat).prod) := by
      rw [toNat_elementCount, BitVec.ofNat_mul, BitVec.ofNat_toNat, BitVec.setWidth_eq]
    simp only [ArrayView.lengths, view, hcons, List.map_cons, List.zipWith_cons_cons, hzip, hdims,
      RowMajor.offset_cons, List.tail_cons, List.headD_cons, hoffset, inBoundsGEP_add]
    rw [← Nat.add_assoc, ← Nat.add_mul, Nat.add_comm b.1.toNat]

/-! ## Storage of its own -/

/-- One element of a block that does not wrap. -/
theorem element_span {size total n : Nat} {base : BitVec 64}
    (hfits : base.toNat + total * size ≤ 2 ^ 64) (hsize : 0 < size) (hn : n < total) :
    (inBoundsGEP size base (BitVec.ofNat 64 n)).toNat = base.toNat + n * size ∧
      n * size + size ≤ total * size := by
  have hend : n * size + size ≤ total * size := by
    rw [← Nat.succ_mul]
    exact Nat.mul_le_mul_right size hn
  exact ⟨toNat_inBoundsGEP (by omega), hend⟩

theorem apart_elements {size total m n : Nat} {base : BitVec 64}
    (hfits : base.toNat + total * size ≤ 2 ^ 64) (hm : m < total) (hn : n < total)
    (hne : m ≠ n) :
    Bytes.Apart size (inBoundsGEP size base (BitVec.ofNat 64 m))
      (inBoundsGEP size base (BitVec.ofNat 64 n)) := by
  rcases Nat.eq_zero_or_pos size with rfl | hsize
  · exact fun i hi => absurd hi (Nat.not_lt_zero i)
  · have hlt : ∀ {m n}, m < total → n < total → m < n →
        Bytes.Apart size (inBoundsGEP size base (BitVec.ofNat 64 m))
          (inBoundsGEP size base (BitVec.ofNat 64 n)) := by
      intro m n hm hn hmn
      obtain ⟨hm', -⟩ := element_span hfits hsize hm
      obtain ⟨hn', hend⟩ := element_span hfits hsize hn
      have hle : m * size + size ≤ n * size := by
        rw [← Nat.succ_mul]
        exact Nat.mul_le_mul_right size hmn
      exact Bytes.apart_of_le (by omega) (by omega)
    rcases Nat.lt_or_gt_of_ne hne with h | h
    · exact hlt hm hn h
    · exact (hlt hn hm h).symm

theorem apart_blocks {size total total' m n : Nat} {base base' : BitVec 64}
    (hfits : base.toNat + total * size ≤ 2 ^ 64) (hfits' : base'.toNat + total' * size ≤ 2 ^ 64)
    (hapart : base.toNat + total * size ≤ base'.toNat ∨ base'.toNat + total' * size ≤ base.toNat)
    (hm : m < total) (hn : n < total') :
    Bytes.Apart size (inBoundsGEP size base (BitVec.ofNat 64 m))
      (inBoundsGEP size base' (BitVec.ofNat 64 n)) := by
  rcases Nat.eq_zero_or_pos size with rfl | hsize
  · exact fun i hi => absurd hi (Nat.not_lt_zero i)
  · obtain ⟨hm', hend⟩ := element_span hfits hsize hm
    obtain ⟨hn', hend'⟩ := element_span hfits' hsize hn
    rcases hapart with h | h
    · exact Bytes.apart_of_le (by omega) (by omega)
    · exact (Bytes.apart_of_le (by omega) (by omega)).symm

/-- Where the storage of a slice of an inner dimension is. -/
structure Stored (s : Slicing) (start : BitVec 64) : Prop where
  fits : start.toNat + (s.spans.map spanLength).prod * s.view.elementSize ≤ 2 ^ 64
  source_fits : s.view.address.toNat + s.view.lengths.prod * s.view.elementSize ≤ 2 ^ 64
  apart : start.toNat + (s.spans.map spanLength).prod * s.view.elementSize ≤ s.view.address.toNat
    ∨ s.view.address.toNat + s.view.lengths.prod * s.view.elementSize ≤ start.toNat

theorem slicedArray_inner (hinner : 1 < s.ranges.length)
    {bounds : List (BitVec 64 × BitVec 64)} (h : s.Bounded bounds) :
    ∃ start block, s.Stored start ∧ slicedArray s.memory s.source.array s.ranges bounds =
      ⟨⟨start, s.view.elementSize, bounds.map fun b => b.2 - b.1⟩, s.source.array.rank, block⟩ := by
  obtain ⟨start, hstart, hroom, hapart⟩ : ∃ start,
      s.memory.stack ((s.spans.map spanLength).prod * s.view.elementSize) = some start ∧
        start.toNat + (s.spans.map spanLength).prod * s.view.elementSize ≤ 2 ^ 64 ∧
          (start.toNat + (s.spans.map spanLength).prod * s.view.elementSize
              ≤ s.source.array.block.start.toNat
            ∨ s.source.array.block.start.toNat + s.source.array.block.size ≤ start.toNat) :=
    s.granted h.fits hinner
  have hbegins : s.source.array.block.start.toNat ≤ s.view.address.toNat :=
    s.source.covered.starts_in
  have hholds : s.view.address.toNat + s.view.lengths.prod * s.view.elementSize ≤
      s.source.array.block.start.toNat + s.source.array.block.size := s.source.covered.holds
  have hmemory := s.source.in_memory
  have hle := Nat.mul_le_mul_right s.view.elementSize (prod_spanLength_le h.fits)
  have hblock : alloca s.memory s.view.elementSize (elementCount (bounds.map fun b => b.2 - b.1))
      = ⟨start, (s.spans.map spanLength).prod * s.view.elementSize⟩ := by
    rw [alloca, toNat_elementCount, h.lengths, ← BitVec.ofNat_mul, BitVec.toNat_ofNat,
      Nat.mod_eq_of_lt (by omega), allocate, hstart]
  refine ⟨start, ⟨start, (s.spans.map spanLength).prod * s.view.elementSize⟩,
    ⟨hroom, by omega, ?_⟩, ?_⟩
  · rcases hapart with h | h
    · exact .inl (by omega)
    · exact .inr (by omega)
  · rw [slicedArray, if_neg (Nat.not_le.mpr hinner), hblock]

/-- The loops of rank two copy the elements one by one. -/
theorem copyRows_eq {source slice : ArrayView} {srcCols dstCols : BitVec 64}
    {rows cols : BitVec 64 × BitVec 64} {r c : Nat} (hr : rows.2.toInt = rows.1.toInt + r)
    (hc : cols.2.toInt = cols.1.toInt + c) (contents : Bytes.Contents) :
    copyRows source slice srcCols dstCols rows cols contents =
      Bytes.copyEach source.elementSize
        (fun p : Nat × Nat => inBoundsGEP source.elementSize slice.address
          (BitVec.ofNat 64 (p.1 * dstCols.toNat + p.2)))
        (fun p => inBoundsGEP source.elementSize source.address
          (BitVec.ofNat 64 ((p.1 + rows.1.toNat) * srcCols.toNat + (p.2 + cols.1.toNat))))
        contents (List.range r ×ˢ List.range c) := by
  have hback : ∀ (b : BitVec 64) (k : Nat), b + BitVec.ofNat 64 k - b = BitVec.ofNat 64 k := by
    intro b k
    rw [BitVec.add_comm, BitVec.add_sub_cancel]
  have hforth : ∀ (b : BitVec 64) (k : Nat),
      b + BitVec.ofNat 64 k = BitVec.ofNat 64 (k + b.toNat) := by
    intro b k
    rw [BitVec.ofNat_add, BitVec.ofNat_toNat, BitVec.setWidth_eq, BitVec.add_comm]
  have hto : ∀ k l, BitVec.ofNat 64 k * dstCols + BitVec.ofNat 64 l =
      BitVec.ofNat 64 (k * dstCols.toNat + l) := by
    intro k l
    rw [ofNat_mul_dimension, BitVec.ofNat_add]
  have hfrom : ∀ k l, (rows.1 + BitVec.ofNat 64 k) * srcCols + (cols.1 + BitVec.ofNat 64 l) =
      BitVec.ofNat 64 ((k + rows.1.toNat) * srcCols.toNat + (l + cols.1.toNat)) := by
    intro k l
    rw [hforth, hforth, ofNat_mul_dimension, ← BitVec.ofNat_add]
  unfold copyRows
  simp only [Bytes.countUp_eq_foldl hr, Bytes.countUp_eq_foldl hc, hback, hto, hfrom]
  exact Bytes.foldl_product (fun contents (p : Nat × Nat) =>
    Bytes.store contents (inBoundsGEP source.elementSize slice.address
        (BitVec.ofNat 64 (p.1 * dstCols.toNat + p.2)))
      (Bytes.load contents (inBoundsGEP source.elementSize source.address
        (BitVec.ofNat 64 ((p.1 + rows.1.toNat) * srcCols.toNat + (p.2 + cols.1.toNat))))
          source.elementSize)) _ _ _

theorem row_major_lt {i j r c : Nat} (hi : i < r) (hj : j < c) : i * c + j < r * c := by
  have := Nat.mul_le_mul_right c (Nat.succ_le_of_lt hi)
  rw [Nat.succ_mul] at this
  omega

theorem row_major_injective {p q : Nat × Nat} {c : Nat} (hp : p.2 < c) (hq : q.2 < c)
    (h : p.1 * c + p.2 = q.1 * c + q.2) : p = q := by
  have hpos : 0 < c := by omega
  have hdiv := congrArg (· / c) h
  simp only [Nat.mul_comm _ c, Nat.mul_add_div hpos, Nat.div_eq_of_lt hp,
    Nat.div_eq_of_lt hq, Nat.add_zero] at hdiv
  rw [hdiv] at h
  exact Prod.ext hdiv (Nat.add_left_cancel h)

/-- After the loops the slice holds the elements of the source. -/
theorem load_copyRows {source slice : ArrayView} {srcCols dstCols : BitVec 64}
    {rows cols : BitVec 64 × BitVec 64} {r c srcRows : Nat}
    (hr : rows.2.toInt = rows.1.toInt + r) (hc : cols.2.toInt = cols.1.toInt + c)
    (hdst : dstCols.toNat = c) (hrows : rows.1.toNat + r ≤ srcRows)
    (hcols : cols.1.toNat + c ≤ srcCols.toNat)
    (hroom : slice.address.toNat + r * c * source.elementSize ≤ 2 ^ 64)
    (hroom' : source.address.toNat + srcRows * srcCols.toNat * source.elementSize ≤ 2 ^ 64)
    (hapart : slice.address.toNat + r * c * source.elementSize ≤ source.address.toNat
      ∨ source.address.toNat + srcRows * srcCols.toNat * source.elementSize
          ≤ slice.address.toNat)
    {i j : Nat} (hi : i < r) (hj : j < c) (contents : Bytes.Contents) :
    Bytes.load (copyRows source slice srcCols dstCols rows cols contents)
        (inBoundsGEP source.elementSize slice.address (BitVec.ofNat 64 (i * c + j)))
        source.elementSize =
      Bytes.load contents (inBoundsGEP source.elementSize source.address (BitVec.ofNat 64
        ((i + rows.1.toNat) * srcCols.toNat + (j + cols.1.toNat)))) source.elementSize := by
  have hmem : ∀ {p : Nat × Nat}, p ∈ List.range r ×ˢ List.range c ↔ p.1 < r ∧ p.2 < c := by
    intro p
    rw [List.mem_product, List.mem_range, List.mem_range]
  have hsize : source.elementSize ≤ 2 ^ 64 := by
    have hone := Nat.le_mul_of_pos_left source.elementSize
      (Nat.lt_of_le_of_lt (Nat.zero_le _) (row_major_lt hi hj))
    omega
  rw [copyRows_eq hr hc, hdst]
  refine Bytes.load_copyEach hsize (List.nodup_range.product List.nodup_range) ?_ ?_ (i, j)
    (hmem.mpr ⟨hi, hj⟩)
  · intro p hp q hq hne
    obtain ⟨hp1, hp2⟩ := hmem.mp hp
    obtain ⟨hq1, hq2⟩ := hmem.mp hq
    exact apart_elements hroom (row_major_lt hp1 hp2) (row_major_lt hq1 hq2)
      fun heq => hne (row_major_injective hp2 hq2 heq)
  · intro p hp q hq
    obtain ⟨hp1, hp2⟩ := hmem.mp hp
    obtain ⟨hq1, hq2⟩ := hmem.mp hq
    exact apart_blocks hroom hroom' hapart (row_major_lt hp1 hp2)
      (row_major_lt (by omega) (by omega))

theorem sameElement_copy (hrank : s.view.dimensions.length ≤ 2) (hinner : 1 < s.ranges.length)
    {bounds : List (BitVec 64 × BitVec 64)} (h : s.Bounded bounds) {start : BitVec 64}
    (hstored : s.Stored start) {slice : ArrayView}
    (hslice : slice = ⟨start, s.view.elementSize, bounds.map fun b => b.2 - b.1⟩)
    (contents : Bytes.Contents) {indexes : List (BitVec 64)}
    (hlen : indexes.length = slice.dimensions.length)
    (hin : InBounds (indexes.map int64Index) slice.dimensions) :
    s.SameElement slice contents (sliceContents s.view slice s.ranges bounds contents)
      indexes := by
  obtain ⟨haddress, hsource, -, -⟩ := addresses h (by rw [hslice]) hlen hin
  refine ⟨_, _, haddress, hsource, ?_⟩
  have hle := s.ranges_le
  obtain ⟨d₀, d₁, hdims⟩ : ∃ d₀ d₁, s.view.dimensions = [d₀, d₁] :=
    List.length_eq_two.mp (by change s.ranges.length ≤ s.view.dimensions.length at hle; omega)
  have hlengths : s.view.lengths = [d₀.toNat, d₁.toNat] := by
    rw [ArrayView.lengths, hdims]
    rfl
  have hfits := h.fits
  have hspans := h.spans
  have hmap := h.lengths
  rw [Fits, hlengths] at hfits
  obtain ⟨row, col, hrowcol⟩ : ∃ row col, s.spans = [row, col] :=
    List.length_eq_two.mp (by rw [hfits.length_eq]; rfl)
  obtain ⟨rows, cols, rfl⟩ : ∃ rows cols, bounds = [rows, cols] :=
    List.length_eq_two.mp (by rw [hspans.length_eq, hrowcol]; rfl)
  rw [hrowcol] at hfits hspans hmap
  obtain ⟨⟨hr0, hr1, hr2⟩, hfits⟩ := List.forall₂_cons.mp hfits
  obtain ⟨⟨hc0, hc1, hc2⟩, -⟩ := List.forall₂_cons.mp hfits
  obtain ⟨hrows, hspans⟩ := List.forall₂_cons.mp hspans
  obtain ⟨hcols, -⟩ := List.forall₂_cons.mp hspans
  have hint : ∀ {b d : BitVec 64}, d ∈ s.view.dimensions → b.toNat ≤ d.toNat →
      b.toInt = b.toNat := by
    intro b d hd hb
    have hnat := toNat_of_toInt_nonneg (dims_nonneg d hd)
    have hlt : d.toInt < 2 ^ 63 := BitVec.toInt_lt
    exact BitVec.toInt_eq_toNat_of_lt (by omega)
  have hmem₀ : d₀ ∈ s.view.dimensions := by simp [hdims]
  have hmem₁ : d₁ ∈ s.view.dimensions := by simp [hdims]
  have hrowCount : rows.2.toInt = rows.1.toInt + spanLength row := by
    rw [hint hmem₀ (by omega), hint hmem₀ (by omega), spanLength]
    omega
  have hcolCount : cols.2.toInt = cols.1.toInt + spanLength col := by
    rw [hint hmem₁ (by omega), hint hmem₁ (by omega), spanLength]
    omega
  obtain ⟨hrowLen, hcolLen⟩ : (rows.2 - rows.1).toNat = spanLength row ∧
      (cols.2 - cols.1).toNat = spanLength col := by simpa using hmap
  obtain ⟨i, j, rfl⟩ : ∃ i j, indexes = [i, j] :=
    List.length_eq_two.mp (by rw [hlen, hslice]; rfl)
  rw [hslice] at hin
  obtain ⟨⟨hi0, hi⟩, ⟨hj0, hj⟩, -⟩ := hin
  have hiNat := @toNat_of_toInt_nonneg i hi0
  have hjNat := @toNat_of_toInt_nonneg j hj0
  have hirow : i.toNat < spanLength row := by
    change i.toInt < ((rows.2 - rows.1).toNat : Int) at hi
    omega
  have hjcol : j.toNat < spanLength col := by
    change j.toInt < ((cols.2 - cols.1).toNat : Int) at hj
    omega
  have hcontents : sliceContents s.view slice s.ranges [rows, cols] contents =
      copyRows s.view slice d₁ (cols.2 - cols.1) rows cols contents := by
    simp only [sliceContents, if_neg (Nat.not_le.mpr hinner), hdims, hslice, List.map_cons,
      List.map_nil]
  obtain ⟨hroom, hroom', hapart⟩ := hstored
  rw [hrowcol] at hroom hapart
  rw [hlengths] at hroom' hapart
  simp only [List.map_cons, List.map_nil, List.prod_cons, List.prod_nil,
    mul_one] at hroom hroom' hapart
  have hload := @load_copyRows s.view slice _ _ _ _ _ _ _ hrowCount hcolCount hcolLen
    (show rows.1.toNat + spanLength row ≤ d₀.toNat by unfold spanLength; omega)
    (show cols.1.toNat + spanLength col ≤ d₁.toNat by unfold spanLength; omega)
    (by rwa [hslice]) hroom' (by rwa [hslice])
    i.toNat j.toNat hirow hjcol contents
  rw [hcontents, hlengths, ArrayView.lengths]
  simpa [hslice, hrowLen, hcolLen] using hload

/-! ## Where slices agree -/

theorem sliceContents_outer {source slice : ArrayView} {ranges : List SliceRange}
    (h : ranges.length ≤ 1) (bounds : List (BitVec 64 × BitVec 64)) (contents : Bytes.Contents) :
    sliceContents source slice ranges bounds contents = contents := by
  unfold sliceContents
  rw [if_pos h]

/-- There are no loops for a rank above two. -/
theorem sliceContents_higher {source slice : ArrayView} (h : 2 < source.dimensions.length)
    (ranges : List SliceRange) (bounds : List (BitVec 64 × BitVec 64))
    (contents : Bytes.Contents) :
    sliceContents source slice ranges bounds contents = contents := by
  unfold sliceContents
  split
  · rfl
  · split
    · rename_i hdims _
      simp [hdims] at h
    · rfl

theorem span_le {spans : List (Int × Int)} {lengths : List Nat} (h : SpansFit spans lengths) :
    ∀ span ∈ spans, span.1 ≤ span.2 := by
  induction h with
  | nil => simp
  | cons hspan _ ih => exact List.forall_mem_cons.mpr ⟨hspan.2.1, ih⟩

theorem dimensions_toInt {bounds : List (BitVec 64 × BitVec 64)} (h : s.Bounded bounds) :
    (bounds.map fun b => b.2 - b.1).map BitVec.toInt =
      s.spans.map (fun span => span.2 - span.1) := by
  calc (bounds.map fun b => b.2 - b.1).map BitVec.toInt
      = (bounds.map fun b => b.2 - b.1).map fun d => (d.toNat : Int) :=
        List.map_congr_left fun d hd => (toNat_of_toInt_nonneg (h.nonneg d hd)).symm
    _ = ((bounds.map fun b => b.2 - b.1).map BitVec.toNat).map Int.ofNat := by
        rw [List.map_map, List.map_map, List.map_map]
        rfl
    _ = (s.spans.map spanLength).map Int.ofNat := by rw [h.lengths]
    _ = s.spans.map (fun span => span.2 - span.1) := by
        rw [List.map_map]
        refine List.map_congr_left fun span hspan => ?_
        have hle := span_le h.fits span hspan
        change ((span.2 - span.1).toNat : Int) = span.2 - span.1
        omega

/-- A slice of the outer dimension agrees, and one of rank two. -/
theorem agrees_of_copied (h : s.Fits → s.ranges.length ≤ 1 ∨ s.view.dimensions.length ≤ 2) :
    s.Agrees := by
  refine ⟨run_of_not_fits, fun hfits contents => ?_⟩
  obtain ⟨bounds, hbounded⟩ := bounded_of_fits hfits
  refine ⟨_, _, run_of_bounds hbounded.computed contents, ?_⟩
  by_cases houter : s.ranges.length ≤ 1
  · have hview := fun indexes => @sameElement_view s houter bounds hbounded contents indexes
    rw [sliceContents_outer houter]
    refine ⟨?_, ?_, hview⟩
    · rw [slicedArray, if_pos houter]
    · rw [slicedArray, if_pos houter]
      exact dimensions_toInt hbounded
  · obtain ⟨start, block, hstored, hslice⟩ :=
      slicedArray_inner (Nat.not_le.mp houter) hbounded
    rw [hslice]
    exact ⟨rfl, dimensions_toInt hbounded, fun indexes =>
      sameElement_copy ((h hfits).resolve_left houter) (Nat.not_le.mp houter) hbounded hstored rfl
        contents⟩

/-- Where nothing is copied the slice keeps what was in its storage. -/
theorem run_of_unfilled (hfits : s.Fits) (hinner : 1 < s.ranges.length)
    (hrank : 2 < s.view.dimensions.length) :
    ∃ bounds start block, s.Bounded bounds ∧ s.Stored start ∧ ∀ contents, s.run contents =
      .ok (⟨⟨start, s.view.elementSize, bounds.map fun b => b.2 - b.1⟩, s.source.array.rank,
        block⟩, contents) := by
  obtain ⟨bounds, hbounded⟩ := bounded_of_fits hfits
  obtain ⟨start, block, hstored, hslice⟩ := slicedArray_inner hinner hbounded
  refine ⟨bounds, start, block, hbounded, hstored, fun contents => ?_⟩
  rw [run_of_bounds hbounded.computed, hslice, sliceContents_higher hrank]

/-- An index of zeros, in a slice with elements. -/
theorem inBounds_zeros {dimensions : List (BitVec 64)}
    (h : (dimensions.map BitVec.toNat).prod ≠ 0) :
    InBounds ((dimensions.map fun _ => (0 : BitVec 64)).map int64Index) dimensions := by
  induction dimensions with
  | nil => trivial
  | cons d dimensions ih =>
    rw [List.map_cons, List.prod_cons, Nat.mul_ne_zero_iff] at h
    have hpos := Nat.pos_of_ne_zero h.1
    refine ⟨⟨le_refl 0, ?_⟩, ih h.2⟩
    change (0 : Int) < (d.toNat : Int)
    omega

theorem offset_zeros (dimensions : List (BitVec 64)) :
    RowMajor.offset ((dimensions.map fun _ => (0 : BitVec 64)).map BitVec.toNat)
      (dimensions.map BitVec.toNat) = 0 := by
  induction dimensions with
  | nil => rfl
  | cons d dimensions ih =>
    rw [List.map_cons, List.map_cons, List.map_cons, RowMajor.offset_cons, ih]
    simp

theorem not_agrees_of_unfilled (hfits : s.Fits) (h : ¬s.Filled) : ¬s.Agrees := by
  simp only [Filled, not_or, Nat.not_le] at h
  obtain ⟨hinner, hrank, hbytes⟩ := h
  intro hagrees
  obtain ⟨bounds, start, block, hbounded, hstored, hrun⟩ := run_of_unfilled hfits hinner hrank
  obtain ⟨hcount, hsize⟩ := Nat.mul_ne_zero_iff.mp hbytes
  -- ones in the storage of the slice and zeros everywhere else
  let contents : Bytes.Contents := fun place =>
    if (place - start).toNat < (s.spans.map spanLength).prod * s.view.elementSize then 1 else 0
  obtain ⟨slice, after, hout, -, -, helements⟩ := hagrees.yields hfits contents
  rw [hrun contents] at hout
  cases hout
  let dimensions := bounds.map fun b => b.2 - b.1
  let zeros := dimensions.map fun _ => (0 : BitVec 64)
  have hlen : zeros.length = dimensions.length := List.length_map _
  have hin : InBounds (zeros.map int64Index) dimensions :=
    inBounds_zeros (by rw [hbounded.lengths]; exact hcount)
  obtain ⟨address, sourceAddress, haddress, hsource, hload⟩ := helements zeros hlen hin
  have hfirst := Bytes.first_eq_of_load_eq (Nat.pos_of_ne_zero hsize) hload
  obtain ⟨haddress', -, hshift, hshiftlen⟩ := @addresses s bounds hbounded
    ⟨start, s.view.elementSize, dimensions⟩ rfl zeros hlen hin
  have haddr : address = start := by
    rw [haddress'] at haddress
    rw [← Except.ok.inj haddress, ArrayView.lengths, offset_zeros, inBoundsGEP]
    simp
  rw [arrayElementAddress_int64 dims_nonneg hshiftlen hshift] at hsource
  have hbox := inBounds_inBox hshift
  rw [positions_int64Index (nonneg_of_inBounds hshift)] at hbox
  obtain ⟨hsourceAddr, hend⟩ := element_span hstored.source_fits (Nat.pos_of_ne_zero hsize)
    (RowMajor.offset_lt hbox
      (by rw [List.length_map, hshiftlen, ArrayView.lengths, List.length_map]))
  rw [Except.ok.inj hsource] at hsourceAddr
  have hone : contents address = 1 := by
    refine if_pos ?_
    rw [haddr, BitVec.sub_self]
    exact Nat.pos_of_ne_zero hbytes
  have hzero : contents sourceAddress = 0 := by
    refine if_neg ?_
    have hfits := hstored.fits
    have hstart := start.isLt
    rw [BitVec.toNat_sub]
    rcases hstored.apart with hapart | hapart
    · omega
    · omega
  rw [hone, hzero] at hfirst
  exact absurd hfirst (by decide)

/-- Without any bytes there is nothing to differ in. -/
theorem agrees_of_empty (hfits : s.Fits)
    (h : (s.spans.map spanLength).prod * s.view.elementSize = 0) (hinner : 1 < s.ranges.length)
    (hrank : 2 < s.view.dimensions.length) : s.Agrees := by
  refine ⟨run_of_not_fits, fun _ contents => ?_⟩
  obtain ⟨bounds, start, block, hbounded, -, hrun⟩ := run_of_unfilled hfits hinner hrank
  refine ⟨_, _, hrun contents, rfl, dimensions_toInt hbounded, fun indexes hlen hin => ?_⟩
  obtain ⟨haddress, hsource, -, -⟩ := addresses hbounded rfl hlen hin
  refine ⟨_, _, haddress, hsource, ?_⟩
  rcases Nat.mul_eq_zero.mp h with hcount | hsize
  · -- an index in its bounds is before the number of elements
    change InBounds _ (bounds.map fun b => b.2 - b.1) at hin
    change _ = (bounds.map fun b => b.2 - b.1).length at hlen
    have hbox := inBounds_inBox hin
    rw [positions_int64Index (nonneg_of_inBounds hin), hbounded.lengths] at hbox
    have hlt := RowMajor.offset_lt hbox
      (by simp [hlen, ← hbounded.lengths])
    rw [hcount] at hlt
    exact absurd hlt (Nat.not_lt_zero _)
  · simp only [hsize, Bytes.load, List.range_zero, List.map_nil]

/-- A slice agrees with indexing exactly where its elements are filled in or it has none. -/
theorem slice_agrees_iff (s : Slicing) : s.Agrees ↔ (s.Fits → s.Filled) := by
  constructor
  · intro h hfits
    by_contra hfilled
    exact not_agrees_of_unfilled hfits hfilled h
  · intro h
    by_cases hempty : s.Fits ∧ (s.spans.map spanLength).prod * s.view.elementSize = 0
    · by_cases hcopied : s.ranges.length ≤ 1 ∨ s.view.dimensions.length ≤ 2
      · exact agrees_of_copied fun _ => hcopied
      · obtain ⟨hinner, hrank⟩ := not_or.mp hcopied
        exact agrees_of_empty hempty.1 hempty.2 (Nat.not_le.mp hinner) (Nat.not_le.mp hrank)
    · exact agrees_of_copied fun hfits => (h hfits).imp_right fun hor =>
        hor.resolve_right fun hzero => hempty ⟨hfits, hzero⟩

/-! ## A slice of a cube -/

/-- An `int32[2][2][2]`. -/
def cube : SourceArray where
  array := ⟨⟨4096, 4, [2, 2, 2]⟩, 3, ⟨4096, 32⟩⟩
  covered := ⟨rfl, by simp, le_refl _, by simp [ArrayView.lengths]⟩
  in_memory := by simp

/-- The ranges of `a[0:1, 0:1]`. -/
def cornerRanges : List SliceRange :=
  [⟨true, some ⟨.int32, 32, 0, Nat.le_of_ble_eq_true rfl⟩,
      some ⟨.int32, 32, 1, Nat.le_of_ble_eq_true rfl⟩⟩,
    ⟨true, some ⟨.int32, 32, 0, Nat.le_of_ble_eq_true rfl⟩,
      some ⟨.int32, 32, 1, Nat.le_of_ble_eq_true rfl⟩⟩]

theorem sliceSpans_corner :
    sliceSpans cornerRanges cube.array.view.lengths = [(0, 1), (0, 1), (0, 2)] := by rfl

/-- `a[0:1, 0:1]` of an `int32[2][2][2]`, with a frame to put it in. -/
def corner : Slicing where
  source := cube
  ranges := cornerRanges
  memory := ⟨fun _ => some 8192, fun _ => none⟩
  rank_pos := List.cons_ne_nil _ _
  ranges_le := Nat.le_of_ble_eq_true rfl
  granted := by
    intro _ _
    rw [sliceSpans_corner]
    refine ⟨8192, rfl, ?_, .inr ?_⟩
    · simp [spanLength, cube]
    · simp [cube]

/-- Its two elements are whatever was in the frame. -/
theorem corner_not_agrees : ¬∀ s : Slicing, s.Agrees := by
  intro h
  refine @not_agrees_of_unfilled corner ?_ ?_ (h corner)
  · change SpansFit (sliceSpans cornerRanges cube.array.view.lengths) [2, 2, 2]
    rw [sliceSpans_corner]
    simp [SpansFit, SpanFits]
  · change ¬(2 ≤ 1 ∨ 3 ≤ 2 ∨
      ((sliceSpans cornerRanges cube.array.view.lengths).map spanLength).prod * 4 = 0)
    rw [sliceSpans_corner]
    simp [spanLength]

end Slicing

end Absolute
