import Absolute.CgRuntime
import Absolute.LibRowMajor

/-!
# Checked array access

`ArrayElementAddress`: every index is widened to 64 bits by the sign of its
type, compared with its dimension, and folded into the linear offset. An
access with one index to an array of rank one hands the address computation
the index as it was evaluated instead of the widened copy that was checked
(`arrayElementAddress`). For all other accesses the address is the row-major
one (`generalAddress_correct`); on this path it is exactly when the index does
not have the top bit of an unsigned type set (`accessCorrect_iff`).
-/

namespace Absolute

/-- A view of an array: where its elements start, how many bytes each takes,
and the dimensions recorded for it. -/
structure ArrayView where
  address : BitVec 64
  elementSize : Nat
  dimensions : List (BitVec 64)

namespace ArrayView

/-- The dimensions as they are meant: no negative one is in a covered view. -/
def lengths (view : ArrayView) : List Nat := view.dimensions.map BitVec.toNat

/-- The view describes an allocated object of so many bytes: no dimension is
negative, the elements fit, and the object lies in one half of the address
space at most. -/
structure Covers (view : ArrayView) (storage : Nat) : Prop where
  dimensions_nonneg : ∀ d ∈ view.dimensions, 0 ≤ d.toInt
  elements : view.lengths.prod * view.elementSize ≤ storage
  storage_lt : storage < 2 ^ 63
  in_memory : view.address.toNat + storage ≤ 2 ^ 64

end ArrayView

/-- One index after another against its dimension, then the dimensions left
over: the offset the general path computes. -/
def linearOffset : Nat → BitVec 64 → List IntegerValue → List (BitVec 64) → Emit (BitVec 64)
  | _, offset, [], dimensions => .ok (dimensions.foldl (· * ·) offset)
  | _, _, _ :: _, [] => .error (.fail "array access provides too many dimensions")
  | dimension, offset, i :: indexes, d :: dimensions => do
      emitOrExit (i.wide.ult d) .arrayBounds
      linearOffset (dimension + 1)
        (if dimension = 0 then i.wide else offset * d + i.wide) indexes dimensions

/-- The index kept for the fast path, in the type it was evaluated in. -/
def oneDimensionalIndex : List IntegerValue → List (BitVec 64) → Option IntegerValue
  | [i], [_] => some i
  | _, _ => none

/-- `ArrayElementAddress`. -/
def arrayElementAddress (view : ArrayView) (indexes : List IntegerValue) : Emit (BitVec 64) := do
  if view.dimensions.length < indexes.length then
    .error (.fail "array access provides too many dimensions")
  let offset ← linearOffset 0 0 indexes view.dimensions
  match oneDimensionalIndex indexes view.dimensions with
  | some i => return inBoundsGEP view.elementSize view.address i.bits
  | none => return inBoundsGEP view.elementSize view.address offset

/-- The same without the fast path: the address from the widened indexes. -/
def generalAddress (view : ArrayView) (indexes : List IntegerValue) : Emit (BitVec 64) := do
  if view.dimensions.length < indexes.length then
    .error (.fail "array access provides too many dimensions")
  let offset ← linearOffset 0 0 indexes view.dimensions
  return inBoundsGEP view.elementSize view.address offset

/-! ## What the general path computes -/

/-- Every index, read with its own sign, is in `[0, dimension)`. -/
def InBounds : List IntegerValue → List (BitVec 64) → Prop
  | [], _ => True
  | _ :: _, [] => False
  | i :: indexes, d :: dimensions =>
      (0 ≤ i.value ∧ i.value < d.toNat) ∧ InBounds indexes dimensions

instance : ∀ indexes dimensions, Decidable (InBounds indexes dimensions)
  | [], _ => .isTrue trivial
  | _ :: _, [] => .isFalse id
  | _ :: indexes, _ :: dimensions =>
      have := instDecidableInBounds indexes dimensions
      inferInstanceAs (Decidable (_ ∧ _))

/-- The positions an access names. -/
def positions (indexes : List IntegerValue) : List Nat := indexes.map fun i => i.value.toNat

theorem two_mul_le_of_nonneg {d : BitVec 64} (h : 0 ≤ d.toInt) : 2 * d.toNat ≤ 2 ^ 64 := by
  have := BitVec.toInt_neg_iff (x := d)
  omega

theorem IntegerValue.valid_iff (i : IntegerValue) {d : BitVec 64} (hd : 0 ≤ d.toInt) :
    i.wide.ult d = true ↔ 0 ≤ i.value ∧ i.value < d.toNat := by
  rw [BitVec.ult, decide_eq_true_iff]
  exact i.type.signedness.toNat_cast_lt_iff i.width_le i.bits (two_mul_le_of_nonneg hd)

theorem inBounds_inBox {indexes : List IntegerValue} {dimensions : List (BitVec 64)}
    (h : InBounds indexes dimensions) :
    RowMajor.InBox (positions indexes) (dimensions.map BitVec.toNat) := by
  induction indexes generalizing dimensions with
  | nil => trivial
  | cons i indexes ih =>
      cases dimensions with
      | nil => exact h.elim
      | cons d dimensions =>
          obtain ⟨⟨hlo, hhi⟩, hrest⟩ := h
          exact ⟨(Int.toNat_lt hlo).mpr hhi, ih hrest⟩

theorem ofNat_mul_dimension (n : Nat) (d : BitVec 64) :
    BitVec.ofNat 64 n * d = BitVec.ofNat 64 (n * d.toNat) := by
  rw [BitVec.ofNat_mul, BitVec.ofNat_toNat, BitVec.setWidth_eq]

theorem foldl_mul_ofNat (n : Nat) (dimensions : List (BitVec 64)) :
    dimensions.foldl (· * ·) (BitVec.ofNat 64 n) =
      BitVec.ofNat 64 (RowMajor.horner n [] (dimensions.map BitVec.toNat)) := by
  induction dimensions generalizing n with
  | nil => rfl
  | cons d dimensions ih => rw [List.foldl_cons, ofNat_mul_dimension, ih]; rfl

/-- With every index in bounds no check fails, and the offset is the
row-major one modulo the width it is computed at. -/
theorem linearOffset_of_inBounds {indexes : List IntegerValue} {dimensions : List (BitVec 64)}
    (hdims : ∀ d ∈ dimensions, 0 ≤ d.toInt) (h : InBounds indexes dimensions)
    {dimension n : Nat} (hfirst : dimension = 0 → n = 0) :
    linearOffset dimension (BitVec.ofNat 64 n) indexes dimensions =
      .ok (BitVec.ofNat 64
        (RowMajor.horner n (positions indexes) (dimensions.map BitVec.toNat))) := by
  induction indexes generalizing dimensions dimension n with
  | nil => rw [linearOffset, foldl_mul_ofNat]; rfl
  | cons i indexes ih =>
      cases dimensions with
      | nil => exact h.elim
      | cons d dimensions =>
          obtain ⟨hi, hrest⟩ := h
          have hd := hdims d (List.mem_cons_self ..)
          have hwide : i.wide = BitVec.ofNat 64 i.value.toNat := by
            rw [← IntegerValue.toNat_wide hi.1, BitVec.ofNat_toNat, BitVec.setWidth_eq]
          have hnext : (if dimension = 0 then i.wide
              else BitVec.ofNat 64 n * d + i.wide) =
                BitVec.ofNat 64 (n * d.toNat + i.value.toNat) := by
            split
            · rename_i hz
              rw [hfirst hz, Nat.zero_mul, Nat.zero_add, hwide]
            · rw [ofNat_mul_dimension, hwide, ← BitVec.ofNat_add]
          rw [linearOffset, (i.valid_iff hd).mpr hi, emitOrExit_true, hnext]
          exact ih (fun d' hd' => hdims d' (List.mem_cons_of_mem _ hd')) hrest (by omega)

/-- With some index out of bounds, the first such one stops the program. -/
theorem linearOffset_of_not_inBounds {indexes : List IntegerValue} {dimensions : List (BitVec 64)}
    (hdims : ∀ d ∈ dimensions, 0 ≤ d.toInt) (hlen : indexes.length ≤ dimensions.length)
    (h : ¬ InBounds indexes dimensions) (dimension : Nat) (offset : BitVec 64) :
    linearOffset dimension offset indexes dimensions =
      .error (.exit Check.arrayBounds.message) := by
  induction indexes generalizing dimensions dimension offset with
  | nil => exact absurd trivial h
  | cons i indexes ih =>
      cases dimensions with
      | nil => simp at hlen
      | cons d dimensions =>
          have hd := hdims d (List.mem_cons_self ..)
          rw [linearOffset]
          by_cases hi : i.wide.ult d = true
          · have hrest : ¬ InBounds indexes dimensions :=
              fun hrest => h ⟨(i.valid_iff hd).mp hi, hrest⟩
            rw [hi, emitOrExit_true]
            exact ih (fun d' hd' => hdims d' (List.mem_cons_of_mem _ hd'))
              (Nat.le_of_succ_le_succ hlen) hrest _ _
          · rw [Bool.not_eq_true _ |>.mp hi, emitOrExit_false]
            rfl

/-! ## Where an access lands -/

/-- An access the analyzer lets through: no more indexes than dimensions, to a
view that covers its storage. -/
structure ArrayAccess where
  view : ArrayView
  storage : Nat
  covers : view.Covers storage
  indexes : List IntegerValue
  rank_le : indexes.length ≤ view.dimensions.length

namespace ArrayAccess

variable (access : ArrayAccess)

/-- Every index of the access is in its dimension. -/
abbrev InBounds : Prop := Absolute.InBounds access.indexes access.view.dimensions

/-- The row-major offset of the indexes. -/
def offset : Nat := RowMajor.offset (positions access.indexes) access.view.lengths

/-- The bytes the access names: one element, or the sub-array. -/
def extent : Nat :=
  (access.view.lengths.drop access.indexes.length).prod * access.view.elementSize

/-- The address is that of the element at the offset, and all it names is
inside the storage. -/
structure Hits (address : BitVec 64) : Prop where
  at_offset : address.toNat =
    access.view.address.toNat + access.offset * access.view.elementSize
  inside : address.toNat + access.extent ≤ access.view.address.toNat + access.storage

/-- What a checked access is for. -/
structure Correct : Prop where
  exits : ¬ access.InBounds →
    arrayElementAddress access.view access.indexes =
      .error (.exit "Array index out of bounds")
  hits : access.InBounds →
    ∃ address, arrayElementAddress access.view access.indexes = .ok address ∧ access.Hits address
  paths_agree : arrayElementAddress access.view access.indexes =
    generalAddress access.view access.indexes

/-- The fast path gets an index with the top bit of an unsigned type set. -/
def FastPathMisreads : Prop :=
  ∃ i d, access.indexes = [i] ∧ access.view.dimensions = [d] ∧ i.bits.toNat < d.toNat ∧
    0 < access.view.elementSize ∧ i.type.signedness = .unsigned ∧
    2 ^ i.width ≤ 2 * i.bits.toNat

variable {access}

theorem length_positions : (positions access.indexes).length = access.indexes.length :=
  List.length_map _

theorem horner_positions :
    RowMajor.horner 0 (positions access.indexes) access.view.lengths = access.offset := by
  have hlen : (positions access.indexes).length ≤ access.view.lengths.length := by
    rw [length_positions, ArrayView.lengths, List.length_map]
    exact access.rank_le
  rw [RowMajor.horner_eq 0 hlen, Nat.zero_mul, Nat.zero_add]
  rfl

theorem generalAddress_of_not_inBounds (h : ¬ access.InBounds) :
    generalAddress access.view access.indexes = .error (.exit Check.arrayBounds.message) := by
  rw [generalAddress, if_neg (Nat.not_lt.mpr access.rank_le),
    linearOffset_of_not_inBounds access.covers.dimensions_nonneg access.rank_le h]
  rfl

theorem arrayElementAddress_of_not_inBounds (h : ¬ access.InBounds) :
    arrayElementAddress access.view access.indexes =
      .error (.exit Check.arrayBounds.message) := by
  rw [arrayElementAddress, if_neg (Nat.not_lt.mpr access.rank_le),
    linearOffset_of_not_inBounds access.covers.dimensions_nonneg access.rank_le h]
  rfl

theorem generalAddress_of_inBounds (h : access.InBounds) :
    generalAddress access.view access.indexes =
      .ok (inBoundsGEP access.view.elementSize access.view.address
        (BitVec.ofNat 64 access.offset)) := by
  have hoffset := linearOffset_of_inBounds access.covers.dimensions_nonneg h
    (fun _ : 0 = 0 => rfl)
  rw [generalAddress, if_neg (Nat.not_lt.mpr access.rank_le), ← horner_positions]
  change (linearOffset 0 (BitVec.ofNat 64 0) _ _ >>= _) = _
  rw [hoffset]
  rfl

/-- The address at a row-major offset does not wrap. -/
theorem hits_offset (h : access.InBounds) :
    access.Hits (inBoundsGEP access.view.elementSize access.view.address
      (BitVec.ofNat 64 access.offset)) := by
  obtain ⟨_, helements, hstorage, hmemory⟩ := access.covers
  have hbox := inBounds_inBox h
  have hend : access.offset * access.view.elementSize + access.extent ≤ access.storage := by
    have hle := RowMajor.offset_add_le hbox
    rw [length_positions] at hle
    have := Nat.mul_le_mul_right access.view.elementSize hle
    rw [Nat.add_mul] at this
    exact Nat.le_trans this helements
  have hstart : access.view.address.toNat + access.offset * access.view.elementSize < 2 ^ 64 := by
    have hbase := access.view.address.isLt
    rcases RowMajor.offset_lt_or_eq_zero hbox with hlt | hz
    · rcases Nat.eq_zero_or_pos access.view.elementSize with hes | hes
      · rw [hes, Nat.mul_zero]
        exact hbase
      · have := Nat.mul_lt_mul_of_pos_right hlt hes
        have : access.offset * access.view.elementSize < access.storage :=
          Nat.lt_of_lt_of_le this helements
        omega
    · rw [show access.offset = 0 from hz, Nat.zero_mul]
      exact hbase
  have hat := toNat_inBoundsGEP hstart
  exact ⟨hat, by rw [hat]; omega⟩

/-- The general path is right for every rank and every index. -/
theorem generalAddress_hits (h : access.InBounds) :
    ∃ address, generalAddress access.view access.indexes = .ok address ∧ access.Hits address :=
  ⟨_, generalAddress_of_inBounds h, hits_offset h⟩

/-- Two accesses to elements of one array that land on the same address name
the same element. -/
theorem positions_of_same_address {a b : ArrayAccess} (hview : a.view = b.view)
    (hsize : 0 < a.view.elementSize) (ha : a.InBounds) (hb : b.InBounds)
    (hfull : a.indexes.length = a.view.dimensions.length)
    (hfull' : b.indexes.length = b.view.dimensions.length) {address : BitVec 64}
    (hita : a.Hits address) (hitb : b.Hits address) :
    positions a.indexes = positions b.indexes := by
  have hoffset : a.offset * a.view.elementSize = b.offset * a.view.elementSize := by
    have := hita.at_offset
    have := hitb.at_offset
    rw [← hview] at this
    omega
  have hboxb := inBounds_inBox hb
  rw [← hview] at hboxb hfull'
  refine RowMajor.offset_injective (inBounds_inBox ha) hboxb ?_ ?_ ?_
  · rw [length_positions, hfull, List.length_map]
  · rw [length_positions, hfull', List.length_map]
  · have heq := Nat.eq_of_mul_eq_mul_right hsize hoffset
    rw [offset, offset, ← hview] at heq
    exact heq

/-- So an access is right exactly when its path gives the general address. -/
theorem correct_iff_paths_agree :
    access.Correct ↔ arrayElementAddress access.view access.indexes =
      generalAddress access.view access.indexes := by
  constructor
  · intro h
    exact h.paths_agree
  · intro h
    refine ⟨arrayElementAddress_of_not_inBounds, fun hin => ?_, h⟩
    rw [h]
    exact generalAddress_hits hin

/-! ## The fast path -/

theorem arrayElementAddress_of_none
    (h : oneDimensionalIndex access.indexes access.view.dimensions = none) :
    arrayElementAddress access.view access.indexes =
      generalAddress access.view access.indexes := by
  rw [arrayElementAddress, generalAddress, h]

theorem arrayElementAddress_of_some {i : IntegerValue}
    (h : oneDimensionalIndex access.indexes access.view.dimensions = some i)
    (hin : access.InBounds) :
    arrayElementAddress access.view access.indexes =
      .ok (inBoundsGEP access.view.elementSize access.view.address i.bits) := by
  have hoffset := linearOffset_of_inBounds access.covers.dimensions_nonneg hin
    (fun _ : 0 = 0 => rfl)
  rw [arrayElementAddress, if_neg (Nat.not_lt.mpr access.rank_le), h]
  change (linearOffset 0 (BitVec.ofNat 64 0) _ _ >>= _) = _
  rw [hoffset]
  rfl

theorem oneDimensionalIndex_eq_some {indexes : List IntegerValue} {dimensions : List (BitVec 64)}
    {i : IntegerValue} (h : oneDimensionalIndex indexes dimensions = some i) :
    ∃ d, indexes = [i] ∧ dimensions = [d] := by
  unfold oneDimensionalIndex at h
  split at h
  · cases h
    exact ⟨_, rfl, rfl⟩
  · cases h

theorem offset_of_one {i : IntegerValue} {d : BitVec 64} (hi : access.indexes = [i])
    (hd : access.view.dimensions = [d]) : access.offset = i.value.toNat := by
  simp [offset, positions, ArrayView.lengths, hi, hd]

theorem inBounds_of_one {i : IntegerValue} {d : BitVec 64} (hi : access.indexes = [i])
    (hd : access.view.dimensions = [d]) :
    access.InBounds ↔ 0 ≤ i.value ∧ i.value < d.toNat := by
  simp [InBounds, Absolute.InBounds, hi, hd]

/-- Elements of some size less than half the address space apart stay apart. -/
theorem mul_signExtend_ne {w : Nat} {b : BitVec w} (hw : w ≤ 64) {size : Nat}
    (hsize : 0 < size) (htop : 2 ^ w ≤ 2 * b.toNat) (hfits : b.toNat * size < 2 ^ 63) :
    b.signExtend 64 * BitVec.ofNat 64 size ≠ BitVec.ofNat 64 (b.toNat * size) := by
  intro h
  have hnat := congrArg BitVec.toNat h
  rw [BitVec.toNat_mul, Signedness.toNat_signExtend_of_top htop hw, BitVec.toNat_ofNat,
    BitVec.toNat_ofNat, Nat.mul_mod_mod, Nat.sub_mul, Nat.add_mul] at hnat
  have hrange : 2 ^ w * size ≤ 2 * (b.toNat * size) := by
    rw [← Nat.mul_assoc]
    exact Nat.mul_le_mul_right _ htop
  have hpos : 0 < 2 ^ w * size := Nat.mul_pos (Nat.two_pow_pos w) hsize
  generalize 2 ^ w * size = range at hnat hrange hpos
  generalize b.toNat * size = start at hnat hrange hfits
  omega

theorem value_of_unsigned {i : IntegerValue} (h : i.type.signedness = .unsigned) :
    i.value = (i.bits.toNat : Int) := by
  rw [IntegerValue.value, h]
  rfl

theorem paths_differ (h : access.FastPathMisreads) :
    arrayElementAddress access.view access.indexes ≠
      generalAddress access.view access.indexes := by
  obtain ⟨i, d, hi, hd, hlt, hsize, hsign, htop⟩ := h
  have hvalue := value_of_unsigned hsign
  have hin : access.InBounds := by
    rw [inBounds_of_one hi hd, hvalue]
    omega
  have hone : oneDimensionalIndex access.indexes access.view.dimensions = some i := by
    rw [hi, hd]
    rfl
  have hfits : i.bits.toNat * access.view.elementSize < 2 ^ 63 := by
    have helements := access.covers.elements
    have hstorage := access.covers.storage_lt
    rw [ArrayView.lengths, hd, List.map_singleton, List.prod_singleton] at helements
    have := Nat.mul_le_mul_right access.view.elementSize hlt.le
    omega
  intro hagree
  rw [arrayElementAddress_of_some hone hin, generalAddress_of_inBounds hin,
    offset_of_one hi hd, hvalue, Int.toNat_natCast] at hagree
  refine mul_signExtend_ne i.width_le hsize htop hfits ?_
  rw [(BitVec.add_right_inj _).mp (Except.ok.inj hagree), BitVec.signExtend_eq,
    ← BitVec.ofNat_mul]

theorem paths_agree_of_one {i : IntegerValue} {d : BitVec 64} (hi : access.indexes = [i])
    (hd : access.view.dimensions = [d]) (hin : access.InBounds)
    (h : ¬ access.FastPathMisreads) :
    inBoundsGEP access.view.elementSize access.view.address i.bits =
      inBoundsGEP access.view.elementSize access.view.address i.wide := by
  rw [inBoundsGEP, inBoundsGEP, BitVec.signExtend_eq]
  rcases Nat.eq_zero_or_pos access.view.elementSize with hz | hsize
  · rw [hz, BitVec.mul_zero, BitVec.mul_zero]
  · have hgood : i.type.signedness = .signed ∨ 2 * i.bits.toNat < 2 ^ i.width := by
      by_contra hbad
      obtain ⟨hsign, htop⟩ := not_or.mp hbad
      have hunsigned : i.type.signedness = .unsigned := by
        cases hs : i.type.signedness with
        | signed => exact absurd hs hsign
        | unsigned => rfl
      have hhi := ((inBounds_of_one hi hd).mp hin).2
      rw [value_of_unsigned hunsigned] at hhi
      exact h ⟨i, d, hi, hd, by omega, hsize, hunsigned, by omega⟩
    rw [Signedness.signExtend_eq_cast 64 hgood, IntegerValue.wide]

theorem paths_agree (h : ¬ access.FastPathMisreads) :
    arrayElementAddress access.view access.indexes =
      generalAddress access.view access.indexes := by
  by_cases hin : access.InBounds
  · cases hone : oneDimensionalIndex access.indexes access.view.dimensions with
    | none => exact arrayElementAddress_of_none hone
    | some i =>
        obtain ⟨d, hi, hd⟩ := oneDimensionalIndex_eq_some hone
        have hlo := ((inBounds_of_one hi hd).mp hin).1
        rw [arrayElementAddress_of_some hone hin, generalAddress_of_inBounds hin,
          offset_of_one hi hd, ← IntegerValue.toNat_wide hlo, BitVec.ofNat_toNat,
          BitVec.setWidth_eq, paths_agree_of_one hi hd hin h]
  · rw [arrayElementAddress_of_not_inBounds hin, generalAddress_of_not_inBounds hin]

/-- Checked array access is right exactly when the one-dimensional path is not
given an unsigned index with its top bit set. -/
theorem arrayAccess_correct_iff (access : ArrayAccess) :
    access.Correct ↔ ¬ access.FastPathMisreads := by
  rw [correct_iff_paths_agree]
  constructor
  · intro hagree hmisreads
    exact paths_differ hmisreads hagree
  · intro h
    exact paths_agree h

/-- `int32[256]` indexed by a `uint8` that holds 200. -/
def uint8Access : ArrayAccess where
  view := ⟨4096, 4, [256]⟩
  storage := 1024
  covers := by constructor <;> simp [ArrayView.lengths]
  indexes := [⟨.uint8, 8, 200, by decide⟩]
  rank_le := by decide

/-- It names element -56, before the array, which starts at 4096. -/
theorem uint8Access_misses :
    arrayElementAddress uint8Access.view uint8Access.indexes = .ok 3872 ∧
      ¬ ∀ access : ArrayAccess, access.Correct := by
  refine ⟨by decide, fun h => paths_differ ?_ (h uint8Access).paths_agree⟩
  exact ⟨_, _, rfl, rfl, by decide, by decide, rfl, by decide⟩

end ArrayAccess

end Absolute
