import Absolute.StdByteBufferAccess

/-!
# The bounds of absolute accesses

An access at an index is refused exactly where its bytes are not below the limit, and touches these
bytes only, as long as the end of the place that the check computes stays in `int64`. Where it wraps
around the check passes, and the runtime reads zeros.
-/

namespace Absolute

namespace StdBytes

open WordBytes (Byte writeFrom)

/-! ## Bytes of storage -/

def byteAt (memory : Memory) (block place : ℕ) : Option Byte := do (← memory[block]?)[place]?

/-- The places that `n` bytes at `index` have in storage. -/
def Handle.Covers (h : Handle) (index : Int64) (n block place : ℕ) : Prop :=
  block = h.block ∧ h.place index ≤ place ∧ place < h.place index + n

variable {s : This} {index : Int64} {n : ℕ} {bs : List Byte}

theorem byteAt_modify_ne {memory : Memory} {k block place : ℕ} (f : List Byte → List Byte)
    (h : block ≠ k) : byteAt (memory.modify k f) block place = byteAt memory block place := by
  rw [byteAt, byteAt, List.getElem?_modify_ne _ _ h.symm]

theorem byteAt_modify {memory : Memory} {k place : ℕ} {f : List Byte → List Byte}
    (h : ∀ block, memory[k]? = some block → (f block)[place]? = block[place]?) :
    byteAt (memory.modify k f) k place = byteAt memory k place := by
  rw [byteAt, byteAt, List.getElem?_modify_eq]
  cases hblock : memory[k]? with
  | none => rfl
  | some block => exact h block hblock

/-- What is written leaves all other bytes. -/
theorem byteAt_write {block place : ℕ} (h : ¬s.buffer.handle.Covers index bs.length block place) :
    byteAt (s.write index bs).memory block place = byteAt s.memory block place := by
  rcases eq_or_ne block s.buffer.handle.block with rfl | hne
  · refine byteAt_modify fun block _ => ?_
    rcases Nat.lt_or_ge place (s.buffer.handle.place index) with hlt | hge
    · exact WordBytes.getElem?_writeFrom_of_lt _ _ hlt
    · have hend : s.buffer.handle.place index + bs.length ≤ place := by
        by_contra hinside
        exact h ⟨rfl, hge, by omega⟩
      exact WordBytes.getElem?_writeFrom_of_ge _ _ hend
  · exact byteAt_modify_ne _ hne

/-! ## A check that wraps around -/

theorem toInt_add_ofNat_neg (h0 : 0 ≤ index.toInt) (hn : n ≤ 8) (h : ¬Fits n index) :
    (index + .ofNat n).toInt < 0 := by
  unfold Fits at h
  have hlt := index.toInt_lt
  rw [Int64.toInt_add, Int64.toInt_ofNat_of_lt (by omega), Int.bmod_def]
  split <;> omega

theorem readByte_ok (hinside : s.buffer.handle.Inside s.memory) (index : Int64) :
    ∃ b, readByte index s = .ok b s := by
  by_cases houtside : s.buffer.handle.Outside index
  · exact ⟨0, runtime_of_some (if_pos houtside)⟩
  · have hwithin : Within s index (0 + 1) := by
      simp only [Handle.Outside, not_or, ge_iff_le, Int64.lt_iff_toInt_lt, Int64.le_iff_toInt_le,
        Int64.toInt_zero, not_lt, not_le] at houtside
      exact ⟨hinside, houtside.1, by omega⟩
    obtain ⟨b, -, hread⟩ := readByte_eq hwithin
    exact ⟨b, hread⟩

theorem readBytes_ok (hinside : s.buffer.handle.Inside s.memory) (index : Int64) (n : ℕ) :
    ∃ bs, readBytes index n s = .ok bs s := by
  induction n generalizing index with
  | zero => exact ⟨[], rfl⟩
  | succ n ih =>
    obtain ⟨b, hb⟩ := readByte_ok hinside index
    obtain ⟨bs, hbs⟩ := ih (index + 1)
    exact ⟨b :: bs, by rw [readBytes, Raising.bind_of_ok hb, Raising.bind_of_ok hbs]; rfl⟩

/-- A word at a place whose end wraps around is read all the same. -/
theorem getWordAt_wrapped (hs : Bounded s.buffer s.memory) (hn : n ≤ 8) (h : ¬Fits n index)
    (message : String) (w : ℕ) : ∃ v, getWordAt message n w index s = .ok v s := by
  have hlt := index.toInt_lt
  have h0 : 0 ≤ index.toInt := by
    unfold Fits at h
    omega
  have hpasses : ¬(index < 0 ∨ index + .ofNat n > s.buffer.limit) := by
    have hneg := toInt_add_ofNat_neg h0 hn h
    have hlimit := Int64.le_iff_toInt_le.mp hs.limit_nonneg
    simp only [not_or, gt_iff_lt, Int64.lt_iff_toInt_lt, Int64.toInt_zero, not_lt] at hlimit ⊢
    omega
  obtain ⟨bytes, hbytes⟩ := readBytes_ok hs.inside index n
  refine ⟨WordBytes.assemble w (ordered s.buffer.isLittleEndian bytes), ?_⟩
  have hcheck : check (fun b => index < 0 ∨ index + .ofNat n > b.limit) message s = .ok () s := by
    rw [check_eq, if_neg hpasses]
  rw [getWordAt, Raising.bind_of_ok hcheck, Raising.bind_of_ok hbytes]
  rfl

theorem IntegerType.getAt_wrapped (hs : Bounded s.buffer s.memory) (t : IntegerType)
    (h : ¬t.Reaches index) : ∃ v, t.getAt index s = .ok v s := by
  have hfits : t ≠ .byte ∧ ¬Fits t.width index := by
    unfold IntegerType.Reaches at h
    rwa [Classical.not_imp] at h
  cases t with
  | byte => exact absurd rfl hfits.1
  | int16 =>
    obtain ⟨v, hv⟩ := getWordAt_wrapped hs (by decide) hfits.2 "Buffer overflow reading int16" 32
    exact ⟨v.setWidth 16, Raising.bind_of_ok hv⟩
  | int32 => exact getWordAt_wrapped hs (by decide) hfits.2 _ _
  | int64 => exact getWordAt_wrapped hs (by decide) hfits.2 _ _

/-! ## Bounds -/

/-- The accesses of one type at one index throw and change nothing where a byte of their place is
not below the limit, the sums being those of integers. Elsewhere one reads the value of these
bytes; the other writes them and no others, and what it has put is got. -/
structure ExactlyBounded (t : IntegerType) (index : Int64) (s : This) : Prop where
  refuses : index.toInt < 0 ∨ s.buffer.limit.toInt < index.toInt + t.width →
    (∃ message, t.getAt index s = .error (.threw message) s) ∧
      ∀ v, ∃ message, t.putAt index v s = .error (.threw message) s
  reads : 0 ≤ index.toInt → index.toInt + t.width ≤ s.buffer.limit.toInt →
    t.getAt index s = .ok (t.decode s.buffer.isLittleEndian (s.bytes index t.width)) s
  writes : 0 ≤ index.toInt → index.toInt + t.width ≤ s.buffer.limit.toInt → ∀ v, ∃ u,
    t.putAt index v s = .ok () u ∧ u.buffer = s.buffer ∧
      u.bytes index t.width = t.encode s.buffer.isLittleEndian v ∧ t.getAt index u = .ok v u ∧
      ∀ block place, ¬s.buffer.handle.Covers index t.width block place →
        byteAt u.memory block place = byteAt s.memory block place

theorem exactlyBounded_of_reaches (hs : Bounded s.buffer s.memory) {t : IntegerType}
    (h : t.Reaches index) : ExactlyBounded t index s where
  refuses hout := by
    have hnot : ¬Passes s.buffer index t.width := by
      rintro ⟨hnonneg, hle⟩
      omega
    refine ⟨?_, fun v => ?_⟩
    · rcases getAt_eq hs t h with ⟨-, hthrew⟩ | ⟨hpasses, -⟩
      · exact hthrew
      · exact absurd hpasses hnot
    · rcases putAt_eq hs t h v with ⟨-, hthrew⟩ | ⟨hpasses, -⟩
      · exact hthrew
      · exact absurd hpasses hnot
  reads hnonneg hle := (getAt_eq hs t h).eq ⟨hnonneg, hle⟩
  writes hnonneg hle v := by
    have hpasses : Passes s.buffer index t.width := ⟨hnonneg, hle⟩
    have hput := (putAt_eq hs t h v).eq hpasses
    refine ⟨_, hput, rfl, ?_, getAt_of_putAt hs t h hput, fun block place hout => ?_⟩
    · have hbytes := @bytes_write s index (t.encode s.buffer.isLittleEndian v)
        (by rw [length_encode]; exact hpasses.within hs)
      rwa [length_encode] at hbytes
    · exact byteAt_write (by rwa [length_encode])

/-- The accesses are exactly bounded where the end of their place stays in `int64`. -/
theorem exactlyBounded_iff (hs : Bounded s.buffer s.memory) (t : IntegerType) (index : Int64) :
    ExactlyBounded t index s ↔ t = .byte ∨ index.toInt + t.width < 2 ^ 63 := by
  have hiff : t.Reaches index ↔ t = .byte ∨ index.toInt + t.width < 2 ^ 63 := by
    unfold IntegerType.Reaches Fits
    tauto
  rw [← hiff]
  constructor
  · intro hexact
    by_contra hnot
    obtain ⟨v, hok⟩ := t.getAt_wrapped hs hnot
    have hlimit := s.buffer.limit.toInt_lt
    have hout : s.buffer.limit.toInt < index.toInt + t.width := by
      simp only [hiff, not_or, not_lt] at hnot
      omega
    obtain ⟨message, hthrew⟩ := (hexact.refuses (.inr hout)).1
    rw [hok] at hthrew
    cases hthrew
  · exact exactlyBounded_of_reaches hs

/-- A buffer of sixteen bytes with the limit four, whose bytes are counted down from the highest. -/
def limited : This :=
  ⟨{ ByteBuffer.over ⟨0, 0, 16⟩ false with limit := 4 }, [List.replicate 16 0]⟩

theorem bounded_limited : Bounded limited.buffer limited.memory :=
  ⟨by decide, by decide, rfl, List.replicate 16 0, rfl, by decide⟩

theorem exactlyBounded_limited :
    ExactlyBounded .int16 3 limited ↔ (IntegerType.int16 = .byte ∨
      (3 : Int64).toInt + (IntegerType.width .int16 : ℤ) < 2 ^ 63) :=
  exactlyBounded_iff bounded_limited .int16 3

/-- Nothing is below the limit at the last index, and an `int16` is got there. -/
theorem not_exactlyBounded : (∃ v, getInt16At 9223372036854775807 limited = .ok v limited) ∧
    ¬∀ s : This, Bounded s.buffer s.memory → ∀ t index, ExactlyBounded t index s := by
  have hok : ∃ v, getInt16At 9223372036854775807 limited = .ok v limited :=
    IntegerType.int16.getAt_wrapped bounded_limited fun h => absurd (h (by decide)) (by decide)
  refine ⟨hok, fun hall => ?_⟩
  obtain ⟨v, hok⟩ := hok
  obtain ⟨message, hthrew⟩ :=
    ((hall limited bounded_limited .int16 9223372036854775807).refuses (.inr (by decide))).1
  cases hok.symm.trans hthrew

end StdBytes

end Absolute
