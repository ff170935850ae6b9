import Absolute.StdByteBuffer

/-!
# What an access reads and writes

In a buffer whose cursors are in order and whose data lies in its block (`Sound`), a word whose
place ends within `int64` (`Fits`) is refused with nothing changed, or read from and written to
the block (`getWordAt_eq`, `putWordAt_eq`).
-/

namespace Absolute

namespace StdBytes

open WordBytes (Byte assemble bytesOf writeFrom)

/-! ## Buffers in order -/

structure Cursors (b : ByteBuffer) : Prop where
  position_nonneg : 0 ≤ b.position
  position_le : b.position ≤ b.limit
  limit_le : b.limit ≤ b.capacity
  neg_one_le : -1 ≤ b.mark
  mark_le : b.mark ≤ b.position

theorem cursors_iff (b : ByteBuffer) :
    Cursors b ↔ 0 ≤ b.position.toInt ∧ b.position.toInt ≤ b.limit.toInt ∧
      b.limit.toInt ≤ b.capacity.toInt ∧ -1 ≤ b.mark.toInt ∧ b.mark.toInt ≤ b.position.toInt := by
  constructor
  · rintro ⟨h1, h2, h3, h4, h5⟩
    exact ⟨Int64.le_iff_toInt_le.mp h1, Int64.le_iff_toInt_le.mp h2, Int64.le_iff_toInt_le.mp h3,
      Int64.le_iff_toInt_le.mp h4, Int64.le_iff_toInt_le.mp h5⟩
  · rintro ⟨h1, h2, h3, h4, h5⟩
    exact ⟨Int64.le_iff_toInt_le.mpr h1, Int64.le_iff_toInt_le.mpr h2,
      Int64.le_iff_toInt_le.mpr h3, Int64.le_iff_toInt_le.mpr h4, Int64.le_iff_toInt_le.mpr h5⟩

/-- The data of a handle lies in its block. -/
def Handle.Inside (h : Handle) (memory : Memory) : Prop :=
  ∃ block, memory[h.block]? = some block ∧ h.data + h.capacity.toInt.toNat ≤ block.length

structure Sound (b : ByteBuffer) (memory : Memory) : Prop where
  cursors : Cursors b
  capacity_eq : b.capacity = b.handle.capacity
  inside : b.handle.Inside memory

/-- The limit is in the capacity, and the data in the block. -/
structure Bounded (b : ByteBuffer) (memory : Memory) : Prop where
  limit_nonneg : 0 ≤ b.limit
  limit_le : b.limit ≤ b.capacity
  capacity_eq : b.capacity = b.handle.capacity
  inside : b.handle.Inside memory

theorem Sound.bounded {b : ByteBuffer} {memory : Memory} (hs : Sound b memory) :
    Bounded b memory :=
  ⟨Int64.le_trans hs.cursors.position_nonneg hs.cursors.position_le, hs.cursors.limit_le,
    hs.capacity_eq, hs.inside⟩

/-- The place of `n` bytes at `index` ends within `int64`. -/
def Fits (n : ℕ) (index : Int64) : Prop := index.toInt + n < 2 ^ 63

instance (n : ℕ) (index : Int64) : Decidable (Fits n index) := inferInstanceAs (Decidable (_ < _))

theorem toInt_add_ofNat {n : ℕ} {index : Int64} (h0 : 0 ≤ index.toInt) (h : Fits n index) :
    (index + .ofNat n).toInt = index.toInt + n := by
  unfold Fits at h
  rw [Int64.toInt_add, Int64.toInt_ofNat_of_lt (by omega)]
  exact Int.bmod_eq_of_le (by omega) (by omega)

/-! ## Bytes -/

def This.block (s : This) : List Byte := s.memory.getD s.buffer.handle.block []

/-- The `n` bytes at `index`. -/
def This.bytes (s : This) (index : Int64) (n : ℕ) : List Byte :=
  (s.block.drop (s.buffer.handle.place index)).take n

def This.write (s : This) (index : Int64) (bs : List Byte) : This :=
  let h := s.buffer.handle
  { s with memory := s.memory.modify h.block (writeFrom · (h.place index) bs) }

variable {s : This} {index : Int64} {n w : ℕ} {bs : List Byte}

theorem block_write (hinside : s.buffer.handle.Inside s.memory) :
    (s.write index bs).block = writeFrom s.block (s.buffer.handle.place index) bs := by
  obtain ⟨block, hblock, -⟩ := hinside
  simp [This.block, This.write, hblock]

theorem Handle.Inside.of_write {h : Handle} {memory : Memory} (hinside : h.Inside memory) (k : ℕ)
    (f : List Byte → List Byte) (hf : ∀ block, (f block).length = block.length) :
    h.Inside (memory.modify k f) := by
  obtain ⟨block, hblock, hsize⟩ := hinside
  rcases eq_or_ne h.block k with rfl | hne
  · exact ⟨f block, by simp [hblock], by rwa [hf]⟩
  · exact ⟨block, by rw [List.getElem?_modify_ne _ _ hne.symm, hblock], hsize⟩

/-- The bytes of a place that is in the data of the buffer. -/
structure Within (s : This) (index : Int64) (n : ℕ) : Prop where
  inside : s.buffer.handle.Inside s.memory
  nonneg : 0 ≤ index.toInt
  le : index.toInt + n ≤ s.buffer.handle.capacity.toInt

theorem Within.not_outside (h : Within s index (n + 1)) : ¬s.buffer.handle.Outside index := by
  have := h.nonneg
  have := h.le
  simp only [Handle.Outside, ge_iff_le, Int64.lt_iff_toInt_lt, Int64.le_iff_toInt_le,
    Int64.toInt_zero]
  omega

theorem Within.place_add_le (h : Within s index n) :
    s.buffer.handle.place index + n ≤ s.block.length := by
  obtain ⟨block, hblock, hsize⟩ := h.inside
  have := h.nonneg
  have := h.le
  simp only [This.block, List.getD_eq_getElem?_getD, hblock, Option.getD_some, Handle.place]
  omega

theorem Within.toInt_succ (h : Within s index (n + 1)) : (index + 1).toInt = index.toInt + 1 := by
  have hcapacity := s.buffer.handle.capacity.toInt_lt
  have hle := h.le
  exact toInt_add_ofNat (n := 1) h.nonneg (by unfold Fits; omega)

theorem Within.place_succ (h : Within s index (n + 1)) :
    s.buffer.handle.place (index + 1) = s.buffer.handle.place index + 1 := by
  have := h.nonneg
  rw [Handle.place, h.toInt_succ, Handle.place]
  omega

theorem Within.succ (h : Within s index (n + 1)) : Within s (index + 1) n := by
  have hsucc := h.toInt_succ
  have := h.nonneg
  have hle := h.le
  exact ⟨h.inside, by omega, by push_cast at hle; omega⟩

theorem Within.write (h : Within s index (n + 1)) (b : Byte) :
    Within (s.write index [b]) (index + 1) n :=
  ⟨h.inside.of_write _ (writeFrom · (s.buffer.handle.place index) [b])
    fun _ => WordBytes.length_writeFrom _ _ _, h.succ.nonneg, h.succ.le⟩

theorem runtime_of_some {α : Type} {call : Handle → Memory → Option α} {a : α}
    (h : call s.buffer.handle s.memory = some a) : runtime call s = .ok a s := by
  refine Raising.bind_eq_ok.mpr ⟨s, s, rfl, ?_⟩
  rw [h]
  rfl

theorem readByte_eq (h : Within s index (n + 1)) :
    ∃ b, s.block[s.buffer.handle.place index]? = some b ∧ readByte index s = .ok b s := by
  have hlt : s.buffer.handle.place index < s.block.length := by
    have := h.place_add_le
    omega
  obtain ⟨block, hblock, -⟩ := h.inside
  have hb : s.block = block := by simp [This.block, hblock]
  refine ⟨s.block[s.buffer.handle.place index], List.getElem?_eq_getElem hlt, ?_⟩
  refine runtime_of_some ?_
  rw [Handle.getByte, if_neg h.not_outside, hblock, Option.bind_eq_bind, Option.bind_some, ← hb,
    List.getElem?_eq_getElem hlt]

theorem writeByte_eq (h : Within s index (n + 1)) (b : Byte) :
    writeByte index b s = .ok () (s.write index [b]) := by
  have hlt : s.buffer.handle.place index < s.block.length := by
    have := h.place_add_le
    omega
  obtain ⟨block, hblock, -⟩ := h.inside
  have hb : s.block = block := by simp [This.block, hblock]
  have hset : s.buffer.handle.setByte index b s.memory = some (s.write index [b]).memory := by
    rw [Handle.setByte, if_neg h.not_outside, hblock, Option.bind_eq_bind, Option.bind_some, ← hb,
      if_pos hlt]
    rfl
  exact Raising.bind_of_ok (runtime_of_some hset)

theorem readBytes_eq (h : Within s index n) : readBytes index n s = .ok (s.bytes index n) s := by
  induction n generalizing index with
  | zero => simp [readBytes, This.bytes]; rfl
  | succ n ih =>
    obtain ⟨b, hb, hread⟩ := readByte_eq h
    have hrest := ih h.succ
    obtain ⟨hlt, rfl⟩ := List.getElem?_eq_some_iff.mp hb
    have hbytes : s.bytes index (n + 1) =
        s.block[s.buffer.handle.place index] :: s.bytes (index + 1) n := by
      rw [This.bytes, This.bytes, h.place_succ, List.drop_eq_getElem_cons hlt, List.take_succ_cons]
    rw [readBytes, Raising.bind_of_ok hread, Raising.bind_of_ok hrest, hbytes]
    rfl

theorem write_write (index : Int64) (b : Byte) (bs : List Byte) (h : Within s index (n + 1)) :
    (s.write index [b]).write (index + 1) bs = s.write index (b :: bs) := by
  have hplace := h.place_succ
  simp only [This.write, hplace, List.modify_modify_eq]
  rfl

theorem writeBytes_eq (h : Within s index bs.length) :
    writeBytes index bs s = .ok () (s.write index bs) := by
  induction bs generalizing s index with
  | nil =>
    have hsame : s.write index [] = s :=
      congrArg (This.mk s.buffer) (List.modify_id s.buffer.handle.block s.memory)
    rw [hsame]
    rfl
  | cons b bs ih =>
    rw [writeBytes, Raising.bind_of_ok (writeByte_eq h b), ih (h.write b), write_write _ _ _ h]

theorem bytes_write (h : Within s index bs.length) :
    (s.write index bs).bytes index bs.length = bs := by
  have hle := h.place_add_le
  rw [This.bytes, block_write h.inside]
  refine List.ext_getElem? fun k => ?_
  rw [List.getElem?_take]
  split
  · rename_i hk
    rw [List.getElem?_drop]
    exact WordBytes.getElem?_writeFrom _ _ hk hle
  · rename_i hk
    rw [List.getElem?_eq_none (by omega)]

/-! ## Words -/

/-- The place of `n` bytes is below the limit. -/
structure Passes (b : ByteBuffer) (index : Int64) (n : ℕ) : Prop where
  nonneg : 0 ≤ index.toInt
  le : index.toInt + n ≤ b.limit.toInt

theorem Passes.within (h : Passes s.buffer index n) (hs : Bounded s.buffer s.memory) :
    Within s index n := by
  have hlimit := Int64.le_iff_toInt_le.mp hs.limit_le
  exact ⟨hs.inside, h.nonneg, hs.capacity_eq ▸ h.le.trans hlimit⟩

theorem not_refused_iff {b : ByteBuffer} (hfits : Fits n index) :
    ¬(index < 0 ∨ index + .ofNat n > b.limit) ↔ Passes b index n := by
  simp only [not_or, gt_iff_lt, Int64.lt_iff_toInt_lt, Int64.toInt_zero, not_lt]
  constructor
  · rintro ⟨hnonneg, hle⟩
    exact ⟨hnonneg, toInt_add_ofNat hnonneg hfits ▸ hle⟩
  · rintro ⟨hnonneg, hle⟩
    exact ⟨hnonneg, (toInt_add_ofNat hnonneg hfits).symm ▸ hle⟩

/-- The check of a byte. -/
theorem not_refused_iff_one {b : ByteBuffer} :
    ¬(index < 0 ∨ index ≥ b.limit) ↔ Passes b index 1 := by
  simp only [not_or, ge_iff_le, Int64.lt_iff_toInt_lt, Int64.le_iff_toInt_le, Int64.toInt_zero,
    not_lt, not_le]
  constructor
  · rintro ⟨hnonneg, hlt⟩
    exact ⟨hnonneg, by omega⟩
  · rintro ⟨hnonneg, hle⟩
    exact ⟨hnonneg, by omega⟩

theorem check_eq (refuses : ByteBuffer → Prop) [DecidablePred refuses] (message : String)
    (s : This) : check refuses message s =
      if refuses s.buffer then .error (.threw message) s else .ok () s := by
  by_cases h : refuses s.buffer <;> simp [check, adjust, Raising.guarded, h]

/-- Behind a check there is a throw with nothing changed, or the rest. -/
theorem check_bind {α : Type} (refuses : ByteBuffer → Prop) [DecidablePred refuses]
    (message : String) {rest : Method α} {r : EStateM.Result Fault This α}
    (h : ¬refuses s.buffer → rest s = r) :
    (refuses s.buffer ∧ (check refuses message >>= fun _ => rest) s = .error (.threw message) s) ∨
      ¬refuses s.buffer ∧ (check refuses message >>= fun _ => rest) s = r := by
  have hcheck := check_eq refuses message s
  by_cases hrefuses : refuses s.buffer
  · rw [if_pos hrefuses] at hcheck
    exact .inl ⟨hrefuses, Raising.bind_eq_error.mpr (.inl hcheck)⟩
  · rw [if_neg hrefuses] at hcheck
    exact .inr ⟨hrefuses, (Raising.bind_of_ok hcheck).trans (h hrefuses)⟩

theorem ordered_ordered (isLittleEndian : Bool) (bs : List Byte) :
    ordered isLittleEndian (ordered isLittleEndian bs) = bs := by
  cases isLittleEndian <;> simp [ordered]

@[simp] theorem length_ordered (isLittleEndian : Bool) (bs : List Byte) :
    (ordered isLittleEndian bs).length = bs.length := by
  cases isLittleEndian <;> simp [ordered]

/-- A call that throws and changes nothing, or, if its place is below the limit, ends with `r`. -/
def Checked {α : Type} (call : Method α) (s : This) (index : Int64) (n : ℕ)
    (r : EStateM.Result Fault This α) : Prop :=
  (¬Passes s.buffer index n ∧ ∃ message, call s = .error (.threw message) s) ∨
    Passes s.buffer index n ∧ call s = r

theorem Checked.eq {α : Type} {call : Method α} {r : EStateM.Result Fault This α}
    (h : Checked call s index n r) (hpasses : Passes s.buffer index n) : call s = r := by
  rcases h with ⟨hnot, -⟩ | ⟨-, hresult⟩
  · exact absurd hpasses hnot
  · exact hresult

theorem getWordAt_eq (hs : Bounded s.buffer s.memory) (hfits : Fits n index) (message : String) :
    Checked (getWordAt message n w index) s index n
      (.ok (assemble w (ordered s.buffer.isLittleEndian (s.bytes index n))) s) := by
  have hread : ¬(index < 0 ∨ index + .ofNat n > s.buffer.limit) →
      (readBytes index n >>= fun bytes => MonadState.get >>= fun s : This =>
        pure (assemble w (ordered s.buffer.isLittleEndian bytes))) s =
          .ok (assemble w (ordered s.buffer.isLittleEndian (s.bytes index n))) s := by
    intro hpasses
    rw [Raising.bind_of_ok (readBytes_eq (((not_refused_iff hfits).mp hpasses).within hs))]
    rfl
  rcases check_bind (fun b => index < 0 ∨ index + .ofNat n > b.limit) message hread with
    ⟨hrefused, hthrew⟩ | ⟨hpasses, hresult⟩
  · exact .inl ⟨fun h => (not_refused_iff hfits).mpr h hrefused, message, hthrew⟩
  · exact .inr ⟨(not_refused_iff hfits).mp hpasses, hresult⟩

theorem putWordAt_eq (hs : Bounded s.buffer s.memory) (hfits : Fits n index) (message : String)
    (v : BitVec w) : Checked (putWordAt message n index v) s index n
      (.ok () (s.write index (ordered s.buffer.isLittleEndian (bytesOf n v)))) := by
  have hwrite : ¬(index < 0 ∨ index + .ofNat n > s.buffer.limit) →
      (MonadState.get >>= fun s : This =>
        writeBytes index (ordered s.buffer.isLittleEndian (bytesOf n v))) s =
          .ok () (s.write index (ordered s.buffer.isLittleEndian (bytesOf n v))) := by
    intro hpasses
    refine writeBytes_eq ?_
    rw [length_ordered, WordBytes.length_bytesOf]
    exact ((not_refused_iff hfits).mp hpasses).within hs
  rcases check_bind (fun b => index < 0 ∨ index + .ofNat n > b.limit) message hwrite with
    ⟨hrefused, hthrew⟩ | ⟨hpasses, hresult⟩
  · exact .inl ⟨fun h => (not_refused_iff hfits).mpr h hrefused, message, hthrew⟩
  · exact .inr ⟨(not_refused_iff hfits).mp hpasses, hresult⟩

/-! ## Integers -/

/-- The integers that are read and written. -/
inductive IntegerType where
  | byte | int16 | int32 | int64
deriving DecidableEq, Repr

namespace IntegerType

def width : IntegerType → ℕ
  | byte => 1
  | int16 => 2
  | int32 => 4
  | int64 => 8

def bits : IntegerType → ℕ
  | byte => 8
  | int16 => 16
  | int32 => 32
  | int64 => 64

def getAt : (t : IntegerType) → Int64 → Method (BitVec t.bits)
  | byte => getByteAt
  | int16 => getInt16At
  | int32 => getInt32At
  | int64 => getInt64At

def putAt : (t : IntegerType) → Int64 → BitVec t.bits → Method Unit
  | byte => putByteAt
  | int16 => putInt16At
  | int32 => putInt32At
  | int64 => putInt64At

def get : (t : IntegerType) → Method (BitVec t.bits)
  | byte => getByte
  | int16 => getInt16
  | int32 => getInt32
  | int64 => getInt64

def put : (t : IntegerType) → BitVec t.bits → Method Unit
  | byte => putByte
  | int16 => putInt16
  | int32 => putInt32
  | int64 => putInt64

/-- The bytes that stand for a value, in the order of storage. -/
def encode (isLittleEndian : Bool) : (t : IntegerType) → BitVec t.bits → List Byte
  | byte, v => [v]
  | int16, v => ordered isLittleEndian (bytesOf 2 (v.signExtend 32))
  | int32, v => ordered isLittleEndian (bytesOf 4 v)
  | int64, v => ordered isLittleEndian (bytesOf 8 v)

def decode (isLittleEndian : Bool) : (t : IntegerType) → List Byte → BitVec t.bits
  | byte, bs => bs.headD 0
  | int16, bs => (assemble 32 (ordered isLittleEndian bs)).setWidth 16
  | int32, bs => assemble 32 (ordered isLittleEndian bs)
  | int64, bs => assemble 64 (ordered isLittleEndian bs)

/-- A place that the check of an absolute access computes without a wrap-around; the check of a
byte adds nothing. -/
def Reaches (t : IntegerType) (index : Int64) : Prop := t ≠ byte → Fits t.width index

end IntegerType

@[simp] theorem length_encode (isLittleEndian : Bool) (t : IntegerType) (v : BitVec t.bits) :
    (t.encode isLittleEndian v).length = t.width := by
  cases t with
  | byte => rfl
  | int16 | int32 | int64 => simp [IntegerType.encode, IntegerType.width]

theorem decode_encode (isLittleEndian : Bool) (t : IntegerType) (v : BitVec t.bits) :
    t.decode isLittleEndian (t.encode isLittleEndian v) = v := by
  cases t with
  | byte => rfl
  | int16 =>
    simp only [IntegerType.encode, IntegerType.decode, ordered_ordered]
    exact WordBytes.assemble_bytesOf_signExtend v rfl (by decide)
  | int32 =>
    simp only [IntegerType.encode, IntegerType.decode, ordered_ordered]
    exact WordBytes.assemble_bytesOf v rfl
  | int64 =>
    simp only [IntegerType.encode, IntegerType.decode, ordered_ordered]
    exact WordBytes.assemble_bytesOf v rfl

theorem bytes_one {b : Byte} (hb : s.block[s.buffer.handle.place index]? = some b) :
    s.bytes index 1 = [b] := by
  obtain ⟨hlt, rfl⟩ := List.getElem?_eq_some_iff.mp hb
  rw [This.bytes, List.drop_eq_getElem_cons hlt, List.take_succ_cons, List.take_zero]

theorem readByte_bytes (h : Within s index 1) (isLittleEndian : Bool) : readByte index s =
    .ok (IntegerType.byte.decode isLittleEndian (s.bytes index 1)) s := by
  obtain ⟨b, hb, hread⟩ := readByte_eq h
  rw [hread, bytes_one hb]
  rfl

theorem getAt_eq (hs : Bounded s.buffer s.memory) (t : IntegerType) (h : t.Reaches index) :
    Checked (t.getAt index) s index t.width
      (.ok (t.decode s.buffer.isLittleEndian (s.bytes index t.width)) s) := by
  cases t with
  | byte =>
    have hread (hpasses : ¬(index < 0 ∨ index ≥ s.buffer.limit)) :=
      readByte_bytes ((not_refused_iff_one.mp hpasses).within hs) s.buffer.isLittleEndian
    rcases check_bind (fun b => index < 0 ∨ index ≥ b.limit) "Index out of bounds" hread with
      ⟨hrefused, hthrew⟩ | ⟨hpasses, hresult⟩
    · exact .inl ⟨fun h => not_refused_iff_one.mpr h hrefused, _, hthrew⟩
    · exact .inr ⟨not_refused_iff_one.mp hpasses, hresult⟩
  | int16 =>
    rcases getWordAt_eq (w := 32) hs (h (by decide)) "Buffer overflow reading int16" with
      ⟨hnot, message, hthrew⟩ | ⟨hpasses, hresult⟩
    · exact .inl ⟨hnot, message, Raising.bind_eq_error.mpr (.inl hthrew)⟩
    · exact .inr ⟨hpasses, Raising.bind_of_ok hresult⟩
  | int32 => exact getWordAt_eq hs (h (by decide)) _
  | int64 => exact getWordAt_eq hs (h (by decide)) _

theorem putAt_eq (hs : Bounded s.buffer s.memory) (t : IntegerType) (h : t.Reaches index)
    (v : BitVec t.bits) : Checked (t.putAt index v) s index t.width
      (.ok () (s.write index (t.encode s.buffer.isLittleEndian v))) := by
  cases t with
  | byte =>
    have hwrite (hpasses : ¬(index < 0 ∨ index ≥ s.buffer.limit)) :=
      writeByte_eq ((not_refused_iff_one.mp hpasses).within hs) v
    rcases check_bind (fun b => index < 0 ∨ index ≥ b.limit) "Index out of bounds" hwrite with
      ⟨hrefused, hthrew⟩ | ⟨hpasses, hresult⟩
    · exact .inl ⟨fun h => not_refused_iff_one.mpr h hrefused, _, hthrew⟩
    · exact .inr ⟨not_refused_iff_one.mp hpasses, hresult⟩
  | int16 => exact putWordAt_eq hs (h (by decide)) _ _
  | int32 => exact putWordAt_eq hs (h (by decide)) _ _
  | int64 => exact putWordAt_eq hs (h (by decide)) _ _

/-- What was put is what is got. -/
theorem getAt_of_putAt (hs : Bounded s.buffer s.memory) (t : IntegerType) (h : t.Reaches index)
    {v : BitVec t.bits} {u : This} (hput : t.putAt index v s = .ok () u) :
    t.getAt index u = .ok v u := by
  rcases putAt_eq hs t h v with ⟨-, message, hthrew⟩ | ⟨hpasses, hok⟩
  · rw [hput] at hthrew
    cases hthrew
  rw [hput] at hok
  obtain rfl := (EStateM.Result.ok.inj hok).2
  have hu : Bounded (s.write index (t.encode s.buffer.isLittleEndian v)).buffer
      (s.write index (t.encode s.buffer.isLittleEndian v)).memory :=
    ⟨hs.limit_nonneg, hs.limit_le, hs.capacity_eq, hs.inside.of_write _ (writeFrom · _ _) fun _ =>
      WordBytes.length_writeFrom _ _ _⟩
  have hbytes := @bytes_write s index (t.encode s.buffer.isLittleEndian v)
    (by rw [length_encode]; exact hpasses.within hs)
  rw [length_encode] at hbytes
  have hget := (getAt_eq hu t h).eq hpasses
  rwa [hbytes, show (s.write index _).buffer = s.buffer from rfl, decode_encode] at hget

/-! ## The position -/

def This.moved (s : This) (n : ℕ) : This :=
  { s with buffer := { s.buffer with position := s.buffer.position + .ofNat n } }

/-- A relative call throws and leaves all as it was, or, if its place is below the limit, is the
absolute one at the position, which moves by the width. -/
def Follows {α : Type} (relative : Method α) (absolute : Int64 → Method α) (n : ℕ) (s : This) :
    Prop :=
  (¬Passes s.buffer s.buffer.position n ∧ ∃ message, relative s = .error (.threw message) s) ∨
    Passes s.buffer s.buffer.position n ∧ ∃ a t, absolute s.buffer.position s = .ok a t ∧
      t.buffer = s.buffer ∧ relative s = .ok a (t.moved n)

theorem relative_follows {α : Type} (access : Int64 → Method α) {a : α} (t : This)
    (h : Checked (access s.buffer.position) s s.buffer.position n (.ok a t))
    (ht : t.buffer = s.buffer) : Follows (relative (.ofNat n) access) access n s := by
  rcases h with ⟨hnot, message, hthrew⟩ | ⟨hpasses, hok⟩
  · exact .inl ⟨hnot, message, Raising.bind_eq_error.mpr (.inr ⟨s, s, rfl,
      Raising.bind_eq_error.mpr (.inl hthrew)⟩)⟩
  · refine .inr ⟨hpasses, a, t, hok, ht, ?_⟩
    exact Raising.bind_eq_ok.mpr ⟨s, s, rfl, Raising.bind_eq_ok.mpr ⟨a, t, hok, rfl⟩⟩

theorem not_at_limit_iff {b : ByteBuffer} (hb : Cursors b) :
    ¬(b.position ≥ b.limit) ↔ Passes b b.position 1 := by
  have hcursors := (cursors_iff _).mp hb
  rw [ge_iff_le, Int64.le_iff_toInt_le]
  constructor
  · exact fun h => ⟨hcursors.1, by omega⟩
  · rintro ⟨-, hle⟩
    omega

theorem IntegerType.get_follows (hs : Sound s.buffer s.memory) (t : IntegerType)
    (h : t.Reaches s.buffer.position) : Follows t.get t.getAt t.width s := by
  cases t with
  | byte =>
    have hread (hlt : ¬(s.buffer.position ≥ s.buffer.limit)) :
        (MonadState.get >>= fun s : This => readByte s.buffer.position >>= fun val =>
          advance 1 >>= fun _ => pure val) s = .ok _ (s.moved 1) :=
      Raising.bind_eq_ok.mpr ⟨s, s, rfl, Raising.bind_eq_ok.mpr ⟨_, s, readByte_bytes
        (((not_at_limit_iff hs.cursors).mp hlt).within hs.bounded) s.buffer.isLittleEndian, rfl⟩⟩
    rcases check_bind (fun b => b.position ≥ b.limit) "Buffer overflow reading byte" hread with
      ⟨hrefused, hthrew⟩ | ⟨hlt, hresult⟩
    · exact .inl ⟨fun h => (not_at_limit_iff hs.cursors).mpr h hrefused, _, hthrew⟩
    · have hpasses := (not_at_limit_iff hs.cursors).mp hlt
      exact .inr ⟨hpasses, _, s, (getAt_eq hs.bounded .byte h).eq hpasses, rfl, hresult⟩
  | int16 => exact relative_follows getInt16At s (getAt_eq hs.bounded _ h) rfl
  | int32 => exact relative_follows getInt32At s (getAt_eq hs.bounded _ h) rfl
  | int64 => exact relative_follows getInt64At s (getAt_eq hs.bounded _ h) rfl

theorem IntegerType.put_follows (hs : Sound s.buffer s.memory) (t : IntegerType)
    (h : t.Reaches s.buffer.position) (v : BitVec t.bits) :
    Follows (t.put v) (t.putAt · v) t.width s := by
  cases t with
  | byte =>
    have hwrite (hlt : ¬(s.buffer.position ≥ s.buffer.limit)) :
        (MonadState.get >>= fun s : This => writeByte s.buffer.position v >>= fun _ =>
          advance 1) s = .ok () ((s.write s.buffer.position [v]).moved 1) :=
      Raising.bind_eq_ok.mpr ⟨s, s, rfl, Raising.bind_eq_ok.mpr ⟨(), _, writeByte_eq
        (((not_at_limit_iff hs.cursors).mp hlt).within hs.bounded) v, rfl⟩⟩
    rcases check_bind (fun b => b.position ≥ b.limit) "Buffer overflow writing byte" hwrite with
      ⟨hrefused, hthrew⟩ | ⟨hlt, hresult⟩
    · exact .inl ⟨fun h => (not_at_limit_iff hs.cursors).mpr h hrefused, _, hthrew⟩
    · have hpasses := (not_at_limit_iff hs.cursors).mp hlt
      exact .inr ⟨hpasses, (), _, (putAt_eq hs.bounded .byte h v).eq hpasses, rfl, hresult⟩
  | int16 => exact relative_follows (putInt16At · v) (s.write _ _) (putAt_eq hs.bounded _ h v) rfl
  | int32 => exact relative_follows (putInt32At · v) (s.write _ _) (putAt_eq hs.bounded _ h v) rfl
  | int64 => exact relative_follows (putInt64At · v) (s.write _ _) (putAt_eq hs.bounded _ h v) rfl

end StdBytes

end Absolute
