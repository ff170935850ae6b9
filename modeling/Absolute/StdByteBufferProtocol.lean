import Absolute.StdByteBufferAccess

/-!
# The cursor protocol

Buffers and slices of them share storage; a run allocates buffers and calls them one after the
other. While no place that an access computes and no end of a slice leaves `int64`, the cursors
of all buffers stay in order, and a relative access throws with nothing changed or is the absolute
one at the position. What is put is got again exactly if it is `Storable`: of `float` and `double`
the integer part is stored, and not the number.
-/

namespace Absolute

namespace StdBytes

open BinaryFormat (Number Whole single double ofInt toInt)
open Raising (Results)
open WordBytes (Byte)

/-! ## Types -/

/-- The types of the accesses. -/
inductive Kind where
  | integer (t : IntegerType)
  | float
  | double
deriving DecidableEq, Repr

namespace Kind

/-- The integer that is stored. -/
def stored : Kind → IntegerType
  | integer t => t
  | float => .int32
  | double => .int64

def Value : Kind → Type
  | integer t => BitVec t.bits
  | float => Number single
  | double => Number BinaryFormat.double

def get : (k : Kind) → Method k.Value
  | integer t => t.get
  | float => getFloat
  | double => getDouble

def put : (k : Kind) → k.Value → Method Unit
  | integer t => t.put
  | float => putFloat
  | double => putDouble

/-- The absolute access; of `float` and `double`, which have none of their own, that of the stored
integer. -/
def getAt : (k : Kind) → Int64 → Method k.Value
  | integer t, index => t.getAt index
  | float, index => do return ofInt single (← getInt32At index).toInt
  | double, index => do return ofInt BinaryFormat.double (← getInt64At index).toInt

def putAt : (k : Kind) → k.Value → Int64 → Method Unit
  | integer t, v, index => t.putAt index v
  | float, v, index => putInt32At index (.ofInt 32 (toInt 32 v))
  | double, v, index => putInt64At index (.ofInt 64 (toInt 64 v))

/-- The values that storage keeps. -/
def Storable : (k : Kind) → k.Value → Prop
  | integer _, _ => True
  | float, v => Whole 32 v
  | double, v => Whole 64 v

end Kind

variable {s : This}

theorem Follows.map {α β : Type} {rel : Method α} {abs : Int64 → Method α} {n : ℕ}
    (h : Follows rel abs n s) (f : α → β) :
    Follows (rel >>= fun a => pure (f a)) (fun index => abs index >>= fun a => pure (f a)) n s := by
  rcases h with ⟨hnot, message, hthrew⟩ | ⟨hpasses, a, t, habs, ht, hrel⟩
  · exact .inl ⟨hnot, message, Raising.bind_eq_error.mpr (.inl hthrew)⟩
  · exact .inr ⟨hpasses, f a, t, Raising.bind_of_ok habs, ht, Raising.bind_of_ok hrel⟩

theorem Kind.get_follows (hs : Sound s.buffer s.memory) (k : Kind)
    (h : k.stored.Reaches s.buffer.position) : Follows k.get k.getAt k.stored.width s := by
  cases k with
  | integer t => exact t.get_follows hs h
  | float => exact (IntegerType.int32.get_follows hs h).map fun bits => ofInt single bits.toInt
  | double =>
    exact (IntegerType.int64.get_follows hs h).map fun bits => ofInt BinaryFormat.double bits.toInt

theorem Kind.put_follows (hs : Sound s.buffer s.memory) (k : Kind)
    (h : k.stored.Reaches s.buffer.position) (v : k.Value) :
    Follows (k.put v) (k.putAt v) k.stored.width s := by
  cases k with
  | integer t => exact t.put_follows hs h v
  | float => exact IntegerType.int32.put_follows hs h _
  | double => exact IntegerType.int64.put_follows hs h _

/-- What is got after a put at the same place. -/
theorem Kind.getAt_of_putAt (hs : Sound s.buffer s.memory) (k : Kind) {index : Int64}
    (h : k.stored.Reaches index) {v : k.Value} {t : This} (hput : k.putAt v index s = .ok () t) :
    ∃ a, k.getAt index t = .ok a t ∧ (a = v ↔ k.Storable v) := by
  cases k with
  | integer t => exact ⟨v, StdBytes.getAt_of_putAt hs.bounded t h hput, iff_of_true rfl trivial⟩
  | float =>
    obtain ⟨hlow, hhigh⟩ := BinaryFormat.toInt_bounds 32 (v : Number single)
    have hget := StdBytes.getAt_of_putAt hs.bounded .int32 h hput
    refine ⟨ofInt single (toInt 32 v), ?_, ?_⟩
    · refine (Raising.bind_of_ok hget).trans ?_
      rw [BitVec.toInt_ofInt_eq_self (by decide) hlow (by omega)]
      rfl
    · exact BinaryFormat.ofInt_toInt_iff (by decide) (by decide) (by decide) v
  | double =>
    obtain ⟨hlow, hhigh⟩ := BinaryFormat.toInt_bounds 64 (v : Number BinaryFormat.double)
    have hget := StdBytes.getAt_of_putAt hs.bounded .int64 h hput
    refine ⟨ofInt BinaryFormat.double (toInt 64 v), ?_, ?_⟩
    · refine (Raising.bind_of_ok hget).trans ?_
      rw [BitVec.toInt_ofInt_eq_self (by decide) hlow (by omega)]
      rfl
    · exact BinaryFormat.ofInt_toInt_iff (by decide) (by decide) (by decide) v

/-! ## Calls -/

inductive Call where
  | setPosition (newPos : Int64)
  | setLimit (newLimit : Int64)
  | mark
  | reset
  | clear
  | flip
  | rewind
  | compact
  | order (isLittle : Bool)
  | slice
  | sliceAt (offset length : Int64)
  | get (k : Kind)
  | put (k : Kind) (v : k.Value)
  | getAt (t : IntegerType) (index : Int64)
  | putAt (t : IntegerType) (index : Int64) (v : BitVec t.bits)

namespace Call

/-- A call that makes no buffer. -/
def only {α : Type} (method : Method α) : Method (Option ByteBuffer) := do
  let _ ← method
  return none

/-- The buffer that a call makes. -/
def perform : Call → Method (Option ByteBuffer)
  | setPosition newPos => only (StdBytes.setPosition newPos)
  | setLimit newLimit => only (StdBytes.setLimit newLimit)
  | mark => only StdBytes.mark
  | reset => only StdBytes.reset
  | clear => only StdBytes.clear
  | flip => only StdBytes.flip
  | rewind => only StdBytes.rewind
  | compact => only StdBytes.compact
  | order isLittle => only (StdBytes.order isLittle)
  | slice => do return some (← StdBytes.slice)
  | sliceAt offset length => do return some (← StdBytes.sliceAt offset length)
  | get k => only k.get
  | put k v => only (k.put v)
  | getAt t index => only (t.getAt index)
  | putAt t index v => only (t.putAt index v)

/-- No sum that the call computes leaves `int64`. -/
def Meets (b : ByteBuffer) : Call → Prop
  | sliceAt offset length =>
      min (max offset.toInt 0) b.capacity.toInt + max length.toInt 0 < 2 ^ 63
  | get k | put k _ => k.stored.Reaches b.position
  | getAt t index | putAt t index _ => t.Reaches index
  | _ => True

end Call

/-! ## What a call keeps -/

/-- Handles keep their data. -/
def Keeps (memory memory' : Memory) : Prop := ∀ h : Handle, h.Inside memory → h.Inside memory'

/-- A call ends with its buffer in order, as the ones it makes and all others are. -/
def Ends (s : This) (made : Option ByteBuffer) (t : This) : Prop :=
  Sound t.buffer t.memory ∧ Keeps s.memory t.memory ∧ ∀ b ∈ made, Sound b t.memory

/-- A call throws and leaves all as it was. -/
def Throws (s : This) (e : Fault) (t : This) : Prop := t = s ∧ ∃ message, e = .threw message

theorem keeps_write (index : Int64) (bs : List Byte) :
    Keeps s.memory (s.write index bs).memory := fun _ hinside =>
  hinside.of_write _ (WordBytes.writeFrom · _ _) fun _ => WordBytes.length_writeFrom _ _ _

theorem Checked.state {α : Type} {call : Method α} {index : Int64} {n : ℕ} {a b : α} {t u : This}
    (h : Checked call s index n (.ok a t)) (hok : call s = .ok b u) : u = t := by
  rcases h with ⟨-, message, hthrew⟩ | ⟨-, hresult⟩
  · rw [hok] at hthrew
    cases hthrew
  · rw [hok] at hresult
    exact (EStateM.Result.ok.inj hresult).2

theorem Kind.getAt_state (hs : Sound s.buffer s.memory) (k : Kind) {index : Int64}
    (h : k.stored.Reaches index) {a : k.Value} {t : This} (hok : k.getAt index s = .ok a t) :
    t = s := by
  cases k with
  | integer t => exact (getAt_eq hs.bounded t h).state hok
  | float =>
    obtain ⟨bits, u, hu, hpure⟩ := Raising.bind_eq_ok.mp hok
    cases hpure
    exact (getAt_eq hs.bounded .int32 h).state hu
  | double =>
    obtain ⟨bits, u, hu, hpure⟩ := Raising.bind_eq_ok.mp hok
    cases hpure
    exact (getAt_eq hs.bounded .int64 h).state hu

theorem Kind.putAt_keeps (hs : Sound s.buffer s.memory) (k : Kind) {index : Int64}
    (h : k.stored.Reaches index) {v : k.Value} {t : This} (hok : k.putAt v index s = .ok () t) :
    Keeps s.memory t.memory := by
  cases k with
  | integer t =>
    rw [(putAt_eq hs.bounded t h v).state hok]
    exact keeps_write _ _
  | float =>
    rw [(putAt_eq hs.bounded .int32 h _).state hok]
    exact keeps_write _ _
  | double =>
    rw [(putAt_eq hs.bounded .int64 h _).state hok]
    exact keeps_write _ _

theorem only_results {α : Type} {method : Method α}
    (h : Results method s (fun _ t => Sound t.buffer t.memory ∧ Keeps s.memory t.memory)
      (Throws s)) : Results (Call.only method) s (Ends s) (Throws s) := by
  refine h.bind fun a t ht => ?_
  exact ⟨ht.1, ht.2, fun b hb => by cases hb⟩

theorem adjust_results {fault : ByteBuffer → Option String} {write : ByteBuffer → ByteBuffer}
    (hs : Sound s.buffer s.memory) (hhandle : (write s.buffer).handle = s.buffer.handle)
    (hcapacity : (write s.buffer).capacity = s.buffer.capacity)
    (hwrite : fault s.buffer = none → Cursors (write s.buffer)) :
    Results (adjust fault write) s (fun _ t => Sound t.buffer t.memory ∧ Keeps s.memory t.memory)
      (Throws s) := by
  cases hfault : fault s.buffer with
  | none =>
    refine Results.ok (a := ()) (t := ⟨write s.buffer, s.memory⟩) ?_
      ⟨⟨hwrite hfault, ?_, ?_⟩, fun h hinside => hinside⟩
    · simp [adjust, Raising.guarded, hfault]
    · rw [hcapacity, hs.capacity_eq, hhandle]
    · rw [hhandle]
      exact hs.inside
  | some message =>
    refine Results.error (e := .threw message) (t := s) ?_ ⟨rfl, message, rfl⟩
    simp [adjust, Raising.guarded, hfault]

theorem toInt_neg_one : (-1 : Int64).toInt = -1 := rfl

theorem toInt_sub_of_le {a b : Int64} (h0 : 0 ≤ b.toInt) (h : b.toInt ≤ a.toInt) :
    (a - b).toInt = a.toInt - b.toInt := by
  have := a.toInt_lt
  rw [Int64.toInt_sub]
  exact Int.bmod_eq_of_le (by omega) (by omega)

/-- What remains, of cursors in order. -/
theorem toInt_remaining {b : ByteBuffer} (hb : Cursors b) :
    b.remaining.toInt = b.limit.toInt - b.position.toInt := by
  have hcursors := (cursors_iff _).mp hb
  have hsub := toInt_sub_of_le hcursors.1 hcursors.2.1
  simp only [ByteBuffer.remaining, gt_iff_lt, Int64.lt_iff_toInt_lt, apply_ite Int64.toInt, hsub,
    Int64.toInt_zero]
  split_ifs <;> omega

theorem sum_eq (offset length : Int64) (h0 : 0 ≤ offset.toInt) (h1 : 0 ≤ length.toInt)
    (h : offset.toInt + length.toInt < 2 ^ 63) :
    sum offset length = some (offset + length) ∧
      (offset + length).toInt = offset.toInt + length.toInt := by
  refine ⟨if_pos h, ?_⟩
  rw [Int64.toInt_add]
  exact Int.bmod_eq_of_le (by omega) (by omega)

/-- The bounds of a slice after they are clamped, and the sum of them that is compared. -/
theorem Handle.slice_eq {h : Handle} (hcapacity : 0 ≤ h.capacity.toInt) (offset length : Int64) :
    ∃ start size : Int64, start.toInt = min (max offset.toInt 0) h.capacity.toInt ∧
      size.toInt = max length.toInt 0 ∧
      h.slice offset length = (sum start size).bind fun last =>
        some ⟨h.block, h.data + start.toInt.toNat,
          if last > h.capacity then h.capacity - start else size⟩ := by
  obtain ⟨low, hlow⟩ : ∃ low, low = if offset < 0 then 0 else offset := ⟨_, rfl⟩
  obtain ⟨start, hstart⟩ : ∃ start, start = if low > h.capacity then h.capacity else low := ⟨_, rfl⟩
  obtain ⟨size, hsize⟩ : ∃ size, size = if length < 0 then 0 else length := ⟨_, rfl⟩
  refine ⟨start, size, ?_, ?_, ?_⟩
  · simp only [hstart, hlow, gt_iff_lt, Int64.lt_iff_toInt_lt, apply_ite Int64.toInt,
      Int64.toInt_zero]
    split_ifs <;> omega
  · simp only [hsize, Int64.lt_iff_toInt_lt, apply_ite Int64.toInt, Int64.toInt_zero]
    split_ifs <;> omega
  · rw [hstart, hlow, hsize]
    rfl

theorem Handle.slice_of_sum {h : Handle} {offset length : Int64} (hcapacity : 0 ≤ h.capacity.toInt)
    (hsum : min (max offset.toInt 0) h.capacity.toInt + max length.toInt 0 < 2 ^ 63) :
    ∃ made, h.slice offset length = some made ∧ made.block = h.block ∧ 0 ≤ made.capacity.toInt ∧
      h.data ≤ made.data ∧
      made.data + made.capacity.toInt.toNat ≤ h.data + h.capacity.toInt.toNat := by
  obtain ⟨start, size, hstart, hsize, hslice⟩ := Handle.slice_eq hcapacity offset length
  obtain ⟨hlast, hlast'⟩ := sum_eq start size (by omega) (by omega) (by omega)
  have hsub := toInt_sub_of_le (a := h.capacity) (b := start) (by omega) (by omega)
  rw [hlast, Option.bind_some] at hslice
  refine ⟨_, hslice, rfl, ?_⟩
  simp only [gt_iff_lt, Int64.lt_iff_toInt_lt, apply_ite Int64.toInt, hlast', hsub]
  split_ifs <;> omega

/-- The sum that bounds a slice overflows. -/
theorem Handle.slice_eq_none {h : Handle} {offset length : Int64}
    (hcapacity : 0 ≤ h.capacity.toInt)
    (hsum : ¬min (max offset.toInt 0) h.capacity.toInt + max length.toInt 0 < 2 ^ 63) :
    h.slice offset length = none := by
  obtain ⟨start, size, hstart, hsize, hslice⟩ := Handle.slice_eq hcapacity offset length
  rw [hslice, sum, if_neg (by omega)]
  rfl

/-- The storage after a compaction. -/
def Handle.compacted (h : Handle) (position remaining : Int64) (memory : Memory) : Memory :=
  if position ≤ 0 ∨ remaining ≤ 0 then memory
  else memory.modify h.block (move · h.data (h.place position) remaining.toInt.toNat)

theorem Handle.compact_eq {h : Handle} {memory : Memory} (position remaining : Int64)
    (hinside : h.Inside memory) (hle : position.toInt + remaining.toInt ≤ h.capacity.toInt) :
    h.compact position remaining memory = some (h.compacted position remaining memory) := by
  have hcapacity := h.capacity.toInt_lt
  by_cases hnone : position ≤ 0 ∨ remaining ≤ 0
  · rw [Handle.compact, Handle.compacted, if_pos hnone, if_pos hnone]
  · have hsome : 0 < position.toInt ∧ 0 < remaining.toInt := by
      simpa only [not_or, Int64.le_iff_toInt_le, Int64.toInt_zero, not_le] using hnone
    obtain ⟨hlast, hlast'⟩ := sum_eq position remaining (by omega) (by omega) (by omega)
    have hclamp : ¬position + remaining > h.capacity := by
      rw [gt_iff_lt, Int64.lt_iff_toInt_lt, hlast']
      omega
    obtain ⟨block, hblock, hsize⟩ := id hinside
    have hplace : h.place position + remaining.toInt.toNat ≤ block.length := by
      rw [Handle.place]
      omega
    simp only [Handle.compact, Handle.compacted, if_neg hnone, hlast, Option.bind_eq_bind,
      Option.bind_some, if_neg hclamp, hblock, if_pos hplace]

theorem Handle.keeps_compacted (h : Handle) (position remaining : Int64) (memory : Memory) :
    Keeps memory (h.compacted position remaining memory) := by
  unfold Handle.compacted
  split
  · exact fun _ hinside => hinside
  · exact fun h' hinside' => hinside'.of_write h.block
      (move · h.data (h.place position) remaining.toInt.toNat)
      fun _ => WordBytes.length_writeFrom _ _ _

/-- Compaction of a buffer in order. -/
theorem compact_eq (hs : Sound s.buffer s.memory) :
    compact s = .ok () ⟨{ s.buffer with
      position := s.buffer.remaining, limit := s.buffer.capacity, mark := -1 },
      s.buffer.handle.compacted s.buffer.position s.buffer.remaining s.memory⟩ := by
  have hcursors := (cursors_iff _).mp hs.cursors
  have hremaining := toInt_remaining hs.cursors
  have hmemory := Handle.compact_eq s.buffer.position s.buffer.remaining hs.inside
    (by rw [← hs.capacity_eq]; omega)
  exact Raising.bind_eq_ok.mpr ⟨s, s, rfl, Raising.bind_eq_ok.mpr ⟨_, s, runtime_of_some hmemory, rfl⟩⟩

theorem compact_results (hs : Sound s.buffer s.memory) :
    Results compact s (fun _ t => Sound t.buffer t.memory ∧ Keeps s.memory t.memory)
      (Throws s) := by
  have hcursors := (cursors_iff _).mp hs.cursors
  have hremaining := toInt_remaining hs.cursors
  have hkeeps := s.buffer.handle.keeps_compacted s.buffer.position s.buffer.remaining s.memory
  refine Results.ok (compact_eq hs) ⟨⟨?_, hs.capacity_eq, hkeeps _ hs.inside⟩, hkeeps⟩
  simp only [cursors_iff, hremaining, toInt_neg_one]
  omega

/-- A buffer over a handle in its block. -/
theorem sound_over {h : Handle} {memory : Memory} (hcapacity : 0 ≤ h.capacity.toInt)
    (hinside : h.Inside memory) (isLittleEndian : Bool) :
    Sound (.over h isLittleEndian) memory := by
  refine ⟨?_, rfl, hinside⟩
  simp only [cursors_iff, ByteBuffer.over, Int64.toInt_zero, toInt_neg_one]
  omega

theorem sliceAt_results (hs : Sound s.buffer s.memory) {offset length : Int64}
    (h : (Call.sliceAt offset length).Meets s.buffer) :
    Results (sliceAt offset length) s (fun b t => t = s ∧ Sound b s.memory) (Throws s) := by
  have hcursors := (cursors_iff _).mp hs.cursors
  have hcapacity : 0 ≤ s.buffer.handle.capacity.toInt := by
    rw [← hs.capacity_eq]
    omega
  rw [Call.Meets, hs.capacity_eq] at h
  obtain ⟨made, hmade, hblock, hsize, -, hle⟩ := Handle.slice_of_sum hcapacity h
  have hinside : made.Inside s.memory := by
    obtain ⟨block, hmem, hlength⟩ := hs.inside
    exact ⟨block, hblock ▸ hmem, hle.trans hlength⟩
  refine Results.ok (a := .over made s.buffer.isLittleEndian) (t := s) ?_
    ⟨rfl, sound_over hsize hinside _⟩
  refine Raising.bind_eq_ok.mpr ⟨s, s, rfl, ?_⟩
  exact Raising.bind_eq_ok.mpr ⟨made, s, runtime_of_some hmade, rfl⟩

theorem slice_results (hs : Sound s.buffer s.memory) :
    Results slice s (fun b t => t = s ∧ Sound b s.memory) (Throws s) := by
  have hcursors := (cursors_iff _).mp hs.cursors
  have hmeets : (Call.sliceAt s.buffer.position s.buffer.remaining).Meets s.buffer := by
    have := s.buffer.limit.toInt_lt
    simp only [Call.Meets, toInt_remaining hs.cursors]
    omega
  exact Results.after (x := MonadState.get) (a := s) rfl (sliceAt_results hs hmeets)

theorem made_results (hs : Sound s.buffer s.memory) {method : Method ByteBuffer}
    (h : Results method s (fun b t => t = s ∧ Sound b s.memory) (Throws s)) :
    Results (method >>= fun b => pure (some b)) s (Ends s) (Throws s) := by
  refine h.bind ?_
  rintro b t ⟨rfl, hb⟩
  refine ⟨hs, fun _ hinside => hinside, fun b' hb' => ?_⟩
  cases hb'
  exact hb

theorem follows_results {α : Type} {rel : Method α} {abs : Int64 → Method α} {n : ℕ}
    (hs : Sound s.buffer s.memory) (h : Follows rel abs n s)
    (hkeeps : ∀ a t, abs s.buffer.position s = .ok a t → Keeps s.memory t.memory) :
    Results rel s (fun _ t => Sound t.buffer t.memory ∧ Keeps s.memory t.memory) (Throws s) := by
  rcases h with ⟨-, message, hthrew⟩ | ⟨hpasses, a, t, habs, ht, hrel⟩
  · exact .error hthrew ⟨rfl, message, rfl⟩
  · have hcursors := (cursors_iff _).mp hs.cursors
    have hlimit := s.buffer.limit.toInt_lt
    have hle := hpasses.le
    have hfits : Fits n s.buffer.position := by
      unfold Fits
      omega
    have hposition := toInt_add_ofNat hcursors.1 hfits
    refine .ok hrel ⟨⟨?_, ?_, ?_⟩, hkeeps a t habs⟩
    · simp only [cursors_iff, This.moved, ht, hposition]
      omega
    · simpa only [This.moved, ht] using hs.capacity_eq
    · simpa only [This.moved, ht] using hkeeps a t habs _ hs.inside

theorem checked_results {α : Type} {call : Method α} {index : Int64} {n : ℕ} {a : α} {t : This}
    (hs : Sound s.buffer s.memory) (h : Checked call s index n (.ok a t)) (ht : t.buffer = s.buffer)
    (hkeeps : Keeps s.memory t.memory) :
    Results call s (fun _ t => Sound t.buffer t.memory ∧ Keeps s.memory t.memory) (Throws s) := by
  rcases h with ⟨-, message, hthrew⟩ | ⟨-, hok⟩
  · exact .error hthrew ⟨rfl, message, rfl⟩
  · exact .ok hok ⟨⟨ht ▸ hs.cursors, ht ▸ hs.capacity_eq, ht ▸ hkeeps _ hs.inside⟩, hkeeps⟩

theorem Call.results (hs : Sound s.buffer s.memory) (c : Call) (hc : c.Meets s.buffer) :
    Results c.perform s (Ends s) (Throws s) := by
  have hcursors := (cursors_iff _).mp hs.cursors
  cases c with
  | setPosition newPos =>
    refine only_results (adjust_results hs rfl rfl fun hfault => ?_)
    simp only [ite_eq_right_iff, reduceCtorEq, imp_false, not_or, gt_iff_lt,
      Int64.lt_iff_toInt_lt, Int64.toInt_zero, not_lt] at hfault
    simp only [cursors_iff, gt_iff_lt, Int64.lt_iff_toInt_lt, apply_ite Int64.toInt, toInt_neg_one]
    split_ifs <;> omega
  | setLimit newLimit =>
    refine only_results (adjust_results hs rfl rfl fun hfault => ?_)
    simp only [ite_eq_right_iff, reduceCtorEq, imp_false, not_or, gt_iff_lt,
      Int64.lt_iff_toInt_lt, Int64.toInt_zero, not_lt] at hfault
    simp only [cursors_iff, gt_iff_lt, Int64.lt_iff_toInt_lt, apply_ite Int64.toInt, toInt_neg_one]
    split_ifs <;> omega
  | mark =>
    refine only_results (adjust_results hs rfl rfl fun _ => ?_)
    simp only [cursors_iff]
    omega
  | reset =>
    refine only_results (adjust_results hs rfl rfl fun hfault => ?_)
    simp only [ite_eq_right_iff, reduceCtorEq, imp_false, Int64.lt_iff_toInt_lt, Int64.toInt_zero,
      not_lt] at hfault
    simp only [cursors_iff]
    omega
  | clear =>
    refine only_results (adjust_results hs rfl rfl fun _ => ?_)
    simp only [cursors_iff, Int64.toInt_zero, toInt_neg_one]
    omega
  | flip =>
    refine only_results (adjust_results hs rfl rfl fun _ => ?_)
    simp only [cursors_iff, Int64.toInt_zero, toInt_neg_one]
    omega
  | rewind =>
    refine only_results (adjust_results hs rfl rfl fun _ => ?_)
    simp only [cursors_iff, Int64.toInt_zero, toInt_neg_one]
    omega
  | compact => exact only_results (compact_results hs)
  | order isLittle =>
    refine only_results (adjust_results hs rfl rfl fun _ => ?_)
    rw [cursors_iff]
    exact hcursors
  | slice => exact made_results hs (slice_results hs)
  | sliceAt offset length => exact made_results hs (sliceAt_results hs hc)
  | get k =>
    refine only_results (follows_results hs (k.get_follows hs hc) fun a t h => ?_)
    rw [k.getAt_state hs hc h]
    exact fun _ hinside => hinside
  | put k v =>
    exact only_results (follows_results hs (k.put_follows hs hc v) fun a t => k.putAt_keeps hs hc)
  | getAt t index => exact only_results (checked_results hs (getAt_eq hs.bounded t hc) rfl fun _ h => h)
  | putAt t index v =>
    exact only_results (checked_results hs (putAt_eq hs.bounded t hc v) rfl (keeps_write _ _))

/-! ## Runs -/

structure World where
  buffers : List ByteBuffer
  memory : Memory

inductive Op where
  | allocate (capacity : Int64)
  | call (i : ℕ) (c : Call)

namespace World

def empty : World := ⟨[], []⟩

def step (w : World) : Op → EStateM.Result Fault World Unit
  | .allocate capacity =>
      let (handle, memory) := Handle.create capacity w.memory
      .ok () ⟨w.buffers ++ [.over handle true], memory⟩
  | .call i c =>
      match w.buffers[i]? with
      | none => .error .undefined w
      | some b =>
          match c.perform ⟨b, w.memory⟩ with
          | .ok made t => .ok () ⟨w.buffers.set i t.buffer ++ made.toList, t.memory⟩
          | .error e t => .error e ⟨w.buffers.set i t.buffer, t.memory⟩

def Meets (w : World) : Op → Prop
  | .allocate _ => True
  | .call i c => ∃ b, w.buffers[i]? = some b ∧ c.Meets b

/-- The worlds that runs reach in which every step meets its condition. -/
inductive Reached : World → Prop
  | empty : Reached empty
  | step {w : World} (op : Op) (h : Reached w) (hop : w.Meets op) :
      Reached (Raising.state (w.step op))

end World

namespace World

def Sound (w : World) : Prop := ∀ b ∈ w.buffers, StdBytes.Sound b w.memory

theorem Sound.create {w : World} (h : w.Sound) (capacity : Int64) :
    (Raising.state (w.step (.allocate capacity))).Sound := by
  obtain ⟨size, hsize⟩ : ∃ size, size = if capacity ≤ 0 then 1024 else capacity := ⟨_, rfl⟩
  have hpos : 0 ≤ size.toInt := by
    simp only [hsize, Int64.le_iff_toInt_le, apply_ite Int64.toInt, Int64.toInt_zero]
    split_ifs
    · decide
    · omega
  have hstate : Raising.state (w.step (.allocate capacity)) =
      ⟨w.buffers ++ [.over ⟨w.memory.length, 0, size⟩ true],
        w.memory ++ [List.replicate size.toInt.toNat 0]⟩ := by
    rw [hsize]
    rfl
  rw [hstate]
  intro b hb
  rcases List.mem_append.mp hb with hold | hnew
  · obtain ⟨hcursors, hcapacity, block, hblock, hle⟩ := h b hold
    refine ⟨hcursors, hcapacity, block, ?_, hle⟩
    rw [List.getElem?_append_left (List.getElem?_eq_some_iff.mp hblock).1, hblock]
  · rw [List.mem_singleton.mp hnew]
    refine sound_over hpos ⟨List.replicate size.toInt.toNat 0, ?_, ?_⟩ true
    · simp
    · simp

/-- A step that meets its condition keeps all buffers in order, and changes nothing where it
throws. -/
theorem Sound.step {w : World} (h : w.Sound) {op : Op} (hop : w.Meets op) :
    (Raising.state (w.step op)).Sound := by
  cases op with
  | allocate capacity => exact h.create capacity
  | call i c =>
    obtain ⟨b, hb, hc⟩ := hop
    have hs : StdBytes.Sound (This.mk b w.memory).buffer (This.mk b w.memory).memory :=
      h b (List.mem_of_getElem? hb)
    have hresults := c.results hs hc
    have hothers {memory : Memory} (hkeeps : Keeps w.memory memory) {b' : ByteBuffer}
        (hb' : b' ∈ w.buffers) : StdBytes.Sound b' memory :=
      ⟨(h b' hb').cursors, (h b' hb').capacity_eq, hkeeps _ (h b' hb').inside⟩
    cases hperform : c.perform ⟨b, w.memory⟩ with
    | ok made t =>
      obtain ⟨ht, hkeeps, hmade⟩ := hresults.of_ok hperform
      have hstate : w.step (.call i c) =
          .ok () ⟨w.buffers.set i t.buffer ++ made.toList, t.memory⟩ := by
        simp only [World.step, hb, hperform]
      rw [hstate]
      intro b' hb'
      rcases List.mem_append.mp hb' with hold | hnew
      · rcases List.mem_or_eq_of_mem_set hold with hold | rfl
        · exact hothers hkeeps hold
        · exact ht
      · exact hmade b' (Option.mem_toList.mp hnew)
    | error e t =>
      obtain ⟨rfl, -⟩ := hresults.of_error hperform
      have hstate : w.step (.call i c) = .error e ⟨w.buffers.set i b, w.memory⟩ := by
        simp only [World.step, hb, hperform]
      rw [hstate]
      intro b' hb'
      rcases List.mem_or_eq_of_mem_set hb' with hold | rfl
      · exact h b' hold
      · exact hs

theorem Reached.sound {w : World} (h : Reached w) : w.Sound := by
  induction h with
  | empty => exact fun b hb => by cases hb
  | step op h hop ih => exact ih.step hop

end World

/-! ## The protocol -/

/-- What is put is got again from the same position exactly if it is storable. -/
def ReadsBack (k : Kind) (s : This) : Prop := ∀ v t, k.put v s = .ok () t →
  ∃ a u, (setPosition s.buffer.position >>= fun _ => k.get) t = .ok a u ∧ (a = v ↔ k.Storable v)

/-- The position goes back to where it was before an access. -/
theorem setPosition_back {b : ByteBuffer} (hb : Cursors b) {t : This} (ht : t.buffer = b) (n : ℕ) :
    setPosition b.position (t.moved n) = .ok () t := by
  obtain ⟨buffer, memory⟩ := t
  obtain rfl : buffer = b := ht
  have hcursors := (cursors_iff _).mp hb
  have hfault : ¬(buffer.position < 0 ∨ buffer.limit < buffer.position) := by
    simp only [Int64.lt_iff_toInt_lt, Int64.toInt_zero]
    omega
  have hmark : ¬buffer.position < buffer.mark := by
    rw [Int64.lt_iff_toInt_lt]
    omega
  simp [setPosition, adjust, Raising.guarded, This.moved, hfault, hmark]

theorem Kind.readsBack (hs : Sound s.buffer s.memory) (k : Kind)
    (h : k.stored.Reaches s.buffer.position) : ReadsBack k s := by
  intro v t hput
  rcases k.put_follows hs h v with ⟨-, message, hthrew⟩ | ⟨hpasses, ⟨⟩, t', habs, ht', hrel⟩
  · rw [hput] at hthrew
    cases hthrew
  rw [hput] at hrel
  obtain rfl := (EStateM.Result.ok.inj hrel).2
  obtain ⟨a, hget, ha⟩ := k.getAt_of_putAt hs h habs
  have ht : Sound t'.buffer t'.memory :=
    ⟨ht' ▸ hs.cursors, ht' ▸ hs.capacity_eq, ht' ▸ k.putAt_keeps hs h habs _ hs.inside⟩
  rcases k.get_follows ht (ht' ▸ h) with ⟨hnot, -⟩ | ⟨-, a', u, habs', -, hrel'⟩
  · exact absurd (ht' ▸ hpasses) hnot
  · rw [ht', hget] at habs'
    obtain ⟨rfl, rfl⟩ := EStateM.Result.ok.inj habs'
    exact ⟨a, t'.moved k.stored.width,
      (Raising.bind_of_ok (setPosition_back hs.cursors ht' _)).trans hrel', ha⟩

/-- In every world of a run whose steps meet their conditions. -/
theorem cursor_protocol {w : World} (hw : w.Reached) {b : ByteBuffer} (hb : b ∈ w.buffers) :
    Cursors b ∧
    (∀ k : Kind, k.stored.Reaches b.position →
      Follows k.get k.getAt k.stored.width ⟨b, w.memory⟩ ∧
      (∀ v, Follows (k.put v) (k.putAt v) k.stored.width ⟨b, w.memory⟩) ∧
      ReadsBack k ⟨b, w.memory⟩) ∧
    ∀ (t : IntegerType) (index : Int64) (v : BitVec t.bits) (u : This), t.Reaches index →
      t.putAt index v ⟨b, w.memory⟩ = .ok () u → t.getAt index u = .ok v u := by
  have hs : Sound (This.mk b w.memory).buffer (This.mk b w.memory).memory := hw.sound b hb
  refine ⟨hs.cursors, fun k hk => ?_, fun t index v u hreaches hput => ?_⟩
  · exact ⟨k.get_follows hs hk, k.put_follows hs hk, k.readsBack hs hk⟩
  · exact getAt_of_putAt hs.bounded t hreaches hput

/-- A world with one buffer, of sixteen bytes. -/
def sixteen : World := ⟨[.over ⟨0, 0, 16⟩ true], [List.replicate 16 0]⟩

theorem reached_sixteen : sixteen.Reached :=
  .step (.allocate 16) .empty trivial

/-- The buffer of sixteen bytes as a call finds it. -/
def thisSixteen : This := ⟨.over ⟨0, 0, 16⟩ true, [List.replicate 16 0]⟩

theorem cursor_protocol_sixteen : ∃ t u, putInt32 (-2) thisSixteen = .ok () t ∧
    (setPosition 0 >>= fun _ => getInt32) t = .ok (-2) u := by
  obtain ⟨a, u, hget, ha⟩ := ((cursor_protocol reached_sixteen (b := .over ⟨0, 0, 16⟩ true)
    List.mem_cons_self).2.1 (.integer .int32) fun _ => by decide).2.2 (-2 : BitVec 32) _ rfl
  exact ⟨_, u, rfl, (ha.mpr trivial : a = (-2 : BitVec 32)) ▸ hget⟩

/-- `1.5` -/
def oneAndHalf : Number double :=
  .finite false ⟨3 * 2 ^ 51, -52, by decide, by decide, by decide, .inl (by decide)⟩

theorem not_whole_oneAndHalf : ¬Whole 64 oneAndHalf := by
  rintro ⟨negative, m, hm, n, hn, -⟩
  obtain ⟨rfl, rfl⟩ := BinaryFormat.Number.finite.inj hm
  have hvalue : (3 / 2 : ℚ) = n := by
    rw [← hn]
    norm_num [BinaryFormat.signed, BinaryFormat.Magnitude.value]
  have htwo : (3 : ℤ) = 2 * n := by
    have : (3 : ℚ) = 2 * n := by linarith
    exact_mod_cast this
  omega

theorem not_cursor_protocol :
    ¬∀ w : World, w.Reached → ∀ b ∈ w.buffers, ∀ v t a u, putDouble v ⟨b, w.memory⟩ = .ok () t →
      (setPosition b.position >>= fun _ => getDouble) t = .ok a u → a = v := by
  intro hall
  have hmem : ByteBuffer.over ⟨0, 0, 16⟩ true ∈ sixteen.buffers := List.mem_cons_self
  have hs : Sound thisSixteen.buffer thisSixteen.memory := reached_sixteen.sound _ hmem
  have hreaches : Kind.double.stored.Reaches thisSixteen.buffer.position := fun _ => by decide
  rcases Kind.double.put_follows hs hreaches oneAndHalf with ⟨hnot, -⟩ | ⟨-, ⟨⟩, t, -, -, hput⟩
  · exact hnot ⟨by decide, by decide⟩
  obtain ⟨a, u, hget, ha⟩ := Kind.double.readsBack hs hreaches oneAndHalf _ hput
  exact not_whole_oneAndHalf (ha.mp (hall _ reached_sixteen _ hmem _ _ _ _ hput hget))

end StdBytes

end Absolute
