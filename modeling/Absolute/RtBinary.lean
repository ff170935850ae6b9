import Absolute.StdByteBufferAccess
import Mathlib.Data.List.TakeWhile

/-!
# Binary writers and readers

`Absolute-Runtime/src/binary.cpp`. A value is copied to and from the bytes that it has in the
storage of the host, in whichever order that keeps them. What was written is read back by the same
calls; a read that the bytes at the position cannot satisfy leaves the position, except that a text
whose length is wrong has been read past its length.
-/

namespace Absolute

namespace Binary

open StdBytes (ordered ordered_ordered length_ordered)
open WordBytes (Byte assemble bytesOf)

/-! ## Writing -/

/-- `BinaryWriterImpl` -/
structure Writer where
  buffer : List Byte
deriving DecidableEq, Repr

/-- The bytes of a value, as `memcpy` finds them; `host` says whether the lowest comes first. -/
def valueBytes {w : ℕ} (host : Bool) (n : ℕ) (v : BitVec w) : List Byte := ordered host (bytesOf n v)

def Writer.append (writer : Writer) (bytes : List Byte) : Writer := ⟨writer.buffer ++ bytes⟩

def Writer.writeByte (writer : Writer) (val : Byte) : Writer := writer.append [val]

def Writer.writeI16 (host : Bool) (writer : Writer) (val : BitVec 16) : Writer :=
  writer.append (valueBytes host 2 val)

def Writer.writeI32 (host : Bool) (writer : Writer) (val : BitVec 32) : Writer :=
  writer.append (valueBytes host 4 val)

def Writer.writeI64 (host : Bool) (writer : Writer) (val : BitVec 64) : Writer :=
  writer.append (valueBytes host 8 val)

/-- `static_cast<int32_t>(s.size())`, then the characters. -/
def Writer.writeString (host : Bool) (writer : Writer) (text : List Byte) : Writer :=
  (writer.writeI32 host (.ofNat 32 text.length)).append text

def Writer.writeBytes (writer : Writer) (data : List Byte) : Writer := writer.append data

/-! ## Reading -/

/-- `BinaryReaderImpl`; `seek` and the reads keep the position in the buffer. -/
structure Reader where
  buffer : List Byte
  pos : ℕ
  pos_le : pos ≤ buffer.length
deriving DecidableEq, Repr

/-- `absolute_binary_reader_create` -/
def Reader.create (data : List Byte) : Reader := ⟨data, 0, Nat.zero_le _⟩

def Reader.remaining (reader : Reader) : ℕ := reader.buffer.length - reader.pos

def Reader.isEof (reader : Reader) : Bool := reader.pos ≥ reader.buffer.length

def Reader.rest (reader : Reader) : List Byte := reader.buffer.drop reader.pos

def Reader.advance (reader : Reader) (n : ℕ) (h : reader.pos + n ≤ reader.buffer.length) : Reader :=
  ⟨reader.buffer, reader.pos + n, h⟩

/-- A value of `n` bytes; zero where they are not there. -/
def Reader.readValue (host : Bool) (n w : ℕ) (reader : Reader) : BitVec w × Reader :=
  if h : reader.pos + n ≤ reader.buffer.length then
    (assemble w (ordered host (reader.rest.take n)), reader.advance n h)
  else (0, reader)

def Reader.readByte (reader : Reader) : Byte × Reader :=
  if h : reader.pos + 1 ≤ reader.buffer.length then (reader.rest.headD 0, reader.advance 1 h)
  else (0, reader)

def Reader.readI16 (host : Bool) (reader : Reader) : BitVec 16 × Reader :=
  reader.readValue host 2 16

def Reader.readI32 (host : Bool) (reader : Reader) : BitVec 32 × Reader :=
  reader.readValue host 4 32

def Reader.readI64 (host : Bool) (reader : Reader) : BitVec 64 × Reader :=
  reader.readValue host 8 64

/-- The text that is returned ends before its first NUL. -/
def Reader.readString (host : Bool) (reader : Reader) : List Byte × Reader :=
  let (len, reader) := reader.readI32 host
  if h : 0 < len.toInt ∧ reader.pos + len.toInt.toNat ≤ reader.buffer.length then
    ((reader.rest.take len.toInt.toNat).takeWhile (· ≠ 0), reader.advance len.toInt.toNat h.2)
  else ([], reader)

/-- The bytes that are copied, at most `size` of those that are left. -/
def Reader.readBytes (size : ℤ) (reader : Reader) : List Byte × Reader :=
  if size ≤ 0 then ([], reader)
  else
    (reader.rest.take size.toNat, reader.advance (min size.toNat reader.remaining) (by
      have := reader.pos_le
      unfold Reader.remaining
      omega))

/-! ## Sequences of calls -/

/-- What a call writes, or a read answers. -/
inductive Item where
  | byte (val : Byte)
  | int16 (val : BitVec 16)
  | int32 (val : BitVec 32)
  | int64 (val : BitVec 64)
  | string (text : List Byte)
  | bytes (data : List Byte)
deriving DecidableEq, Repr

inductive Request where
  | byte | int16 | int32 | int64 | string
  | bytes (size : ℤ)
deriving DecidableEq, Repr

/-- The read that goes with a write. -/
def Item.request : Item → Request
  | byte _ => .byte
  | int16 _ => .int16
  | int32 _ => .int32
  | int64 _ => .int64
  | string _ => .string
  | bytes data => .bytes data.length

def Writer.write (host : Bool) (writer : Writer) : Item → Writer
  | .byte val => writer.writeByte val
  | .int16 val => writer.writeI16 host val
  | .int32 val => writer.writeI32 host val
  | .int64 val => writer.writeI64 host val
  | .string text => writer.writeString host text
  | .bytes data => writer.writeBytes data

def Reader.read (host : Bool) (reader : Reader) : Request → Item × Reader
  | .byte => reader.readByte.map .byte id
  | .int16 => (reader.readI16 host).map .int16 id
  | .int32 => (reader.readI32 host).map .int32 id
  | .int64 => (reader.readI64 host).map .int64 id
  | .string => (reader.readString host).map .string id
  | .bytes size => (reader.readBytes size).map .bytes id

def writeAll (host : Bool) (items : List Item) : Writer :=
  items.foldl (Writer.write host) ⟨[]⟩

def readAll (host : Bool) : List Request → Reader → List Item × Reader
  | [], reader => ([], reader)
  | request :: requests, reader =>
      let (item, reader) := reader.read host request
      (readAll host requests reader).map (item :: ·) id

/-! ## What was written is read -/

/-- What is written for an item. -/
def Item.wire (host : Bool) : Item → List Byte
  | byte val => [val]
  | int16 val => valueBytes host 2 val
  | int32 val => valueBytes host 4 val
  | int64 val => valueBytes host 8 val
  | string text => valueBytes host 4 (BitVec.ofNat 32 text.length) ++ text
  | bytes data => data

/-- A text has no NUL, and a length that an `int32` can hold. -/
def Item.Writable : Item → Prop
  | string text => 0 ∉ text ∧ text.length < 2 ^ 31
  | _ => True

variable {host : Bool} {n w : ℕ} {reader : Reader} {tail : List Byte}

@[simp] theorem length_valueBytes (host : Bool) (n : ℕ) (v : BitVec w) :
    (valueBytes host n v).length = n := by
  rw [valueBytes, length_ordered, WordBytes.length_bytesOf]

theorem assemble_valueBytes (host : Bool) (v : BitVec w) (h : 8 * n = w) :
    assemble w (ordered host (valueBytes host n v)) = v := by
  rw [valueBytes, ordered_ordered, WordBytes.assemble_bytesOf v h]

theorem buffer_write (writer : Writer) (item : Item) :
    (writer.write host item).buffer = writer.buffer ++ item.wire host := by
  cases item with
  | string text => exact List.append_assoc _ _ _
  | byte val | int16 val | int32 val | int64 val | bytes data => rfl

theorem buffer_writeAll (items : List Item) :
    (writeAll host items).buffer = items.flatMap (Item.wire host) := by
  have hfold (writer : Writer) : (items.foldl (Writer.write host) writer).buffer
      = writer.buffer ++ items.flatMap (Item.wire host) := by
    induction items generalizing writer with
    | nil => simp
    | cons item items ih => rw [List.foldl_cons, ih, buffer_write, List.flatMap_cons, List.append_assoc]
  exact hfold ⟨[]⟩

/-- The bytes before a tail are there, and behind them is the tail. -/
theorem rest_split {front : List Byte} (h : reader.rest = front ++ tail) :
    ∃ hle : reader.pos + front.length ≤ reader.buffer.length, reader.rest.take front.length = front ∧
      (reader.advance front.length hle).rest = tail := by
  have hlength := congrArg List.length h
  rw [Reader.rest, List.length_drop, List.length_append] at hlength
  have hpos := reader.pos_le
  refine ⟨by omega, by rw [h, List.take_left], ?_⟩
  have hdrop : reader.rest.drop front.length = tail := by rw [h, List.drop_left]
  rwa [Reader.rest, List.drop_drop] at hdrop

theorem readValue_of_rest {v : BitVec w} (hw : 8 * n = w)
    (h : reader.rest = valueBytes host n v ++ tail) :
    ∃ hle, reader.readValue host n w = (v, reader.advance n hle) ∧ (reader.advance n hle).rest = tail := by
  obtain ⟨hle, htake, hrest⟩ := rest_split h
  simp only [length_valueBytes] at hle htake hrest
  refine ⟨hle, ?_, hrest⟩
  rw [Reader.readValue, dif_pos hle, htake, assemble_valueBytes host v hw]

/-- A read behind whose position its item was written. -/
theorem read_of_rest {item : Item} (hitem : item.Writable)
    (h : reader.rest = item.wire host ++ tail) :
    ∃ after : Reader, reader.read host item.request = (item, after) ∧ after.rest = tail ∧
      after.buffer = reader.buffer := by
  cases item with
  | byte val =>
    obtain ⟨hle, htake, hrest⟩ := rest_split h
    have hone : reader.pos + 1 ≤ reader.buffer.length := hle
    refine ⟨_, ?_, hrest, rfl⟩
    rw [Item.request, Reader.read, Reader.readByte, dif_pos hone, h]
    rfl
  | int16 val =>
    obtain ⟨hle, hread, hrest⟩ := readValue_of_rest rfl h
    refine ⟨_, ?_, hrest, rfl⟩
    rw [Item.request, Reader.read, Reader.readI16, hread]
    rfl
  | int32 val =>
    obtain ⟨hle, hread, hrest⟩ := readValue_of_rest rfl h
    refine ⟨_, ?_, hrest, rfl⟩
    rw [Item.request, Reader.read, Reader.readI32, hread]
    rfl
  | int64 val =>
    obtain ⟨hle, hread, hrest⟩ := readValue_of_rest rfl h
    refine ⟨_, ?_, hrest, rfl⟩
    rw [Item.request, Reader.read, Reader.readI64, hread]
    rfl
  | string text =>
    obtain ⟨hnul, hlength⟩ := hitem
    rw [Item.wire, List.append_assoc] at h
    obtain ⟨hle, hread, hrest⟩ := readValue_of_rest (v := BitVec.ofNat 32 text.length) rfl h
    have hlen : (BitVec.ofNat 32 text.length).toInt = text.length := by
      rw [BitVec.toInt_ofNat']
      exact Int.bmod_eq_of_le (by omega) (by omega)
    obtain ⟨hle', htake, hrest'⟩ := rest_split hrest
    by_cases hempty : text = []
    · subst hempty
      refine ⟨_, ?_, hrest, rfl⟩
      rw [Item.request, Reader.read, Reader.readString, Reader.readI32, hread]
      rfl
    · have hpos : 0 < text.length := List.length_pos_iff.mpr hempty
      have hwhole : text.takeWhile (· ≠ 0) = text := by
        refine List.takeWhile_eq_self_iff.mpr fun b hb => decide_eq_true fun hzero => ?_
        exact hnul (hzero ▸ hb)
      refine ⟨_, ?_, hrest', rfl⟩
      rw [Item.request, Reader.read, Reader.readString, Reader.readI32, hread]
      simp only [hlen, Int.toNat_natCast]
      rw [dif_pos ⟨by omega, hle'⟩, htake, hwhole]
      rfl
  | bytes data =>
    obtain ⟨hle, htake, hrest⟩ := rest_split h
    have hle : reader.pos + data.length ≤ reader.buffer.length := hle
    by_cases hempty : data = []
    · subst hempty
      exact ⟨reader, rfl, h, rfl⟩
    · have hpos : 0 < data.length := List.length_pos_iff.mpr hempty
      have hmin : min data.length reader.remaining = data.length := by
        unfold Reader.remaining
        omega
      refine ⟨_, ?_, hrest, rfl⟩
      rw [Item.request, Reader.read, Reader.readBytes, if_neg (by omega)]
      simp only [Int.toNat_natCast, hmin]
      rw [show reader.rest.take data.length = data from htake]
      rfl

/-- The reads of what was written, one after the other. -/
theorem readAll_of_rest {items : List Item} (hitems : ∀ item ∈ items, item.Writable)
    (h : reader.rest = items.flatMap (Item.wire host) ++ tail) :
    ∃ after : Reader, readAll host (items.map Item.request) reader = (items, after) ∧
      after.rest = tail ∧ after.buffer = reader.buffer := by
  induction items generalizing reader with
  | nil => exact ⟨reader, rfl, h, rfl⟩
  | cons item items ih =>
    rw [List.flatMap_cons, List.append_assoc] at h
    obtain ⟨next, hread, hnext, hbuffer⟩ := read_of_rest (hitems item List.mem_cons_self) h
    obtain ⟨after, hreads, hafter, hbuffer'⟩ :=
      ih (fun item hitem => hitems item (List.mem_cons_of_mem _ hitem)) hnext
    refine ⟨after, ?_, hafter, hbuffer'.trans hbuffer⟩
    rw [List.map_cons, readAll, hread]
    simp only [hreads]
    rfl

/-! ## Reads that cannot be satisfied -/

/-- What a read answers where it finds nothing. -/
def Request.empty : Request → Item
  | byte => .byte 0
  | int16 => .int16 0
  | int32 => .int32 0
  | int64 => .int64 0
  | string => .string []
  | bytes _ => .bytes []

/-- The length at the position. -/
def Reader.length (host : Bool) (reader : Reader) : ℤ :=
  (assemble 32 (ordered host (reader.rest.take 4))).toInt

/-- The bytes that are left are enough. A read of bytes says how many it has read, and any of them
satisfy it. -/
def Satisfiable (host : Bool) (reader : Reader) : Request → Prop
  | .byte => 1 ≤ reader.remaining
  | .int16 => 2 ≤ reader.remaining
  | .int32 => 4 ≤ reader.remaining
  | .int64 => 8 ≤ reader.remaining
  | .string => 4 ≤ reader.remaining ∧ 0 ≤ reader.length host ∧
      4 + reader.length host ≤ reader.remaining
  | .bytes size => size ≤ 0 ∨ 0 < reader.remaining

/-- A read that cannot be satisfied answers what is empty, and stays where it is. -/
def Atomic (host : Bool) (reader : Reader) (request : Request) : Prop :=
  ¬Satisfiable host reader request → reader.read host request = (request.empty, reader)

/-- The length of a text is there, and is negative or more than what is behind it. -/
def WrongLength (host : Bool) (reader : Reader) : Prop :=
  4 ≤ reader.remaining ∧ (reader.length host < 0 ∨ reader.remaining < 4 + reader.length host)

theorem le_remaining_iff {n : ℕ} (hn : 0 < n) :
    n ≤ reader.remaining ↔ reader.pos + n ≤ reader.buffer.length := by
  unfold Reader.remaining
  omega

theorem readValue_of_not (hn : 0 < n) (h : ¬n ≤ reader.remaining) :
    reader.readValue host n w = (0, reader) :=
  dif_neg fun hle => h ((le_remaining_iff hn).mpr hle)

theorem read_string_of_wrongLength (h : WrongLength host reader) :
    ∃ hle, reader.read host .string = (.string [], reader.advance 4 hle) := by
  obtain ⟨hfour, hwrong⟩ := h
  have hle := (le_remaining_iff (by decide)).mp hfour
  refine ⟨hle, ?_⟩
  have hread : reader.readI32 host =
      (assemble 32 (ordered host (reader.rest.take 4)), reader.advance 4 hle) := dif_pos hle
  have hnot : ¬(0 < reader.length host ∧
      reader.pos + 4 + (reader.length host).toNat ≤ reader.buffer.length) := by
    unfold Reader.remaining at hfour hwrong
    omega
  rw [Reader.read, Reader.readString, hread]
  exact congrArg (Prod.map Item.string id) (dif_neg hnot)

theorem atomic_iff (host : Bool) (reader : Reader) (request : Request) :
    Atomic host reader request ↔ (request = .string → ¬WrongLength host reader) := by
  unfold Atomic
  cases request with
  | byte =>
    refine iff_of_true (fun h => ?_) (fun h => by cases h)
    exact congrArg (Prod.map Item.byte id) (dif_neg fun hle => h ((le_remaining_iff one_pos).mpr hle))
  | int16 =>
    refine iff_of_true (fun h => ?_) (fun h => by cases h)
    exact congrArg (Prod.map Item.int16 id) (readValue_of_not (by decide) h)
  | int32 =>
    refine iff_of_true (fun h => ?_) (fun h => by cases h)
    exact congrArg (Prod.map Item.int32 id) (readValue_of_not (by decide) h)
  | int64 =>
    refine iff_of_true (fun h => ?_) (fun h => by cases h)
    exact congrArg (Prod.map Item.int64 id) (readValue_of_not (by decide) h)
  | string =>
    constructor
    · intro hatomic _ hwrong
      obtain ⟨hle, hread⟩ := read_string_of_wrongLength hwrong
      have hunsatisfied : ¬Satisfiable host reader .string := by
        rintro ⟨-, hnonneg, hsum⟩
        obtain ⟨-, hneg | hlong⟩ := hwrong <;> omega
      have hpos := congrArg (fun answer => answer.2.pos) (hread.symm.trans (hatomic hunsatisfied))
      simp [Reader.advance] at hpos
    · intro hright hunsatisfied
      have hfour : ¬4 ≤ reader.remaining := by
        intro hfour
        refine hright rfl ⟨hfour, ?_⟩
        by_contra hnot
        exact hunsatisfied ⟨hfour, by omega, by omega⟩
      rw [Reader.read, Reader.readString, Reader.readI32, readValue_of_not (by decide) hfour]
      exact congrArg (Prod.map Item.string id) (dif_neg fun h => absurd h.1 (by decide))
  | bytes size =>
    refine iff_of_true (fun h => ?_) (fun h => by cases h)
    obtain ⟨hsize, hnone⟩ := not_or.mp h
    have hremaining : reader.remaining = 0 := by omega
    have hrest : reader.rest = [] := by
      rw [Reader.rest, List.drop_eq_nil_iff]
      unfold Reader.remaining at hremaining
      omega
    rw [Reader.read, Reader.readBytes, if_neg hsize]
    simp only [hremaining, Nat.min_zero, hrest, List.take_nil]
    rfl

/-- Reads are the inverse of writes; and a read that cannot be satisfied leaves the position,
except of a text whose length is wrong. -/
theorem reads_atomic_iff (host : Bool) :
    (∀ items : List Item, (∀ item ∈ items, item.Writable) →
      ∃ after : Reader, readAll host (items.map Item.request)
          (.create (writeAll host items).buffer) = (items, after) ∧ after.isEof = true) ∧
    ∀ (reader : Reader) (request : Request),
      Atomic host reader request ↔ (request = .string → ¬WrongLength host reader) := by
  refine ⟨fun items hitems => ?_, atomic_iff host⟩
  have hrest : (Reader.create (writeAll host items).buffer).rest
      = items.flatMap (Item.wire host) ++ [] := by
    rw [List.append_nil, ← buffer_writeAll]
    rfl
  obtain ⟨after, hread, hafter, -⟩ := readAll_of_rest hitems hrest
  refine ⟨after, hread, decide_eq_true ?_⟩
  exact List.drop_eq_nil_iff.mp hafter

/-- A text and a negative number, and the end of the data after them. -/
theorem reads_atomic_text_number :
    (∃ after : Reader, readAll true [.string, .int16]
        (.create (writeAll true [.string [65, 98], .int16 (-2)]).buffer)
          = ([.string [65, 98], .int16 (-2)], after) ∧ after.isEof = true) ∧
    (Atomic true (.create [1]) .int32 ↔
      (Request.int32 = .string → ¬WrongLength true (.create [1]))) := by
  refine ⟨(reads_atomic_iff true).1 [.string [65, 98], .int16 (-2)] ?_,
    (reads_atomic_iff true).2 _ _⟩
  intro item hitem
  simp only [List.mem_cons, List.not_mem_nil, or_false] at hitem
  rcases hitem with rfl | rfl
  · exact ⟨by decide, by decide⟩
  · trivial

/-- A length of five, and one byte behind it. -/
def cutText : Reader := .create [5, 0, 0, 0, 65]

/-- The length is gone after the text was not read. -/
theorem not_reads_atomic :
    cutText.read true .string = (.string [], ⟨[5, 0, 0, 0, 65], 4, by decide⟩) ∧
    ¬∀ (host : Bool) (reader : Reader) (request : Request), Atomic host reader request := by
  refine ⟨by decide, fun hall => ?_⟩
  have hwrong : WrongLength true cutText := ⟨by decide, .inr (by decide)⟩
  exact (atomic_iff true cutText .string).mp (hall true cutText .string) rfl hwrong

end Binary

end Absolute
