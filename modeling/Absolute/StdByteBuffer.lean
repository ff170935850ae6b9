import Absolute.LibBinaryFormat
import Absolute.LibWordBytes
import Absolute.LibRaising

/-!
# The byte buffer

`std/bytes.abs` over `Absolute-Runtime/src/bytes.cpp`. Storage is a list of blocks, one for each
buffer that was allocated, and a slice is a second handle into the block of its buffer. An `int64`
of the language wraps around. A signed sum of the runtime that overflows is not defined, and
neither is an access outside a block.
-/

namespace Absolute

namespace StdBytes

open BinaryFormat (Number single double ofInt toInt)
open WordBytes (Byte assemble bytesOf)

/-- What a call ends with in place of a result. -/
inductive Fault where
  | threw (message : String)
  | undefined
deriving DecidableEq, Repr

abbrev Memory : Type := List (List Byte)

/-! ## The runtime -/

/-- `AbsoluteByteBufferImpl`: where the data starts in its block, and the size. -/
structure Handle where
  block : ℕ
  data : ℕ
  capacity : Int64
deriving DecidableEq, Repr

def Handle.create (capacity : Int64) (memory : Memory) : Handle × Memory :=
  let capacity := if capacity ≤ 0 then 1024 else capacity
  (⟨memory.length, 0, capacity⟩, memory ++ [List.replicate capacity.toInt.toNat 0])

/-- `offset + length` of the runtime, where it does not overflow. -/
def sum (offset length : Int64) : Option Int64 :=
  if offset.toInt + length.toInt < 2 ^ 63 then some (offset + length) else none

def Handle.slice (h : Handle) (offset length : Int64) : Option Handle := do
  let offset := if offset < 0 then 0 else offset
  let offset := if offset > h.capacity then h.capacity else offset
  let length := if length < 0 then 0 else length
  let last ← sum offset length
  let length := if last > h.capacity then h.capacity - offset else length
  return ⟨h.block, h.data + offset.toInt.toNat, length⟩

/-- `offset < 0 || offset >= buf->capacity` -/
def Handle.Outside (h : Handle) (offset : Int64) : Prop := offset < 0 ∨ offset ≥ h.capacity

instance (h : Handle) (offset : Int64) : Decidable (h.Outside offset) :=
  inferInstanceAs (Decidable (_ ∨ _))

/-- Where `offset` is in the block. -/
def Handle.place (h : Handle) (offset : Int64) : ℕ := h.data + offset.toInt.toNat

def Handle.getByte (h : Handle) (offset : Int64) (memory : Memory) : Option Byte :=
  if h.Outside offset then some 0 else do (← memory[h.block]?)[h.place offset]?

def Handle.setByte (h : Handle) (offset : Int64) (val : Byte) (memory : Memory) : Option Memory :=
  if h.Outside offset then some memory
  else do
    let block ← memory[h.block]?
    if h.place offset < block.length then
      some (memory.modify h.block (·.set (h.place offset) val))
    else none

/-- `memmove` of `size` bytes to `target` from `source`. -/
def move (block : List Byte) (target source size : ℕ) : List Byte :=
  WordBytes.writeFrom block target ((block.drop source).take size)

def Handle.compact (h : Handle) (position remaining : Int64) (memory : Memory) : Option Memory :=
  if position ≤ 0 ∨ remaining ≤ 0 then some memory
  else do
    let last ← sum position remaining
    let remaining := if last > h.capacity then h.capacity - position else remaining
    let block ← memory[h.block]?
    if h.place position + remaining.toInt.toNat ≤ block.length then
      some (memory.modify h.block (move · h.data (h.place position) remaining.toInt.toNat))
    else none

/-! ## The cursors -/

structure ByteBuffer where
  handle : Handle
  position : Int64
  limit : Int64
  capacity : Int64
  mark : Int64
  isLittleEndian : Bool
deriving DecidableEq, Repr

/-- A buffer over a handle as its constructor and `sliceAt` make it. -/
def ByteBuffer.over (handle : Handle) (isLittleEndian : Bool) : ByteBuffer where
  handle := handle
  position := 0
  limit := handle.capacity
  capacity := handle.capacity
  mark := -1
  isLittleEndian := isLittleEndian

def ByteBuffer.remaining (b : ByteBuffer) : Int64 :=
  let rem := b.limit - b.position
  if rem > 0 then rem else 0

/-- The buffer of a call, with the storage of all of them. -/
structure This where
  buffer : ByteBuffer
  memory : Memory

abbrev Method : Type → Type := EStateM Fault This

/-- A check of the cursors, and what becomes of them where it passes. -/
def adjust (fault : ByteBuffer → Option String) (write : ByteBuffer → ByteBuffer) : Method Unit :=
  Raising.guarded (fun s => (fault s.buffer).map .threw)
    fun s => { s with buffer := write s.buffer }

def setPosition (newPos : Int64) : Method Unit :=
  adjust (fun b => if newPos < 0 ∨ newPos > b.limit then some "Invalid position bounds" else none)
    fun b => { b with position := newPos, mark := if b.mark > newPos then -1 else b.mark }

def setLimit (newLimit : Int64) : Method Unit :=
  adjust
    (fun b => if newLimit < 0 ∨ newLimit > b.capacity then some "Invalid limit bounds" else none)
    fun b => { b with
      limit := newLimit
      position := if b.position > newLimit then newLimit else b.position
      mark := if b.mark > newLimit then -1 else b.mark }

def mark : Method Unit := adjust (fun _ => none) fun b => { b with mark := b.position }

def reset : Method Unit :=
  adjust (fun b => if b.mark < 0 then some "Mark not set" else none)
    fun b => { b with position := b.mark }

def clear : Method Unit :=
  adjust (fun _ => none) fun b => { b with position := 0, limit := b.capacity, mark := -1 }

def flip : Method Unit :=
  adjust (fun _ => none) fun b => { b with limit := b.position, position := 0, mark := -1 }

def rewind : Method Unit := adjust (fun _ => none) fun b => { b with position := 0, mark := -1 }

def order (isLittle : Bool) : Method Unit :=
  adjust (fun _ => none) fun b => { b with isLittleEndian := isLittle }

/-- A call of the runtime. -/
def runtime {α : Type} (call : Handle → Memory → Option α) : Method α := do
  let s ← get
  match call s.buffer.handle s.memory with
  | some a => return a
  | none => throw .undefined

def store (memory : Memory) : Method Unit := modify fun s => { s with memory := memory }

def compact : Method Unit := do
  let b := (← get).buffer
  store (← runtime fun h => h.compact b.position b.remaining)
  adjust (fun _ => none) fun b' =>
    { b' with position := b.remaining, limit := b'.capacity, mark := -1 }

/-- The storage that the constructor of the slice allocates is freed at once. -/
def sliceAt (offset length : Int64) : Method ByteBuffer := do
  let b := (← get).buffer
  let handle ← runtime fun h _ => h.slice offset length
  return .over handle b.isLittleEndian

def slice : Method ByteBuffer := do
  let b := (← get).buffer
  sliceAt b.position b.remaining

/-! ## Access -/

/-- `if (…) { throw new Error(message); }` -/
def check (refuses : ByteBuffer → Prop) [DecidablePred refuses] (message : String) : Method Unit :=
  adjust (fun b => if refuses b then some message else none) id

def readByte (index : Int64) : Method Byte := runtime fun h => h.getByte index

def writeByte (index : Int64) (val : Byte) : Method Unit := do
  store (← runtime fun h => h.setByte index val)

/-- `_position = _position + n` -/
def advance (n : Int64) : Method Unit :=
  adjust (fun _ => none) fun b => { b with position := b.position + n }

def getByteAt (index : Int64) : Method Byte := do
  check (fun b => index < 0 ∨ index ≥ b.limit) "Index out of bounds"
  readByte index

def getByte : Method Byte := do
  check (fun b => b.position ≥ b.limit) "Buffer overflow reading byte"
  let val ← readByte (← get).buffer.position
  advance 1
  return val

def putByteAt (index : Int64) (val : Byte) : Method Unit := do
  check (fun b => index < 0 ∨ index ≥ b.limit) "Index out of bounds"
  writeByte index val

def putByte (val : Byte) : Method Unit := do
  check (fun b => b.position ≥ b.limit) "Buffer overflow writing byte"
  writeByte (← get).buffer.position val
  advance 1

def readBytes (index : Int64) : ℕ → Method (List Byte)
  | 0 => return []
  | n + 1 => do
      let b ← readByte index
      return b :: (← readBytes (index + 1) n)

def writeBytes (index : Int64) : List Byte → Method Unit
  | [] => return
  | b :: bs => do
      writeByte index b
      writeBytes (index + 1) bs

/-- Bytes from the lowest one on, in the order they have in storage. -/
def ordered (isLittleEndian : Bool) (bytes : List Byte) : List Byte :=
  if isLittleEndian then bytes else bytes.reverse

/-- A word of `w` bits from the `n` bytes at `index`. -/
def getWordAt (message : String) (n w : ℕ) (index : Int64) : Method (BitVec w) := do
  check (fun b => index < 0 ∨ index + .ofNat n > b.limit) message
  let bytes ← readBytes index n
  return assemble w (ordered (← get).buffer.isLittleEndian bytes)

/-- The `n` lowest bytes of a word to `index`. -/
def putWordAt {w : ℕ} (message : String) (n : ℕ) (index : Int64) (v : BitVec w) : Method Unit := do
  check (fun b => index < 0 ∨ index + .ofNat n > b.limit) message
  writeBytes index (ordered (← get).buffer.isLittleEndian (bytesOf n v))

/-- An access at the position, which it moves. -/
def relative {α : Type} (n : Int64) (access : Int64 → Method α) : Method α := do
  let a ← access (← get).buffer.position
  advance n
  return a

def getInt16At (index : Int64) : Method (BitVec 16) := do
  return (← getWordAt "Buffer overflow reading int16" 2 32 index).setWidth 16

def putInt16At (index : Int64) (val : BitVec 16) : Method Unit :=
  putWordAt "Buffer overflow writing int16" 2 index (val.signExtend 32)

def getInt16 : Method (BitVec 16) := relative 2 getInt16At

def putInt16 (val : BitVec 16) : Method Unit := relative 2 (putInt16At · val)

def getInt32At (index : Int64) : Method (BitVec 32) :=
  getWordAt "Buffer overflow reading int32" 4 32 index

def putInt32At (index : Int64) (val : BitVec 32) : Method Unit :=
  putWordAt "Buffer overflow writing int32" 4 index val

def getInt32 : Method (BitVec 32) := relative 4 getInt32At

def putInt32 (val : BitVec 32) : Method Unit := relative 4 (putInt32At · val)

def getInt64At (index : Int64) : Method (BitVec 64) :=
  getWordAt "Buffer overflow reading int64" 8 64 index

def putInt64At (index : Int64) (val : BitVec 64) : Method Unit :=
  putWordAt "Buffer overflow writing int64" 8 index val

def getInt64 : Method (BitVec 64) := relative 8 getInt64At

def putInt64 (val : BitVec 64) : Method Unit := relative 8 (putInt64At · val)

def getFloat : Method (Number single) := do
  let bits ← getInt32
  return ofInt single bits.toInt

def putFloat (val : Number single) : Method Unit := putInt32 (.ofInt 32 (toInt 32 val))

def getDouble : Method (Number double) := do
  let bits ← getInt64
  return ofInt double bits.toInt

def putDouble (val : Number double) : Method Unit := putInt64 (.ofInt 64 (toInt 64 val))

end StdBytes

end Absolute
