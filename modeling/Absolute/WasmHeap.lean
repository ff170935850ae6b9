import Absolute.LibFlatMemory
import Absolute.LibWhile
import Mathlib.Algebra.Group.Nat.Defs

/-!
# The heap of the WebAssembly runtime

`Absolute-Runtime/wasm/absolute_wasm_runtime.c`: a break that moves up through a static arena, and
a list of released blocks that is searched first. A block is a header of three words in linear
memory (`size`, `free`, `next`) and the bytes behind it; what the program holds is the address of
those bytes. Released blocks are threaded through their own headers, the last one released first,
and are handed out whole.

`size_t` and pointers are 32 bits wide, and sizes are computed in them; addresses are natural
numbers, as the arena lies below `2 ^ 32`. The search of the list is a loop over links, a link
being the place that points to the block.
-/

namespace Absolute

namespace Wasm

open FlatMemory While

/-- `size_t` -/
abbrev Size : Type := BitVec 32

def ABSOLUTE_WASM_HEAP_ALIGN : Size := 16

/-- `sizeof(HeapBlock)` -/
def sizeofHeapBlock : ℕ := 12

/-- `sizeof(g_static_heap)` -/
def sizeofStaticHeap : ℕ := 2 * 1024 * 1024

def alignUp (value alignment : Size) : Size := (value + alignment - 1) &&& ~~~(alignment - 1)

/-! ## Headers -/

namespace HeapBlock

def size (m : Cells) (block : ℕ) : Size := word m block

def free (m : Cells) (block : ℕ) : Size := word m (block + 4)

/-- The null pointer is 0. -/
def next (m : Cells) (block : ℕ) : ℕ := (word m (block + 8)).toNat

def setSize (m : Cells) (block : ℕ) (size : Size) : Cells := setWord m block size

def setFree (m : Cells) (block : ℕ) (free : Size) : Cells := setWord m (block + 4) free

def setNext (m : Cells) (block next : ℕ) : Cells := setWord m (block + 8) (BitVec.ofNat 32 next)

end HeapBlock

/-- Linear memory, and the static variables of the allocator. -/
structure Heap where
  memory : Cells
  heapEnd : ℕ := 0
  heapBreak : ℕ := 0
  freeList : ℕ := 0
  ready : Bool := false

/-- `start` is the address of `g_static_heap`. -/
def heapInit (start : ℕ) (h : Heap) : Heap :=
  if h.ready then h
  else { h with
    heapEnd := start + sizeofStaticHeap
    heapBreak := start
    freeList := 0
    ready := true }

/-- What a `HeapBlock**` points to: the head of the list, or a block's `next`. -/
inductive Link where
  | head
  | next (block : ℕ)
deriving Repr, DecidableEq

def Link.get (h : Heap) : Link → ℕ
  | .head => h.freeList
  | .next block => HeapBlock.next h.memory block

def Link.set (h : Heap) (value : ℕ) : Link → Heap
  | .head => { h with freeList := value }
  | .next block => { h with memory := HeapBlock.setNext h.memory block value }

/-- A turn of the search: the link of the first released block that is large enough. -/
def searchTurn (h : Heap) (size : Size) (link : Link) : Turn Link (Option Link) :=
  let block := link.get h
  if block = 0 then .done none
  else if HeapBlock.free h.memory block ≠ 0 ∧ size ≤ HeapBlock.size h.memory block then
    .done (some link)
  else .next (.next block)

/-- A released block is taken out of the list. -/
def takeBlock (h : Heap) (link : Link) : Heap × ℕ :=
  let block := link.get h
  let h := { h with memory := HeapBlock.setFree h.memory block 0 }
  (link.set h (HeapBlock.next h.memory block), block + sizeofHeapBlock)

/-- A block is put where the break is; the null pointer where there is no room. -/
def newBlock (h : Heap) (size : Size) : Heap × ℕ :=
  let total := alignUp (BitVec.ofNat 32 sizeofHeapBlock + size) ABSOLUTE_WASM_HEAP_ALIGN
  if BitVec.ofNat 32 (h.heapEnd - h.heapBreak) < total then (h, 0)
  else
    let block := h.heapBreak
    let m := HeapBlock.setSize h.memory block size
    let m := HeapBlock.setFree m block 0
    let m := HeapBlock.setNext m block 0
    ({ h with memory := m, heapBreak := h.heapBreak + total.toNat }, block + sizeofHeapBlock)

/-- What is left of `heap_alloc` when the list has been searched. -/
def allocFound (h : Heap) (size : Size) : Option Link → Heap × ℕ
  | some link => takeBlock h link
  | none => newBlock h size

/-- The size that a block is asked for. -/
def blockSize (size : Size) : Size := alignUp (if size = 0 then 1 else size) ABSOLUTE_WASM_HEAP_ALIGN

/-- `heap_alloc`, if the search is over after so many turns. -/
def heapAlloc (start turns : ℕ) (h : Heap) (size : Size) : Option (Heap × ℕ) :=
  let h := heapInit start h
  let size := blockSize size
  (run (searchTurn h size) turns .head).map (allocFound h size)

def free (h : Heap) (pointer : ℕ) : Heap :=
  if pointer = 0 then h
  else
    let block := pointer - sizeofHeapBlock
    let m := HeapBlock.setFree h.memory block 1
    let m := HeapBlock.setNext m block h.freeList
    { h with memory := m, freeList := block }

def malloc (start turns : ℕ) (h : Heap) (size : BitVec 64) : Option (Heap × ℕ) :=
  heapAlloc start turns h (size.setWidth 32)

def calloc (start turns : ℕ) (h : Heap) (count size : BitVec 64) : Option (Heap × ℕ) := do
  let total := count * size
  let (h, memory) ← heapAlloc start turns h ((if total = 0 then 1 else total).setWidth 32)
  if memory = 0 then return (h, 0)
  return ({ h with memory := clear h.memory memory (total.setWidth 32).toNat }, memory)

def realloc (start turns : ℕ) (h : Heap) (pointer : ℕ) (size : BitVec 64) : Option (Heap × ℕ) := do
  if pointer = 0 then malloc start turns h size
  else if size = 0 then return (free h pointer, 0)
  else
    let block := pointer - sizeofHeapBlock
    if size.setWidth 32 ≤ HeapBlock.size h.memory block then return (h, pointer)
    else
      let oldSize := HeapBlock.size h.memory block
      let (h, next) ← heapAlloc start turns h (size.setWidth 32)
      if next = 0 then return (h, 0)
      let h := { h with memory := copy h.memory next pointer oldSize.toNat }
      return (free h pointer, next)

/-! ## What a program does -/

/-- A call of the allocator, or `pointer[index] = byte`. -/
inductive Op where
  | malloc (size : BitVec 64)
  | calloc (count size : BitVec 64)
  | free (pointer : ℕ)
  | realloc (pointer : ℕ) (size : BitVec 64)
  | store (pointer index : ℕ) (byte : WordBytes.Byte)
deriving Repr, DecidableEq

/-- The heap after it and the pointer it returns, 0 where it returns none. -/
def Op.exec (start turns : ℕ) (h : Heap) : Op → Option (Heap × ℕ)
  | .malloc size => Wasm.malloc start turns h size
  | .calloc count size => Wasm.calloc start turns h count size
  | .free pointer => some (Wasm.free h pointer, 0)
  | .realloc pointer size => Wasm.realloc start turns h pointer size
  | .store pointer index byte =>
      some ({ h with memory := write h.memory (pointer + index) [byte] }, 0)

end Wasm

end Absolute
