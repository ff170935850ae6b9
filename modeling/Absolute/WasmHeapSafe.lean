import Mathlib.Data.List.Induction
import Mathlib.Data.List.Nodup
import Absolute.LibRuns
import Absolute.WasmHeap
import Mathlib.Algebra.Group.Nat.Defs

/-!
# The heap is safe to use

The arena up to the break is a row of blocks (`Tiles`), and the list of released blocks is threaded
through some of them (`Chain`); what the program holds are the others (`Laid`). The program's side
is a store: what it has asked for and not released, with the bytes it put there. Every call of the
allocator keeps the heap laid out that way, and the bytes that are held change by the program's own
writes alone, headers and data being in the same memory.
-/

namespace Absolute

namespace Wasm

open FlatMemory Runs While

/-! ## Sizes -/

theorem alignUp_toNat (value : Size) :
    (alignUp value ABSOLUTE_WASM_HEAP_ALIGN).toNat = (value.toNat + 15) % 2 ^ 32 / 16 * 16 := by
  have hmask : ∀ x : BitVec 32, x &&& ~~~(15#32) = (x >>> 4) <<< 4 := by
    intro x
    refine BitVec.eq_of_getLsbD_eq fun i hi => ?_
    rw [BitVec.getLsbD_and, BitVec.getLsbD_not, BitVec.getLsbD_shiftLeft, BitVec.getLsbD_ushiftRight,
      BitVec.getLsbD_ofNat, show 15 = 2 ^ 4 - 1 from rfl, Nat.testBit_two_pow_sub_one,
      decide_eq_true hi]
    by_cases h : i < 4
    · simp [h]
    · simp [h, show 4 + (i - 4) = i by omega]
  have hsub : value + ABSOLUTE_WASM_HEAP_ALIGN - 1 = value + 15#32 := by
    rw [ABSOLUTE_WASM_HEAP_ALIGN]
    bv_omega
  rw [alignUp, hsub, show ABSOLUTE_WASM_HEAP_ALIGN - 1 = 15#32 from rfl, hmask,
    BitVec.toNat_shiftLeft, BitVec.toNat_ushiftRight, BitVec.toNat_add, Nat.shiftRight_eq_div_pow,
    Nat.shiftLeft_eq, BitVec.toNat_ofNat]
  omega

/-- The largest request whose block is not larger than the address space. -/
def largest : ℕ := 2 ^ 32 - 32

theorem blockSize_toNat {size : Size} (h : size.toNat ≤ largest) :
    (blockSize size).toNat % 16 = 0 ∧ size.toNat ≤ (blockSize size).toNat ∧
      (blockSize size).toNat ≤ size.toNat + 16 ∧ (blockSize size).toNat ≤ largest := by
  rw [largest] at h ⊢
  rw [blockSize, alignUp_toNat]
  split
  case isTrue h0 => subst h0; decide
  case isFalse h0 =>
    have : size.toNat ≠ 0 := fun h' => h0 (BitVec.eq_of_toNat_eq h')
    omega

theorem total_toNat {size : Size} (h16 : size.toNat % 16 = 0) (h : size.toNat ≤ largest) :
    (alignUp (BitVec.ofNat 32 sizeofHeapBlock + size) ABSOLUTE_WASM_HEAP_ALIGN).toNat =
      16 + size.toNat := by
  rw [largest] at h
  rw [alignUp_toNat, BitVec.toNat_add, BitVec.toNat_ofNat, sizeofHeapBlock]
  omega

/-! ## Blocks in a row -/

/-- A block of the arena: its header, the bytes behind it, and four more. -/
structure Block where
  address : ℕ
  size : ℕ

def Block.stop (b : Block) : ℕ := b.address + 16 + b.size

/-- Blocks from `s` to `e`, each where the one before stops. -/
def Tiles : ℕ → List Block → ℕ → Prop
  | s, [], e => s = e
  | s, b :: bs, e => b.address = s ∧ b.size % 16 = 0 ∧ Tiles b.stop bs e

section Rows

variable {s e : ℕ} {blocks : List Block}

theorem Tiles.le (h : Tiles s blocks e) : s ≤ e := by
  induction blocks generalizing s with
  | nil => exact Nat.le_of_eq h
  | cons b bs ih =>
      have hle := ih h.2.2
      rw [Block.stop, h.1] at hle
      omega

theorem Tiles.bounds (h : Tiles s blocks e) {b : Block} (hb : b ∈ blocks) :
    s ≤ b.address ∧ b.stop ≤ e ∧ (b.address - s) % 16 = 0 := by
  induction blocks generalizing s with
  | nil => cases hb
  | cons c bs ih =>
      obtain ⟨haddr, h16, hrest⟩ := h
      rcases List.mem_cons.mp hb with rfl | hb
      · exact ⟨haddr.ge, hrest.le, by omega⟩
      · obtain ⟨hlow, hhigh, hmod⟩ := ih hrest hb
        rw [Block.stop] at hlow hmod
        exact ⟨by omega, hhigh, by omega⟩

/-- Two blocks are one, or lie apart. -/
theorem Tiles.apart (h : Tiles s blocks e) {b c : Block} (hb : b ∈ blocks) (hc : c ∈ blocks) :
    b = c ∨ b.stop ≤ c.address ∨ c.stop ≤ b.address := by
  induction blocks generalizing s with
  | nil => cases hb
  | cons d bs ih =>
      obtain ⟨_, _, hrest⟩ := h
      rcases List.mem_cons.mp hb with rfl | hb'
      · rcases List.mem_cons.mp hc with rfl | hc'
        · exact .inl rfl
        · exact .inr (.inl (hrest.bounds hc').1)
      · rcases List.mem_cons.mp hc with rfl | hc'
        · exact .inr (.inr (hrest.bounds hb').1)
        · exact ih hrest hb' hc'

theorem Tiles.concat (h : Tiles s blocks e) {n : ℕ} (hn : n % 16 = 0) :
    Tiles s (blocks ++ [⟨e, n⟩]) (e + 16 + n) := by
  induction blocks generalizing s with
  | nil => exact ⟨h.symm, hn, rfl⟩
  | cons b bs ih => exact ⟨h.1, h.2.1, ih h.2.2⟩

end Rows

/-! ## The list of released blocks -/

/-- The blocks that are threaded from `head` on. -/
def Chain (m : Cells) : ℕ → List ℕ → Prop
  | head, [] => head = 0
  | head, a :: l => head = a ∧ a ≠ 0 ∧ Chain m (HeapBlock.next m a) l

section Chains

variable {m m' : Cells} {head a : ℕ} {l pre post : List ℕ}

theorem Chain.congr (h : Chain m head l)
    (hnext : ∀ a ∈ l, HeapBlock.next m' a = HeapBlock.next m a) : Chain m' head l := by
  induction l generalizing head with
  | nil => exact h
  | cons b l ih =>
      refine ⟨h.1, h.2.1, ?_⟩
      rw [hnext b (List.mem_cons_self ..)]
      exact ih h.2.2 fun c hc => hnext c (List.mem_cons_of_mem b hc)

/-- The link that points behind the blocks `pre`. -/
def linkBehind (pre : List ℕ) : Link := pre.getLast?.elim .head .next

/-- What is threaded from a link on is the rest of the list. -/
theorem Chain.behind {h : Heap} (hc : Chain h.memory h.freeList (pre ++ l)) :
    Chain h.memory ((linkBehind pre).get h) l := by
  induction pre using List.reverseRecOn generalizing l with
  | nil => exact hc
  | append_singleton pre b ih =>
      rw [List.append_assoc] at hc
      rw [linkBehind, List.getLast?_concat]
      exact (ih hc).2.2

/-- The list goes on to a block, and behind the block to what `next` of it says; with the link
moved on, the block is left out. -/
theorem Chain.unlink (hc : Chain m head (pre ++ a :: post))
    (hpre : ∀ b ∈ pre.dropLast, HeapBlock.next m' b = HeapBlock.next m b)
    (hpost : ∀ b ∈ post, HeapBlock.next m' b = HeapBlock.next m b)
    (hlast : ∀ b ∈ pre.getLast?, HeapBlock.next m' b = HeapBlock.next m a) :
    Chain m' (if pre = [] then HeapBlock.next m a else head) (pre ++ post) := by
  induction pre generalizing head with
  | nil => exact hc.2.2.congr hpost
  | cons b pre ih =>
      rw [if_neg (List.cons_ne_nil b pre)]
      refine ⟨hc.1, hc.2.1, ?_⟩
      cases pre with
      | nil =>
          rw [hlast b rfl]
          exact hc.2.2.2.2.congr hpost
      | cons c pre =>
          rw [hpre b (List.mem_cons_self ..)]
          have h := ih hc.2.2 (fun d hd => hpre d (List.mem_cons_of_mem b hd)) fun d hd =>
            hlast d hd
          rwa [if_neg (List.cons_ne_nil c pre)] at h

end Chains

/-! ## The heap laid out -/

/-- What the program holds: the bytes at each pointer it has not released. -/
abbrev Store : Type := ℕ → Option (List WordBytes.Byte)

structure Laid (start limit : ℕ) (h : Heap) (blocks : List Block) (released : List ℕ)
    (store : Store) : Prop where
  ready : h.ready = true
  ends : h.heapEnd = limit
  tiles : Tiles start blocks h.heapBreak
  fits : h.heapBreak ≤ limit
  sizes : ∀ b ∈ blocks, (HeapBlock.size h.memory b.address).toNat = b.size
  chain : Chain h.memory h.freeList released
  nodup : released.Nodup
  freed : ∀ a ∈ released, (∃ b ∈ blocks, b.address = a) ∧ HeapBlock.free h.memory a ≠ 0
  held : ∀ p bs, store p = some bs → ∃ b ∈ blocks, p = b.address + sizeofHeapBlock ∧
    b.address ∉ released ∧ bs.length ≤ b.size ∧ read h.memory p bs.length = bs

section Frames

variable {s e : ℕ} {blocks : List Block} {a b : Block} {m : Cells}

/-- Rows within two blocks, or apart within one. -/
theorem Tiles.apart_rows (ht : Tiles s blocks e) (ha : a ∈ blocks) (hb : b ∈ blocks) {i n j k : ℕ}
    (hi : i + n ≤ 16 + a.size) (hj : j + k ≤ 16 + b.size) (h : a ≠ b ∨ Apart i n j k) :
    Apart (a.address + i) n (b.address + j) k := by
  rcases ht.apart ha hb with rfl | h' | h'
  · rcases h.resolve_left (fun h => h rfl) with h | h
    · exact .inl (by omega)
    · exact .inr (by omega)
  · rw [Block.stop] at h'
    exact .inl (by omega)
  · rw [Block.stop] at h'
    exact .inr (by omega)

variable (ht : Tiles s blocks e) (ha : a ∈ blocks) (hb : b ∈ blocks)
include ht ha hb

theorem size_setFree (v : Size) :
    HeapBlock.size (HeapBlock.setFree m a.address v) b.address = HeapBlock.size m b.address :=
  word_setWord_apart
    (ht.apart_rows (j := 0) (k := 4) ha hb (by omega) (by omega) (.inr (.inr (by omega))))

theorem size_setNext (v : ℕ) :
    HeapBlock.size (HeapBlock.setNext m a.address v) b.address = HeapBlock.size m b.address :=
  word_setWord_apart
    (ht.apart_rows (j := 0) (k := 4) ha hb (by omega) (by omega) (.inr (.inr (by omega))))

theorem next_setFree (v : Size) :
    HeapBlock.next (HeapBlock.setFree m a.address v) b.address = HeapBlock.next m b.address :=
  congrArg BitVec.toNat (word_setWord_apart
    (ht.apart_rows ha hb (by omega) (by omega) (.inr (.inl (by omega)))))

theorem free_setNext (v : ℕ) :
    HeapBlock.free (HeapBlock.setNext m a.address v) b.address = HeapBlock.free m b.address :=
  word_setWord_apart (ht.apart_rows ha hb (by omega) (by omega) (.inr (.inr (by omega))))

theorem free_setFree (hne : a ≠ b) (v : Size) :
    HeapBlock.free (HeapBlock.setFree m a.address v) b.address = HeapBlock.free m b.address :=
  word_setWord_apart (ht.apart_rows ha hb (by omega) (by omega) (.inl hne))

theorem next_setNext (hne : a ≠ b) (v : ℕ) :
    HeapBlock.next (HeapBlock.setNext m a.address v) b.address = HeapBlock.next m b.address :=
  congrArg BitVec.toNat (word_setWord_apart
    (ht.apart_rows ha hb (by omega) (by omega) (.inl hne)))

theorem data_setFree (v : Size) {n : ℕ} (hn : n ≤ b.size) :
    read (HeapBlock.setFree m a.address v) (b.address + sizeofHeapBlock) n =
      read m (b.address + sizeofHeapBlock) n :=
  read_setWord (ht.apart_rows ha hb (by omega) (by rw [sizeofHeapBlock]; omega)
    (.inr (.inl (by rw [sizeofHeapBlock]; omega))))

theorem data_setNext (v : ℕ) {n : ℕ} (hn : n ≤ b.size) :
    read (HeapBlock.setNext m a.address v) (b.address + sizeofHeapBlock) n =
      read m (b.address + sizeofHeapBlock) n :=
  read_setWord (ht.apart_rows ha hb (by omega) (by rw [sizeofHeapBlock]; omega)
    (.inr (.inl (by rw [sizeofHeapBlock]))))

end Frames

section Calls

variable {start limit : ℕ} {h : Heap} {blocks : List Block} {released : List ℕ} {store : Store}

/-- A program may hold what is left of a block that is not in the list. -/
theorem Laid.hold (hl : Laid start limit h blocks released store) {b : Block} (hb : b ∈ blocks)
    (hout : b.address ∉ released) {n : ℕ} (hn : n ≤ b.size) :
    Laid start limit h blocks released (Function.update store (b.address + sizeofHeapBlock)
      (some (read h.memory (b.address + sizeofHeapBlock) n))) where
  ready := hl.ready
  ends := hl.ends
  tiles := hl.tiles
  fits := hl.fits
  sizes := hl.sizes
  chain := hl.chain
  nodup := hl.nodup
  freed := hl.freed
  held := by
    intro p bs hp
    by_cases hpb : p = b.address + sizeofHeapBlock
    · subst hpb
      rw [Function.update_self] at hp
      obtain rfl := Option.some.inj hp
      exact ⟨b, hb, rfl, hout, by rwa [length_read], by rw [length_read]⟩
    · rw [Function.update_of_ne hpb] at hp
      exact hl.held p bs hp

/-- Bytes written within what is held. -/
theorem Laid.write (hl : Laid start limit h blocks released store) {p i : ℕ}
    {bs : List WordBytes.Byte} (ws : List WordBytes.Byte) (hp : store p = some bs)
    (hi : i + ws.length ≤ bs.length) :
    Laid start limit { h with memory := FlatMemory.write h.memory (p + i) ws } blocks released
      (Function.update store p (some (bs.take i ++ ws ++ bs.drop (i + ws.length)))) := by
  obtain ⟨b, hb, rfl, hout, hlen, hread⟩ := hl.held p bs hp
  have hfield : ∀ c ∈ blocks, ∀ j ≤ 8,
      word (FlatMemory.write h.memory (b.address + sizeofHeapBlock + i) ws) (c.address + j) =
        word h.memory (c.address + j) := by
    intro c hc j hj
    refine word_write_apart ?_
    rw [Nat.add_assoc]
    exact hl.tiles.apart_rows hb hc (by rw [sizeofHeapBlock]; omega) (by omega)
      (.inr (.inr (by rw [sizeofHeapBlock]; omega)))
  refine
    { ready := hl.ready
      ends := hl.ends
      tiles := hl.tiles
      fits := hl.fits
      sizes := fun c hc => ?_
      chain := hl.chain.congr fun a ha => ?_
      nodup := hl.nodup
      freed := fun a ha => ?_
      held := fun q cs hq => ?_ }
  · rw [← hl.sizes c hc]
    exact congrArg BitVec.toNat (hfield c hc 0 (by omega))
  · obtain ⟨⟨c, hc, rfl⟩, -⟩ := hl.freed a ha
    exact congrArg BitVec.toNat (hfield c hc 8 le_rfl)
  · obtain ⟨⟨c, hc, rfl⟩, hfree⟩ := hl.freed a ha
    exact ⟨⟨c, hc, rfl⟩, by rwa [HeapBlock.free, hfield c hc 4 (by omega)]⟩
  · by_cases hqb : q = b.address + sizeofHeapBlock
    · subst hqb
      rw [Function.update_self] at hq
      obtain rfl := Option.some.inj hq
      have hlen' : (bs.take i ++ ws ++ bs.drop (i + ws.length)).length = bs.length := by
        simp
        omega
      refine ⟨b, hb, rfl, hout, hlen'.trans_le hlen, ?_⟩
      rw [hlen', read_write_row hi, hread]
    · rw [Function.update_of_ne hqb] at hq
      obtain ⟨c, hc, rfl, hcout, hclen, hcread⟩ := hl.held q cs hq
      refine ⟨c, hc, rfl, hcout, hclen, ?_⟩
      have hne : b ≠ c := fun h => hqb (by rw [h])
      refine (read_write_apart ?_).trans hcread
      rw [Nat.add_assoc]
      exact hl.tiles.apart_rows hb hc (by rw [sizeofHeapBlock]; omega)
        (by rw [sizeofHeapBlock]; omega) (.inl hne)

/-- The search looks at the list from its head on, and stops at the first block that is large
enough. -/
theorem Laid.search (hl : Laid start limit h blocks released store) (size : Size) :
    Ends (searchTurn h size) .head none ∨
      ∃ pre a post, released = pre ++ a :: post ∧ size ≤ HeapBlock.size h.memory a ∧
        Ends (searchTurn h size) .head (some (linkBehind pre)) := by
  suffices ∀ rest pre, released = pre ++ rest →
      Ends (searchTurn h size) (linkBehind pre) none ∨
        ∃ pre' a post, released = pre' ++ a :: post ∧ size ≤ HeapBlock.size h.memory a ∧
          Ends (searchTurn h size) (linkBehind pre) (some (linkBehind pre')) from
    this released [] rfl
  intro rest
  induction rest with
  | nil =>
      intro pre hpre
      have hget : (linkBehind pre).get h = 0 := Chain.behind (l := []) (hpre ▸ hl.chain)
      exact .inl (.done (by rw [searchTurn, if_pos hget]))
  | cons a rest ih =>
      intro pre hpre
      obtain ⟨hget, hne, -⟩ := Chain.behind (l := a :: rest) (hpre ▸ hl.chain)
      have hfree := (hl.freed a (by rw [hpre]; simp)).2
      by_cases hsize : size ≤ HeapBlock.size h.memory a
      · refine .inr ⟨pre, a, rest, hpre, hsize, .done ?_⟩
        rw [searchTurn, hget, if_neg hne, if_pos ⟨hfree, hsize⟩]
      · have hturn : searchTurn h size (linkBehind pre) = .next (linkBehind (pre ++ [a])) := by
          rw [searchTurn, hget, if_neg hne, if_neg fun hh => hsize hh.2, linkBehind,
            List.getLast?_concat]
          rfl
        rcases ih (pre ++ [a]) (by rw [hpre, List.append_assoc]; rfl) with hnone | hsome
        · exact .inl (hnone.next hturn)
        · obtain ⟨pre', c, post, heq, hc, hends⟩ := hsome
          exact .inr ⟨pre', c, post, heq, hc, hends.next hturn⟩

/-- Headers rewritten, with another list threaded through them and no more held than before. -/
theorem Laid.relink (hl : Laid start limit h blocks released store) {m' : Cells} {head' : ℕ}
    {released' : List ℕ} {store' : Store}
    (hsize : ∀ b ∈ blocks, HeapBlock.size m' b.address = HeapBlock.size h.memory b.address)
    (hdata : ∀ b ∈ blocks, ∀ n ≤ b.size, read m' (b.address + sizeofHeapBlock) n =
      read h.memory (b.address + sizeofHeapBlock) n)
    (hchain : Chain m' head' released') (hnodup : released'.Nodup)
    (hfreed : ∀ a ∈ released', (∃ b ∈ blocks, b.address = a) ∧ HeapBlock.free m' a ≠ 0)
    (hstore : ∀ b ∈ blocks, ∀ bs, store' (b.address + sizeofHeapBlock) = some bs →
      b.address ∉ released → b.address ∉ released')
    (hsub : ∀ p bs, store' p = some bs → store p = some bs) :
    Laid start limit { h with memory := m', freeList := head' } blocks released' store' where
  ready := hl.ready
  ends := hl.ends
  tiles := hl.tiles
  fits := hl.fits
  sizes b hb := (congrArg BitVec.toNat (hsize b hb)).trans (hl.sizes b hb)
  chain := hchain
  nodup := hnodup
  freed := hfreed
  held := by
    intro p bs hp
    obtain ⟨b, hb, rfl, hout, hlen, hread⟩ := hl.held p bs (hsub p bs hp)
    exact ⟨b, hb, rfl, hstore b hb bs hp hout, hlen, (hdata b hb _ hlen).trans hread⟩

theorem setNext_next (m : Cells) (a : ℕ) {v : ℕ} (hv : v < 2 ^ 32) :
    HeapBlock.next (HeapBlock.setNext m a v) a = v := by
  rw [HeapBlock.next, HeapBlock.setNext, word_setWord, BitVec.toNat_ofNat, Nat.mod_eq_of_lt hv]

/-- A block taken out of the list: the link to it goes on to the block behind it. -/
theorem Laid.takeBlock (hl : Laid start limit h blocks released store) {pre post : List ℕ} {a : ℕ}
    (heq : released = pre ++ a :: post) :
    (takeBlock h (linkBehind pre)).2 = a + sizeofHeapBlock ∧
      Laid start limit (Wasm.takeBlock h (linkBehind pre)).1 blocks (pre ++ post) store := by
  subst heq
  have hget : (linkBehind pre).get h = a := (Chain.behind hl.chain).1
  obtain ⟨c, hc, rfl⟩ := (hl.freed a (by simp)).1
  have hsub : ∀ d ∈ pre ++ post, d ∈ pre ++ c.address :: post := fun d hd => by
    rcases List.mem_append.mp hd with hd | hd <;> simp [hd]
  obtain ⟨hout, hnodup⟩ := List.nodup_cons.mp (List.nodup_middle.mp hl.nodup)
  have hblock : ∀ d ∈ pre ++ post, ∃ b ∈ blocks, b.address = d ∧ c ≠ b := by
    intro d hd
    obtain ⟨⟨b, hb, rfl⟩, -⟩ := hl.freed d (hsub d hd)
    refine ⟨b, hb, rfl, ?_⟩
    rintro rfl
    exact hout hd
  have hkept : ∀ b ∈ blocks, ∀ bs, store (b.address + sizeofHeapBlock) = some bs →
      b.address ∉ pre ++ c.address :: post → b.address ∉ pre ++ post := fun b _ _ _ hout h =>
    hout (hsub _ h)
  have hnext : HeapBlock.next (HeapBlock.setFree h.memory c.address 0) c.address =
      HeapBlock.next h.memory c.address :=
    next_setFree hl.tiles hc hc 0
  refine ⟨by rw [Wasm.takeBlock, hget], ?_⟩
  obtain rfl | ⟨pre, d, rfl⟩ := pre.eq_nil_or_concat'
  · have htake : (Wasm.takeBlock h (linkBehind [])).1 =
        { h with
          memory := HeapBlock.setFree h.memory c.address 0
          freeList := HeapBlock.next h.memory c.address } := by
      rw [Wasm.takeBlock, hget, ← hnext]
      rfl
    rw [htake]
    refine hl.relink (fun b hb => size_setFree hl.tiles hc hb 0)
      (fun b hb n hn => data_setFree hl.tiles hc hb 0 hn) ?_ hnodup (fun e he => ?_) hkept
      fun _ _ h => h
    · refine hl.chain.2.2.congr fun e he => ?_
      obtain ⟨b, hb, rfl, -⟩ := hblock e he
      exact next_setFree hl.tiles hc hb 0
    · obtain ⟨b, hb, rfl, hne⟩ := hblock e he
      refine ⟨⟨b, hb, rfl⟩, ?_⟩
      rw [free_setFree hl.tiles hc hb hne]
      exact (hl.freed _ (hsub _ he)).2
  · obtain ⟨k, hk, rfl, hck⟩ := hblock d (by simp)
    have htake : (Wasm.takeBlock h (linkBehind (pre ++ [k.address]))).1 =
        { h with
          memory := HeapBlock.setNext (HeapBlock.setFree h.memory c.address 0) k.address
            (HeapBlock.next h.memory c.address) } := by
      rw [Wasm.takeBlock, hget, ← hnext, linkBehind, List.getLast?_concat]
      rfl
    rw [htake]
    refine hl.relink (fun b hb => ?_) (fun b hb n hn => ?_) ?_ hnodup (fun e he => ?_) hkept
      fun _ _ h => h
    · rw [size_setNext hl.tiles hk hb, size_setFree hl.tiles hc hb]
    · rw [data_setNext hl.tiles hk hb _ hn, data_setFree hl.tiles hc hb _ hn]
    · -- only the block in front of the one taken out has another `next`
      have hoff : ∀ b ∈ pre ++ post, HeapBlock.next (HeapBlock.setNext (HeapBlock.setFree h.memory
          c.address 0) k.address (HeapBlock.next h.memory c.address)) b = HeapBlock.next h.memory b := by
        intro b hb
        obtain ⟨f, hf, rfl, -⟩ := hblock b (by simp only [List.mem_append] at hb ⊢; tauto)
        have hkf : k ≠ f := by
          rintro rfl
          rw [List.append_assoc, List.singleton_append, List.nodup_middle] at hnodup
          exact (List.nodup_cons.mp hnodup).1 hb
        rw [next_setNext hl.tiles hk hf hkf, next_setFree hl.tiles hc hf]
      have hlink : ∀ b ∈ (pre ++ [k.address]).getLast?, HeapBlock.next (HeapBlock.setNext
          (HeapBlock.setFree h.memory c.address 0) k.address (HeapBlock.next h.memory c.address)) b =
          HeapBlock.next h.memory c.address := by
        intro b hb
        rw [List.getLast?_concat] at hb
        obtain rfl := Option.mem_some.mp hb
        exact setNext_next _ _ (BitVec.isLt _)
      have hchain := hl.chain.unlink
        (fun b hb => hoff b (by rw [List.dropLast_concat] at hb; simp [hb]))
        (fun b hb => hoff b (by simp [hb])) hlink
      rwa [if_neg (by simp)] at hchain
    · obtain ⟨b, hb, rfl, hne⟩ := hblock e he
      refine ⟨⟨b, hb, rfl⟩, ?_⟩
      rw [free_setNext hl.tiles hk hb, free_setFree hl.tiles hc hb hne]
      exact (hl.freed _ (hsub _ he)).2

/-- A block put at the head of the list. -/
theorem Laid.free (hl : Laid start limit h blocks released store) (hstart : 0 < start)
    (hlimit : limit ≤ 2 ^ 32) {p : ℕ} {bs : List WordBytes.Byte} (hp : store p = some bs) :
    ∃ released', Laid start limit (Wasm.free h p) blocks released' (Function.update store p none) := by
  obtain ⟨c, hc, rfl, hout, -, -⟩ := hl.held p bs hp
  have hlow := (hl.tiles.bounds hc).1
  have hfree : Wasm.free h (c.address + sizeofHeapBlock) =
      { h with
        memory := HeapBlock.setNext (HeapBlock.setFree h.memory c.address 1) c.address h.freeList
        freeList := c.address } := by
    rw [Wasm.free, if_neg (by omega), Nat.add_sub_cancel]
  have hblock : ∀ d ∈ released, ∃ b ∈ blocks, b.address = d ∧ c ≠ b := by
    intro d hd
    obtain ⟨⟨b, hb, rfl⟩, -⟩ := hl.freed d hd
    refine ⟨b, hb, rfl, ?_⟩
    rintro rfl
    exact hout hd
  have hhead : h.freeList < 2 ^ 32 := by
    have hchain := hl.chain
    cases hr : released with
    | nil =>
        rw [hr] at hchain
        exact hchain.symm ▸ Nat.two_pow_pos 32
    | cons a l =>
        rw [hr] at hchain
        have heq := hchain.1
        obtain ⟨b, hb, hba, -⟩ := hblock a (by simp [hr])
        have hhigh := (hl.tiles.bounds hb).2.1
        have hfits := hl.fits
        rw [Block.stop] at hhigh
        omega
  rw [hfree]
  refine ⟨c.address :: released, hl.relink (fun b hb => ?_) (fun b hb n hn => ?_) ?_
    (List.nodup_cons.mpr ⟨hout, hl.nodup⟩) (fun e he => ?_) (fun b _ bs' hb hbout => ?_)
    fun q bs' hq => ?_⟩
  · rw [size_setNext hl.tiles hc hb, size_setFree hl.tiles hc hb]
  · rw [data_setNext hl.tiles hc hb _ hn, data_setFree hl.tiles hc hb _ hn]
  · refine ⟨rfl, by omega, ?_⟩
    rw [setNext_next _ _ hhead]
    refine hl.chain.congr fun d hd => ?_
    obtain ⟨b, hb, rfl, hne⟩ := hblock d hd
    rw [next_setNext hl.tiles hc hb hne, next_setFree hl.tiles hc hb]
  · rcases List.mem_cons.mp he with rfl | he
    · refine ⟨⟨c, hc, rfl⟩, ?_⟩
      rw [free_setNext hl.tiles hc hc, HeapBlock.free, HeapBlock.setFree, word_setWord]
      decide
    · obtain ⟨b, hb, rfl, hne⟩ := hblock e he
      refine ⟨⟨b, hb, rfl⟩, ?_⟩
      rw [free_setNext hl.tiles hc hb, free_setFree hl.tiles hc hb hne]
      exact (hl.freed _ he).2
  · have hne : b.address ≠ c.address := by
      intro h
      rw [h, Function.update_self] at hb
      cases hb
    exact fun h => (List.mem_cons.mp h).elim hne hbout
  · by_cases hqp : q = c.address + sizeofHeapBlock
    · rw [hqp, Function.update_self] at hq
      cases hq
    · rwa [Function.update_of_ne hqp] at hq

/-- A block put where the break is, if there is room. -/
theorem Laid.newBlock (hl : Laid start limit h blocks released store) (hstart : 0 < start)
    (hlimit : limit ≤ 2 ^ 32) {size : Size} (h16 : size.toNat % 16 = 0)
    (hsize : size.toNat ≤ largest) :
    (limit - h.heapBreak < 16 + size.toNat ∧ newBlock h size = (h, 0)) ∨
      (newBlock h size).2 = h.heapBreak + sizeofHeapBlock ∧
        Laid start limit (Wasm.newBlock h size).1 (blocks ++ [⟨h.heapBreak, size.toNat⟩]) released
          store := by
  have htotal := total_toNat h16 hsize
  have hlow := hl.tiles.le
  have hleft : (BitVec.ofNat 32 (h.heapEnd - h.heapBreak)).toNat = limit - h.heapBreak := by
    rw [hl.ends, BitVec.toNat_ofNat]
    omega
  by_cases hroom : limit - h.heapBreak < 16 + size.toNat
  · refine .inl ⟨hroom, ?_⟩
    rw [Wasm.newBlock, if_pos]
    rwa [BitVec.lt_def, htotal, hleft]
  · refine .inr ?_
    have hnew : Wasm.newBlock h size =
        ({ h with
            memory := HeapBlock.setNext (HeapBlock.setFree (HeapBlock.setSize h.memory h.heapBreak
              size) h.heapBreak 0) h.heapBreak 0
            heapBreak := h.heapBreak + 16 + size.toNat }, h.heapBreak + sizeofHeapBlock) := by
      rw [Wasm.newBlock, if_neg (by rwa [BitVec.lt_def, htotal, hleft])]
      simp only [htotal, Nat.add_assoc]
    have hbelow : ∀ a n, a + n ≤ h.heapBreak → read (HeapBlock.setNext (HeapBlock.setFree
        (HeapBlock.setSize h.memory h.heapBreak size) h.heapBreak 0) h.heapBreak 0) a n =
          read h.memory a n := by
      intro a n han
      rw [HeapBlock.setNext, read_setWord (.inr (by omega)), HeapBlock.setFree,
        read_setWord (.inr (by omega)), HeapBlock.setSize, read_setWord (.inr (by omega))]
    have hstop : ∀ b ∈ blocks, b.address + 16 + b.size ≤ h.heapBreak := fun b hb =>
      (hl.tiles.bounds hb).2.1
    rw [hnew]
    refine ⟨rfl,
      { ready := hl.ready
        ends := hl.ends
        tiles := hl.tiles.concat h16
        fits := by dsimp only; omega
        sizes := fun b hb => ?_
        chain := hl.chain.congr fun a ha => ?_
        nodup := hl.nodup
        freed := fun a ha => ?_
        held := fun p bs hp => ?_ }⟩
    · rcases List.mem_append.mp hb with hb | hb
      · have hb' := hstop b hb
        rw [← hl.sizes b hb]
        exact congrArg BitVec.toNat (word_congr (hbelow _ _ (by omega)))
      · obtain rfl := List.mem_singleton.mp hb
        have hsame : HeapBlock.size (HeapBlock.setNext (HeapBlock.setFree (HeapBlock.setSize h.memory
            h.heapBreak size) h.heapBreak 0) h.heapBreak 0) h.heapBreak = size := by
          rw [HeapBlock.size, HeapBlock.setNext, word_setWord_apart (.inr (by omega)),
            HeapBlock.setFree, word_setWord_apart (.inr (by omega)), HeapBlock.setSize, word_setWord]
        exact congrArg BitVec.toNat hsame
    · obtain ⟨⟨b, hb, rfl⟩, -⟩ := hl.freed a ha
      have hb' := hstop b hb
      exact congrArg BitVec.toNat (word_congr (hbelow _ _ (by omega)))
    · obtain ⟨⟨b, hb, rfl⟩, hfree⟩ := hl.freed a ha
      have hb' := hstop b hb
      refine ⟨⟨b, List.mem_append_left _ hb, rfl⟩, ?_⟩
      rwa [HeapBlock.free, word_congr (hbelow _ _ (by omega)), ← HeapBlock.free]
    · obtain ⟨b, hb, rfl, hout, hlen, hread⟩ := hl.held p bs hp
      have hb' := hstop b hb
      refine ⟨b, List.mem_append_left _ hb, rfl, hout, hlen, ?_⟩
      rw [hbelow _ _ (by rw [sizeofHeapBlock]; omega), hread]

/-- A block is got, for as many bytes as its size allows, or there is no room for it. -/
theorem Laid.alloc (hl : Laid start limit h blocks released store) (hstart : 0 < start)
    (hlimit : limit ≤ 2 ^ 32) {size : Size} (hsize : size.toNat ≤ largest) :
    ∃ turns h' p, heapAlloc start turns h size = some (h', p) ∧
      (p = 0 ∧ h' = h ∧ limit - h.heapBreak < size.toNat + 32 ∨
        p ≠ 0 ∧ store p = none ∧ ∃ blocks' released', (∀ b ∈ blocks, b ∈ blocks') ∧
          ∀ n ≤ size.toNat, Laid start limit h' blocks' released'
            (Function.update store p (some (read h'.memory p n)))) := by
  have hinit : heapInit start h = h := by rw [heapInit, if_pos hl.ready]
  obtain ⟨h16, hle, hclose, hmost⟩ := blockSize_toNat hsize
  rcases hl.search (blockSize size) with ⟨turns, hrun⟩ | ⟨pre, a, post, heq, hlarge, turns, hrun⟩
  · have hcall : heapAlloc start turns h size = some (Wasm.newBlock h (blockSize size)) := by
      rw [heapAlloc, hinit, hrun]
      rfl
    refine ⟨turns, (Wasm.newBlock h (blockSize size)).1, (Wasm.newBlock h (blockSize size)).2,
      hcall, ?_⟩
    rcases hl.newBlock hstart hlimit h16 hmost with ⟨hroom, hnone⟩ | ⟨hp, hl'⟩
    · rw [hnone]
      exact .inl ⟨rfl, rfl, by omega⟩
    · rw [hp]
      refine .inr ⟨by rw [sizeofHeapBlock]; omega, ?_, _, _,
        fun b hb => List.mem_append_left _ hb, fun n hn =>
          hl'.hold (b := ⟨h.heapBreak, (blockSize size).toNat⟩) (by simp) (fun hmem => ?_)
            (hn.trans hle)⟩
      · rw [Option.eq_none_iff_forall_not_mem]
        intro bs hbs
        obtain ⟨b, hb, hpb, -⟩ := hl.held _ bs hbs
        have hstop := (hl.tiles.bounds hb).2.1
        rw [Block.stop] at hstop
        omega
      · obtain ⟨⟨b, hb, hba⟩, -⟩ := hl.freed _ hmem
        have hstop := (hl.tiles.bounds hb).2.1
        rw [Block.stop] at hstop
        dsimp only at hba
        omega
  · have hcall : heapAlloc start turns h size = some (Wasm.takeBlock h (linkBehind pre)) := by
      rw [heapAlloc, hinit, hrun]
      rfl
    obtain ⟨hp, hl'⟩ := hl.takeBlock heq
    have ha : a ∈ released := by simp [heq]
    obtain ⟨b, hb, rfl⟩ := (hl.freed a ha).1
    have hfit : (blockSize size).toNat ≤ b.size := hl.sizes b hb ▸ BitVec.le_def.mp hlarge
    refine ⟨turns, (Wasm.takeBlock h (linkBehind pre)).1, (Wasm.takeBlock h (linkBehind pre)).2,
      hcall, .inr ?_⟩
    rw [hp]
    refine ⟨by rw [sizeofHeapBlock]; omega, ?_, _, _, fun b hb => hb, fun n hn =>
      hl'.hold hb (fun hmem => ?_) (hn.trans (hle.trans hfit))⟩
    · rw [Option.eq_none_iff_forall_not_mem]
      intro bs hbs
      obtain ⟨c, hc, hpc, hcout, -⟩ := hl.held _ bs hbs
      exact hcout (by rwa [show c.address = b.address by omega])
    · have hnodup := hl.nodup
      rw [heq, List.nodup_middle] at hnodup
      exact (List.nodup_cons.mp hnodup).1 hmem

end Calls

/-! ## Calls -/

/-- What the program may ask for: no more than fits an address, of what it holds. -/
def Permitted (store : Store) : Op → Prop
  | .malloc size => size.toNat ≤ largest
  | .calloc count size => count.toNat * size.toNat ≤ largest
  | .free pointer => pointer = 0 ∨ (store pointer).isSome
  | .realloc pointer size => (pointer = 0 ∨ (store pointer).isSome) ∧ size.toNat ≤ largest
  | .store pointer index _ => ∃ bs, store pointer = some bs ∧ index < bs.length

/-- What the program holds after a call, with what it finds in a block it is given. -/
def Store.after (store : Store) (h' : Heap) (result : ℕ) : Op → Store
  | .malloc size => if result = 0 then store
      else Function.update store result (some (read h'.memory result size.toNat))
  | .calloc count size => if result = 0 then store
      else Function.update store result (some (read h'.memory result (count.toNat * size.toNat)))
  | .free pointer => Function.update store pointer none
  | .realloc pointer size =>
      if size = 0 ∧ pointer ≠ 0 then Function.update store pointer none
      else if result = 0 then store
      else Function.update (Function.update store pointer none) result
        (some (read h'.memory result size.toNat))
  | .store pointer index byte =>
      Function.update store pointer ((store pointer).map (·.set index byte))

/-- A block that is given is held by nobody, is clear after `calloc`, and goes on with what was
there after `realloc`. -/
def Answers (store : Store) (h' : Heap) (result : ℕ) : Op → Prop
  | .malloc _ => result = 0 ∨ store result = none
  | .calloc count size => result = 0 ∨ store result = none ∧
      read h'.memory result (count.toNat * size.toNat) =
        List.replicate (count.toNat * size.toNat) 0
  | .free _ => result = 0
  | .realloc pointer size => result = 0 ∨ (result = pointer ∨ store result = none) ∧
      ∀ bs, store pointer = some bs →
        (read h'.memory result size.toNat).take bs.length = bs.take size.toNat
  | .store _ _ _ => result = 0

/-- A heap that is laid out, or was not used before. -/
def Safe (start : ℕ) (h : Heap) (store : Store) : Prop :=
  h.ready = false ∧ (∀ p, store p = none) ∨
    ∃ blocks released, Laid start (start + sizeofStaticHeap) h blocks released store

section Steps

variable {start : ℕ} {h : Heap} {store : Store}

theorem Safe.init (hs : Safe start h store) :
    ∃ blocks released,
      Laid start (start + sizeofStaticHeap) (heapInit start h) blocks released store := by
  rcases hs with ⟨hready, hnone⟩ | ⟨blocks, released, hl⟩
  · refine ⟨[], [], ?_⟩
    rw [heapInit, hready, if_neg Bool.false_ne_true]
    exact
      { ready := rfl
        ends := rfl
        tiles := rfl
        fits := Nat.le_add_right start sizeofStaticHeap
        sizes := fun b hb => by cases hb
        chain := rfl
        nodup := List.nodup_nil
        freed := fun a ha => by cases ha
        held := fun p bs hp => by rw [hnone] at hp; cases hp }
  · rw [heapInit, if_pos hl.ready]
    exact ⟨blocks, released, hl⟩

theorem heapInit_ready (start : ℕ) (h : Heap) : (heapInit start h).ready = true := by
  rw [heapInit]
  split
  case isTrue h => exact h
  case isFalse => rfl

theorem heapInit_twice (start : ℕ) (h : Heap) :
    heapInit start (heapInit start h) = heapInit start h :=
  if_pos (heapInit_ready start h)

theorem heapAlloc_init (turns : ℕ) (size : Size) :
    heapAlloc start turns (heapInit start h) size = heapAlloc start turns h size := by
  rw [heapAlloc, heapInit_twice]
  rfl

theorem Safe.laid (hs : Safe start h store) {p : ℕ} {bs : List WordBytes.Byte}
    (hp : store p = some bs) :
    ∃ blocks released, Laid start (start + sizeofStaticHeap) h blocks released store := by
  rcases hs with ⟨-, hnone⟩ | hl
  · rw [hnone p] at hp
    cases hp
  · exact hl

theorem Safe.zero (hs : Safe start h store) : store 0 = none := by
  cases h0 : store 0 with
  | none => rfl
  | some bs =>
      obtain ⟨blocks, released, hl⟩ := hs.laid h0
      obtain ⟨b, -, hb, -⟩ := hl.held 0 bs h0
      rw [sizeofHeapBlock] at hb
      omega

theorem setWidth_toNat {size : BitVec 64} (hsize : size.toNat ≤ largest) :
    (size.setWidth 32).toNat = size.toNat := by
  rw [largest] at hsize
  rw [BitVec.toNat_setWidth, Nat.mod_eq_of_lt (by omega)]

variable (hstart : 0 < start) (hfit : start + sizeofStaticHeap ≤ 2 ^ 32)
include hstart hfit

theorem Safe.alloc (hs : Safe start h store) {size : Size} (hsize : size.toNat ≤ largest) :
    ∃ turns h' p, heapAlloc start turns h size = some (h', p) ∧
      (p = 0 ∧ Safe start h' store ∨ p ≠ 0 ∧ store p = none ∧ ∃ blocks released, ∀ n ≤ size.toNat,
        Laid start (start + sizeofStaticHeap) h' blocks released
          (Function.update store p (some (read h'.memory p n)))) := by
  obtain ⟨blocks, released, hl⟩ := hs.init
  obtain ⟨turns, h', p, hcall, hp⟩ := hl.alloc hstart hfit hsize
  refine ⟨turns, h', p, (heapAlloc_init turns size).symm.trans hcall, ?_⟩
  rcases hp with ⟨rfl, rfl, -⟩ | ⟨hp, hnone, blocks', released', -, hl'⟩
  · exact .inl ⟨rfl, .inr ⟨blocks, released, hl⟩⟩
  · exact .inr ⟨hp, hnone, blocks', released', hl'⟩

theorem Safe.malloc (hs : Safe start h store) {size : BitVec 64} (hsize : size.toNat ≤ largest) :
    ∃ turns h' p, Wasm.malloc start turns h size = some (h', p) ∧ (p = 0 ∨ store p = none) ∧
      Safe start h' (if p = 0 then store
        else Function.update store p (some (read h'.memory p size.toNat))) := by
  have hwidth := setWidth_toNat hsize
  obtain ⟨turns, h', p, hcall, ⟨rfl, hs'⟩ | ⟨hp, hnone, blocks, released, hl⟩⟩ :=
    hs.alloc hstart hfit (hwidth.trans_le hsize)
  · exact ⟨turns, h', 0, hcall, .inl rfl, by rwa [if_pos rfl]⟩
  · refine ⟨turns, h', p, hcall, .inr hnone, ?_⟩
    rw [if_neg hp]
    exact .inr ⟨blocks, released, hl _ hwidth.ge⟩

theorem Safe.calloc (hs : Safe start h store) {count size : BitVec 64}
    (hsize : count.toNat * size.toNat ≤ largest) :
    ∃ turns h' p, Wasm.calloc start turns h count size = some (h', p) ∧
      (p = 0 ∨ store p = none ∧ read h'.memory p (count.toNat * size.toNat) =
        List.replicate (count.toNat * size.toNat) 0) ∧
      Safe start h' (if p = 0 then store
        else Function.update store p (some (read h'.memory p (count.toNat * size.toNat)))) := by
  have htotal : (count * size).toNat = count.toNat * size.toNat := by
    rw [BitVec.toNat_mul, Nat.mod_eq_of_lt (hsize.trans_lt (by decide))]
  rw [← htotal] at hsize ⊢
  have hwidth := setWidth_toNat hsize
  have hasked : ((if count * size = 0 then 1 else count * size).setWidth 32).toNat ≤ largest ∧
      (count * size).toNat ≤ ((if count * size = 0 then 1 else count * size).setWidth 32).toNat := by
    split
    case isTrue h0 => rw [h0]; decide
    case isFalse => exact ⟨hwidth.trans_le hsize, hwidth.ge⟩
  obtain ⟨turns, h', p, hcall, ⟨rfl, hs'⟩ | ⟨hp, hnone, blocks, released, hl⟩⟩ :=
    hs.alloc hstart hfit hasked.1
  · refine ⟨turns, h', 0, ?_, .inl rfl, by rwa [if_pos rfl]⟩
    rw [Wasm.calloc, hcall]
    rfl
  · have hclear := (hl _ hasked.2).write (i := 0) (List.replicate (count * size).toNat 0)
      (Function.update_self ..) (by simp)
    rw [Function.update_idem, Nat.add_zero, List.take_zero, List.nil_append, List.length_replicate,
      Nat.zero_add, List.drop_of_length_le (by rw [length_read]), List.append_nil,
      ← clear_eq] at hclear
    have hread : read (clear h'.memory p (count * size).toNat) p (count * size).toNat =
        List.replicate (count * size).toNat 0 := by
      have h := read_write h'.memory p (List.replicate (count * size).toNat 0)
      rwa [List.length_replicate, ← clear_eq] at h
    refine ⟨turns, { h' with memory := clear h'.memory p (count * size).toNat }, p, ?_,
      .inr ⟨hnone, hread⟩, ?_⟩
    · rw [Wasm.calloc, hcall]
      simp only [Option.bind_eq_bind, Option.bind_some, if_neg hp, hwidth]
      rfl
    · rw [if_neg hp, hread]
      exact .inr ⟨blocks, released, hclear⟩

/-- A block that is large enough stays; else what it holds is copied to another one, and it is
released. -/
theorem Safe.moved (hs : Safe start h store) {p : ℕ} {bs : List WordBytes.Byte}
    (hp : store p = some bs) {size : BitVec 64} (hsize : size.toNat ≤ largest) (h0 : size ≠ 0) :
    ∃ turns h' q, Wasm.realloc start turns h p size = some (h', q) ∧
      (q = 0 ∨ (q = p ∨ store q = none) ∧
        (read h'.memory q size.toNat).take bs.length = bs.take size.toNat) ∧
      Safe start h' (if q = 0 then store
        else Function.update (Function.update store p none) q
          (some (read h'.memory q size.toNat))) := by
  have hwidth := setWidth_toNat hsize
  obtain ⟨blocks, released, hl⟩ := hs.laid hp
  obtain ⟨b, hb, rfl, hout, hlen, hread⟩ := hl.held p bs hp
  have hp0 : b.address + sizeofHeapBlock ≠ 0 := by rw [sizeofHeapBlock]; omega
  by_cases hfits : size.setWidth 32 ≤ HeapBlock.size h.memory b.address
  · have hle : size.toNat ≤ b.size := by
      rw [← hl.sizes b hb, ← hwidth]
      exact BitVec.le_def.mp hfits
    refine ⟨0, h, b.address + sizeofHeapBlock, ?_, .inr ⟨.inl rfl, ?_⟩, ?_⟩
    · rw [Wasm.realloc, if_neg hp0, if_neg h0, Nat.add_sub_cancel, if_pos hfits]
      rfl
    · rw [← hread, length_read]
      rcases Nat.le_total bs.length size.toNat with h | h
      · rw [take_read h, List.take_of_length_le (by rwa [length_read])]
      · rw [take_read h, List.take_of_length_le (by rwa [length_read])]
    · rw [if_neg hp0, Function.update_idem]
      exact .inr ⟨blocks, released, hl.hold hb hout hle⟩
  · have hgt : b.size < size.toNat := by
      rw [← hl.sizes b hb, ← hwidth]
      exact Nat.lt_of_not_le fun h => hfits (BitVec.le_def.mpr h)
    obtain ⟨turns, h', q, hcall, ⟨rfl, rfl, -⟩ | ⟨hq, hnone, blocks', released', hsub, hl'⟩⟩ :=
      hl.alloc hstart hfit (hwidth.trans_le hsize)
    · refine ⟨turns, h', 0, ?_, .inl rfl, .inr ⟨blocks, released, by rwa [if_pos rfl]⟩⟩
      rw [Wasm.realloc, if_neg hp0, if_neg h0, Nat.add_sub_cancel, if_neg hfits, hcall]
      rfl
    · have hl' := hl' size.toNat hwidth.ge
      have hne : b.address + sizeofHeapBlock ≠ q := by
        rintro rfl
        rw [hnone] at hp
        cases hp
      obtain ⟨d, hd, hqd, -, hdlen, -⟩ := hl'.held q _ (Function.update_self ..)
      obtain ⟨c, -, -, -, -, hkept⟩ := hl'.held (b.address + sizeofHeapBlock) bs
        (by rw [Function.update_of_ne hne, hp])
      rw [length_read] at hdlen
      have hapart : Apart q b.size (b.address + sizeofHeapBlock) b.size := by
        rw [hqd]
        refine hl'.tiles.apart_rows hd (hsub b hb) (by rw [sizeofHeapBlock]; omega)
          (by rw [sizeofHeapBlock]; omega) (.inl ?_)
        rintro rfl
        exact hne hqd.symm
      have hwrite := hl'.write (i := 0)
        (read h'.memory (b.address + sizeofHeapBlock) b.size) (Function.update_self ..)
        (by rw [length_read, length_read]; omega)
      rw [Function.update_idem, Nat.add_zero, List.take_zero, List.nil_append, length_read,
        Nat.zero_add, ← copy_eq hapart] at hwrite
      obtain ⟨released'', hfree⟩ := hwrite.free hstart hfit
        ((Function.update_of_ne hne _ _).trans hp)
      have hthere := (hfree.held q _ (by rw [Function.update_of_ne hne.symm,
        Function.update_self])).choose_spec.2.2.2.2
      have hlength : (read h'.memory (b.address + sizeofHeapBlock) b.size ++
          (read h'.memory q size.toNat).drop b.size).length = size.toNat := by
        simp
        omega
      rw [hlength] at hthere
      refine ⟨turns, Wasm.free
        { h' with memory := copy h'.memory q (b.address + sizeofHeapBlock) b.size }
        (b.address + sizeofHeapBlock), q, ?_, .inr ⟨.inr hnone, ?_⟩, ?_⟩
      · rw [Wasm.realloc, if_neg hp0, if_neg h0, Nat.add_sub_cancel, if_neg hfits, hcall]
        simp only [Option.bind_eq_bind, Option.bind_some, if_neg hq, hl.sizes b hb]
        rfl
      · rw [hthere, List.take_append_of_le_length (by rwa [length_read]), take_read hlen, hkept,
          List.take_of_length_le (by omega)]
      · rw [if_neg hq, hthere, Function.update_comm hne]
        exact .inr ⟨blocks', released'', hfree⟩

/-- Every call that is permitted comes back with what it should. -/
theorem Safe.exec (hs : Safe start h store) {op : Op} (hop : Permitted store op) :
    ∃ turns h' r, op.exec start turns h = some (h', r) ∧ Answers store h' r op ∧
      Safe start h' (store.after h' r op) := by
  cases op with
  | malloc size => exact hs.malloc hstart hfit hop
  | calloc count size => exact hs.calloc hstart hfit hop
  | free pointer =>
      refine ⟨0, Wasm.free h pointer, 0, rfl, rfl, ?_⟩
      rcases hop with rfl | hop
      · have hnone : Function.update store 0 none = store := by
          rw [← hs.zero, Function.update_eq_self]
        rwa [Wasm.free, if_pos rfl, Store.after, hnone]
      · obtain ⟨bs, hp⟩ := Option.isSome_iff_exists.mp hop
        obtain ⟨blocks, released, hl⟩ := hs.laid hp
        obtain ⟨released', hl'⟩ := hl.free hstart hfit hp
        exact .inr ⟨blocks, released', hl'⟩
  | realloc pointer size =>
      obtain ⟨hpointer, hsize⟩ := hop
      by_cases hp0 : pointer = 0
      · subst hp0
        obtain ⟨turns, h', r, hcall, hr, hs'⟩ := hs.malloc hstart hfit hsize
        refine ⟨turns, h', r, hcall, hr.imp_right fun hr => ⟨.inr hr, fun bs hbs => ?_⟩, ?_⟩
        · rw [hs.zero] at hbs
          cases hbs
        · have hnone : Function.update store 0 none = store := by
            rw [← hs.zero, Function.update_eq_self]
          rwa [Store.after, if_neg (fun h => h.2 rfl), hnone]
      · obtain ⟨bs, hp⟩ := Option.isSome_iff_exists.mp (hpointer.resolve_left hp0)
        by_cases h0 : size = 0
        · obtain ⟨blocks, released, hl⟩ := hs.laid hp
          obtain ⟨released', hl'⟩ := hl.free hstart hfit hp
          refine ⟨0, Wasm.free h pointer, 0, ?_, .inl rfl, ?_⟩
          · rw [Op.exec, Wasm.realloc, if_neg hp0, if_pos h0]
            rfl
          · rw [Store.after, if_pos ⟨h0, hp0⟩]
            exact .inr ⟨blocks, released', hl'⟩
        · obtain ⟨turns, h', q, hcall, hq, hs'⟩ := hs.moved hstart hfit hp hsize h0
          refine ⟨turns, h', q, hcall, hq.imp_right fun hq => ⟨hq.1, fun cs hcs => ?_⟩, ?_⟩
          · rw [hp] at hcs
            obtain rfl := Option.some.inj hcs
            exact hq.2
          · rwa [Store.after, if_neg fun h => h0 h.1]
  | store pointer index byte =>
      obtain ⟨bs, hp, hi⟩ := hop
      obtain ⟨blocks, released, hl⟩ := hs.laid hp
      refine ⟨0, _, 0, rfl, rfl, .inr ⟨blocks, released, ?_⟩⟩
      have hwrite := hl.write [byte] hp (Nat.succ_le_of_lt hi)
      have hset : bs.set index byte = bs.take index ++ byte :: bs.drop (index + 1) := by
        rw [List.set_eq_take_append_cons_drop, if_pos hi]
      rw [List.append_assoc, List.length_singleton, List.singleton_append, ← hset] at hwrite
      rwa [Store.after, hp]

end Steps

/-! ## Runs -/

/-- A call of the program, with what it holds before and after. -/
def Step (start : ℕ) (s : Heap × Store) (op : Op) (s' : Heap × Store) : Prop :=
  Permitted s.2 op ∧ ∃ turns r, op.exec start turns s.1 = some (s'.1, r) ∧ s'.2 = s.2.after s'.1 r op

theorem heapAlloc_unique {start n k : ℕ} {h : Heap} {size : Size} {x y : Heap × ℕ}
    (hx : heapAlloc start n h size = some x) (hy : heapAlloc start k h size = some y) : x = y := by
  obtain ⟨r, hr, rfl⟩ := Option.map_eq_some_iff.mp hx
  obtain ⟨r', hr', rfl⟩ := Option.map_eq_some_iff.mp hy
  rw [run_unique hr hr']

/-- However many turns the search is given, the call comes back with the same. -/
theorem exec_unique {start n k : ℕ} {h : Heap} {op : Op} {x y : Heap × ℕ}
    (hx : op.exec start n h = some x) (hy : op.exec start k h = some y) : x = y := by
  cases op with
  | malloc size => exact heapAlloc_unique hx hy
  | calloc count size =>
      obtain ⟨r, hr, hx⟩ := Option.bind_eq_some_iff.mp hx
      obtain ⟨r', hr', hy⟩ := Option.bind_eq_some_iff.mp hy
      obtain rfl := heapAlloc_unique hr hr'
      exact Option.some.inj (hx.symm.trans hy)
  | free pointer => exact Option.some.inj (hx.symm.trans hy)
  | realloc pointer size =>
      rw [Op.exec, realloc] at hx hy
      by_cases hp : pointer = 0
      · rw [if_pos hp] at hx hy
        exact heapAlloc_unique hx hy
      rw [if_neg hp] at hx hy
      by_cases h0 : size = 0
      · rw [if_pos h0] at hx hy
        exact Option.some.inj (hx.symm.trans hy)
      rw [if_neg h0] at hx hy
      by_cases hfits : size.setWidth 32 ≤ HeapBlock.size h.memory (pointer - sizeofHeapBlock)
      · rw [if_pos hfits] at hx hy
        exact Option.some.inj (hx.symm.trans hy)
      · rw [if_neg hfits] at hx hy
        obtain ⟨r, hr, hx⟩ := Option.bind_eq_some_iff.mp hx
        obtain ⟨r', hr', hy⟩ := Option.bind_eq_some_iff.mp hy
        obtain rfl := heapAlloc_unique hr hr'
        exact Option.some.inj (hx.symm.trans hy)
  | store pointer index byte => exact Option.some.inj (hx.symm.trans hy)

theorem Safe.run {start : ℕ} (hstart : 0 < start) (hfit : start + sizeofStaticHeap ≤ 2 ^ 32)
    {memory : Cells} {past : List Op} {s : Heap × Store}
    (hrun : Run (Step start) ({ memory := memory }, fun _ => none) past s) : Safe start s.1 s.2 := by
  refine hrun.stateInvariant (I := fun s => Safe start s.1 s.2) (.inl ⟨rfl, fun _ => rfl⟩)
    fun s op s' hs hstep => ?_
  obtain ⟨hop, turns, r, hexec, hafter⟩ := hstep
  obtain ⟨turns', h', r', hexec', -, hs'⟩ := Safe.exec hstart hfit hs hop
  obtain ⟨rfl, rfl⟩ := Prod.mk.inj (exec_unique hexec hexec')
  rwa [hafter]

end Wasm

end Absolute
