import Absolute.LibWordBytes

/-!
# A flat memory

A memory is a byte at every address; bytes are read and written in rows, and words as the rows of
their bytes. What is read back is what was written last there (`FlatMemory.read_write`), and a
write leaves a row alone that it does not reach (`FlatMemory.read_write_apart`). Loops that clear
a row or copy one onto another write that row (`FlatMemory.clear_eq`, `FlatMemory.copy_eq`).
-/

namespace FlatMemory

open WordBytes

abbrev Cells : Type := ℕ → Byte

/-- The `n` bytes from address `a` on. -/
def read (m : Cells) (a n : ℕ) : List Byte := (List.range n).map fun i => m (a + i)

/-- The memory with `bs` from address `a` on. -/
def write (m : Cells) (a : ℕ) (bs : List Byte) : Cells :=
  fun i => if a ≤ i ∧ i < a + bs.length then bs.getD (i - a) 0 else m i

/-- Rows of `n` and `k` bytes that share no address. -/
def Apart (a n b k : ℕ) : Prop := a + n ≤ b ∨ b + k ≤ a

variable {m m' : Cells} {a b n k : ℕ} {bs : List Byte}

theorem Apart.symm (h : Apart a n b k) : Apart b k a n := Or.symm h

theorem Apart.mono {n' k' : ℕ} (h : Apart a n b k) (hn : n' ≤ n) (hk : k' ≤ k) :
    Apart a n' b k' := by
  rcases h with h | h
  · exact .inl (by omega)
  · exact .inr (by omega)

@[simp] theorem length_read : (read m a n).length = n := by simp [read]

theorem getElem_read {i : ℕ} (h : i < (read m a n).length) : (read m a n)[i] = m (a + i) := by
  simp [read]

theorem read_congr (h : ∀ i < n, m (a + i) = m' (b + i)) : read m a n = read m' b n :=
  List.map_congr_left fun i hi => h i (List.mem_range.mp hi)

theorem read_append (m : Cells) (a n k : ℕ) :
    read m a (n + k) = read m a n ++ read m (a + n) k := by
  rw [read, List.range_add, List.map_append, List.map_map]
  congr 1
  refine List.map_congr_left fun i _ => ?_
  rw [Function.comp, Nat.add_assoc]

theorem take_read (h : k ≤ n) : (read m a n).take k = read m a k := by
  obtain ⟨d, rfl⟩ := Nat.exists_eq_add_of_le h
  rw [read_append, List.take_left' length_read]

/-! ## Writing -/

theorem write_at {i : ℕ} (h : i < bs.length) : write m a bs (a + i) = bs[i] := by
  rw [write, if_pos ⟨Nat.le_add_right a i, Nat.add_lt_add_left h a⟩, Nat.add_sub_cancel_left,
    List.getD_eq_getElem _ _ h]

theorem write_off {i : ℕ} (h : i < a ∨ a + bs.length ≤ i) : write m a bs i = m i :=
  if_neg (by omega)

theorem read_write (m : Cells) (a : ℕ) (bs : List Byte) : read (write m a bs) a bs.length = bs := by
  refine List.ext_getElem length_read fun i h _ => ?_
  rw [getElem_read, write_at]

theorem read_write_apart (h : Apart a bs.length b n) : read (write m a bs) b n = read m b n := by
  refine read_congr fun i hi => write_off ?_
  rcases h with h | h
  · exact .inr (by omega)
  · exact .inl (by omega)

/-- A row, a part of which is written. -/
theorem read_write_row {i : ℕ} (h : i + bs.length ≤ n) :
    read (write m (a + i) bs) a n =
      (read m a n).take i ++ bs ++ (read m a n).drop (i + bs.length) := by
  obtain ⟨k, rfl⟩ := Nat.exists_eq_add_of_le h
  have hlow : read (write m (a + i) bs) a i = read m a i := read_write_apart (.inr le_rfl)
  have hhigh : read (write m (a + i) bs) (a + (i + bs.length)) k = read m (a + (i + bs.length)) k :=
    read_write_apart (.inl (by omega))
  rw [read_append, read_append, hlow, read_write, hhigh, take_read (by omega), read_append m a,
    List.drop_left' length_read]

theorem write_nil (m : Cells) (a : ℕ) : write m a [] = m := by
  funext i
  exact write_off (by simp; omega)

/-- One byte after the other. -/
theorem write_concat (m : Cells) (a : ℕ) (bs : List Byte) (c : Byte) :
    write m a (bs ++ [c]) = Function.update (write m a bs) (a + bs.length) c := by
  funext i
  rcases lt_trichotomy i (a + bs.length) with h | rfl | h
  · rw [Function.update_of_ne (by omega), write, write]
    by_cases hi : a ≤ i
    · rw [if_pos (by simp; omega), if_pos (by omega),
        List.getD_append _ _ _ _ (by omega)]
    · rw [if_neg (by omega), if_neg (by omega)]
  · rw [Function.update_self, write_at (by simp)]
    simp
  · rw [Function.update_of_ne (by omega), write_off (.inr (by simp; omega)),
      write_off (.inr (by omega))]

/-! ## Words -/

/-- The word at `a`, its lowest byte first. -/
def word (m : Cells) (a : ℕ) : BitVec 32 := assemble 32 (read m a 4)

def setWord (m : Cells) (a : ℕ) (v : BitVec 32) : Cells := write m a (bytesOf 4 v)

theorem word_congr (h : read m a 4 = read m' b 4) : word m a = word m' b := congrArg _ h

@[simp] theorem word_setWord (m : Cells) (a : ℕ) (v : BitVec 32) : word (setWord m a v) a = v := by
  have hread : read (write m a (bytesOf 4 v)) a 4 = bytesOf 4 v := by
    have h := read_write m a (bytesOf 4 v)
    rwa [length_bytesOf] at h
  rw [word, setWord, hread, assemble_bytesOf v rfl]

theorem read_setWord {v : BitVec 32} (h : Apart a 4 b n) :
    read (setWord m a v) b n = read m b n :=
  read_write_apart (by rwa [length_bytesOf])

theorem word_setWord_apart {v : BitVec 32} (h : Apart a 4 b 4) :
    word (setWord m a v) b = word m b :=
  word_congr (read_setWord h)

theorem word_write_apart (h : Apart a bs.length b 4) : word (write m a bs) b = word m b :=
  word_congr (read_write_apart h)

/-! ## Loops over a row -/

/-- `for (i = 0; i < n; ++i) a[i] = 0` -/
def clear (m : Cells) (a n : ℕ) : Cells :=
  (List.range n).foldl (fun m i => Function.update m (a + i) 0) m

/-- `for (i = 0; i < n; ++i) dst[i] = src[i]` -/
def copy (m : Cells) (dst src n : ℕ) : Cells :=
  (List.range n).foldl (fun m i => Function.update m (dst + i) (m (src + i))) m

theorem clear_eq (m : Cells) (a n : ℕ) : clear m a n = write m a (List.replicate n 0) := by
  induction n with
  | zero => exact (write_nil m a).symm
  | succ n ih =>
      rw [clear, List.range_succ, List.foldl_append, ← clear, ih, List.replicate_succ',
        write_concat, List.length_replicate]
      rfl

/-- A row copied onto one that lies apart. -/
theorem copy_eq {dst src : ℕ} (h : Apart dst n src n) :
    copy m dst src n = write m dst (read m src n) := by
  induction n with
  | zero => exact (write_nil m dst).symm
  | succ n ih =>
      have hsrc : read m src (n + 1) = read m src n ++ [m (src + n)] := by
        rw [read_append]
        simp [read]
      rw [copy, List.range_succ, List.foldl_append, ← copy,
        ih (h.mono (Nat.le_succ n) (Nat.le_succ n)), hsrc, write_concat, length_read]
      simp only [List.foldl_cons, List.foldl_nil]
      rw [write_off (m := m) (i := src + n) (by rcases h with h | h <;> simp <;> omega)]

end FlatMemory
