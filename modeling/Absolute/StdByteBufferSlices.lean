import Absolute.StdByteBufferBounds
import Absolute.StdByteBufferProtocol

/-!
# Slices stay in the data of their buffer

A slice is part of the buffer it is made of, at any depth, where the sum that bounds it does not
overflow. A call on a buffer whose data is part of another's is confined to that other's data:
nothing else tells its answers apart (`Raising.Respects`), and it leaves all other bytes
(`Raising.Moves`).
-/

namespace Absolute

namespace StdBytes

open Raising (Respects Moves)
open WordBytes (Byte writeFrom)

/-! ## Data in data -/

/-- The data of a handle is part of another's. -/
structure Handle.Part (h root : Handle) : Prop where
  block : h.block = root.block
  data : root.data ≤ h.data
  size : h.data + h.capacity.toInt.toNat ≤ root.data + root.capacity.toInt.toNat

theorem Handle.Part.refl (h : Handle) : h.Part h := ⟨rfl, le_rfl, le_rfl⟩

theorem Handle.Part.trans {h h' root : Handle} (hpart : h.Part h') (hpart' : h'.Part root) :
    h.Part root :=
  ⟨hpart.block.trans hpart'.block, hpart'.data.trans hpart.data, hpart.size.trans hpart'.size⟩

theorem Handle.Part.inside {h root : Handle} (hpart : h.Part root) {memory : Memory}
    (hinside : root.Inside memory) : h.Inside memory := by
  obtain ⟨block, hblock, hsize⟩ := hinside
  exact ⟨block, hpart.block ▸ hblock, hpart.size.trans hsize⟩

/-- A place in the data of a handle. -/
def Handle.Has (h : Handle) (block place : ℕ) : Prop :=
  block = h.block ∧ h.data ≤ place ∧ place < h.data + h.capacity.toInt.toNat

/-- The data of a handle is the same in two storages. -/
structure Handle.SameData (h : Handle) (memory memory' : Memory) : Prop where
  inside : h.Inside memory
  inside' : h.Inside memory'
  byteAt_eq : ∀ block place, h.Has block place → byteAt memory block place = byteAt memory' block place

/-- Calls on one buffer, with the same data. -/
structure SameView (root : Handle) (s s' : This) : Prop where
  buffer : s.buffer = s'.buffer
  part : s.buffer.handle.Part root
  data : root.SameData s.memory s'.memory

/-- All bytes outside are left. -/
def LeavesOthers (root : Handle) (s t : This) : Prop :=
  s.buffer.handle.Part root → root.Inside s.memory →
    t.buffer.handle = s.buffer.handle ∧ root.Inside t.memory ∧
      ∀ block place, ¬root.Has block place → byteAt t.memory block place = byteAt s.memory block place

/-- A call that sees and touches nothing outside. -/
structure Confined {α : Type} (root : Handle) (method : Method α) : Prop where
  sees : Respects (SameView root) method
  touches : Moves (LeavesOthers root) method

variable {root : Handle} {α β : Type} {s : This}

theorem LeavesOthers.refl (s : This) : LeavesOthers root s s :=
  fun _ hinside => ⟨rfl, hinside, fun _ _ _ => rfl⟩

theorem LeavesOthers.trans (s t u : This) (h : LeavesOthers root s t) (h' : LeavesOthers root t u) :
    LeavesOthers root s u := by
  intro hpart hinside
  obtain ⟨hhandle, hinside', hothers⟩ := h hpart hinside
  obtain ⟨hhandle', hinside'', hothers'⟩ := h' (hhandle ▸ hpart) hinside'
  exact ⟨hhandle'.trans hhandle, hinside'', fun block place hout =>
    (hothers' block place hout).trans (hothers block place hout)⟩

theorem Confined.pure (a : α) : Confined root (pure a : Method α) :=
  ⟨.pure a, LeavesOthers.refl⟩

theorem Confined.bind {method : Method α} {f : α → Method β} (h : Confined root method)
    (hf : ∀ a, Confined root (f a)) : Confined root (method >>= f) :=
  ⟨h.sees.bind fun a => (hf a).sees, h.touches.bind LeavesOthers.trans fun a => (hf a).touches⟩

/-- A call that looks at its buffer. -/
theorem Confined.get_bind {f : This → Method β} (hbuffer : ∀ s s', s.buffer = s'.buffer → f s = f s')
    (hf : ∀ s, Confined root (f s)) : Confined root (MonadState.get >>= f) where
  sees := .get_bind (fun s s' h => hbuffer s s' h.buffer) fun s => (hf s).sees
  touches := Moves.bind LeavesOthers.trans LeavesOthers.refl fun s => (hf s).touches

theorem Confined.adjust (fault : ByteBuffer → Option String) {write : ByteBuffer → ByteBuffer}
    (hwrite : ∀ b, (write b).handle = b.handle) : Confined root (adjust fault write) where
  sees := .guarded (fun s s' h => by rw [h.buffer]) fun s s' h =>
    ⟨congrArg write h.buffer, by rw [hwrite]; exact h.part, h.data⟩
  touches := .guarded LeavesOthers.refl fun s _ hinside =>
    ⟨hwrite s.buffer, hinside, fun _ _ _ => rfl⟩

theorem Confined.check (refuses : ByteBuffer → Prop) [DecidablePred refuses] (message : String) :
    Confined root (check refuses message) :=
  .adjust _ fun _ => rfl

/-! ## The runtime -/

theorem runtime_of_none {call : Handle → Memory → Option α}
    (h : call s.buffer.handle s.memory = none) : runtime call s = .error .undefined s := by
  refine Raising.bind_eq_error.mpr (.inr ⟨s, s, rfl, ?_⟩)
  rw [h]
  rfl

/-- A call of the runtime that answers the same for the same data. -/
theorem Confined.runtime {call : Handle → Memory → Option α}
    (hcall : ∀ h memory memory', h.Part root → root.SameData memory memory' →
      call h memory = call h memory') : Confined root (runtime call) := by
  constructor
  · intro s s' hsame
    have hsome := hcall _ _ _ hsame.part hsame.data
    rw [hsame.buffer] at hsome
    cases h : call s'.buffer.handle s'.memory with
    | some a =>
      rw [runtime_of_some h, runtime_of_some (hsame.buffer ▸ hsome.trans h)]
      exact ⟨rfl, hsame⟩
    | none =>
      rw [runtime_of_none h, runtime_of_none (hsame.buffer ▸ hsome.trans h)]
      exact ⟨rfl, hsame⟩
  · intro s
    cases h : call s.buffer.handle s.memory with
    | some a =>
      rw [runtime_of_some h]
      exact .refl s
    | none =>
      rw [runtime_of_none h]
      exact .refl s

/-- A call of the runtime that makes the same changes to the same data, and no others. -/
theorem Confined.storing {call : Handle → Memory → Option Memory}
    (hcall : ∀ h memory memory', h.Part root → root.SameData memory memory' →
      (call h memory = none ∧ call h memory' = none) ∨
        ∃ changed changed', call h memory = some changed ∧ call h memory' = some changed' ∧
          root.SameData changed changed')
    (hothers : ∀ h memory changed, h.Part root → root.Inside memory → call h memory = some changed →
      root.Inside changed ∧
        ∀ block place, ¬root.Has block place → byteAt changed block place = byteAt memory block place) :
    Confined root (StdBytes.runtime call >>= store) := by
  constructor
  · intro s s' hsame
    have hboth := hcall _ _ _ hsame.part hsame.data
    rcases hboth with ⟨hnone, hnone'⟩ | ⟨changed, changed', hsome, hsome', hdata⟩
    · rw [hsame.buffer] at hnone'
      rw [Raising.bind_eq_error.mpr (.inl (runtime_of_none hnone)),
        Raising.bind_eq_error.mpr (.inl (runtime_of_none hnone'))]
      exact ⟨rfl, hsame⟩
    · rw [hsame.buffer] at hsome'
      rw [Raising.bind_of_ok (runtime_of_some hsome), Raising.bind_of_ok (runtime_of_some hsome')]
      exact ⟨rfl, hsame.buffer, hsame.part, hdata⟩
  · intro s
    cases h : call s.buffer.handle s.memory with
    | some changed =>
      rw [Raising.bind_of_ok (runtime_of_some h)]
      intro hpart hinside
      obtain ⟨hinside', hsame⟩ := hothers _ _ _ hpart hinside h
      exact ⟨rfl, hinside', hsame⟩
    | none =>
      rw [Raising.bind_eq_error.mpr (.inl (runtime_of_none h))]
      exact .refl s

/-- The data of a handle, from the front on. -/
theorem Handle.SameData.of_getElem? {memory memory' : Memory} (hinside : root.Inside memory)
    (hinside' : root.Inside memory')
    (h : ∀ block block', memory[root.block]? = some block → memory'[root.block]? = some block' →
      ∀ place, root.data ≤ place → place < root.data + root.capacity.toInt.toNat →
        block[place]? = block'[place]?) : root.SameData memory memory' := by
  refine ⟨hinside, hinside', ?_⟩
  rintro k place ⟨rfl, hge, hlt⟩
  obtain ⟨block, hblock, -⟩ := hinside
  obtain ⟨block', hblock', -⟩ := hinside'
  rw [byteAt, byteAt, hblock, hblock']
  exact h block block' hblock hblock' place hge hlt

theorem Handle.SameData.getElem? {memory memory' : Memory} (h : root.SameData memory memory')
    {block block' : List Byte} (hblock : memory[root.block]? = some block)
    (hblock' : memory'[root.block]? = some block') {place : ℕ} (hge : root.data ≤ place)
    (hlt : place < root.data + root.capacity.toInt.toNat) : block[place]? = block'[place]? := by
  have hsame := h.byteAt_eq root.block place ⟨rfl, hge, hlt⟩
  rwa [byteAt, byteAt, hblock, hblock'] at hsame

/-- A place that is not outside of a handle is in the data of whatever it is part of. -/
theorem Handle.Part.place_lt {h : Handle} (hpart : h.Part root) {offset : Int64}
    (hnot : ¬h.Outside offset) :
    root.data ≤ h.place offset ∧ h.place offset < root.data + root.capacity.toInt.toNat := by
  simp only [Handle.Outside, not_or, ge_iff_le, Int64.lt_iff_toInt_lt, Int64.le_iff_toInt_le,
    Int64.toInt_zero, not_lt, not_le] at hnot
  have hdata := hpart.data
  have hsize := hpart.size
  rw [Handle.place]
  omega

theorem Confined.readByte (index : Int64) : Confined root (readByte index) := by
  refine .runtime fun h memory memory' hpart hdata => ?_
  unfold Handle.getByte
  split
  · rfl
  · rename_i hnot
    obtain ⟨hge, hlt⟩ := hpart.place_lt hnot
    exact hdata.byteAt_eq _ _ ⟨hpart.block, hge, hlt⟩

/-! ## Writes -/

/-- A change of a block that keeps its size, sees the data of the handle and leaves all else. -/
structure Local (root : Handle) (g : List Byte → List Byte) : Prop where
  length_eq : ∀ block, (g block).length = block.length
  getElem?_of_out : ∀ block place,
    ¬(root.data ≤ place ∧ place < root.data + root.capacity.toInt.toNat) →
      (g block)[place]? = block[place]?
  getElem?_of_same : ∀ block block', root.data + root.capacity.toInt.toNat ≤ block.length →
    root.data + root.capacity.toInt.toNat ≤ block'.length →
    (∀ place, root.data ≤ place → place < root.data + root.capacity.toInt.toNat →
      block[place]? = block'[place]?) →
    ∀ place, root.data ≤ place → place < root.data + root.capacity.toInt.toNat →
      (g block)[place]? = (g block')[place]?

variable {g : List Byte → List Byte} {memory memory' : Memory}

theorem Local.others (hg : Local root g) (hinside : root.Inside memory) :
    root.Inside (memory.modify root.block g) ∧ ∀ block place, ¬root.Has block place →
      byteAt (memory.modify root.block g) block place = byteAt memory block place := by
  refine ⟨hinside.of_write _ _ hg.length_eq, fun k place hout => ?_⟩
  rcases eq_or_ne k root.block with rfl | hne
  · exact byteAt_modify fun block _ => hg.getElem?_of_out block place fun h => hout ⟨rfl, h⟩
  · exact byteAt_modify_ne _ hne

theorem Local.sameData (hg : Local root g) (h : root.SameData memory memory') :
    root.SameData (memory.modify root.block g) (memory'.modify root.block g) := by
  obtain ⟨block, hblock, hsize⟩ := id h.inside
  obtain ⟨block', hblock', hsize'⟩ := id h.inside'
  refine .of_getElem? (h.inside.of_write _ _ hg.length_eq) (h.inside'.of_write _ _ hg.length_eq) ?_
  intro changed changed' hchanged hchanged'
  rw [List.getElem?_modify_eq, hblock] at hchanged
  rw [List.getElem?_modify_eq, hblock'] at hchanged'
  obtain rfl := Option.some.inj hchanged
  obtain rfl := Option.some.inj hchanged'
  exact hg.getElem?_of_same block block' hsize hsize' fun place =>
    h.getElem? hblock hblock'

theorem local_set {p : ℕ} (hge : root.data ≤ p)
    (hlt : p < root.data + root.capacity.toInt.toNat) (val : Byte) : Local root (·.set p val) where
  length_eq block := List.length_set
  getElem?_of_out block place hout := by
    have hne : p ≠ place := by
      rintro rfl
      exact hout ⟨hge, hlt⟩
    exact List.getElem?_set_ne hne
  getElem?_of_same block block' hsize hsize' hsame place hge' hlt' := by
    rcases eq_or_ne p place with rfl | hne
    · rw [List.getElem?_set_self (by omega), List.getElem?_set_self (by omega)]
    · rw [List.getElem?_set_ne hne, List.getElem?_set_ne hne]
      exact hsame place hge' hlt'

theorem getElem?_move {block : List Byte} {target source size k : ℕ}
    (htarget : target + size ≤ block.length) (hsource : source + size ≤ block.length)
    (hk : k < size) : (move block target source size)[target + k]? = block[source + k]? := by
  have hlength : ((block.drop source).take size).length = size := by
    rw [List.length_take, List.length_drop]
    omega
  rw [move, WordBytes.getElem?_writeFrom _ _ (by omega) (by omega), List.getElem?_take, if_pos hk,
    List.getElem?_drop]

theorem getElem?_move_of_not {block : List Byte} {target source size place : ℕ}
    (h : ¬(target ≤ place ∧ place < target + size)) :
    (move block target source size)[place]? = block[place]? := by
  rcases Nat.lt_or_ge place target with hlt | hge
  · exact WordBytes.getElem?_writeFrom_of_lt _ _ hlt
  · refine WordBytes.getElem?_writeFrom_of_ge _ _ ?_
    rw [List.length_take]
    omega

theorem local_move {target source size : ℕ} (htarget : root.data ≤ target)
    (hsource : root.data ≤ source) (htarget' : target + size ≤ root.data + root.capacity.toInt.toNat)
    (hsource' : source + size ≤ root.data + root.capacity.toInt.toNat) :
    Local root (move · target source size) where
  length_eq block := WordBytes.length_writeFrom _ _ _
  getElem?_of_out block place hout := getElem?_move_of_not fun h => hout (by omega)
  getElem?_of_same block block' hsize hsize' hsame place hge hlt := by
    by_cases hmoved : target ≤ place ∧ place < target + size
    · obtain ⟨k, rfl⟩ := Nat.exists_eq_add_of_le hmoved.1
      rw [getElem?_move (by omega) (by omega) (by omega),
        getElem?_move (by omega) (by omega) (by omega)]
      exact hsame _ (by omega) (by omega)
    · rw [getElem?_move_of_not hmoved, getElem?_move_of_not hmoved]
      exact hsame place hge hlt

theorem Confined.writeByte (index : Int64) (val : Byte) : Confined root (writeByte index val) := by
  have hset {h : Handle} {memory : Memory} (hpart : h.Part root) (hinside : root.Inside memory)
      (hnot : ¬h.Outside index) : h.setByte index val memory
        = some (memory.modify root.block (·.set (h.place index) val)) := by
    obtain ⟨block, hblock, hsize⟩ := hinside
    have hlt := (hpart.place_lt hnot).2
    rw [Handle.setByte, if_neg hnot, hpart.block, hblock, Option.bind_eq_bind, Option.bind_some,
      if_pos (by omega)]
  refine .storing (fun h memory memory' hpart hdata => ?_) fun h memory changed hpart hinside hok => ?_
  · by_cases hout : h.Outside index
    · exact .inr ⟨memory, memory', if_pos hout, if_pos hout, hdata⟩
    · obtain ⟨hge, hlt⟩ := hpart.place_lt hout
      exact .inr ⟨_, _, hset hpart hdata.inside hout, hset hpart hdata.inside' hout,
        (local_set hge hlt val).sameData hdata⟩
  · by_cases hout : h.Outside index
    · rw [Handle.setByte, if_pos hout] at hok
      obtain rfl := Option.some.inj hok
      exact ⟨hinside, fun _ _ _ => rfl⟩
    · obtain ⟨hge, hlt⟩ := hpart.place_lt hout
      rw [hset hpart hinside hout] at hok
      obtain rfl := Option.some.inj hok
      exact (local_set hge hlt val).others hinside

/-! ## Calls -/

theorem Confined.readBytes (index : Int64) (n : ℕ) : Confined root (readBytes index n) := by
  induction n generalizing index with
  | zero => exact .pure []
  | succ n ih => exact (Confined.readByte index).bind fun b => (ih _).bind fun bs => .pure (b :: bs)

theorem Confined.writeBytes (index : Int64) (bs : List Byte) :
    Confined root (writeBytes index bs) := by
  induction bs generalizing index with
  | nil => exact .pure ()
  | cons b bs ih => exact (Confined.writeByte index b).bind fun _ => ih _

theorem Confined.getWordAt (message : String) (n w : ℕ) (index : Int64) :
    Confined root (getWordAt message n w index) := by
  refine (Confined.check _ message).bind fun _ => (Confined.readBytes index n).bind fun bytes => ?_
  exact .get_bind (fun s s' h => by rw [h]) fun s => .pure _

theorem Confined.putWordAt {w : ℕ} (message : String) (n : ℕ) (index : Int64) (v : BitVec w) :
    Confined root (putWordAt message n index v) := by
  refine (Confined.check _ message).bind fun _ => ?_
  exact .get_bind (fun s s' h => by rw [h]) fun s => .writeBytes index _

theorem Confined.getAt (t : IntegerType) (index : Int64) : Confined root (t.getAt index) := by
  cases t with
  | byte => exact (Confined.check _ _).bind fun _ => .readByte index
  | int16 => exact (Confined.getWordAt _ 2 32 index).bind fun v => .pure (v.setWidth 16)
  | int32 => exact .getWordAt _ 4 32 index
  | int64 => exact .getWordAt _ 8 64 index

theorem Confined.putAt (t : IntegerType) (index : Int64) (v : BitVec t.bits) :
    Confined root (t.putAt index v) := by
  cases t with
  | byte => exact (Confined.check _ _).bind fun _ => .writeByte index v
  | int16 => exact .putWordAt _ 2 index _
  | int32 => exact .putWordAt _ 4 index _
  | int64 => exact .putWordAt _ 8 index _

theorem Confined.advance (n : Int64) : Confined root (advance n) := .adjust _ fun _ => rfl

theorem Confined.relative {access : Int64 → Method α} (h : ∀ index, Confined root (access index))
    (n : Int64) : Confined root (relative n access) :=
  .get_bind (fun s s' h => by rw [h]) fun s =>
    (h s.buffer.position).bind fun a => (Confined.advance n).bind fun _ => .pure a

theorem Confined.integerGet (t : IntegerType) : Confined root t.get := by
  cases t with
  | byte =>
    refine (Confined.check _ _).bind fun _ => .get_bind (fun s s' h => by rw [h]) fun s => ?_
    exact (Confined.readByte _).bind fun b => (Confined.advance 1).bind fun _ => .pure b
  | int16 => exact .relative (.getAt .int16) 2
  | int32 => exact .relative (.getAt .int32) 4
  | int64 => exact .relative (.getAt .int64) 8

theorem Confined.integerPut (t : IntegerType) (v : BitVec t.bits) : Confined root (t.put v) := by
  cases t with
  | byte =>
    refine (Confined.check _ _).bind fun _ => .get_bind (fun s s' h => by rw [h]) fun s => ?_
    exact (Confined.writeByte _ v).bind fun _ => .advance 1
  | int16 => exact .relative (fun index => .putAt .int16 index v) 2
  | int32 => exact .relative (fun index => .putAt .int32 index v) 4
  | int64 => exact .relative (fun index => .putAt .int64 index v) 8

theorem Confined.get (k : Kind) : Confined root k.get := by
  cases k with
  | integer t => exact .integerGet t
  | float => exact (Confined.integerGet .int32).bind fun bits => .pure _
  | double => exact (Confined.integerGet .int64).bind fun bits => .pure _

theorem Confined.put (k : Kind) (v : k.Value) : Confined root (k.put v) := by
  cases k with
  | integer t => exact .integerPut t v
  | float => exact .integerPut .int32 _
  | double => exact .integerPut .int64 _

theorem Confined.sliceAt (offset length : Int64) : Confined root (sliceAt offset length) := by
  refine .get_bind (fun s s' h => by rw [h]) fun s => ?_
  exact (Confined.runtime fun h memory memory' _ _ => rfl).bind fun handle => .pure _

theorem Confined.slice : Confined root slice :=
  .get_bind (fun s s' h => by rw [h]) fun s => .sliceAt _ _

/-- A call on a buffer in order that sees and touches nothing outside. -/
structure ConfinedAt (root : Handle) (s : This) (method : Method α) : Prop where
  sees : ∀ memory, root.SameData s.memory memory →
    Raising.Alike (SameView root) (method s) (method { s with memory := memory })
  touches : LeavesOthers root s (Raising.state (method s))

theorem Confined.at {method : Method α} (h : Confined root method) (hpart : s.buffer.handle.Part root) :
    ConfinedAt root s method :=
  ⟨fun _ hdata => h.sees _ _ ⟨rfl, hpart, hdata⟩, h.touches s⟩

theorem ConfinedAt.bind {method : Method α} {f : α → Method β} (h : ConfinedAt root s method)
    (hf : ∀ a, Confined root (f a)) : ConfinedAt root s (method >>= f) :=
  ⟨fun memory hdata => (h.sees memory hdata).bind fun a => (hf a).sees,
    Moves.after LeavesOthers.trans h.touches fun a => (hf a).touches⟩

theorem local_compacted {h : Handle} (hpart : h.Part root) {position remaining : Int64}
    (hposition : 0 < position.toInt) (hremaining : 0 < remaining.toInt)
    (hle : position.toInt + remaining.toInt ≤ h.capacity.toInt) :
    Local root (move · h.data (h.place position) remaining.toInt.toNat) := by
  have hdata := hpart.data
  have hsize := hpart.size
  have hplace : h.place position = h.data + position.toInt.toNat := rfl
  exact local_move hdata (by omega) (by omega) (by omega)

theorem ConfinedAt.compact (hs : Sound s.buffer s.memory) (hpart : s.buffer.handle.Part root) :
    ConfinedAt root s compact := by
  have hcursors := (cursors_iff _).mp hs.cursors
  have hremaining := toInt_remaining hs.cursors
  have hcapacity := congrArg Int64.toInt hs.capacity_eq
  by_cases hnone : s.buffer.position ≤ 0 ∨ s.buffer.remaining ≤ 0
  · have hsame (memory : Memory) : s.buffer.handle.compacted s.buffer.position s.buffer.remaining
        memory = memory := if_pos hnone
    constructor
    · intro memory hdata
      have hs' : Sound s.buffer memory := ⟨hs.cursors, hs.capacity_eq, hpart.inside hdata.inside'⟩
      rw [compact_eq hs, compact_eq (s := { s with memory := memory }) hs', hsame, hsame]
      exact ⟨rfl, rfl, hpart, hdata⟩
    · rw [compact_eq hs, hsame]
      exact fun _ hinside => ⟨rfl, hinside, fun _ _ _ => rfl⟩
  · have hmoved (memory : Memory) : s.buffer.handle.compacted s.buffer.position s.buffer.remaining
        memory = memory.modify root.block (move · s.buffer.handle.data
          (s.buffer.handle.place s.buffer.position) s.buffer.remaining.toInt.toNat) := by
      rw [Handle.compacted, if_neg hnone, hpart.block]
    simp only [not_or, Int64.le_iff_toInt_le, Int64.toInt_zero, not_le] at hnone
    have hlocal := local_compacted hpart hnone.1 hnone.2 (by omega)
    constructor
    · intro memory hdata
      have hs' : Sound s.buffer memory := ⟨hs.cursors, hs.capacity_eq, hpart.inside hdata.inside'⟩
      rw [compact_eq hs, compact_eq (s := { s with memory := memory }) hs', hmoved, hmoved]
      exact ⟨rfl, rfl, hpart, hlocal.sameData hdata⟩
    · rw [compact_eq hs, hmoved]
      exact fun _ hinside => ⟨rfl, hlocal.others hinside⟩

theorem Call.confinedAt (hs : Sound s.buffer s.memory) (hpart : s.buffer.handle.Part root)
    (c : Call) : ConfinedAt root s c.perform := by
  have honly {α : Type} {method : Method α} (h : Confined root method) :
      ConfinedAt root s (Call.only method) := (h.bind fun _ => .pure none).at hpart
  cases c with
  | setPosition newPos => exact honly (.adjust _ fun _ => rfl)
  | setLimit newLimit => exact honly (.adjust _ fun _ => rfl)
  | mark => exact honly (.adjust _ fun _ => rfl)
  | reset => exact honly (.adjust _ fun _ => rfl)
  | clear => exact honly (.adjust _ fun _ => rfl)
  | flip => exact honly (.adjust _ fun _ => rfl)
  | rewind => exact honly (.adjust _ fun _ => rfl)
  | compact => exact (ConfinedAt.compact hs hpart).bind fun _ => .pure none
  | order isLittle => exact honly (.adjust _ fun _ => rfl)
  | slice => exact (Confined.slice.bind fun b => .pure (some b)).at hpart
  | sliceAt offset length =>
    exact ((Confined.sliceAt offset length).bind fun b => .pure (some b)).at hpart
  | get k => exact honly (.get k)
  | put k v => exact honly (.put k v)
  | getAt t index => exact honly (.getAt t index)
  | putAt t index v => exact honly (.putAt t index v)

/-! ## Slices of slices -/

/-- The remaining bytes come to the front, and all other bytes are left. -/
def CompactsExactly (b : ByteBuffer) (memory : Memory) : Prop :=
  ∃ t, compact ⟨b, memory⟩ = .ok () t ∧
    t.buffer = { b with position := b.remaining, limit := b.capacity, mark := -1 } ∧
    (∀ i < b.remaining.toInt.toNat, byteAt t.memory b.handle.block (b.handle.data + i)
      = byteAt memory b.handle.block (b.handle.place b.position + i)) ∧
    ∀ block place, ¬(block = b.handle.block ∧ b.handle.data ≤ place ∧
        place < b.handle.data + b.remaining.toInt.toNat) →
      byteAt t.memory block place = byteAt memory block place

/-- Nothing that is done with a buffer reaches bytes outside the data of another handle: its calls,
and the values that are got, are the same in storage with the same data, and all other bytes are
left. -/
structure StaysIn (root : Handle) (memory : Memory) (b : ByteBuffer) : Prop where
  part : b.handle.Part root
  calls : ∀ c : Call, ConfinedAt root ⟨b, memory⟩ c.perform
  gets : ∀ k : Kind, ConfinedAt root ⟨b, memory⟩ k.get
  getsAt : ∀ (t : IntegerType) (index : Int64), ConfinedAt root ⟨b, memory⟩ (t.getAt index)
  compacts : CompactsExactly b memory

/-- A buffer, a slice of it, a slice of the slice and so on: each is made, is part of the one
before, and stays in the data of the first. -/
def SlicesInside (root : Handle) (memory : Memory) : ByteBuffer → List (Int64 × Int64) → Prop
  | b, [] => StaysIn root memory b
  | b, (offset, length) :: rest => StaysIn root memory b ∧
      ∃ made, sliceAt offset length ⟨b, memory⟩ = .ok made ⟨b, memory⟩ ∧
        made.handle.Part b.handle ∧ SlicesInside root memory made rest

/-- No sum of a clamped offset and a length leaves `int64`. -/
def SumsFit : ByteBuffer → List (Int64 × Int64) → Prop
  | _, [] => True
  | b, (offset, length) :: rest =>
      min (max offset.toInt 0) b.capacity.toInt + max length.toInt 0 < 2 ^ 63 ∧
        ∀ made, b.handle.slice offset length = some made →
          SumsFit (.over made b.isLittleEndian) rest

variable {b : ByteBuffer}

theorem compactsExactly (hs : Sound b memory) : CompactsExactly b memory := by
  have hcursors := (cursors_iff _).mp hs.cursors
  have hremaining := toInt_remaining hs.cursors
  have hcapacity := congrArg Int64.toInt hs.capacity_eq
  refine ⟨_, compact_eq (s := ⟨b, memory⟩) hs, rfl, ?_⟩
  by_cases hnone : b.position ≤ 0 ∨ b.remaining ≤ 0
  · have hsame : b.handle.compacted b.position b.remaining memory = memory := if_pos hnone
    simp only [Int64.le_iff_toInt_le, Int64.toInt_zero] at hnone
    dsimp only
    rw [hsame]
    refine ⟨fun i hi => ?_, fun _ _ _ => rfl⟩
    rw [Handle.place, show b.position.toInt.toNat = 0 by omega, Nat.add_zero]
  · have hmoved : b.handle.compacted b.position b.remaining memory =
        memory.modify b.handle.block
          (move · b.handle.data (b.handle.place b.position) b.remaining.toInt.toNat) := if_neg hnone
    obtain ⟨block, hblock, hsize⟩ := id hs.inside
    have hplace : b.handle.place b.position = b.handle.data + b.position.toInt.toNat := rfl
    dsimp only
    rw [hmoved]
    constructor
    · intro i hi
      rw [byteAt, byteAt, List.getElem?_modify_eq, hblock]
      exact getElem?_move (by omega) (by omega) hi
    · intro k place hout
      rcases eq_or_ne k b.handle.block with rfl | hne
      · exact byteAt_modify fun _ _ => getElem?_move_of_not fun h => hout ⟨rfl, h⟩
      · exact byteAt_modify_ne _ hne

theorem staysIn (hs : Sound b memory) (hpart : b.handle.Part root) : StaysIn root memory b where
  part := hpart
  calls c := c.confinedAt (s := ⟨b, memory⟩) hs hpart
  gets k := (Confined.get k).at hpart
  getsAt t index := (Confined.getAt t index).at hpart
  compacts := compactsExactly hs

theorem sliceAt_eq_ok_iff {offset length : Int64} {made : ByteBuffer} :
    sliceAt offset length ⟨b, memory⟩ = .ok made ⟨b, memory⟩ ↔
      ∃ handle, b.handle.slice offset length = some handle ∧ made = .over handle b.isLittleEndian := by
  cases hslice : b.handle.slice offset length with
  | some handle =>
    have hok : sliceAt offset length ⟨b, memory⟩ = .ok (.over handle b.isLittleEndian) ⟨b, memory⟩ :=
      Raising.bind_eq_ok.mpr ⟨_, _, rfl, Raising.bind_eq_ok.mpr
        ⟨handle, _, runtime_of_some (s := ⟨b, memory⟩) hslice, rfl⟩⟩
    rw [hok]
    simp [eq_comm]
  | none =>
    have herror : sliceAt offset length ⟨b, memory⟩ = .error .undefined ⟨b, memory⟩ :=
      Raising.bind_eq_error.mpr (.inr ⟨_, _, rfl, Raising.bind_eq_error.mpr
        (.inl (runtime_of_none (s := ⟨b, memory⟩) hslice))⟩)
    rw [herror]
    simp

theorem slicesInside_iff_of_part (hs : Sound b memory) (hpart : b.handle.Part root)
    (requests : List (Int64 × Int64)) : SlicesInside root memory b requests ↔ SumsFit b requests := by
  induction requests generalizing b with
  | nil => exact iff_of_true (staysIn hs hpart) trivial
  | cons request rest ih =>
    obtain ⟨offset, length⟩ := request
    have hcapacity : 0 ≤ b.handle.capacity.toInt := by
      have := (cursors_iff _).mp hs.cursors
      rw [← hs.capacity_eq]
      omega
    rw [SlicesInside, SumsFit, hs.capacity_eq]
    by_cases hsum : min (max offset.toInt 0) b.handle.capacity.toInt + max length.toInt 0 < 2 ^ 63
    · obtain ⟨handle, hslice, hblock, hsize, hdata, hle⟩ := Handle.slice_of_sum hcapacity hsum
      have hmade : handle.Part b.handle := ⟨hblock, hdata, hle⟩
      have hnext := ih (sound_over hsize (hmade.inside hs.inside) b.isLittleEndian)
        (hmade.trans hpart)
      constructor
      · rintro ⟨-, made, hok, -, hrest⟩
        obtain ⟨handle', hslice', rfl⟩ := sliceAt_eq_ok_iff.mp hok
        obtain rfl := Option.some.inj (hslice.symm.trans hslice')
        refine ⟨hsum, fun handle'' hslice'' => ?_⟩
        obtain rfl := Option.some.inj (hslice.symm.trans hslice'')
        exact hnext.mp hrest
      · rintro ⟨-, hrest⟩
        exact ⟨staysIn hs hpart, _, sliceAt_eq_ok_iff.mpr ⟨handle, hslice, rfl⟩, hmade,
          hnext.mpr (hrest handle hslice)⟩
    · refine iff_of_false ?_ fun h => hsum h.1
      rintro ⟨-, made, hok, -⟩
      obtain ⟨handle, hslice, -⟩ := sliceAt_eq_ok_iff.mp hok
      rw [Handle.slice_eq_none hcapacity hsum] at hslice
      cases hslice

/-- The slices of a buffer in order stay in it, to any depth, exactly where their sums fit. -/
theorem slicesInside_iff (hs : Sound b memory) (requests : List (Int64 × Int64)) :
    SlicesInside b.handle memory b requests ↔ SumsFit b requests :=
  slicesInside_iff_of_part hs (.refl _) requests

theorem sound_sixteen : Sound (.over ⟨0, 0, 16⟩ true) [List.replicate 16 0] :=
  sound_over (by decide) ⟨List.replicate 16 0, rfl, by decide⟩ true

/-- A slice of a slice, with an offset below zero and a length that is too large. -/
theorem slicesInside_sixteen :
    SlicesInside ⟨0, 0, 16⟩ [List.replicate 16 0] (.over ⟨0, 0, 16⟩ true) [(-4, 12), (8, 100)] ↔
      SumsFit (.over ⟨0, 0, 16⟩ true) [(-4, 12), (8, 100)] :=
  slicesInside_iff sound_sixteen [(-4, 12), (8, 100)]

/-- A slice from the middle on with the largest length, as one would ask for all that is left. -/
theorem not_slicesInside :
    sliceAt 8 9223372036854775807 ⟨.over ⟨0, 0, 16⟩ true, [List.replicate 16 0]⟩
      = .error .undefined ⟨.over ⟨0, 0, 16⟩ true, [List.replicate 16 0]⟩ ∧
    ¬∀ (b : ByteBuffer) (memory : Memory), Sound b memory → ∀ requests,
      SlicesInside b.handle memory b requests := by
  refine ⟨rfl, fun hall => ?_⟩
  obtain ⟨-, made, hok, -⟩ := hall _ _ sound_sixteen [(8, 9223372036854775807)]
  cases hok

end StdBytes

end Absolute
