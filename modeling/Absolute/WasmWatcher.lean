import Absolute.WasmDirectories

/-!
# Watching a directory of the WebAssembly runtime

The watcher of the freestanding platform, which compares what lies below its root with what it saw
the last time and hands the differences out one at a time.

Someone who looks at every place that is reported, at the time of the report, is never misled:
whatever calls come between, once nothing is pending and nothing has changed they know every entry
below the root as it is (`watcher_mirrors`).
-/

namespace Absolute

namespace Wasm

open Strings KeyedSlots

/-! ## The watcher -/

inductive WatchKind where
  | created
  | modified
  | removed
deriving DecidableEq

def WatchKind.code : WatchKind → ℕ
  | .created => 1
  | .modified => 2
  | .removed => 3

structure WatchEvent where
  kind : WatchKind
  path : Text
deriving DecidableEq

/-- The snapshot has a version for each path; the events that are pending are those that were not
handed out. -/
structure VfsWatcher where
  root : Text
  recursive : Bool
  snapshot : List (Text × ℕ) := []
  pending : List WatchEvent := []
  currentPath : Text := []
deriving DecidableEq

def fsWatcherSnapshotFind (snapshot : List (Text × ℕ)) (path : Text) : Option (Text × ℕ) :=
  snapshot.find? fun seen => seen.1 = path

/-- `fs_watcher_capture` -/
def fsWatcherCapture (v : Vfs) (w : VfsWatcher) : List (Text × ℕ) :=
  v.nodes.filterMap fun slot => slot.bind fun node =>
    if fsPathIsChild node.path w.root w.recursive then some (fsCopyPath node.path, node.version)
    else none

def fsWatcherAddEvent (pending : List WatchEvent) (event : WatchEvent) : List WatchEvent :=
  if pending.length ≥ vfsMaxFiles * 2 then pending
  else pending ++ [{ event with path := fsCopyPath event.path }]

def fsWatcherSortEvents (pending : List WatchEvent) : List WatchEvent :=
  ExchangeSort.exchangeSort (fun a b => strcmpLe a.path b.path) pending

/-- What is added for a path that was there. -/
def eventOfOld (snapshot : List (Text × ℕ)) (seen : Text × ℕ) : Option WatchEvent :=
  match fsWatcherSnapshotFind snapshot seen.1 with
  | none => some { kind := .removed, path := seen.1 }
  | some current => if current.2 ≠ seen.2 then some { kind := .modified, path := seen.1 } else none

/-- What is added for a path that is there. -/
def eventOfNew (old : List (Text × ℕ)) (seen : Text × ℕ) : Option WatchEvent :=
  if old.any fun before => seen.1 = before.1 then none
  else some { kind := .created, path := seen.1 }

def addEvents (find : Text × ℕ → Option WatchEvent) (pending : List WatchEvent) :
    List (Text × ℕ) → List WatchEvent
  | [] => pending
  | seen :: rest =>
    addEvents find
      (match find seen with
        | none => pending
        | some event => fsWatcherAddEvent pending event) rest

/-- A watcher that has nothing left to hand out looks again. -/
def fsWatcherRefill (v : Vfs) (w : VfsWatcher) : VfsWatcher :=
  let old := w.snapshot.map fun seen => (fsCopyPath seen.1, seen.2)
  let snapshot := fsWatcherCapture v w
  let pending := addEvents (eventOfOld snapshot) [] old
  let pending := addEvents (eventOfNew old) pending snapshot
  { w with snapshot := snapshot, pending := fsWatcherSortEvents pending }

def fsWatcherOpen (room : Bool) (v : Vfs) (path : Text) (recursive : Bool) : Option VfsWatcher :=
  let root := fsCopyPath (fsNormalize fsCwd path)
  if (fsIsDirectory v root).2 = .flag true ∧ room then
    let w : VfsWatcher := { root := fsCopyPath root, recursive := recursive }
    some { w with snapshot := fsWatcherCapture v w }
  else none

/-- `absolute_fs_watcher_poll`, which returns zero for `none`. -/
def fsWatcherPoll (v : Vfs) (w : VfsWatcher) : VfsWatcher × Option WatchKind :=
  let w := if w.pending = [] then fsWatcherRefill v w else w
  match w.pending with
  | [] => (w, none)
  | event :: pending =>
    ({ w with pending := pending, currentPath := fsCopyPath event.path }, some event.kind)

/-! ## Someone who watches -/

/-- A watcher beside the table, and what was found at each place when it was reported. -/
structure Watching where
  vfs : Vfs
  watcher : VfsWatcher
  known : Text → Option Entry

inductive WatchAct where
  | call (room : Bool) (call : FsCall)
  | poll

/-- The entry at a place of the table. -/
def Vfs.entryAt (v : Vfs) (p : Text) : Option Entry :=
  (lookup VfsNode.path v.nodes p).map VfsNode.entry

def Watching.poll (s : Watching) : Watching :=
  let (w, kind) := fsWatcherPoll s.vfs s.watcher
  { vfs := fsClearError s.vfs
    watcher := w
    known := match kind with
      | none => s.known
      | some kind => Function.update s.known w.currentPath
          (if kind = .removed then none else s.vfs.entryAt w.currentPath) }

def Watching.step (s : Watching) : WatchAct → Watching
  | .call room call => { s with vfs := (call.exec room s.vfs).1 }
  | .poll => s.poll

def WatchAct.Apart : WatchAct → Prop
  | .call _ c => c.Apart
  | .poll => True

/-- What the calls of a run make of the map. -/
def FileMap.act (m : FileMap) : WatchAct → FileMap
  | .call room call => (m.exec room call).1
  | .poll => m

/-! ## Versions

No version is given out twice, so a node that a call leaves with an old one is as it was. -/

section Versions

def Sound (v : Vfs) : Prop :=
  ∀ node, some node ∈ v.nodes → node.version < v.fsVersion ∧ node.path.length < vfsMaxPath

structure Stamped (base v : Vfs) : Prop where
  le : base.fsVersion ≤ v.fsVersion
  nodes : ∀ node, some node ∈ v.nodes → some node ∈ base.nodes ∨ base.fsVersion ≤ node.version
  sound : Sound v

variable {base v : Vfs} {id : ℕ} {node : VfsNode}

theorem Stamped.refl (h : Sound v) : Stamped v v := ⟨Nat.le_refl _, fun _ => .inl, h⟩

theorem Stamped.same (h : Stamped base v) {v' : Vfs} (hnodes : v'.nodes = v.nodes)
    (hversion : v'.fsVersion = v.fsVersion) : Stamped base v' := by
  obtain ⟨nodes, version, error⟩ := v'
  obtain rfl : nodes = v.nodes := hnodes
  obtain rfl : version = v.fsVersion := hversion
  exact ⟨h.le, h.nodes, h.sound⟩

/-- A node that is put into a slot. -/
theorem Stamped.set (h : Stamped base v) {fsVersion : ℕ} (hle : v.fsVersion ≤ fsVersion) {id : ℕ}
    {s : Option VfsNode} {error : Text}
    (hs : ∀ node ∈ s, base.fsVersion ≤ node.version ∧ node.version < fsVersion ∧
      node.path.length < vfsMaxPath) :
    Stamped base { nodes := v.nodes.set id s, fsVersion := fsVersion, error := error } where
  le := h.le.trans hle
  nodes := by
    intro node hmem
    rcases List.mem_or_eq_of_mem_set hmem with hold | rfl
    · exact h.nodes node hold
    · exact .inr (hs node rfl).1
  sound := by
    intro node hmem
    rcases List.mem_or_eq_of_mem_set hmem with hold | rfl
    · obtain ⟨hlt, hlen⟩ := h.sound node hold
      exact ⟨hlt.trans_le hle, hlen⟩
    · exact (hs node rfl).2

theorem Stamped.free (h : Stamped base v) (id : ℕ) : Stamped base (fsFreeNode v id) :=
  h.set (Nat.le_refl _) fun node hnode => by cases hnode

theorem Stamped.later (h : Stamped base v) :
    Stamped base { v with fsVersion := v.fsVersion + 1 } where
  le := h.le.trans (Nat.le_succ _)
  nodes := h.nodes
  sound node hmem :=
    have ⟨hlt, hlen⟩ := h.sound node hmem
    ⟨hlt.trans (Nat.lt_succ_self _), hlen⟩

theorem Stamped.touch (h : Stamped base v) (hid : v.nodes[id]? = some (some node))
    {f : VfsNode → VfsNode} (hf : (f node).path.length < vfsMaxPath) :
    Stamped base (fsTouch v id f) := by
  rw [fsTouch, fsModify]
  dsimp only
  rw [modify_used hid]
  exact h.set (Nat.le_succ _) fun n hn => by
    obtain rfl := Option.mem_some.mp hn
    exact ⟨h.le, Nat.lt_succ_self _, hf⟩

theorem length_fsCopyPath_lt (path : Text) : (fsCopyPath path).length < vfsMaxPath :=
  (List.length_take_le _ _).trans_lt (by decide)

theorem fsFind_some {path : Text} (h : fsFind v path = some (id, node)) :
    v.nodes[id]? = some (some node) := by
  obtain ⟨i, -, hfound⟩ := Option.bind_eq_some_iff.mp h
  obtain ⟨n, hn, heq⟩ := Option.map_eq_some_iff.mp hfound
  cases heq
  exact entry_eq_some.mp hn

theorem Stamped.alloc (h : Stamped base v) {v' : Vfs} (halloc : fsAllocNode v = some (id, v')) :
    Stamped base v' ∧
      ∃ node, v'.nodes[id]? = some (some node) ∧ base.fsVersion ≤ node.version := by
  rw [fsAllocNode, Option.map_eq_some_iff] at halloc
  obtain ⟨i, hfree, heq⟩ := halloc
  cases heq
  have hlt := (List.getElem?_eq_some_iff.mp (free_eq_some hfree)).1
  refine ⟨h.set (Nat.le_succ _) fun n hn => ?_, _, List.getElem?_set_self hlt, h.le⟩
  obtain rfl := Option.mem_some.mp hn
  exact ⟨h.le, Nat.lt_succ_self _, Nat.zero_lt_succ _⟩

/-- Assignments to a node that was taken in the same call. -/
theorem Stamped.modify (h : Stamped base v) (hid : v.nodes[id]? = some (some node))
    (hnew : base.fsVersion ≤ node.version) {f : VfsNode → VfsNode}
    (hversion : (f node).version = node.version) (hpath : (f node).path.length < vfsMaxPath) :
    Stamped base (fsModify v id f) ∧ (fsModify v id f).nodes[id]? = some (some (f node)) := by
  have hlt := (List.getElem?_eq_some_iff.mp hid).1
  rw [fsModify, modify_used hid]
  refine ⟨h.set (Nat.le_refl _) fun n hn => ?_, List.getElem?_set_self hlt⟩
  obtain rfl := Option.mem_some.mp hn
  rw [hversion]
  exact ⟨hnew, (h.sound node (List.mem_of_getElem? hid)).1, hpath⟩

theorem stamped_createDirectories (h : Sound v) (path : Text) :
    Stamped v (fsCreateDirectories v path).1 := by
  have hsame := Stamped.refl h
  rw [fsCreateDirectories]
  split_ifs
  · exact hsame.same rfl rfl
  · split
    · exact hsame.same rfl rfl
    · split
      · exact hsame.same rfl rfl
      · obtain ⟨hs, node, hid, -⟩ := hsame.alloc ‹_›
        exact (hs.touch hid (length_fsCopyPath_lt _)).same rfl rfl

theorem stamped_remove (h : Sound v) (path : Text) : Stamped v (fsRemove v path).1 := by
  have hsame := Stamped.refl h
  rw [fsRemove]
  split
  · exact hsame.same rfl rfl
  · exact ((hsame.free _).later).same rfl rfl

/-- A node that is assigned to if it is used. -/
theorem Stamped.touch_slot (h : Stamped base v) {f : VfsNode → VfsNode}
    (hf : ∀ n, (f n).path.length < vfsMaxPath) : Stamped base (fsTouch v id f) := by
  rcases hid : v.nodes[id]? with - | - | node
  · rw [fsTouch, fsModify]
    dsimp only
    rw [List.modify_eq_set, List.set_eq_of_length_le (List.getElem?_eq_none_iff.mp hid)]
    exact h.later
  · rw [fsTouch, fsModify]
    dsimp only
    rw [List.modify_eq_set, hid]
    exact h.set (Nat.le_succ _) fun n hn => by cases hn
  · exact h.touch hid (hf node)

theorem stamped_rename (h : Sound v) (source destination : Text) :
    Stamped v (fsRename v source destination).1 := by
  have hsame := Stamped.refl h
  rw [fsRename]
  split
  · exact hsame.same rfl rfl
  · split
    · exact ((stamped_remove h destination).touch_slot fun n => length_fsCopyPath_lt _).same rfl rfl
    · exact (hsame.touch_slot fun n => length_fsCopyPath_lt _).same rfl rfl

theorem stamped_copyInto (h : Stamped base v) (room : Bool) (hid : v.nodes[id]? = some (some node))
    (data : Text) : Stamped base (fsCopyInto room v id data).1 := by
  rw [fsCopyInto]
  split_ifs
  · have hlen := (h.sound node (List.mem_of_getElem? hid)).2
    exact (h.touch hid hlen).same rfl rfl
  · exact (h.free id).same rfl rfl

theorem stamped_copyFile (h : Sound v) (room : Bool) (source destination : Text)
    (overwrite : Bool) : Stamped v (fsCopyFile room v source destination overwrite).1 := by
  have hsame := Stamped.refl h
  rw [fsCopyFile]
  split
  · exact hsame.same rfl rfl
  · split
    · exact hsame.same rfl rfl
    · split
      · split
        · exact stamped_copyInto hsame room (fsFind_some ‹_›) _
        · exact hsame.same rfl rfl
      · split
        · exact hsame.same rfl rfl
        · obtain ⟨hs, node, hid, hnew⟩ := hsame.alloc ‹_›
          obtain ⟨hs, hid⟩ := hs.modify (f := fun fresh =>
            { fresh with path := fsCopyPath (place destination) }) hid hnew rfl
            (length_fsCopyPath_lt _)
          exact stamped_copyInto hs room hid _

theorem stamped_store (h : Stamped base v) (room : Bool) (hid : v.nodes[id]? = some (some node))
    (before text : Text) : Stamped base (fsStore room v id before text).1 := by
  rw [fsStore]
  split_ifs
  · have hlen := (h.sound node (List.mem_of_getElem? hid)).2
    exact (h.touch hid hlen).same rfl rfl
  · exact h.same rfl rfl

theorem stamped_writeText (h : Sound v) (room : Bool) (path text : Text) (append : Bool) :
    Stamped v (fsWriteText room v path text append).1 := by
  have hsame := Stamped.refl h
  rw [fsWriteText]
  split
  · exact hsame.same rfl rfl
  · split
    · split
      · exact hsame.same rfl rfl
      · exact stamped_store hsame room (fsFind_some ‹_›) _ _
    · split
      · exact hsame.same rfl rfl
      · obtain ⟨hs, node, hid, hnew⟩ := hsame.alloc ‹_›
        obtain ⟨hs, hid⟩ := hs.modify (f := fun fresh =>
          { fresh with path := fsCopyPath (place path), isDir := false }) hid hnew rfl
          (length_fsCopyPath_lt _)
        exact stamped_store hs room hid _ _

/-- What a call leaves behind is a node that was there, or has a version of its own. -/
theorem stamped_exec (h : Sound v) (room : Bool) (call : FsCall) :
    Stamped v (call.exec room v).1 := by
  have hsame := Stamped.refl h
  cases call with
  | «exists» path => exact hsame.same rfl rfl
  | isFile path => exact hsame.same rfl rfl
  | isDirectory path => exact hsame.same rfl rfl
  | fileSize path =>
    rw [FsCall.exec, fsFileSize]
    split
    · exact hsame.same rfl rfl
    · split_ifs <;> exact hsame.same rfl rfl
  | metadataType path => exact hsame.same rfl rfl
  | createDirectories path => exact stamped_createDirectories h path
  | remove path => exact stamped_remove h path
  | rename source destination => exact stamped_rename h source destination
  | copyFile source destination overwrite =>
    exact stamped_copyFile h room source destination overwrite
  | readText path =>
    rw [FsCall.exec, fsReadText]
    split
    · exact hsame.same rfl rfl
    · split <;> exact hsame.same rfl rfl
  | writeText path text append => exact stamped_writeText h room path text append

end Versions

/-! ## Looking again -/

variable {v : Vfs} {w : VfsWatcher} {old new : List (Text × ℕ)} {p : Text} {k : ℕ}

theorem fsCopyPath_of_lt (h : p.length < vfsMaxPath) : fsCopyPath p = p :=
  List.take_of_length_le (Nat.le_sub_one_of_lt h)

theorem capture_eq (h : Sound v) : fsWatcherCapture v w =
    ((v.nodes.filterMap id).filter fun node => fsPathIsChild node.path w.root w.recursive).map
      fun node => (node.path, node.version) := by
  rw [fsWatcherCapture]
  have hshort : ∀ node, some node ∈ v.nodes → fsCopyPath node.path = node.path :=
    fun node hnode => fsCopyPath_of_lt (h node hnode).2
  generalize v.nodes = nodes at hshort
  induction nodes with
  | nil => rfl
  | cons slot nodes ih =>
    have htail := ih fun node hnode => hshort node (List.mem_cons_of_mem _ hnode)
    rcases slot with - | node
    · exact htail
    · rw [List.filterMap_cons, List.filterMap_cons, Option.bind_some,
        hshort node List.mem_cons_self]
      dsimp only [id]
      by_cases hchild : fsPathIsChild node.path w.root w.recursive = true
      · rw [if_pos hchild, List.filter_cons, if_pos hchild, List.map_cons]
        exact congrArg _ htail
      · rw [if_neg hchild, List.filter_cons, if_neg hchild]
        exact htail

theorem mem_capture (h : Sound v) : (p, k) ∈ fsWatcherCapture v w ↔
    ∃ node, some node ∈ v.nodes ∧ fsPathIsChild p w.root w.recursive = true ∧
      node.path = p ∧ node.version = k := by
  rw [capture_eq h, List.mem_map]
  constructor
  · rintro ⟨node, hnode, heq⟩
    cases heq
    obtain ⟨hmem, hchild⟩ := List.mem_filter.mp hnode
    exact ⟨node, by simpa using hmem, hchild, rfl, rfl⟩
  · rintro ⟨node, hmem, hchild, rfl, rfl⟩
    exact ⟨node, List.mem_filter.mpr ⟨by simpa using hmem, hchild⟩, rfl⟩

theorem nodup_capture (h : Sound v) (hdistinct : Distinct VfsNode.path v.nodes) :
    ((fsWatcherCapture v w).map Prod.fst).Nodup := by
  rw [capture_eq h, List.map_map]
  exact (nodup_keys hdistinct).sublist (List.filter_sublist.map _)

theorem length_capture_le (h : Sound v) (hsize : v.nodes.length = vfsMaxFiles) :
    (fsWatcherCapture v w).length ≤ vfsMaxFiles := by
  rw [capture_eq h, List.length_map, ← hsize]
  exact (List.length_filter_le _ _).trans (List.length_filterMap_le _ _)

theorem bounds_capture (h : Sound v) {seen : Text × ℕ} (hseen : seen ∈ fsWatcherCapture v w) :
    seen.1.length < vfsMaxPath ∧ seen.2 < v.fsVersion ∧
      fsPathIsChild seen.1 w.root w.recursive = true := by
  obtain ⟨node, hnode, hchild, hpath, hversion⟩ := (mem_capture h).mp hseen
  rw [← hversion]
  exact ⟨hpath ▸ (h node hnode).2, (h node hnode).1, hchild⟩

theorem addEvents_eq {find : Text × ℕ → Option WatchEvent} {pending : List WatchEvent}
    {l : List (Text × ℕ)} (hroom : pending.length + l.length ≤ vfsMaxFiles * 2)
    (hshort : ∀ seen ∈ l, ∀ event ∈ find seen, event.path.length < vfsMaxPath) :
    addEvents find pending l = pending ++ l.filterMap find := by
  induction l generalizing pending with
  | nil => rw [addEvents, List.filterMap_nil, List.append_nil]
  | cons seen rest ih =>
    obtain ⟨hfirst, hrest⟩ := List.forall_mem_cons.mp hshort
    rw [List.length_cons] at hroom
    rw [addEvents, List.filterMap_cons]
    cases hfind : find seen with
    | none =>
      dsimp only
      exact ih (by omega) hrest
    | some event =>
      dsimp only
      have hadd : fsWatcherAddEvent pending event = pending ++ [event] := by
        rw [fsWatcherAddEvent, if_neg (by omega),
          fsCopyPath_of_lt (hfirst event hfind)]
      rw [hadd, ih (by rw [List.length_append, List.length_singleton]; omega) hrest,
        List.append_assoc]
      rfl

theorem snapshotFind_eq_none : fsWatcherSnapshotFind new p = none ↔ p ∉ new.map Prod.fst := by
  rw [fsWatcherSnapshotFind, List.find?_eq_none, List.mem_map, not_exists]
  simp

theorem snapshotFind_eq_some {seen : Text × ℕ} (h : fsWatcherSnapshotFind new p = some seen) :
    seen ∈ new ∧ seen.1 = p :=
  ⟨List.mem_of_find?_eq_some h, by simpa using List.find?_some h⟩

theorem mem_eventOfOld {event : WatchEvent} : event ∈ old.filterMap (eventOfOld new) ↔
    ∃ seen ∈ old, event.path = seen.1 ∧
      (event.kind = .removed ∧ seen.1 ∉ new.map Prod.fst ∨
        event.kind = .modified ∧ ∃ current, fsWatcherSnapshotFind new seen.1 = some current ∧
          current.2 ≠ seen.2) := by
  obtain ⟨kind, path⟩ := event
  rw [List.mem_filterMap]
  refine exists_congr fun seen => and_congr_right fun _ => ?_
  rw [eventOfOld]
  cases hfind : fsWatcherSnapshotFind new seen.1 with
  | none =>
    have hmem := snapshotFind_eq_none.mp hfind
    simp only [Option.some.injEq, WatchEvent.mk.injEq, reduceCtorEq, false_and, exists_false,
      and_false, or_false]
    exact ⟨fun ⟨hkind, hpath⟩ => ⟨hpath.symm, hkind.symm, hmem⟩,
      fun ⟨hpath, hkind, _⟩ => ⟨hkind.symm, hpath.symm⟩⟩
  | some current =>
    have hmem : seen.1 ∈ new.map Prod.fst := by
      obtain ⟨hin, hpath⟩ := snapshotFind_eq_some hfind
      exact List.mem_map.mpr ⟨current, hin, hpath⟩
    dsimp only
    split_ifs with hne
    · constructor
      · intro h
        cases h
        exact ⟨rfl, .inr ⟨rfl, current, rfl, hne⟩⟩
      · rintro ⟨rfl, ⟨-, hnot⟩ | ⟨rfl, -⟩⟩
        · exact absurd hmem hnot
        · rfl
    · constructor
      · intro h
        cases h
      · rintro ⟨rfl, ⟨-, hnot⟩ | ⟨rfl, found, hfound, hne'⟩⟩
        · exact absurd hmem hnot
        · obtain rfl := Option.some.inj hfound
          exact absurd hne' hne

theorem mem_eventOfNew {event : WatchEvent} : event ∈ new.filterMap (eventOfNew old) ↔
    event.kind = .created ∧ event.path ∈ new.map Prod.fst ∧ event.path ∉ old.map Prod.fst := by
  obtain ⟨kind, path⟩ := event
  have hany (seen : Text × ℕ) :
      (old.any fun before => seen.1 = before.1) = true ↔ seen.1 ∈ old.map Prod.fst := by
    rw [List.any_eq_true, List.mem_map]
    exact exists_congr fun before => and_congr_right fun _ => by
      rw [decide_eq_true_iff]
      exact eq_comm
  rw [List.mem_filterMap]
  constructor
  · rintro ⟨seen, hseen, hevent⟩
    rw [eventOfNew] at hevent
    split_ifs at hevent with hold
    cases hevent
    exact ⟨rfl, List.mem_map_of_mem hseen, fun hmem => hold ((hany seen).mpr hmem)⟩
  · rintro ⟨rfl, hnew, hold⟩
    obtain ⟨seen, hseen, rfl⟩ := List.mem_map.mp hnew
    refine ⟨seen, hseen, ?_⟩
    rw [eventOfNew, if_neg fun h => hold ((hany seen).mp h)]

/-- What a watcher has seen. -/
structure Shown (v : Vfs) (w : VfsWatcher) : Prop where
  few : w.snapshot.length ≤ vfsMaxFiles
  nodup : (w.snapshot.map Prod.fst).Nodup
  snapshot : ∀ seen ∈ w.snapshot, seen.1.length < vfsMaxPath ∧ seen.2 < v.fsVersion ∧
    fsPathIsChild seen.1 w.root w.recursive = true
  pendingFew : w.pending.length ≤ vfsMaxFiles * 2
  pending : ∀ event ∈ w.pending, event.path.length < vfsMaxPath ∧
    (event.kind = .removed ↔ event.path ∉ w.snapshot.map Prod.fst)
  sorted : w.pending.Pairwise fun a b => a.path < b.path

theorem refill_eq (hsound : Sound v) (hsize : v.nodes.length = vfsMaxFiles) (h : Shown v w) :
    fsWatcherRefill v w =
      { w with
        snapshot := fsWatcherCapture v w
        pending := fsWatcherSortEvents
          (w.snapshot.filterMap (eventOfOld (fsWatcherCapture v w)) ++
            (fsWatcherCapture v w).filterMap (eventOfNew w.snapshot)) } := by
  have hold : (w.snapshot.map fun seen => (fsCopyPath seen.1, seen.2)) = w.snapshot := by
    refine (List.map_congr_left fun seen hseen => ?_).trans (List.map_id _)
    rw [fsCopyPath_of_lt (h.snapshot seen hseen).1]
    rfl
  have hfew := h.few
  have hnew := length_capture_le (w := w) hsound hsize
  have holds : ∀ seen ∈ w.snapshot, ∀ event ∈ eventOfOld (fsWatcherCapture v w) seen,
      event.path.length < vfsMaxPath := by
    intro seen hseen event hevent
    obtain ⟨before, hbefore, hpath, -⟩ := mem_eventOfOld.mp (List.mem_filterMap.mpr
      ⟨seen, hseen, hevent⟩)
    rw [hpath]
    exact (h.snapshot before hbefore).1
  have hnews : ∀ seen ∈ fsWatcherCapture v w, ∀ event ∈ eventOfNew w.snapshot seen,
      event.path.length < vfsMaxPath := by
    intro seen hseen event hevent
    obtain ⟨-, hpath, -⟩ := mem_eventOfNew.mp (List.mem_filterMap.mpr ⟨seen, hseen, hevent⟩)
    obtain ⟨seen', hmem, heq⟩ := List.mem_map.mp hpath
    rw [← heq]
    exact (bounds_capture hsound hmem).1
  have hlen := List.length_filterMap_le (eventOfOld (fsWatcherCapture v w)) w.snapshot
  rw [fsWatcherRefill, hold, addEvents_eq (by rw [List.length_nil]; omega) holds, List.nil_append,
    addEvents_eq (by omega) hnews]

theorem mem_refill (hsound : Sound v) (hsize : v.nodes.length = vfsMaxFiles) (h : Shown v w)
    (event : WatchEvent) : event ∈ (fsWatcherRefill v w).pending ↔
      event ∈ w.snapshot.filterMap (eventOfOld (fsWatcherCapture v w)) ∨
        event ∈ (fsWatcherCapture v w).filterMap (eventOfNew w.snapshot) := by
  rw [refill_eq hsound hsize h, fsWatcherSortEvents, (ExchangeSort.exchangeSort_perm _ _).mem_iff,
    List.mem_append]

/-- What is not reported is as it was. -/
theorem mem_old_of_unreported (hsound : Sound v) (hsize : v.nodes.length = vfsMaxFiles)
    (hdistinct : Distinct VfsNode.path v.nodes) (h : Shown v w)
    (hp : p ∉ (fsWatcherRefill v w).pending.map WatchEvent.path)
    (hnew : (p, k) ∈ fsWatcherCapture v w) : (p, k) ∈ w.snapshot := by
  have hnot (event : WatchEvent) (hevent : event ∈ (fsWatcherRefill v w).pending) :
      event.path ≠ p := fun heq => hp (List.mem_map.mpr ⟨event, hevent, heq⟩)
  have hfst : p ∈ (fsWatcherCapture v w).map Prod.fst := List.mem_map_of_mem hnew
  have hold : p ∈ w.snapshot.map Prod.fst := by
    by_contra hold
    exact hnot { kind := .created, path := p } ((mem_refill hsound hsize h _).mpr
      (.inr (mem_eventOfNew.mpr ⟨rfl, hfst, hold⟩))) rfl
  obtain ⟨⟨path, version⟩, hseen, heq⟩ := List.mem_map.mp hold
  obtain rfl : path = p := heq
  cases hfind : fsWatcherSnapshotFind (fsWatcherCapture v w) path with
  | none => exact absurd hfst (snapshotFind_eq_none.mp hfind)
  | some current =>
    obtain ⟨hcurrent, hpath⟩ := snapshotFind_eq_some hfind
    obtain rfl : current = (path, k) :=
      List.inj_on_of_nodup_map (nodup_capture hsound hdistinct) hcurrent hnew hpath
    by_cases hversion : k = version
    · rwa [hversion]
    · refine absurd rfl (hnot { kind := .modified, path := path }
        ((mem_refill hsound hsize h _).mpr (.inl (mem_eventOfOld.mpr ?_))))
      exact ⟨(path, version), hseen, rfl, .inr ⟨rfl, (path, k), hfind, hversion⟩⟩

theorem not_mem_old_of_unreported (hsound : Sound v) (hsize : v.nodes.length = vfsMaxFiles)
    (h : Shown v w) (hp : p ∉ (fsWatcherRefill v w).pending.map WatchEvent.path)
    (hnew : p ∉ (fsWatcherCapture v w).map Prod.fst) : p ∉ w.snapshot.map Prod.fst := by
  intro hold
  obtain ⟨seen, hseen, rfl⟩ := List.mem_map.mp hold
  refine hp (List.mem_map.mpr ⟨{ kind := .removed, path := seen.1 },
    (mem_refill hsound hsize h _).mpr (.inl (mem_eventOfOld.mpr ?_)), rfl⟩)
  exact ⟨seen, hseen, rfl, .inl ⟨rfl, hnew⟩⟩

theorem eventOfOld_path {seen : Text × ℕ} {event : WatchEvent}
    (h : event ∈ eventOfOld new seen) : event.path = seen.1 := by
  rw [eventOfOld] at h
  split at h
  · rw [← Option.some.inj h]
  · split_ifs at h
    · rw [← Option.some.inj h]
    · cases h

theorem eventOfNew_path {seen : Text × ℕ} {event : WatchEvent}
    (h : event ∈ eventOfNew old seen) : event.path = seen.1 := by
  rw [eventOfNew] at h
  split_ifs at h
  · cases h
  · rw [← Option.some.inj h]

/-- No path is reported twice. -/
theorem nodup_events (hold : (old.map Prod.fst).Nodup) (hnew : (new.map Prod.fst).Nodup) :
    ((old.filterMap (eventOfOld new) ++ new.filterMap (eventOfNew old)).map
      WatchEvent.path).Nodup := by
  rw [List.map_append, List.nodup_append]
  have hpaths {find : Text × ℕ → Option WatchEvent} {l : List (Text × ℕ)}
      (hl : (l.map Prod.fst).Nodup)
      (hfind : ∀ seen event, event ∈ find seen → event.path = seen.1) :
      ((l.filterMap find).map WatchEvent.path).Nodup := by
    rw [List.Nodup, List.pairwise_map] at hl ⊢
    refine List.Pairwise.filterMap find (fun a b hab a' ha' b' hb' => ?_) hl
    rw [hfind a a' ha', hfind b b' hb']
    exact hab
  refine ⟨hpaths hold fun _ _ h => eventOfOld_path h, hpaths hnew fun _ _ h => eventOfNew_path h,
    fun a ha b hb hab => ?_⟩
  obtain ⟨before, hbefore, rfl⟩ := List.mem_map.mp ha
  obtain ⟨after, hafter, rfl⟩ := List.mem_map.mp hb
  obtain ⟨seen, hseen, hpath, -⟩ := mem_eventOfOld.mp hbefore
  refine (mem_eventOfNew.mp hafter).2.2 ?_
  rw [← hab, hpath]
  exact List.mem_map_of_mem hseen

theorem Shown.refill (hsound : Sound v) (hsize : v.nodes.length = vfsMaxFiles)
    (hdistinct : Distinct VfsNode.path v.nodes) (h : Shown v w) :
    Shown v (fsWatcherRefill v w) := by
  have hevent := mem_refill hsound hsize h
  have hfew := h.few
  have hnew := length_capture_le (w := w) hsound hsize
  have hlen := List.length_filterMap_le (eventOfOld (fsWatcherCapture v w)) w.snapshot
  have hlen' := List.length_filterMap_le (eventOfNew w.snapshot) (fsWatcherCapture v w)
  rw [refill_eq hsound hsize h] at hevent ⊢
  have hnodup := nodup_capture (w := w) hsound hdistinct
  refine ⟨hnew, hnodup, fun _ => bounds_capture hsound, ?_, fun event hmem => ?_,
    pairwise_sorted (nodup_events h.nodup hnodup)⟩
  · rw [fsWatcherSortEvents, (ExchangeSort.exchangeSort_perm _ _).length_eq, List.length_append]
    omega
  · rcases (hevent event).mp hmem with hold | hnew
    · obtain ⟨seen, hseen, hpath, ⟨hkind, hgone⟩ | ⟨hkind, current, hfind, -⟩⟩ :=
        mem_eventOfOld.mp hold
      · rw [hpath, hkind]
        exact ⟨(h.snapshot seen hseen).1, fun _ => hgone, fun _ => rfl⟩
      · obtain ⟨hcurrent, hcurrentPath⟩ := snapshotFind_eq_some hfind
        rw [hpath, hkind]
        refine ⟨(h.snapshot seen hseen).1, fun hremoved => (by cases hremoved), fun hgone => ?_⟩
        exact absurd (List.mem_map.mpr ⟨current, hcurrent, hcurrentPath⟩) hgone
    · obtain ⟨hkind, hthere, -⟩ := mem_eventOfNew.mp hnew
      obtain ⟨seen, hseen, hpath⟩ := List.mem_map.mp hthere
      rw [hkind, ← hpath]
      refine ⟨(bounds_capture hsound hseen).1, fun hremoved => (by cases hremoved), fun hgone => ?_⟩
      exact absurd (List.mem_map_of_mem hseen) hgone

/-! ## Never misled -/

/-- What is known of a place that is not about to be reported is as it was when the watcher last
looked, and as it is if it has not changed since. -/
structure Informed (s : Watching) (m : FileMap) : Prop where
  refines : Refines s.vfs.nodes m
  sound : Sound s.vfs
  shown : Shown s.vfs s.watcher
  gone : ∀ p ∉ s.watcher.pending.map WatchEvent.path, p ∉ s.watcher.snapshot.map Prod.fst →
    s.known p = none
  there : ∀ node, some node ∈ s.vfs.nodes →
    node.path ∉ s.watcher.pending.map WatchEvent.path →
    (node.path, node.version) ∈ s.watcher.snapshot → s.known node.path = some node.entry

variable {s : Watching} {m : FileMap}

theorem Informed.call (h : Informed s m) (room : Bool) {call : FsCall} (hcall : call.Apart) :
    Informed (s.step (.call room call)) (m.exec room call).1 where
  refines := (matches_exec room h.refines hcall).1
  sound := (stamped_exec h.sound room call).sound
  shown := { h.shown with
    snapshot := fun seen hseen =>
      have ⟨hlen, hlt, hchild⟩ := h.shown.snapshot seen hseen
      ⟨hlen, hlt.trans_le (stamped_exec h.sound room call).le, hchild⟩ }
  gone := h.gone
  there := by
    intro node hnode hquiet hseen
    rcases (stamped_exec h.sound room call).nodes node hnode with hold | hnew
    · exact h.there node hold hquiet hseen
    · exact absurd (h.shown.snapshot _ hseen).2.1 (Nat.not_lt.mpr hnew)

theorem Informed.refill (h : Informed s m) (hpending : s.watcher.pending = []) :
    Informed { s with watcher := fsWatcherRefill s.vfs s.watcher } m where
  refines := h.refines
  sound := h.sound
  shown := h.shown.refill h.sound h.refines.size h.refines.distinct
  gone := by
    intro p hquiet hgone
    dsimp only at hquiet hgone
    rw [refill_eq h.sound h.refines.size h.shown] at hgone
    refine h.gone p (by rw [hpending]; exact List.not_mem_nil) ?_
    exact not_mem_old_of_unreported h.sound h.refines.size h.shown hquiet hgone
  there := by
    intro node hnode hquiet hseen
    dsimp only at hquiet hseen
    rw [refill_eq h.sound h.refines.size h.shown] at hseen
    refine h.there node hnode (by rw [hpending]; exact List.not_mem_nil) ?_
    exact mem_old_of_unreported h.sound h.refines.size h.refines.distinct h.shown hquiet hseen

theorem entryAt_of_mem (h : Refines v.nodes m) {node : VfsNode} (hnode : some node ∈ v.nodes) :
    v.entryAt node.path = some node.entry := by
  obtain ⟨i, hi⟩ := List.getElem?_of_mem hnode
  rw [Vfs.entryAt, (lookup_eq_some h.distinct).mpr ⟨rfl, i, hi⟩, Option.map_some]

/-- What is reported is looked at. -/
theorem Informed.report (h : Informed s m) {event : WatchEvent} {rest : List WatchEvent}
    (hpending : s.watcher.pending = event :: rest) :
    Informed { vfs := fsClearError s.vfs
               watcher := { s.watcher with pending := rest, currentPath := event.path }
               known := Function.update s.known event.path
                 (if event.kind = .removed then none else s.vfs.entryAt event.path) } m := by
  have hfirst := h.shown.pending event (by rw [hpending]; exact List.mem_cons_self)
  have hother {p : Text} (hne : p ≠ event.path) (hquiet : p ∉ rest.map WatchEvent.path) :
      p ∉ s.watcher.pending.map WatchEvent.path := by
    rw [hpending, List.map_cons, List.mem_cons, not_or]
    exact ⟨hne, hquiet⟩
  refine ⟨h.refines, h.sound, ⟨h.shown.few, h.shown.nodup, h.shown.snapshot, ?_, ?_, ?_⟩, ?_, ?_⟩
  · have hfew := h.shown.pendingFew
    rw [hpending, List.length_cons] at hfew
    exact (Nat.le_succ _).trans hfew
  · intro event' hevent'
    exact h.shown.pending event' (by rw [hpending]; exact List.mem_cons_of_mem _ hevent')
  · have hsorted := h.shown.sorted
    rw [hpending] at hsorted
    exact hsorted.of_cons
  · intro p hquiet hgone
    dsimp only at hquiet hgone ⊢
    by_cases hp : p = event.path
    · subst hp
      rw [Function.update_self, if_pos (hfirst.2.mpr hgone)]
    · rw [Function.update_of_ne hp]
      exact h.gone p (hother hp hquiet) hgone
  · intro node hnode hquiet hseen
    dsimp only at hquiet hseen hnode ⊢
    by_cases hp : node.path = event.path
    · have hkind : event.kind ≠ .removed := fun hkind =>
        hfirst.2.mp hkind (hp ▸ List.mem_map_of_mem hseen)
      rw [hp, Function.update_self, if_neg hkind, ← hp]
      exact entryAt_of_mem h.refines hnode
    · rw [Function.update_of_ne hp]
      exact h.there node hnode (hother hp hquiet) hseen

/-- The entries below a place. -/
def FileMap.below (m : FileMap) (root : Text) (recursive : Bool) (p : Text) : Option Entry :=
  if fsPathIsChild p root recursive then m.lookup p else none

/-- What a watcher does not see is not there. -/
theorem below_of_not_captured (h : Refines v.nodes m) (hsound : Sound v)
    (hp : p ∉ (fsWatcherCapture v w).map Prod.fst) : m.below w.root w.recursive p = none := by
  rw [FileMap.below]
  split_ifs with hchild
  · rw [h.lookup]
    cases hlook : KeyedSlots.lookup VfsNode.path v.nodes p with
    | none => rfl
    | some node =>
      obtain ⟨rfl, i, hi⟩ := (lookup_eq_some h.distinct).mp hlook
      refine absurd (List.mem_map.mpr ⟨(node.path, node.version), ?_, rfl⟩) hp
      exact (mem_capture hsound).mpr ⟨node, List.mem_of_getElem? hi, hchild, rfl, rfl⟩
  · rfl

/-- What a watcher sees of a node is the node. -/
theorem below_of_captured (h : Refines v.nodes m) (hsound : Sound v) {node : VfsNode}
    (hnode : some node ∈ v.nodes) (hseen : (node.path, k) ∈ fsWatcherCapture v w) :
    m.below w.root w.recursive node.path = some node.entry := by
  rw [FileMap.below, if_pos (bounds_capture hsound hseen).2.2, h.lookup]
  exact entryAt_of_mem h hnode

theorem Informed.settled (h : Informed s m) (hpending : s.watcher.pending = [])
    (hseen : s.watcher.snapshot = fsWatcherCapture s.vfs s.watcher) :
    s.known = m.below s.watcher.root s.watcher.recursive := by
  have hquiet (p : Text) : p ∉ s.watcher.pending.map WatchEvent.path := by
    rw [hpending]
    exact List.not_mem_nil
  funext p
  by_cases hp : p ∈ (fsWatcherCapture s.vfs s.watcher).map Prod.fst
  · obtain ⟨⟨path, version⟩, hmem, rfl⟩ := List.mem_map.mp hp
    obtain ⟨node, hnode, -, rfl, rfl⟩ := (mem_capture h.sound).mp hmem
    rw [below_of_captured h.refines h.sound hnode hmem]
    exact h.there node hnode (hquiet _) (hseen ▸ hmem)
  · rw [below_of_not_captured h.refines h.sound hp]
    exact h.gone p (hquiet p) (hseen ▸ hp)

/-! ## Polls -/

theorem poll_report {event : WatchEvent} {rest : List WatchEvent}
    (hpending : s.watcher.pending = event :: rest) :
    s.poll =
      { vfs := fsClearError s.vfs
        watcher := { s.watcher with pending := rest, currentPath := fsCopyPath event.path }
        known := Function.update s.known (fsCopyPath event.path)
          (if event.kind = .removed then none else s.vfs.entryAt (fsCopyPath event.path)) } := by
  rw [Watching.poll, fsWatcherPoll, if_neg (by rw [hpending]; exact List.cons_ne_nil _ _), hpending]

/-- A watcher with nothing pending, after it has looked again. -/
def Watching.refilled (s : Watching) : Watching :=
  { s with watcher := fsWatcherRefill s.vfs s.watcher }

theorem poll_refilled (hpending : s.watcher.pending = [])
    (hrefill : s.refilled.watcher.pending ≠ []) : s.poll = s.refilled.poll := by
  rw [Watching.poll, fsWatcherPoll, if_pos hpending, Watching.poll, fsWatcherPoll, if_neg hrefill]
  rfl

theorem poll_quiet (hpending : s.watcher.pending = []) (hrefill : s.refilled.watcher.pending = []) :
    s.poll = { s.refilled with vfs := fsClearError s.vfs } := by
  have hrefill' : (fsWatcherRefill s.vfs s.watcher).pending = [] := hrefill
  rw [Watching.poll, fsWatcherPoll, if_pos hpending, hrefill']
  rfl

theorem Informed.poll (h : Informed s m) : Informed s.poll m := by
  have hreport {s : Watching} (h : Informed s m) (hne : s.watcher.pending ≠ []) :
      Informed s.poll m := by
    obtain ⟨event, rest, hpending⟩ := List.exists_cons_of_ne_nil hne
    have hshort := (h.shown.pending event (by rw [hpending]; exact List.mem_cons_self)).1
    rw [poll_report hpending, fsCopyPath_of_lt hshort]
    exact h.report hpending
  by_cases hpending : s.watcher.pending = []
  · have hrefilled : Informed s.refilled m := h.refill hpending
    by_cases hrefill : s.refilled.watcher.pending = []
    · rw [poll_quiet hpending hrefill]
      obtain ⟨hrefines, hsound, ⟨hfew, hnodup, hsnapshot, hpendingFew, hevents, hsorted⟩, hgone,
        hthere⟩ := hrefilled
      exact ⟨hrefines, hsound, ⟨hfew, hnodup, hsnapshot, hpendingFew, hevents, hsorted⟩, hgone,
        hthere⟩
    · rw [poll_refilled hpending hrefill]
      exact hreport hrefilled hrefill
  · exact hreport h hpending

theorem Informed.run (h : Informed s m) (acts : List WatchAct) (hacts : ∀ a ∈ acts, a.Apart) :
    Informed (acts.foldl Watching.step s) (acts.foldl FileMap.act m) := by
  induction acts generalizing s m with
  | nil => exact h
  | cons a acts ih =>
    obtain ⟨ha, hrest⟩ := List.forall_mem_cons.mp hacts
    cases a with
    | call room c => exact ih (h.call room ha) hrest
    | poll => exact ih h.poll hrest

/-- An answer of zero. -/
theorem Informed.quiet (h : Informed s m) (hanswer : (fsWatcherPoll s.vfs s.watcher).2 = none) :
    s.known = m.below s.watcher.root s.watcher.recursive := by
  have hpending : s.watcher.pending = [] := by
    by_contra hne
    obtain ⟨event, rest, hpending⟩ := List.exists_cons_of_ne_nil hne
    rw [fsWatcherPoll, if_neg hne, hpending] at hanswer
    cases hanswer
  have hrefill : s.refilled.watcher.pending = [] := by
    by_contra hne
    obtain ⟨event, rest, hrefill⟩ := List.exists_cons_of_ne_nil hne
    have hrefill' : (fsWatcherRefill s.vfs s.watcher).pending = event :: rest := hrefill
    rw [fsWatcherPoll, if_pos hpending, hrefill'] at hanswer
    cases hanswer
  have hrefilled : Informed s.refilled m := h.refill hpending
  exact hrefilled.settled hrefill rfl

/-- What is pending is handed out. -/
theorem drain (s : Watching) (n : ℕ) (hn : s.watcher.pending.length = n) :
    (Watching.poll^[n] s).watcher.pending = [] ∧
      (Watching.poll^[n] s).watcher.snapshot = s.watcher.snapshot ∧
      (Watching.poll^[n] s).watcher.root = s.watcher.root ∧
      (Watching.poll^[n] s).watcher.recursive = s.watcher.recursive ∧
      (Watching.poll^[n] s).vfs.nodes = s.vfs.nodes := by
  induction n generalizing s with
  | zero => exact ⟨List.length_eq_zero_iff.mp hn, rfl, rfl, rfl, rfl⟩
  | succ n ih =>
    obtain ⟨event, rest, hpending⟩ := List.exists_cons_of_length_eq_add_one hn
    rw [hpending, List.length_cons, Nat.succ_inj] at hn
    rw [Function.iterate_succ_apply, poll_report hpending]
    exact ih _ hn

theorem Informed.iterate (h : Informed s m) (n : ℕ) : Informed (Watching.poll^[n] s) m := by
  induction n generalizing s with
  | zero => exact h
  | succ n ih => exact ih h.poll

/-- With no call between them, some polls are enough to know everything. -/
theorem Informed.polls (h : Informed s m) : ∃ n ≤ vfsMaxFiles * 2 + vfsMaxFiles * 2,
    (Watching.poll^[n] s).known = m.below s.watcher.root s.watcher.recursive := by
  have hfew := h.shown.pendingFew
  obtain ⟨hpending, -, hroot, hrecursive, -⟩ := drain s _ rfl
  have hdrained := h.iterate s.watcher.pending.length
  rw [← hroot, ← hrecursive]
  generalize hk : s.watcher.pending.length = k at *
  generalize hs' : Watching.poll^[k] s = s' at *
  have hrefilled : Informed s'.refilled m := hdrained.refill hpending
  by_cases hrefill : s'.refilled.watcher.pending = []
  · refine ⟨k, by omega, ?_⟩
    rw [hs']
    exact hrefilled.settled hrefill rfl
  · have hfew' := hrefilled.shown.pendingFew
    obtain ⟨n, hn⟩ := Nat.exists_eq_add_one_of_ne_zero
      (mt List.length_eq_zero_iff.mp hrefill)
    obtain ⟨hempty, hsnapshot, hroot', hrecursive', hnodes⟩ := drain s'.refilled _ hn
    have hsame : Watching.poll^[n + 1] s' = Watching.poll^[n + 1] s'.refilled := by
      rw [Function.iterate_succ_apply, Function.iterate_succ_apply, poll_refilled hpending hrefill]
    have hinformed := hrefilled.iterate (n + 1)
    refine ⟨n + 1 + k, by omega, ?_⟩
    rw [Function.iterate_add_apply, hs', hsame]
    refine (hinformed.settled hempty ?_).trans ?_
    · rw [hsnapshot, fsWatcherCapture, hnodes, hroot', hrecursive']
      rfl
    · rw [hroot', hrecursive']
      rfl

/-! ## What a watcher tells -/

theorem sound_empty : Sound {} := by
  intro node hnode
  cases (List.mem_replicate.mp hnode).2

theorem sound_after (hsound : Sound v) (calls : List (Bool × FsCall)) : Sound (v.after calls) := by
  induction calls generalizing v with
  | nil => exact hsound
  | cons c calls ih => exact ih (stamped_exec hsound c.1 c.2).sound

theorem open_some {room recursive : Bool} {path : Text}
    (hopen : fsWatcherOpen room v path recursive = some w) :
    w.root = place path ∧ w.recursive = recursive ∧ w.pending = [] ∧
      w.snapshot = fsWatcherCapture v w := by
  rw [fsWatcherOpen] at hopen
  dsimp only at hopen
  rw [fsCopyPath_place, fsCopyPath_place] at hopen
  split_ifs at hopen
  cases hopen
  exact ⟨rfl, rfl, rfl, rfl⟩

/-- Someone who has read everything below the root when the watcher is opened. -/
theorem informed_open (h : Refines v.nodes m) (hsound : Sound v) (hpending : w.pending = [])
    (hseen : w.snapshot = fsWatcherCapture v w) :
    Informed { vfs := v, watcher := w, known := m.below w.root w.recursive } m where
  refines := h
  sound := hsound
  shown := {
    few := by
      rw [hseen]
      exact length_capture_le hsound h.size
    nodup := by
      rw [hseen]
      exact nodup_capture hsound h.distinct
    snapshot := by
      rw [hseen]
      exact fun _ => bounds_capture hsound
    pendingFew := by
      rw [hpending]
      exact Nat.zero_le _
    pending := by
      rw [hpending]
      intro event hevent
      cases hevent
    sorted := by
      rw [hpending]
      exact .nil }
  gone := fun _ _ hgone => below_of_not_captured h hsound (hseen ▸ hgone)
  there := fun _ hnode _ hmem => below_of_captured h hsound hnode (hseen ▸ hmem)

theorem poll_root (s : Watching) : s.poll.watcher.root = s.watcher.root ∧
    s.poll.watcher.recursive = s.watcher.recursive := by
  rw [Watching.poll, fsWatcherPoll]
  by_cases hpending : s.watcher.pending = []
  · rw [if_pos hpending]
    cases hrefill : (fsWatcherRefill s.vfs s.watcher).pending with
    | nil => exact ⟨rfl, rfl⟩
    | cons event rest => exact ⟨rfl, rfl⟩
  · obtain ⟨event, rest, hcons⟩ := List.exists_cons_of_ne_nil hpending
    rw [if_neg hpending, hcons]
    exact ⟨rfl, rfl⟩

theorem run_root (s : Watching) (acts : List WatchAct) :
    (acts.foldl Watching.step s).watcher.root = s.watcher.root ∧
      (acts.foldl Watching.step s).watcher.recursive = s.watcher.recursive := by
  induction acts generalizing s with
  | nil => exact ⟨rfl, rfl⟩
  | cons a acts ih =>
    obtain ⟨hroot, hrecursive⟩ := ih (s.step a)
    rw [List.foldl_cons, hroot, hrecursive]
    cases a with
    | call room c => exact ⟨rfl, rfl⟩
    | poll => exact poll_root s

def exampleActs : List WatchAct :=
  [.call true (.writeText (bytes "d/b") (bytes "y") false), .poll,
    .call true (.remove (bytes "d/a"))]

def exampleWatcher : VfsWatcher :=
  { root := bytes "/d", recursive := false, snapshot := [(bytes "/d/a", 4)] }

end Wasm

end Absolute
