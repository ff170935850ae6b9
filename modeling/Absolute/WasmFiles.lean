import Absolute.LibKeyedSlots
import Absolute.WasmPaths
import Mathlib.Data.List.AList

/-!
# Files of the WebAssembly runtime

The virtual filesystem of the freestanding platform: a table of 64 nodes that are searched by
their normalized path. What the table means is a finite map from places to entries (`FileMap`),
and every call answers as that map does (`vfs_refines`), errors included. An allocation may fail
at any call; its outcome is an input.

Renaming a file to its own place and copying it over itself is left out of the results: the first
frees the node it goes on to rename, the second reads what it has freed.
-/

namespace Absolute

namespace Wasm

open Strings KeyedSlots

/-! ## The table -/

def vfsMaxFiles : ℕ := 64

structure VfsNode where
  isDir : Bool := false
  path : Text := []
  data : Option Text := none
  version : ℕ
deriving DecidableEq

/-- The nodes, `none` where one is not used. -/
structure Vfs where
  nodes : List (Option VfsNode) := List.replicate vfsMaxFiles none
  fsVersion : ℕ := 1
  error : Text := []
deriving DecidableEq

/-- The current directory, which nothing changes. -/
def fsCwd : Text := [0x2F]

/-- `fs_copy_path` into an array for a path. -/
def fsCopyPath (src : Text) : Text := src.take (vfsMaxPath - 1)

inductive FsError where
  | fileNotFound
  | directoryPathEmpty
  | vfsFull
  | pathNotFound
  | renamePathMissing
  | outOfMemory
  | copySourceMissing
  | destinationExists
  | pathEmpty
  | pathIsDirectory
deriving DecidableEq

def FsError.message : FsError → Text
  | .fileNotFound => bytes "file not found"
  | .directoryPathEmpty => bytes "directory path is empty"
  | .vfsFull => bytes "vfs full"
  | .pathNotFound => bytes "path not found"
  | .renamePathMissing => bytes "rename path missing"
  | .outOfMemory => bytes "out of memory"
  | .copySourceMissing => bytes "copy source missing"
  | .destinationExists => bytes "destination exists"
  | .pathEmpty => bytes "path is empty"
  | .pathIsDirectory => bytes "path is a directory"

/-- `fs_set_error`, into 128 bytes. -/
def fsSetError (v : Vfs) (e : FsError) : Vfs := { v with error := e.message.take 127 }

def fsClearError (v : Vfs) : Vfs := { v with error := [] }

/-- `fs_find`, with the node it finds. -/
def fsFind (v : Vfs) (path : Text) : Option (ℕ × VfsNode) :=
  (find VfsNode.path v.nodes (fsNormalize fsCwd path)).bind fun id =>
    (entry v.nodes id).map fun node => (id, node)

def fsAllocNode (v : Vfs) : Option (ℕ × Vfs) :=
  (KeyedSlots.free v.nodes).map fun id =>
    (id, { v with
      nodes := v.nodes.set id (some { version := v.fsVersion })
      fsVersion := v.fsVersion + 1 })

/-- Assignments to a node, which show if it is used. -/
def fsModify (v : Vfs) (id : ℕ) (f : VfsNode → VfsNode) : Vfs :=
  { v with nodes := v.nodes.modify id (Option.map f) }

/-- The same, and `version = g_fs_version++`. -/
def fsTouch (v : Vfs) (id : ℕ) (f : VfsNode → VfsNode) : Vfs :=
  { fsModify v id fun node => { f node with version := v.fsVersion } with
    fsVersion := v.fsVersion + 1 }

def fsFreeNode (v : Vfs) (id : ℕ) : Vfs := { v with nodes := v.nodes.set id none }

/-! ## Calls -/

inductive FsReply where
  | number (value : ℤ)
  | text (value : Text)
deriving DecidableEq

def FsReply.flag (b : Bool) : FsReply := .number (if b then 1 else 0)

def fsExists (v : Vfs) (path : Text) : Vfs × FsReply :=
  (fsClearError v, .flag (fsFind v path).isSome)

def fsIsFile (v : Vfs) (path : Text) : Vfs × FsReply :=
  (fsClearError v, .flag ((fsFind v path).any fun found => !found.2.isDir))

def fsIsDirectory (v : Vfs) (path : Text) : Vfs × FsReply :=
  (fsClearError v,
    match fsFind v path with
    | none => .flag (path = [0x2F] ∨ path = fsCwd)
    | some (_, node) => .flag node.isDir)

def fsFileSize (v : Vfs) (path : Text) : Vfs × FsReply :=
  match fsFind v path with
  | none => (fsSetError v .fileNotFound, .number (-1))
  | some (_, node) =>
    if node.isDir then (fsSetError v .fileNotFound, .number (-1))
    else (fsClearError v, .number (node.data.getD []).length)

def fsMetadataType (v : Vfs) (path : Text) : Vfs × FsReply :=
  (fsClearError v,
    match fsFind v path with
    | none => .number 0
    | some (_, node) => .number (if node.isDir then 2 else 1))

def fsCreateDirectories (v : Vfs) (path : Text) : Vfs × FsReply :=
  if path = [] then (fsSetError v .directoryPathEmpty, .number 0)
  else
    match fsFind v path with
    | some (_, node) => (fsClearError v, .flag node.isDir)
    | none =>
      match fsAllocNode v with
      | none => (fsSetError v .vfsFull, .number 0)
      | some (id, v) =>
        (fsClearError (fsTouch v id fun node =>
          { node with path := fsCopyPath (fsNormalize fsCwd path), isDir := true }), .number 1)

def fsRemove (v : Vfs) (path : Text) : Vfs × FsReply :=
  match fsFind v path with
  | none => (fsSetError v .pathNotFound, .number 0)
  | some (id, _) =>
    (fsClearError { fsFreeNode v id with fsVersion := v.fsVersion + 1 }, .number 1)

def fsRename (v : Vfs) (source destination : Text) : Vfs × FsReply :=
  match fsFind v source with
  | none => (fsSetError v .renamePathMissing, .number 0)
  | some (id, _) =>
    let v :=
      match fsFind v destination with
      | some _ => (fsRemove v destination).1
      | none => v
    (fsClearError (fsTouch v id fun node =>
      { node with path := fsCopyPath (fsNormalize fsCwd destination) }), .number 1)

/-- The end of `absolute_fs_copy_file`, with the bytes of the source. -/
def fsCopyInto (room : Bool) (v : Vfs) (dest : ℕ) (data : Text) : Vfs × FsReply :=
  if room then
    (fsClearError (fsTouch v dest fun node => { node with isDir := false, data := some data }),
      .number 1)
  else (fsSetError (fsFreeNode v dest) .outOfMemory, .number 0)

def fsCopyFile (room : Bool) (v : Vfs) (source destination : Text) (overwrite : Bool) :
    Vfs × FsReply :=
  match fsFind v source with
  | none => (fsSetError v .copySourceMissing, .number 0)
  | some (_, node) =>
    if node.isDir then (fsSetError v .copySourceMissing, .number 0)
    else
      match fsFind v destination with
      | some (dest, _) =>
        if overwrite then fsCopyInto room v dest (node.data.getD [])
        else (fsSetError v .destinationExists, .number 0)
      | none =>
        match fsAllocNode v with
        | none => (fsSetError v .vfsFull, .number 0)
        | some (dest, v) =>
          fsCopyInto room (fsModify v dest fun fresh =>
            { fresh with path := fsCopyPath (fsNormalize fsCwd destination) }) dest
            (node.data.getD [])

def fsReadText (v : Vfs) (path : Text) : Vfs × FsReply :=
  match fsFind v path with
  | none => (fsSetError v .fileNotFound, .text [])
  | some (_, node) =>
    match node.isDir, node.data with
    | false, some data => (fsClearError v, .text data)
    | _, _ => (fsSetError v .fileNotFound, .text [])

/-- The end of `absolute_fs_write_text`, with the bytes that are kept in front. -/
def fsStore (room : Bool) (v : Vfs) (id : ℕ) (before text : Text) : Vfs × FsReply :=
  if room then
    (fsClearError (fsTouch v id fun node => { node with data := some (before ++ text) }), .number 1)
  else (fsSetError v .outOfMemory, .number 0)

def fsWriteText (room : Bool) (v : Vfs) (path text : Text) (append : Bool) : Vfs × FsReply :=
  if path = [] then (fsSetError v .pathEmpty, .number 0)
  else
    match fsFind v path with
    | some (id, node) =>
      if node.isDir then (fsSetError v .pathIsDirectory, .number 0)
      else fsStore room v id (if append then node.data.getD [] else []) text
    | none =>
      match fsAllocNode v with
      | none => (fsSetError v .vfsFull, .number 0)
      | some (id, v) =>
        fsStore room (fsModify v id fun fresh =>
          { fresh with path := fsCopyPath (fsNormalize fsCwd path), isDir := false }) id [] text

inductive FsCall where
  | exists (path : Text)
  | isFile (path : Text)
  | isDirectory (path : Text)
  | fileSize (path : Text)
  | metadataType (path : Text)
  | createDirectories (path : Text)
  | remove (path : Text)
  | rename (source destination : Text)
  | copyFile (source destination : Text) (overwrite : Bool)
  | readText (path : Text)
  | writeText (path text : Text) (append : Bool)

/-- A call, and whether an allocation it makes succeeds. -/
def FsCall.exec (room : Bool) (v : Vfs) : FsCall → Vfs × FsReply
  | .exists path => fsExists v path
  | .isFile path => fsIsFile v path
  | .isDirectory path => fsIsDirectory v path
  | .fileSize path => fsFileSize v path
  | .metadataType path => fsMetadataType v path
  | .createDirectories path => fsCreateDirectories v path
  | .remove path => fsRemove v path
  | .rename source destination => fsRename v source destination
  | .copyFile source destination overwrite => fsCopyFile room v source destination overwrite
  | .readText path => fsReadText v path
  | .writeText path text append => fsWriteText room v path text append

/-- What the calls of a run return, with the text of the error there is then. -/
def Vfs.replies (v : Vfs) : List (Bool × FsCall) → List (Text × FsReply)
  | [] => []
  | (room, call) :: calls =>
    let (v, reply) := call.exec room v
    (v.error, reply) :: v.replies calls

/-! ## The map -/

inductive Entry where
  | directory
  | file (data : Option Text)
deriving DecidableEq

/-- The entries by their places. A file has no data if there was no room for them. -/
abbrev FileMap := AList fun _ : Text => Entry

/-- The place a path names. -/
abbrev place (path : Text) : Text := fsNormalize fsCwd path

namespace FileMap

variable (room : Bool) (m : FileMap)

def full : Prop := m.keys.length = vfsMaxFiles

instance : Decidable m.full := inferInstanceAs (Decidable (_ = _))

/-- Puts an entry in a new place. -/
def create (p : Text) (e : Entry) : FileMap × Except FsError FsReply :=
  if m.full then (m, .error .vfsFull) else (m.insert p e, .ok (.number 1))

def writeText (path text : Text) (append : Bool) : FileMap × Except FsError FsReply :=
  if path = [] then (m, .error .pathEmpty)
  else
    match m.lookup (place path) with
    | some .directory => (m, .error .pathIsDirectory)
    | some (.file data) =>
      if room then
        (m.insert (place path) (.file (some ((if append then data.getD [] else []) ++ text))),
          .ok (.number 1))
      else (m, .error .outOfMemory)
    | none =>
      if room then m.create (place path) (.file (some text))
      else if m.full then (m, .error .vfsFull)
      else (m.insert (place path) (.file none), .error .outOfMemory)

def copyFile (source destination : Text) (overwrite : Bool) : FileMap × Except FsError FsReply :=
  match m.lookup (place source) with
  | some (.file data) =>
    if (m.lookup (place destination)).isSome then
      if ¬overwrite then (m, .error .destinationExists)
      else if room then
        (m.insert (place destination) (.file (some (data.getD []))), .ok (.number 1))
      else (m.erase (place destination), .error .outOfMemory)
    else if room then m.create (place destination) (.file (some (data.getD [])))
    else if m.full then (m, .error .vfsFull)
    else (m, .error .outOfMemory)
  | _ => (m, .error .copySourceMissing)

def exec : FsCall → FileMap × Except FsError FsReply
  | .exists path => (m, .ok (.flag (m.lookup (place path)).isSome))
  | .isFile path =>
    (m, .ok (.flag ((m.lookup (place path)).any fun e => e != .directory)))
  | .isDirectory path =>
    (m, .ok (match m.lookup (place path) with
      | none => .flag (path = [0x2F])
      | some e => .flag (e == .directory)))
  | .fileSize path =>
    match m.lookup (place path) with
    | some (.file data) => (m, .ok (.number (data.getD []).length))
    | _ => (m, .error .fileNotFound)
  | .metadataType path =>
    (m, .ok (match m.lookup (place path) with
      | none => .number 0
      | some .directory => .number 2
      | some (.file _) => .number 1))
  | .createDirectories path =>
    if path = [] then (m, .error .directoryPathEmpty)
    else
      match m.lookup (place path) with
      | some e => (m, .ok (.flag (e == .directory)))
      | none => m.create (place path) .directory
  | .remove path =>
    if (m.lookup (place path)).isSome then (m.erase (place path), .ok (.number 1))
    else (m, .error .pathNotFound)
  | .rename source destination =>
    match m.lookup (place source) with
    | none => (m, .error .renamePathMissing)
    | some e => ((m.erase (place source)).insert (place destination) e, .ok (.number 1))
  | .copyFile source destination overwrite => m.copyFile room source destination overwrite
  | .readText path =>
    match m.lookup (place path) with
    | some (.file (some data)) => (m, .ok (.text data))
    | _ => (m, .error .fileNotFound)
  | .writeText path text append => m.writeText room path text append

end FileMap

/-- What a call returns that sets an error. -/
def FsCall.failure : FsCall → FsReply
  | .fileSize _ => .number (-1)
  | .readText _ => .text []
  | _ => .number 0

/-- An answer, as the text of the error and what is returned. -/
def FsCall.answer (call : FsCall) : Except FsError FsReply → Text × FsReply
  | .ok reply => ([], reply)
  | .error e => (e.message, call.failure)

def FileMap.replies (m : FileMap) : List (Bool × FsCall) → List (Text × FsReply)
  | [] => []
  | (room, call) :: calls =>
    let (m, answer) := m.exec room call
    call.answer answer :: FileMap.replies m calls

/-- Two places where the call names two. -/
def FsCall.Apart : FsCall → Prop
  | .rename source destination => place source ≠ place destination
  | .copyFile source destination _ => place source ≠ place destination
  | _ => True

/-! ## What the table means -/

def VfsNode.entry (node : VfsNode) : Entry := if node.isDir then .directory else .file node.data

structure Refines (nodes : List (Option VfsNode)) (m : FileMap) : Prop where
  size : nodes.length = vfsMaxFiles
  distinct : Distinct VfsNode.path nodes
  lookup : ∀ p, m.lookup p = (KeyedSlots.lookup VfsNode.path nodes p).map VfsNode.entry

theorem fsCopyPath_place (path : Text) : fsCopyPath (place path) = place path :=
  List.take_of_length_le
    (Nat.le_sub_one_of_lt (length_pathNormalizeInto_lt (by decide) fsCwd path true))

theorem message_take (e : FsError) : e.message.take 127 = e.message := by
  cases e <;> exact List.take_of_length_le (by decide)

variable {v : Vfs} {m : FileMap} {nodes : List (Option VfsNode)} {id : ℕ} {node : VfsNode}

theorem refines_empty : Refines ({} : Vfs).nodes ∅ where
  size := List.length_replicate
  distinct := by
    intro i j a b hi
    rw [List.getElem?_replicate] at hi
    split_ifs at hi
    cases hi
  lookup := by
    intro p
    rw [AList.lookup_empty, lookup_eq_none.mpr (find_eq_none.mpr fun i a hi => ?_)]
    · rfl
    · rw [List.getElem?_replicate] at hi
      split_ifs at hi
      cases hi

/-- What `fs_find` finds is what the map has at the place. -/
theorem Refines.find_cases (h : Refines v.nodes m) (path : Text) :
    (fsFind v path = none ∧ m.lookup (place path) = none ∧
      ∀ (i : ℕ) (n : VfsNode), v.nodes[i]? = some (some n) → n.path ≠ place path) ∨
    ∃ id node, fsFind v path = some (id, node) ∧ v.nodes[id]? = some (some node) ∧
      node.path = place path ∧ m.lookup (place path) = some node.entry := by
  rw [h.lookup, fsFind]
  cases hfind : find VfsNode.path v.nodes (place path) with
  | none =>
    rw [lookup_eq_none.mpr hfind]
    exact .inl ⟨rfl, rfl, find_eq_none.mp hfind⟩
  | some id =>
    obtain ⟨node, hid, hpath⟩ := exists_of_find hfind
    refine .inr ⟨id, node, ?_, hid, hpath, ?_⟩
    · rw [Option.bind_some, entry_eq_some.mpr hid, Option.map_some]
    · rw [lookup_of_find hfind hid, Option.map_some]

theorem Refines.full_iff (h : Refines v.nodes m) : m.full ↔ KeyedSlots.free v.nodes = none := by
  rw [free_eq_none h.distinct m.nodupKeys, h.size]
  · rfl
  · intro p
    rw [← Option.isSome_map, ← h.lookup, AList.lookup_isSome]
    exact AList.mem_keys.symm

theorem Refines.alloc_cases (h : Refines v.nodes m) :
    (fsAllocNode v = none ∧ m.full) ∨
    ∃ id, fsAllocNode v = some (id, { v with
        nodes := v.nodes.set id (some { version := v.fsVersion })
        fsVersion := v.fsVersion + 1 }) ∧
      v.nodes[id]? = some none ∧ ¬m.full := by
  rw [h.full_iff, fsAllocNode]
  cases hfree : KeyedSlots.free v.nodes with
  | none => exact .inl ⟨rfl, rfl⟩
  | some id => exact .inr ⟨id, rfl, free_eq_some hfree, by simp⟩

/-- A node that is put into a slot of its own place, or into a free one. -/
theorem Refines.put (h : Refines nodes m) {s : Option VfsNode} (hid : nodes[id]? = some s)
    (node : VfsNode) (hown : ∀ b ∈ s, b.path = node.path)
    (hnew : ∀ (j : ℕ) (b : VfsNode), nodes[j]? = some (some b) → b.path = node.path → j = id) :
    Refines (nodes.set id (some node)) (m.insert node.path node.entry) where
  size := List.length_set.trans h.size
  distinct := h.distinct.set_some hnew
  lookup := by
    intro p
    rw [lookup_set_some h.distinct hid hnew]
    split_ifs with hp hold
    · rw [hp, AList.lookup_insert, Option.map_some]
    · obtain ⟨b, hb, hpath⟩ := (Option.any_eq_true _ _).mp hold
      exact absurd ((of_decide_eq_true hpath).symm.trans (hown b hb)) hp
    · rw [AList.lookup_insert_ne hp, h.lookup]

/-- A node that is assigned to where it is. -/
theorem Refines.replace (h : Refines nodes m) {old : VfsNode} (hid : nodes[id]? = some (some old))
    (node : VfsNode) (hpath : node.path = old.path) :
    Refines (nodes.set id (some node)) (m.insert node.path node.entry) :=
  h.put hid node (fun b hb => by rw [← Option.mem_some.mp hb, hpath])
    fun j b hj hb => h.distinct hj hid (hb.trans hpath)

theorem Refines.erase (h : Refines nodes m) (hid : nodes[id]? = some (some node)) :
    Refines (nodes.set id none) (m.erase node.path) where
  size := List.length_set.trans h.size
  distinct := h.distinct.set_none id
  lookup := by
    intro p
    rw [lookup_set_none h.distinct hid]
    split_ifs with hp
    · rw [hp, AList.lookup_erase, Option.map_none]
    · rw [AList.lookup_erase_ne hp, h.lookup]

/-- A node that goes to a place nothing is at. -/
theorem Refines.move (h : Refines nodes m) {old : VfsNode} (hid : nodes[id]? = some (some old))
    (node : VfsNode)
    (hnew : ∀ (j : ℕ) (b : VfsNode), nodes[j]? = some (some b) → b.path ≠ node.path) :
    Refines (nodes.set id (some node)) ((m.erase old.path).insert node.path node.entry) := by
  have hfree : (nodes.set id none)[id]? = some none :=
    List.getElem?_set_self (List.getElem?_eq_some_iff.mp hid).1
  have hput := (h.erase hid).put hfree node (by simp) fun j b hj hb => by
    rw [List.getElem?_set] at hj
    split_ifs at hj
    · cases hj
    · exact absurd hb (hnew j b hj)
  rwa [List.set_set] at hput

theorem modify_used {nodes : List (Option VfsNode)} (hid : nodes[id]? = some (some node))
    (f : VfsNode → VfsNode) : nodes.modify id (Option.map f) = nodes.set id (some (f node)) := by
  rw [List.modify_eq_set, hid]
  rfl

/-! ## One call -/

/-- A call comes out as the map says. -/
def Matches (call : FsCall) (out : Vfs × FsReply) (spec : FileMap × Except FsError FsReply) : Prop :=
  Refines out.1.nodes spec.1 ∧ (out.1.error, out.2) = call.answer spec.2

variable {call : FsCall} {room : Bool}

theorem Refines.ok (h : Refines v.nodes m) (reply : FsReply) :
    Matches call (fsClearError v, reply) (m, .ok reply) := ⟨h, rfl⟩

theorem Refines.error (h : Refines v.nodes m) (e : FsError) :
    Matches call (fsSetError v e, call.failure) (m, .error e) :=
  ⟨h, congrArg (Prod.mk · call.failure) (message_take e)⟩

theorem outOfMemory_answer :
    (FsError.outOfMemory.message.take 127, FsReply.number 0) =
      (FsError.outOfMemory.message, .number 0) :=
  congrArg (fun text => (text, FsReply.number 0)) (message_take .outOfMemory)

theorem entry_of_directory (h : node.isDir = true) : node.entry = .directory := if_pos h

theorem entry_of_file (h : node.isDir = false) : node.entry = .file node.data :=
  if_neg (by rw [h]; exact Bool.false_ne_true)

theorem refines_fsTouch (hid : v.nodes[id]? = some (some node)) (f : VfsNode → VfsNode)
    (h : Refines (v.nodes.set id (some { f node with version := v.fsVersion })) m) :
    Refines (fsTouch v id f).nodes m := by
  rw [fsTouch, fsModify]
  dsimp only
  rwa [modify_used hid]

theorem matches_exists (h : Refines v.nodes m) (path : Text) :
    Matches (.exists path) (fsExists v path) (m.exec room (.exists path)) := by
  rw [fsExists, FileMap.exec]
  rcases h.find_cases path with ⟨hfind, hlook, -⟩ | ⟨id, node, hfind, -, -, hlook⟩
  · rw [hfind, hlook]
    exact h.ok _
  · rw [hfind, hlook]
    exact h.ok _

theorem matches_isFile (h : Refines v.nodes m) (path : Text) :
    Matches (.isFile path) (fsIsFile v path) (m.exec room (.isFile path)) := by
  rw [fsIsFile, FileMap.exec]
  rcases h.find_cases path with ⟨hfind, hlook, -⟩ | ⟨id, node, hfind, -, -, hlook⟩
  · rw [hfind, hlook]
    exact h.ok _
  · rw [hfind, hlook, Option.any_some, Option.any_some]
    cases hdir : node.isDir with
    | true => rw [entry_of_directory hdir]; exact h.ok _
    | false => rw [entry_of_file hdir]; exact h.ok _

theorem matches_isDirectory (h : Refines v.nodes m) (path : Text) :
    Matches (.isDirectory path) (fsIsDirectory v path) (m.exec room (.isDirectory path)) := by
  rw [fsIsDirectory, FileMap.exec]
  rcases h.find_cases path with ⟨hfind, hlook, -⟩ | ⟨id, node, hfind, -, -, hlook⟩
  · rw [hfind, hlook]
    simp only [fsCwd, or_self]
    exact h.ok _
  · rw [hfind, hlook]
    dsimp only
    cases hdir : node.isDir with
    | true => rw [entry_of_directory hdir]; exact h.ok _
    | false => rw [entry_of_file hdir]; exact h.ok _

theorem matches_fileSize (h : Refines v.nodes m) (path : Text) :
    Matches (.fileSize path) (fsFileSize v path) (m.exec room (.fileSize path)) := by
  rw [fsFileSize, FileMap.exec]
  rcases h.find_cases path with ⟨hfind, hlook, -⟩ | ⟨id, node, hfind, -, -, hlook⟩
  · rw [hfind, hlook]
    exact h.error _
  · rw [hfind, hlook]
    dsimp only
    cases hdir : node.isDir with
    | true =>
      rw [entry_of_directory hdir, if_pos rfl]
      exact h.error _
    | false =>
      rw [entry_of_file hdir, if_neg Bool.false_ne_true]
      exact h.ok _

theorem matches_metadataType (h : Refines v.nodes m) (path : Text) :
    Matches (.metadataType path) (fsMetadataType v path) (m.exec room (.metadataType path)) := by
  rw [fsMetadataType, FileMap.exec]
  rcases h.find_cases path with ⟨hfind, hlook, -⟩ | ⟨id, node, hfind, -, -, hlook⟩
  · rw [hfind, hlook]
    exact h.ok _
  · rw [hfind, hlook]
    dsimp only
    cases hdir : node.isDir with
    | true => rw [entry_of_directory hdir]; exact h.ok _
    | false => rw [entry_of_file hdir]; exact h.ok _

theorem matches_readText (h : Refines v.nodes m) (path : Text) :
    Matches (.readText path) (fsReadText v path) (m.exec room (.readText path)) := by
  rw [fsReadText, FileMap.exec]
  rcases h.find_cases path with ⟨hfind, hlook, -⟩ | ⟨id, node, hfind, -, -, hlook⟩
  · rw [hfind, hlook]
    exact h.error _
  · rw [hfind, hlook]
    dsimp only
    cases hdir : node.isDir with
    | true =>
      rw [entry_of_directory hdir]
      exact h.error _
    | false =>
      rw [entry_of_file hdir]
      cases node.data with
      | none => exact h.error _
      | some data => exact h.ok _

theorem matches_remove (h : Refines v.nodes m) (path : Text) :
    Matches (.remove path) (fsRemove v path) (m.exec room (.remove path)) := by
  rw [fsRemove, FileMap.exec]
  rcases h.find_cases path with ⟨hfind, hlook, -⟩ | ⟨id, node, hfind, hid, hpath, hlook⟩
  · rw [hfind, hlook]
    exact h.error _
  · rw [hfind, hlook, if_pos (by rfl), ← hpath]
    exact Refines.ok (h.erase hid) _

/-- An entry that is put into the slot that was taken for it. -/
theorem Refines.create (h : Refines v.nodes m) (hid : v.nodes[id]? = some none) (node : VfsNode)
    (hnew : ∀ (i : ℕ) (n : VfsNode), v.nodes[i]? = some (some n) → n.path ≠ node.path) :
    Refines (v.nodes.set id (some node)) (m.insert node.path node.entry) :=
  h.put hid node (by simp) fun j b hj hb => absurd hb (hnew j b hj)

theorem matches_createDirectories (h : Refines v.nodes m) (path : Text) :
    Matches (.createDirectories path) (fsCreateDirectories v path)
      (m.exec room (.createDirectories path)) := by
  rw [fsCreateDirectories, FileMap.exec]
  by_cases hempty : path = []
  · rw [if_pos hempty, if_pos hempty]
    exact h.error _
  rw [if_neg hempty, if_neg hempty]
  rcases h.find_cases path with ⟨hfind, hlook, hnew⟩ | ⟨id, node, hfind, -, -, hlook⟩
  · rw [hfind, hlook]
    dsimp only
    rw [FileMap.create]
    rcases h.alloc_cases with ⟨halloc, hfull⟩ | ⟨id, halloc, hid, hfull⟩
    · rw [halloc, if_pos hfull]
      exact h.error _
    · rw [halloc, if_neg hfull]
      dsimp only
      have hlt := (List.getElem?_eq_some_iff.mp hid).1
      refine Refines.ok (refines_fsTouch (List.getElem?_set_self hlt) _ ?_) _
      dsimp only
      rw [List.set_set, fsCopyPath_place]
      exact h.create hid { path := place path, isDir := true, version := v.fsVersion + 1 } hnew
  · rw [hfind, hlook]
    dsimp only
    cases hdir : node.isDir with
    | true => rw [entry_of_directory hdir]; exact h.ok _
    | false => rw [entry_of_file hdir]; exact h.ok _

theorem Refines.congr (h : Refines nodes m) {m' : FileMap} (heq : ∀ p, m'.lookup p = m.lookup p) :
    Refines nodes m' where
  size := h.size
  distinct := h.distinct
  lookup p := (heq p).trans (h.lookup p)

/-- The node at a place that is not the source's is taken away, and the source moves there. -/
theorem matches_rename (h : Refines v.nodes m) {source destination : Text}
    (hne : place source ≠ place destination) :
    Matches (.rename source destination) (fsRename v source destination)
      (m.exec room (.rename source destination)) := by
  rw [fsRename, FileMap.exec]
  rcases h.find_cases source with ⟨hfind, hlook, -⟩ | ⟨id, node, hfind, hid, hpath, hlook⟩
  · rw [hfind, hlook]
    exact h.error _
  rw [hfind, hlook]
  dsimp only
  rw [fsCopyPath_place, ← hpath]
  rw [← hpath] at hne
  have hentry (version : ℕ) :
      ({ node with path := place destination, version := version } : VfsNode).entry =
        node.entry := rfl
  rcases h.find_cases destination with ⟨hfind', -, hnew⟩ | ⟨dest, other, hfind', hdest, hpath', -⟩
  · rw [hfind']
    refine Refines.ok (refines_fsTouch hid _ ?_) _
    exact h.move hid { node with path := place destination, version := v.fsVersion } hnew
  · have hremove : fsRemove v destination =
        (fsClearError { fsFreeNode v dest with fsVersion := v.fsVersion + 1 }, .number 1) := by
      rw [fsRemove, hfind']
    rw [hfind', hremove]
    have hslot : (v.nodes.set dest none)[id]? = some (some node) := by
      rw [List.getElem?_set_ne, hid]
      rintro rfl
      rw [hid] at hdest
      obtain rfl := Option.some.inj (Option.some.inj hdest)
      exact hne hpath'
    refine Refines.ok (refines_fsTouch hslot _ ?_) _
    have herase := h.erase hdest
    rw [hpath'] at herase
    refine (herase.move hslot { node with
        path := place destination, version := v.fsVersion + 1 }
      fun j b hj hb => ?_).congr fun p => ?_
    · rw [List.getElem?_set] at hj
      split_ifs at hj with hj'
      · cases hj
      · exact hj' (h.distinct hdest hj (hpath'.trans hb.symm))
    · rw [hentry]
      by_cases hp : p = place destination
      · rw [hp, AList.lookup_insert, AList.lookup_insert]
      · rw [AList.lookup_insert_ne hp, AList.lookup_insert_ne hp]
        by_cases hp' : p = node.path
        · rw [hp', AList.lookup_erase, AList.lookup_erase]
        · rw [AList.lookup_erase_ne hp', AList.lookup_erase_ne hp', AList.lookup_erase_ne hp]

/-- The slot that was taken for a new path, and what is assigned to it. -/
theorem refines_fresh (h : Refines v.nodes m) (hid : v.nodes[id]? = some none) (node : VfsNode)
    (hnew : ∀ (i : ℕ) (n : VfsNode), v.nodes[i]? = some (some n) → n.path ≠ node.path) :
    Refines ((v.nodes.set id (some { version := v.fsVersion })).set id (some node))
      (m.insert node.path node.entry) := by
  rw [List.set_set]
  exact h.create hid node hnew

theorem matches_writeText (h : Refines v.nodes m) (path text : Text) (append : Bool) :
    Matches (.writeText path text append) (fsWriteText room v path text append)
      (m.exec room (.writeText path text append)) := by
  rw [fsWriteText, FileMap.exec, FileMap.writeText]
  by_cases hempty : path = []
  · rw [if_pos hempty, if_pos hempty]
    exact h.error _
  rw [if_neg hempty, if_neg hempty]
  rcases h.find_cases path with ⟨hfind, hlook, hnew⟩ | ⟨id, node, hfind, hid, hpath, hlook⟩
  · rw [hfind, hlook]
    dsimp only
    rw [FileMap.create]
    rcases h.alloc_cases with ⟨halloc, hfull⟩ | ⟨id, halloc, hid, hfull⟩
    · rw [halloc]
      simp only [if_pos hfull, ite_self]
      exact h.error _
    · rw [halloc]
      simp only [if_neg hfull]
      have hlt := (List.getElem?_eq_some_iff.mp hid).1
      have hslot : (v.nodes.set id (some { version := v.fsVersion }))[id]? =
          some (some { version := v.fsVersion }) := List.getElem?_set_self hlt
      have hmodify := modify_used hslot fun fresh =>
        { fresh with path := fsCopyPath (place path), isDir := false }
      rw [fsStore, fsModify, hmodify, fsCopyPath_place]
      cases room with
      | true =>
        rw [if_pos rfl, if_pos rfl]
        refine Refines.ok (refines_fsTouch (List.getElem?_set_self (by rwa [List.length_set])) _ ?_) _
        dsimp only
        rw [List.set_set]
        exact refines_fresh h hid {
          path := place path, data := some ([] ++ text), version := v.fsVersion + 1 } hnew
      | false =>
        rw [if_neg Bool.false_ne_true, if_neg Bool.false_ne_true]
        exact ⟨refines_fresh h hid { path := place path, version := v.fsVersion } hnew,
          outOfMemory_answer⟩
  · rw [hfind, hlook]
    dsimp only
    cases hdir : node.isDir with
    | true =>
      rw [entry_of_directory hdir, if_pos rfl]
      exact h.error _
    | false =>
      rw [entry_of_file hdir, if_neg Bool.false_ne_true, fsStore]
      dsimp only
      cases room with
      | true =>
        rw [if_pos rfl, if_pos rfl, ← hpath]
        refine Refines.ok (refines_fsTouch hid _ ?_) _
        have hreplace := h.replace hid
          { node with
            data := some ((if append then node.data.getD [] else []) ++ text)
            version := v.fsVersion } rfl
        rw [entry_of_file (by exact hdir)] at hreplace
        exact hreplace
      | false =>
        rw [if_neg Bool.false_ne_true, if_neg Bool.false_ne_true]
        exact h.error _

theorem matches_copyFile (h : Refines v.nodes m) {source destination : Text} (overwrite : Bool) :
    Matches (.copyFile source destination overwrite)
      (fsCopyFile room v source destination overwrite)
      (m.exec room (.copyFile source destination overwrite)) := by
  rw [fsCopyFile, FileMap.exec, FileMap.copyFile]
  rcases h.find_cases source with ⟨hfind, hlook, -⟩ | ⟨id, node, hfind, hid, hpath, hlook⟩
  · rw [hfind, hlook]
    exact h.error _
  rw [hfind, hlook]
  dsimp only
  cases hdir : node.isDir with
  | true =>
    rw [entry_of_directory hdir, if_pos rfl]
    exact h.error _
  | false =>
    rw [entry_of_file hdir, if_neg Bool.false_ne_true]
    dsimp only
    rcases h.find_cases destination with
      ⟨hfind', hlook', hnew⟩ | ⟨dest, other, hfind', hdest, hpath', hlook'⟩
    · rw [hfind', hlook', FileMap.create]
      dsimp only
      rw [if_neg (by simp)]
      rcases h.alloc_cases with ⟨halloc, hfull⟩ | ⟨dest, halloc, hdest, hfull⟩
      · rw [halloc]
        simp only [if_pos hfull, ite_self]
        exact h.error _
      · rw [halloc]
        simp only [if_neg hfull]
        have hlt := (List.getElem?_eq_some_iff.mp hdest).1
        have hslot : (v.nodes.set dest (some { version := v.fsVersion }))[dest]? =
            some (some { version := v.fsVersion }) := List.getElem?_set_self hlt
        have hmodify := modify_used hslot fun fresh =>
          { fresh with path := fsCopyPath (place destination) }
        rw [fsCopyInto, fsModify, hmodify, fsCopyPath_place]
        cases room with
        | true =>
          rw [if_pos rfl, if_pos rfl]
          refine Refines.ok (refines_fsTouch (List.getElem?_set_self (by rwa [List.length_set])) _
            ?_) _
          dsimp only
          rw [List.set_set]
          exact refines_fresh h hdest {
            path := place destination, data := some (node.data.getD [])
            version := v.fsVersion + 1 } hnew
        | false =>
          rw [if_neg Bool.false_ne_true, if_neg Bool.false_ne_true, fsFreeNode]
          dsimp only
          rw [List.set_set, List.set_set]
          have hsame : v.nodes.set dest none = v.nodes :=
            (List.getElem?_eq_some_iff.mp hdest).2 ▸ List.set_getElem_self hlt
          refine ⟨?_, outOfMemory_answer⟩
          dsimp only [fsSetError]
          rwa [hsame]
    · rw [hfind', hlook']
      dsimp only
      rw [if_pos (show (some other.entry).isSome = true from rfl)]
      cases overwrite with
      | false => exact h.error _
      | true =>
        rw [if_pos rfl, if_neg (by simp), fsCopyInto]
        cases room with
        | true =>
          rw [if_pos rfl, if_pos rfl, ← hpath']
          refine Refines.ok (refines_fsTouch hdest _ ?_) _
          exact h.replace hdest
            { other with
              isDir := false, data := some (node.data.getD []), version := v.fsVersion } rfl
        | false =>
          rw [if_neg Bool.false_ne_true, if_neg Bool.false_ne_true, ← hpath']
          exact ⟨h.erase hdest, outOfMemory_answer⟩

/-! ## Runs -/

theorem matches_exec (room : Bool) (h : Refines v.nodes m) (hcall : call.Apart) :
    Matches call (call.exec room v) (m.exec room call) := by
  cases call with
  | «exists» path => exact matches_exists h path
  | isFile path => exact matches_isFile h path
  | isDirectory path => exact matches_isDirectory h path
  | fileSize path => exact matches_fileSize h path
  | metadataType path => exact matches_metadataType h path
  | createDirectories path => exact matches_createDirectories h path
  | remove path => exact matches_remove h path
  | rename source destination => exact matches_rename h hcall
  | copyFile source destination overwrite => exact matches_copyFile h overwrite
  | readText path => exact matches_readText h path
  | writeText path text append => exact matches_writeText h path text append

theorem replies_eq (h : Refines v.nodes m) (calls : List (Bool × FsCall))
    (hcalls : ∀ c ∈ calls, c.2.Apart) : v.replies calls = m.replies calls := by
  induction calls generalizing v m with
  | nil => rfl
  | cons c calls ih =>
    obtain ⟨room, call⟩ := c
    obtain ⟨hcall, hcalls⟩ := List.forall_mem_cons.mp hcalls
    obtain ⟨hnext, hanswer⟩ := matches_exec room h hcall
    rw [Vfs.replies, FileMap.replies]
    dsimp only
    rw [hanswer, ih hnext hcalls]

def exampleCalls : List (Bool × FsCall) :=
  [(true, .writeText (bytes "a/b") (bytes "x") false),
    (true, .copyFile (bytes "/a/./b") (bytes "c") false),
    (false, .copyFile (bytes "c") (bytes "a/b") true),
    (true, .rename (bytes "c") (bytes "d/")),
    (true, .readText (bytes "d")),
    (true, .exists (bytes "a/b"))]

end Wasm

end Absolute
