import Absolute.LibLexicalPath
import Absolute.StdText

/-!
# Paths of the WebAssembly runtime

The path functions of the freestanding platform: `fs_path_normalize_into`, which writes a path
into a buffer in one pass and cuts it back at every `..`, and what is taken from its answer. A
buffer is the bytes before the terminator and a capacity that the terminator is part of.

The pass keeps the positions of its segments in an array of 64 and copies its source into one of
512 bytes. Where these are large enough the answer is the text of the resolved parts of the path
(`pathNormalizeInto_eq`).
-/

namespace Absolute

namespace Wasm

open Strings LexicalPath

/-! ## Normalizing -/

def isSeparator (value : UInt8) : Bool := value == 0x2F || value == 0x5C

def vfsMaxPath : ℕ := 256

/-- `sizeof(source)` and `sizeof(combined)`. -/
def pathSourceSize : ℕ := vfsMaxPath * 2

/-- The length of `segment_positions`. -/
def pathSegments : ℕ := 64

/-- `sizeof(g_fs_string_scratch)`. -/
def stringScratch : ℕ := 8192

def startsAtSeparator (path : Text) : Bool := path.head?.any isSeparator

/-- A `/` behind a text that is not empty and does not end with one, if there is room. -/
def closeDirectory (text : Text) (capacity : ℕ) : Text :=
  if text ≠ [] ∧ ¬text.getLast?.any isSeparator ∧ text.length + 1 < capacity then text ++ [0x2F]
  else text

/-- The copy of the path, behind the current directory where an absolute path is asked for. -/
def pathSource (cwd path : Text) (forceAbsolute : Bool) : Text :=
  let source :=
    if forceAbsolute && !startsAtSeparator path then
      closeDirectory (cwd.take (pathSourceSize - 1)) pathSourceSize
    else []
  source ++ path.take (pathSourceSize - 1 - source.length)

/-- The answer so far, and for each of its segments, the last one first, the position before it
and whether it is a parent. -/
structure PathBuffer where
  output : Text
  segments : List (ℕ × Bool) := []
deriving DecidableEq

def dotSegment : Text := [0x2E]

def parentSegment : Text := [0x2E, 0x2E]

def PathBuffer.push (capacity : ℕ) (b : PathBuffer) (segment : Text) (isParent : Bool) :
    PathBuffer :=
  let before := b.output.length
  let output :=
    if b.output ≠ [] ∧ b.output.getLast? ≠ some 0x2F ∧ before + 1 < capacity then
      b.output ++ [0x2F]
    else b.output
  { output := output ++ segment.take (capacity - 1 - output.length)
    segments :=
      if b.segments.length < pathSegments then (before, isParent) :: b.segments
      else b.segments }

def PathBuffer.segment (capacity : ℕ) (absolute : Bool) (b : PathBuffer) (segment : Text) :
    PathBuffer :=
  if segment = dotSegment then b
  else if segment = parentSegment then
    match b.segments with
    | (position, false) :: rest => { output := b.output.take position, segments := rest }
    | (_, true) :: _ => b.push capacity segment true
    | [] => if absolute then b else b.push capacity segment true
  else b.push capacity segment false

/-- `while (source[index])` -/
def normalizeFrom (capacity : ℕ) (absolute : Bool) : ℕ → Text → PathBuffer → PathBuffer
  | 0, _, b => b
  | rounds + 1, source, b =>
    let source := source.dropWhile isSeparator
    if source = [] then b
    else
      normalizeFrom capacity absolute rounds (source.dropWhile fun c => !isSeparator c)
        (b.segment capacity absolute (source.takeWhile fun c => !isSeparator c))

/-- `if (absolute && length + 1 < capacity) output[length++] = '/';` -/
def rootText (capacity : ℕ) (absolute : Bool) : Text :=
  if absolute ∧ 1 < capacity then [0x2F] else []

/-- What is put in place of an answer that has come out empty. -/
def finishPath (capacity : ℕ) (absolute : Bool) (source output : Text) : Text :=
  if output = [] ∧ source ≠ [] ∧ ¬absolute ∧ 1 < capacity then [0x2E]
  else if output = [] ∧ absolute ∧ 1 < capacity then [0x2F]
  else output

def normalizeSource (capacity : ℕ) (source : Text) : Text :=
  let absolute := startsAtSeparator source
  let b := normalizeFrom capacity absolute source.length source
    { output := rootText capacity absolute }
  finishPath capacity absolute source b.output

def pathNormalizeInto (cwd path : Text) (capacity : ℕ) (forceAbsolute : Bool) : Text :=
  if capacity = 0 then [] else normalizeSource capacity (pathSource cwd path forceAbsolute)

def fsNormalize (cwd path : Text) : Text := pathNormalizeInto cwd path vfsMaxPath true

def pathJoinInto (cwd left right : Text) (capacity : ℕ) : Text :=
  if startsAtSeparator right then pathNormalizeInto cwd right capacity false
  else
    let combined := closeDirectory (left.take (pathSourceSize - 1)) pathSourceSize
    let combined := combined ++ right.take (pathSourceSize - 1 - combined.length)
    pathNormalizeInto cwd combined capacity false

/-! ## Taking a path apart -/

/-- `while (length > least && p(text[length - 1])) --length;` -/
def backWhile (p : UInt8 → Bool) (text : Text) (least : ℕ) : ℕ → ℕ
  | 0 => 0
  | length + 1 =>
    if least < length + 1 ∧ (text[length]?).any p then backWhile p text least length
    else length + 1

def pathParent (cwd path : Text) : Text :=
  let normalized := pathNormalizeInto cwd path vfsMaxPath false
  let length := backWhile (· == 0x2F) normalized 1 normalized.length
  let length := backWhile (· != 0x2F) normalized 0 length
  let length := if length > 1 then length - 1 else length
  let length := if length = 0 ∧ normalized.head? = some 0x2F then 1 else length
  normalized.take length

def pathFilename (cwd path : Text) : Text :=
  let normalized := pathNormalizeInto cwd path vfsMaxPath false
  normalized.drop (backWhile (· != 0x2F) normalized 0 normalized.length)

def pathStem (cwd path : Text) : Text :=
  let name := pathFilename cwd path
  if name = dotSegment ∨ name = parentSegment then name
  else
    let dot := backWhile (· != 0x2E) name 0 name.length
    let dot := if dot ≤ 1 then name.length + 1 else dot
    name.take (dot - 1)

def pathExtension (cwd path : Text) : Text :=
  let name := pathFilename cwd path
  if name = dotSegment ∨ name = parentSegment then []
  else
    let dot := backWhile (· != 0x2E) name 0 name.length
    if dot ≤ 1 then [] else name.drop (dot - 1)

/-! ## The buffer -/

theorem length_push_lt {capacity : ℕ} {b : PathBuffer} (h : b.output.length < capacity)
    (segment : Text) (isParent : Bool) :
    (b.push capacity segment isParent).output.length < capacity := by
  rw [PathBuffer.push]
  dsimp only
  rw [List.length_append, List.length_take]
  split_ifs with hslash
  · rw [List.length_append, List.length_singleton]
    omega
  · omega

theorem length_segment_lt {capacity : ℕ} {b : PathBuffer} (h : b.output.length < capacity)
    (absolute : Bool) (segment : Text) :
    (b.segment capacity absolute segment).output.length < capacity := by
  rw [PathBuffer.segment]
  by_cases hdot : segment = dotSegment
  · rwa [if_pos hdot]
  by_cases hparent : segment = parentSegment
  · rw [if_neg hdot, if_pos hparent]
    split
    · dsimp only
      rw [List.length_take]
      omega
    · exact length_push_lt h _ _
    · split
      · exact h
      · exact length_push_lt h _ _
  · rw [if_neg hdot, if_neg hparent]
    exact length_push_lt h _ _

theorem length_normalizeFrom_lt {capacity : ℕ} (absolute : Bool) (rounds : ℕ) (source : Text)
    {b : PathBuffer} (h : b.output.length < capacity) :
    (normalizeFrom capacity absolute rounds source b).output.length < capacity := by
  induction rounds generalizing source b with
  | zero => exact h
  | succ rounds ih =>
    rw [normalizeFrom]
    split
    · exact h
    · exact ih _ (length_segment_lt h _ _)

theorem length_rootText_lt {capacity : ℕ} (hcap : 0 < capacity) (absolute : Bool) :
    (rootText capacity absolute).length < capacity := by
  rw [rootText]
  split_ifs with h
  · exact h.2
  · exact hcap

theorem length_finishPath_lt {capacity : ℕ} {output : Text} (h : output.length < capacity)
    (absolute : Bool) (source : Text) :
    (finishPath capacity absolute source output).length < capacity := by
  rw [finishPath]
  split_ifs with hdot hroot
  · exact hdot.2.2.2
  · exact hroot.2.2
  · exact h

/-- An answer and its terminator fit the buffer, whatever the path. -/
theorem length_pathNormalizeInto_lt {capacity : ℕ} (hcap : 0 < capacity) (cwd path : Text)
    (forceAbsolute : Bool) :
    (pathNormalizeInto cwd path capacity forceAbsolute).length < capacity := by
  rw [pathNormalizeInto, if_neg (by omega)]
  exact length_finishPath_lt (length_normalizeFrom_lt _ _ _ (length_rootText_lt hcap _)) _ _

/-! ## The text of resolved parts -/

abbrev names (absolute : Bool) (source : Text) : List Text :=
  resolve dotSegment parentSegment absolute (segments isSeparator source)

/-- The text of some names, the innermost of them first. -/
def stackText (absolute : Bool) : List Text → Text
  | [] => if absolute then [0x2F] else []
  | s :: rest => stackText absolute rest ++ if rest = [] then s else 0x2F :: s

/-- The text of some parts, the outermost first. -/
def pathText (absolute : Bool) (l : List Text) : Text :=
  (if absolute then [0x2F] else []) ++ List.intercalate [0x2F] l

theorem intercalate_concat (sep : Text) {l : List Text} (hl : l ≠ []) (s : Text) :
    sep.intercalate (l ++ [s]) = sep.intercalate l ++ (sep ++ s) := by
  induction l with
  | nil => exact absurd rfl hl
  | cons e l ih =>
    rcases l with - | ⟨e', l⟩
    · rw [List.singleton_append, List.intercalate_cons_cons, List.intercalate_singleton,
        List.intercalate_singleton, List.append_assoc]
    · rw [List.cons_append, List.intercalate_cons_of_ne_nil (by simp), ih (List.cons_ne_nil _ _),
        List.intercalate_cons_of_ne_nil (List.cons_ne_nil _ _)]
      simp only [List.append_assoc]

theorem stackText_eq (absolute : Bool) (stack : List Text) :
    stackText absolute stack = pathText absolute stack.reverse := by
  induction stack with
  | nil => rw [stackText, pathText, List.reverse_nil, List.intercalate_nil, List.append_nil]
  | cons s rest ih =>
    rw [stackText, ih, List.reverse_cons, pathText, pathText, List.append_assoc]
    by_cases hrest : rest = []
    · rw [if_pos hrest, hrest]
      simp
    · rw [if_neg hrest, intercalate_concat _ (by simpa using hrest)]
      rfl

theorem length_stackText (absolute : Bool) (s : Text) (rest : List Text) :
    (stackText absolute (s :: rest)).length + (if absolute then 0 else 1) = weight (s :: rest) := by
  induction rest generalizing s with
  | nil =>
    cases absolute
    · simp [stackText]
    · simp [stackText]
  | cons e rest ih =>
    have hrest := ih e
    rw [stackText, if_neg (List.cons_ne_nil _ _), List.length_append, List.length_cons, weight_cons]
    omega

/-- Names do not end at a separator. -/
theorem getLast_stackText (absolute : Bool) {s : Text} (rest : List Text)
    (hs : IsSegment isSeparator s) :
    ∃ c, (stackText absolute (s :: rest)).getLast? = some c ∧ isSeparator c = false := by
  have hlast := List.getLast_mem hs.1
  refine ⟨s.getLast hs.1, ?_, hs.2 _ hlast⟩
  rw [stackText, List.getLast?_append]
  split_ifs
  · rw [List.getLast?_eq_some_getLast hs.1]
    rfl
  · rw [List.getLast?_cons, List.getLast?_eq_some_getLast hs.1]
    rfl

/-! ## The pass

The buffer holds the text of the names that were entered, and the positions it is cut back to. -/

inductive Marks (absolute : Bool) : List (ℕ × Bool) → List Text → Prop
  | nil : Marks absolute [] []
  | cons {marks : List (ℕ × Bool)} {stack : List Text} (s : Text) : Marks absolute marks stack →
      Marks absolute (((stackText absolute stack).length, s == parentSegment) :: marks) (s :: stack)

structure Tracks (absolute : Bool) (b : PathBuffer) (stack : List Text) : Prop where
  output : b.output = stackText absolute stack
  marks : Marks absolute b.segments stack
  parts : ∀ s ∈ stack, IsSegment isSeparator s

theorem Marks.length_eq {absolute : Bool} {marks : List (ℕ × Bool)} {stack : List Text}
    (h : Marks absolute marks stack) : marks.length = stack.length := by
  induction h with
  | nil => rfl
  | cons s _ ih => rw [List.length_cons, List.length_cons, ih]

variable {capacity : ℕ} {absolute : Bool} {b : PathBuffer} {stack : List Text} {s : Text}

theorem Tracks.push (h : Tracks absolute b stack) (hs : IsSegment isSeparator s)
    (hfits : (stackText absolute (s :: stack)).length < capacity)
    (hcount : stack.length < pathSegments) :
    Tracks absolute (b.push capacity s (s == parentSegment)) (s :: stack) := by
  have hoff : (0x2F : UInt8) ∉ s := fun hmem => by simpa [isSeparator] using hs.2 _ hmem
  rw [stackText, List.length_append] at hfits
  have hroom : b.segments.length < pathSegments := by rwa [h.marks.length_eq]
  rw [PathBuffer.push, h.output, if_pos hroom]
  refine ⟨?_, .cons s h.marks, List.forall_mem_cons.mpr ⟨hs, h.parts⟩⟩
  dsimp only
  rw [stackText]
  rcases stack with - | ⟨e, stack⟩
  · rw [if_pos rfl] at hfits ⊢
    have hslash : ¬(stackText absolute [] ≠ [] ∧ (stackText absolute []).getLast? ≠ some 0x2F ∧
        (stackText absolute []).length + 1 < capacity) := by
      rintro ⟨hne, hlast, -⟩
      cases absolute
      · exact hne rfl
      · exact hlast rfl
    rw [if_neg hslash, List.take_of_length_le (by omega)]
  · rw [if_neg (List.cons_ne_nil e stack), List.length_cons] at hfits
    rw [if_neg (List.cons_ne_nil e stack)]
    obtain ⟨c, hc, hsep⟩ := getLast_stackText absolute stack
      (h.parts e List.mem_cons_self)
    have hslash : stackText absolute (e :: stack) ≠ [] ∧
        (stackText absolute (e :: stack)).getLast? ≠ some 0x2F ∧
        (stackText absolute (e :: stack)).length + 1 < capacity := by
      refine ⟨fun hnil => ?_, fun hlast => ?_, ?_⟩
      · rw [hnil] at hc
        cases hc
      · rw [hc] at hlast
        obtain rfl := Option.some.inj hlast
        cases hsep
      · have hpos := List.length_pos_iff.mpr hs.1
        omega
    rw [if_pos hslash, List.length_append, List.length_singleton,
      List.take_of_length_le (by omega), List.append_assoc]
    rfl

theorem Tracks.segment (h : Tracks absolute b stack) (hs : IsSegment isSeparator s)
    (hfits : (stackText absolute (s :: stack)).length < capacity)
    (hcount : stack.length < pathSegments) :
    Tracks absolute (b.segment capacity absolute s)
      (enter dotSegment parentSegment absolute stack s) := by
  rw [PathBuffer.segment, enter]
  by_cases hdot : s = dotSegment
  · rwa [if_pos hdot, if_pos hdot]
  rw [if_neg hdot, if_neg hdot]
  by_cases hparent : s = parentSegment
  · subst hparent
    have hpush := h.push hs hfits hcount
    rw [beq_self_eq_true] at hpush
    rw [if_pos rfl, if_pos rfl]
    obtain ⟨houtput, hmarks, hparts⟩ := id h
    rcases b with ⟨output, marks⟩
    cases hmarks with
    | nil =>
      rw [leave]
      cases absolute with
      | true => exact h
      | false => exact hpush
    | @cons marks stack e hrest =>
      rw [leave]
      by_cases he : e = parentSegment
      · have hname : (e == parentSegment) = true := beq_iff_eq.mpr he
        rw [hname] at hpush ⊢
        rw [if_pos he]
        exact hpush
      · have hname : (e == parentSegment) = false := beq_eq_false_iff_ne.mpr he
        rw [if_neg he, hname]
        dsimp only at houtput ⊢
        refine ⟨?_, hrest, fun s hs => hparts s (List.mem_cons_of_mem e hs)⟩
        rw [houtput, stackText]
        exact List.take_left
  · have hname : (s == parentSegment) = false := beq_eq_false_iff_ne.mpr hparent
    have hpush := h.push hs hfits hcount
    rw [if_neg hparent, if_neg hparent]
    rwa [hname] at hpush

theorem Tracks.normalizeFrom {rounds : ℕ} {source : Text}
    (h : Tracks absolute b stack) (hrounds : source.length ≤ rounds)
    (hfits : weight stack + weight (segments isSeparator source) <
      capacity + if absolute then 0 else 1)
    (hcount : stack.length + (segments isSeparator source).length ≤ pathSegments) :
    Tracks absolute (normalizeFrom capacity absolute rounds source b)
      ((segments isSeparator source).foldl (enter dotSegment parentSegment absolute) stack) := by
  induction rounds generalizing source b stack with
  | zero =>
    obtain rfl := List.length_eq_zero_iff.mp (Nat.le_zero.mp hrounds)
    exact h
  | succ rounds ih =>
    have hshort := (List.dropWhile_suffix isSeparator (l := source)).length_le
    rw [Wasm.normalizeFrom]
    rw [← segments_dropWhile] at hfits hcount ⊢
    rcases hsource : source.dropWhile isSeparator with _ | ⟨c, source'⟩
    · exact h
    · have hc : isSeparator c = false := by
        have hhead := List.head?_dropWhile_not isSeparator source
        rw [hsource] at hhead
        simpa using hhead
      rw [hsource] at hfits hcount hshort
      rw [segments_takeWhile hc] at hfits hcount ⊢
      rw [if_neg (List.cons_ne_nil c source'), List.foldl_cons]
      have hs : IsSegment isSeparator ((c :: source').takeWhile fun c => !isSeparator c) :=
        mem_segments (segments_takeWhile hc ▸ List.mem_cons_self)
      have hlen : (((c :: source').dropWhile fun c => !isSeparator c)).length ≤ source'.length := by
        rw [List.dropWhile_cons_of_pos (by rw [hc]; rfl)]
        exact (List.dropWhile_suffix _).length_le
      generalize (c :: source').takeWhile (fun c => !isSeparator c) = s at *
      generalize (c :: source').dropWhile (fun c => !isSeparator c) = rest at *
      rw [weight_cons] at hfits
      rw [List.length_cons] at hcount hshort
      have hweight : weight (enter dotSegment parentSegment absolute stack s) ≤
          weight stack + weight [s] := weight_foldl_enter_le [s] stack
      have hheight : (enter dotSegment parentSegment absolute stack s).length ≤ stack.length + 1 :=
        length_foldl_enter_le [s] stack
      have hstack := length_stackText absolute s stack
      rw [weight_cons] at hstack
      rw [weight_cons, weight_nil] at hweight
      refine ih (h.segment hs ?_ (by omega)) (by omega) (by omega) (by omega)
      split_ifs at hfits hstack <;> omega

/-! ## Canonical paths -/

/-- What a path is normalized to: the text of its resolved parts, or `.` where a relative path has
none left. -/
def pathResult (source : Text) : Text :=
  let absolute := startsAtSeparator source
  if names absolute source = [] ∧ source ≠ [] ∧ ¬absolute then [0x2E]
  else pathText absolute (names absolute source)

theorem parent_ne_dot : parentSegment ≠ dotSegment := by decide

theorem isSegment_names {absolute : Bool} {source : Text} :
    ∀ s ∈ names absolute source, IsSegment isSeparator s := by
  intro s hs
  rcases mem_foldl_enter (List.mem_reverse.mp hs) with h | h
  · cases h
  · exact mem_segments h

theorem pathText_eq_nil {l : List Text} (hl : ∀ s ∈ l, IsSegment isSeparator s) :
    pathText absolute l = [] ↔ absolute = false ∧ l = [] := by
  constructor
  · intro h
    obtain ⟨hroot, htext⟩ := List.append_eq_nil_iff.mp h
    have hback := segments_intercalate (c := 0x2F) (by decide) hl
    rw [htext, segments_nil] at hback
    refine ⟨?_, hback.symm⟩
    cases absolute with
    | true => cases hroot
    | false => rfl
  · rintro ⟨rfl, rfl⟩
    rfl

theorem segments_pathText {l : List Text} (hl : ∀ s ∈ l, IsSegment isSeparator s) :
    segments isSeparator (pathText absolute l) = l := by
  rw [pathText]
  split_ifs
  · rw [List.singleton_append, segments_cons (by decide), segments_intercalate (by decide) hl]
  · rw [List.nil_append, segments_intercalate (by decide) hl]

theorem startsAtSeparator_pathText {l : List Text} (hl : ∀ s ∈ l, IsSegment isSeparator s) :
    startsAtSeparator (pathText absolute l) = absolute := by
  cases absolute with
  | true => rfl
  | false =>
    rcases l with - | ⟨s, l⟩
    · rfl
    · obtain ⟨hne, hs⟩ := hl s List.mem_cons_self
      obtain ⟨c, s, rfl⟩ := List.exists_cons_of_ne_nil hne
      have hc := hs c List.mem_cons_self
      cases l with
      | nil => exact hc
      | cons e l => exact hc

theorem tracks_rootText (hcap : absolute = true → 1 < capacity) :
    Tracks absolute { output := rootText capacity absolute } [] where
  output := by
    rw [rootText]
    cases absolute with
    | true => exact if_pos ⟨rfl, hcap rfl⟩
    | false => rfl
  marks := .nil
  parts := by simp

/-- The pass computes the text of the resolved parts. -/
theorem normalizeSource_eq {source : Text} (hfits : source.length < capacity)
    (hcount : (segments isSeparator source).length ≤ pathSegments) :
    normalizeSource capacity source = pathResult source := by
  have hroot : startsAtSeparator source = true → ∃ c rest, source = c :: rest ∧
      isSeparator c = true := by
    intro h
    rcases source with - | ⟨c, rest⟩
    · cases h
    · exact ⟨c, rest, rfl, h⟩
  have hweight : weight (segments isSeparator source) <
      capacity + if startsAtSeparator source then 0 else 1 := by
    have hle : weight (segments isSeparator source) ≤ source.length + 1 := weight_segments_le source
    split_ifs with h
    · obtain ⟨c, rest, rfl, hc⟩ := hroot h
      exact (weight_segments_cons_le hc rest).trans_lt hfits
    · omega
  have hopen : startsAtSeparator source = true → 1 < capacity := by
    intro h
    obtain ⟨c, rest, rfl, -⟩ := hroot h
    rw [List.length_cons] at hfits
    omega
  have htracks := (tracks_rootText hopen).normalizeFrom (Nat.le_refl source.length)
    (by rwa [weight_nil, Nat.zero_add]) (by rwa [List.length_nil, Nat.zero_add])
  have houtput := htracks.output
  rw [stackText_eq, ← resolve] at houtput
  have hnil : pathText (startsAtSeparator source) (names (startsAtSeparator source) source) = [] ↔
      startsAtSeparator source = false ∧ names (startsAtSeparator source) source = [] :=
    pathText_eq_nil isSegment_names
  rw [normalizeSource, houtput, finishPath, pathResult]
  have hwide : source ≠ [] → 1 < capacity := fun h => by
    have hpos := List.length_pos_iff.mpr h
    omega
  by_cases hdot : names (startsAtSeparator source) source = [] ∧ source ≠ [] ∧
      ¬startsAtSeparator source = true
  · obtain ⟨hnames, hne, hrel⟩ := hdot
    have hempty : pathText (startsAtSeparator source)
        (names (startsAtSeparator source) source) = [] :=
      hnil.mpr ⟨Bool.eq_false_iff.mpr hrel, hnames⟩
    rw [if_pos ⟨hempty, hne, hrel, hwide hne⟩, if_pos ⟨hnames, hne, hrel⟩]
  · rw [if_neg fun h => hdot ⟨(hnil.mp h.1).2, h.2.1, h.2.2.1⟩, if_neg hdot,
      if_neg fun h => absurd h.2.1 (Bool.eq_false_iff.mp (hnil.mp h.1).1)]

theorem startsAtSeparator_pathResult (source : Text) :
    startsAtSeparator (pathResult source) = startsAtSeparator source := by
  rw [pathResult]
  split_ifs with h
  · rw [Bool.eq_false_iff.mpr h.2.2]
    rfl
  · exact startsAtSeparator_pathText isSegment_names

theorem names_pathResult (source : Text) :
    names (startsAtSeparator source) (pathResult source) =
      names (startsAtSeparator source) source := by
  rw [pathResult]
  split_ifs with h
  · rw [h.1, Bool.eq_false_iff.mpr h.2.2]
    rfl
  · rw [names, segments_pathText isSegment_names]
    exact (resolve_normal _).resolve parent_ne_dot

theorem pathResult_eq_nil {source : Text} : pathResult source = [] ↔ source = [] := by
  constructor
  · intro h
    rw [pathResult] at h
    split_ifs at h with hdot
    obtain ⟨hrel, hnames⟩ := (pathText_eq_nil isSegment_names).mp h
    by_contra hne
    exact hdot ⟨hnames, hne, Bool.eq_false_iff.mp hrel⟩
  · rintro rfl
    rfl

theorem pathResult_pathResult (source : Text) :
    pathResult (pathResult source) = pathResult source := by
  have hnames := names_pathResult source
  conv_lhs => rw [pathResult]
  rw [startsAtSeparator_pathResult, hnames]
  conv_rhs => rw [pathResult]
  simp only [ne_eq, pathResult_eq_nil]

/-- A canonical path says where it leads. -/
theorem pathResult_inj {p q : Text} : pathResult p = pathResult q ↔
    startsAtSeparator p = startsAtSeparator q ∧
      names (startsAtSeparator p) p = names (startsAtSeparator q) q ∧ (p = [] ↔ q = []) := by
  constructor
  · intro h
    have hstart := startsAtSeparator_pathResult p
    have hnames := names_pathResult p
    rw [h, startsAtSeparator_pathResult] at hstart
    rw [h, ← hstart, names_pathResult] at hnames
    refine ⟨hstart.symm, ?_, ?_⟩
    · rw [← hstart, ← hnames]
    · rw [← pathResult_eq_nil, h, pathResult_eq_nil]
  · rintro ⟨hstart, hnames, hnil⟩
    rw [pathResult, pathResult, hnames, hstart]
    simp only [ne_eq, hnil]

theorem length_pathResult_le {source : Text}
    (hcount : (segments isSeparator source).length ≤ pathSegments) :
    (pathResult source).length ≤ source.length := by
  rw [← normalizeSource_eq (Nat.lt_succ_self _) hcount]
  exact Nat.le_of_lt_succ (length_finishPath_lt
    (length_normalizeFrom_lt _ _ _ (length_rootText_lt (Nat.succ_pos _) _)) _ _)

theorem length_segments_pathResult_le {source : Text}
    (hcount : (segments isSeparator source).length ≤ pathSegments) :
    (segments isSeparator (pathResult source)).length ≤ pathSegments := by
  rw [pathResult]
  split_ifs
  · decide
  · rw [segments_pathText isSegment_names, names, resolve, List.length_reverse]
    refine (length_foldl_enter_le _ _).trans ?_
    rwa [List.length_nil, Nat.zero_add]

theorem length_closeDirectory_lt {text : Text} (h : text.length < capacity) :
    (closeDirectory text capacity).length < capacity := by
  rw [closeDirectory]
  split_ifs with hslash
  · rw [List.length_append, List.length_singleton]
    exact hslash.2.2
  · exact h

theorem length_pathSource_lt (cwd path : Text) (forceAbsolute : Bool) :
    (pathSource cwd path forceAbsolute).length < pathSourceSize := by
  have hdirectory : (closeDirectory (cwd.take (pathSourceSize - 1)) pathSourceSize).length <
      pathSourceSize := by
    refine length_closeDirectory_lt ?_
    rw [List.length_take, pathSourceSize, vfsMaxPath]
    omega
  rw [pathSource, List.length_append, List.length_take]
  split_ifs
  · omega
  · rw [List.length_nil, pathSourceSize, vfsMaxPath]
    omega

/-- A path that fits is its own source. -/
theorem pathSource_eq {path : Text} (h : path.length < pathSourceSize) (cwd : Text) :
    pathSource cwd path false = path := by
  rw [pathSource, Bool.false_and]
  exact List.take_of_length_le (Nat.le_sub_one_of_lt h)

theorem pathNormalizeInto_eq {cwd path : Text} {forceAbsolute : Bool}
    (hfits : (pathSource cwd path forceAbsolute).length < capacity)
    (hcount : (segments isSeparator (pathSource cwd path forceAbsolute)).length ≤ pathSegments) :
    pathNormalizeInto cwd path capacity forceAbsolute =
      pathResult (pathSource cwd path forceAbsolute) := by
  rw [pathNormalizeInto, if_neg (by omega), normalizeSource_eq hfits hcount]

/-- A canonical path is normalized to itself. -/
theorem pathNormalizeInto_pathResult {source : Text} (hsource : source.length < pathSourceSize)
    (hfits : source.length < capacity)
    (hcount : (segments isSeparator source).length ≤ pathSegments) (cwd : Text) :
    pathNormalizeInto cwd (pathResult source) capacity false = pathResult source := by
  have hlen := length_pathResult_le hcount
  have hself := pathSource_eq (hlen.trans_lt hsource) cwd
  rw [pathNormalizeInto_eq (by rw [hself]; omega)
    (by rw [hself]; exact length_segments_pathResult_le hcount), hself, pathResult_pathResult]

/-! ## Parts of a path -/

/-- The text up to the last `/` and the name behind it. -/
theorem pathResult_shape (source : Text) : ∃ directory name,
    pathResult source = directory ++ name ∧ (∀ c ∈ name, isSeparator c = false) ∧
      (directory = [] ∨ directory = [0x2F] ∨
        name ≠ [] ∧ ∃ before c, directory = before ++ [c, 0x2F] ∧ isSeparator c = false) := by
  rw [pathResult]
  split_ifs
  · exact ⟨[], [0x2E], rfl, fun c hc => by rw [List.mem_singleton.mp hc]; rfl, .inl rfl⟩
  · have hparts : ∀ s ∈ names (startsAtSeparator source) source, IsSegment isSeparator s :=
      isSegment_names
    rw [← List.reverse_reverse (names (startsAtSeparator source) source)] at hparts ⊢
    rw [← stackText_eq]
    generalize (names (startsAtSeparator source) source).reverse = stack at hparts ⊢
    rcases stack with - | ⟨s, - | ⟨e, rest⟩⟩
    · refine ⟨stackText _ [], [], (List.append_nil _).symm, by simp, ?_⟩
      cases startsAtSeparator source
      · exact .inl rfl
      · exact .inr (.inl rfl)
    · refine ⟨stackText _ [], s, rfl, (hparts s (by simp)).2, ?_⟩
      cases startsAtSeparator source
      · exact .inl rfl
      · exact .inr (.inl rfl)
    · obtain ⟨c, hc, hsep⟩ := getLast_stackText (startsAtSeparator source) rest
        (hparts e (by simp))
      obtain ⟨before, hbefore⟩ := List.getLast?_eq_some_iff.mp hc
      obtain ⟨hne, hs⟩ := hparts s (by simp)
      refine ⟨before ++ [c, 0x2F], s, ?_, hs, .inr (.inr ⟨hne, before, c, rfl, hsep⟩)⟩
      rw [stackText, if_neg (List.cons_ne_nil _ _), hbefore]
      simp

/-- The loop from the end stops behind the first byte it is not to pass. -/
theorem backWhile_append {p : UInt8 → Bool} {before after : Text} (hafter : ∀ c ∈ after, p c = true)
    (hbefore : ∀ c ∈ before.getLast?, p c = false) :
    backWhile p (before ++ after) 0 (before ++ after).length = before.length := by
  have hpass (k : ℕ) (hk : k ≤ after.length) :
      backWhile p (before ++ after) 0 (before.length + k) = before.length := by
    induction k with
    | zero =>
      rcases List.eq_nil_or_concat before with rfl | ⟨before, c, rfl⟩
      · rfl
      · rw [List.concat_eq_append, List.getLast?_concat] at hbefore
        rw [List.concat_eq_append, List.length_append, List.length_singleton, Nat.add_zero, backWhile,
          List.append_assoc, List.getElem?_append_right (Nat.le_refl _), Nat.sub_self,
          List.singleton_append, List.getElem?_cons_zero, Option.any_some, hbefore c rfl,
          if_neg fun h => Bool.noConfusion h.2]
    | succ k ih =>
      have hget : (before ++ after)[before.length + k]? = some after[k] := by
        rw [List.getElem?_append_right (Nat.le_add_right _ _), Nat.add_sub_cancel_left,
          List.getElem?_eq_getElem hk]
      rw [← Nat.add_assoc, backWhile, hget, Option.any_some, hafter _ (List.getElem_mem hk),
        if_pos ⟨Nat.succ_pos _, rfl⟩, ih (Nat.le_of_succ_le hk)]
  rw [List.length_append]
  exact hpass after.length (Nat.le_refl _)

variable {directory name : Text}

theorem not_slash {c : UInt8} (h : isSeparator c = false) : c ≠ 0x2F := by
  rintro rfl
  cases h

/-- The first loop of `parent` passes nothing, as a canonical path ends with no `/` that could be
taken from it. -/
theorem backWhile_slash (hname : ∀ c ∈ name, isSeparator c = false)
    (hdirectory : directory = [] ∨ directory = [0x2F] ∨ name ≠ []) :
    backWhile (· == 0x2F) (directory ++ name) 1 (directory ++ name).length =
      (directory ++ name).length := by
  rcases List.eq_nil_or_concat name with rfl | ⟨name, c, rfl⟩
  · rcases hdirectory with rfl | rfl | h
    · rfl
    · rfl
    · exact absurd rfl h
  · have hc : (c == 0x2F) = false := beq_eq_false_iff_ne.mpr (not_slash (hname c (by simp)))
    rw [List.concat_eq_append, ← List.append_assoc, List.length_append, List.length_singleton,
      backWhile, List.getElem?_append_right (Nat.le_refl _), Nat.sub_self, List.getElem?_cons_zero,
      Option.any_some, hc, if_neg fun h => Bool.noConfusion h.2]

theorem pathFilename_eq {cwd path : Text}
    (hresult : pathNormalizeInto cwd path vfsMaxPath false = directory ++ name)
    (hname : ∀ c ∈ name, isSeparator c = false)
    (hdirectory : ∀ c ∈ directory.getLast?, c = 0x2F) : pathFilename cwd path = name := by
  rw [pathFilename, hresult, backWhile_append (fun c hc => bne_iff_ne.mpr (not_slash (hname c hc)))
    fun c hc => by rw [hdirectory c hc]; rfl, List.drop_left]

/-- The parent is what the name is joined to. -/
theorem closeDirectory_pathParent {cwd path : Text}
    (hresult : pathNormalizeInto cwd path vfsMaxPath false = directory ++ name)
    (hname : ∀ c ∈ name, isSeparator c = false)
    (hdirectory : directory = [] ∨ directory = [0x2F] ∨
      name ≠ [] ∧ ∃ before c, directory = before ++ [c, 0x2F] ∧ isSeparator c = false)
    (hfits : directory.length < capacity) :
    closeDirectory (pathParent cwd path) capacity = directory ∧
      (pathParent cwd path).length ≤ directory.length := by
  have hlast : ∀ c ∈ directory.getLast?, c = 0x2F := by
    rcases hdirectory with rfl | rfl | ⟨-, before, c, rfl, -⟩ <;> simp
  have hback := backWhile_append (fun c hc => bne_iff_ne.mpr (not_slash (hname c hc)))
    (p := fun c => c != 0x2F) fun c hc => by rw [hlast c hc]; rfl
  have hslash := backWhile_slash hname (hdirectory.imp_right (.imp_right And.left))
  rw [pathParent, hresult, hslash, hback]
  rcases hdirectory with rfl | rfl | ⟨-, before, c, rfl, hc⟩
  · have hhead : name.head? ≠ some 0x2F := fun h =>
      not_slash (hname _ (List.mem_of_mem_head? h)) rfl
    simp [hhead, closeDirectory]
  · simp [closeDirectory, isSeparator]
  · have hlong : before.length + 1 + 1 < capacity := by simpa using hfits
    have hcut : (before ++ [c, 0x2F] ++ name).take (before.length + 1) = before ++ [c] := by
      have hassoc : before ++ [c, 0x2F] ++ name = (before ++ [c]) ++ (0x2F :: name) := by simp
      rw [hassoc, ← List.length_singleton (a := c), ← List.length_append, List.take_left]
    have hlength : (before ++ [c, 0x2F]).length = before.length + 1 + 1 := by simp
    have hmore : before.length + 1 + 1 > 1 := Nat.lt_add_of_pos_left (Nat.succ_pos _)
    have hzero : ¬(before.length + 1 = 0 ∧ (before ++ [c, 0x2F] ++ name).head? = some 0x2F) :=
      fun h => Nat.succ_ne_zero _ h.1
    simp only [hlength, if_pos hmore, Nat.add_sub_cancel]
    rw [if_neg hzero, hcut, closeDirectory,
      if_pos ⟨by simp, by simp [hc], by simpa using hlong⟩]
    exact ⟨by simp, by simp⟩

/-- Put together again the parent and the name are the path, and stem and extension are the
name. -/
theorem path_parts (cwd path : Text) (hpath : path.length < vfsMaxPath)
    (hcount : (segments isSeparator path).length ≤ pathSegments) :
    pathJoinInto cwd (pathParent cwd path) (pathFilename cwd path) stringScratch =
        pathNormalizeInto cwd path stringScratch false ∧
      pathStem cwd path ++ pathExtension cwd path = pathFilename cwd path ∧
      ∀ c ∈ pathFilename cwd path, isSeparator c = false := by
  have hsize : path.length < pathSourceSize := hpath.trans (by decide)
  have hself := pathSource_eq hsize cwd
  have hshort : pathNormalizeInto cwd path vfsMaxPath false = pathResult path := by
    rw [pathNormalizeInto_eq (by rwa [hself]) (by rwa [hself]), hself]
  have hscratch : path.length < stringScratch := hpath.trans (by decide)
  have hlong : pathNormalizeInto cwd path stringScratch false = pathResult path := by
    rw [pathNormalizeInto_eq (by rwa [hself]) (by rwa [hself]), hself]
  obtain ⟨directory, name, hsplit, hname, hdirectory⟩ := pathResult_shape path
  rw [hsplit] at hshort
  have hlast : ∀ c ∈ directory.getLast?, c = 0x2F := by
    rcases hdirectory with rfl | rfl | ⟨-, before, c, rfl, -⟩ <;> simp
  have hfile := pathFilename_eq hshort hname hlast
  have hlen : directory.length + name.length < pathSourceSize := by
    rw [← List.length_append, ← hsplit]
    exact (length_pathResult_le hcount).trans_lt hsize
  have hroom : directory.length < pathSourceSize := by omega
  obtain ⟨hclose, hparent⟩ := closeDirectory_pathParent hshort hname hdirectory hroom
  refine ⟨?_, ?_, hfile ▸ hname⟩
  · have hhead : startsAtSeparator (pathFilename cwd path) = false := by
      rw [hfile]
      rcases name with - | ⟨c, name⟩
      · rfl
      · exact hname c List.mem_cons_self
    rw [pathJoinInto, hhead, if_neg Bool.false_ne_true, hfile,
      List.take_of_length_le (l := pathParent cwd path) (by omega), hclose]
    dsimp only
    rw [List.take_of_length_le (by omega), ← hsplit, hlong,
      pathNormalizeInto_pathResult hsize hscratch hcount]
  · rw [pathStem, pathExtension]
    by_cases hspecial : pathFilename cwd path = dotSegment ∨ pathFilename cwd path = parentSegment
    · rw [if_pos hspecial, if_pos hspecial, List.append_nil]
    · rw [if_neg hspecial, if_neg hspecial]
      dsimp only
      split_ifs
      · rw [List.append_nil]
        exact List.take_of_length_le (by simp)
      · exact List.take_append_drop _ _

theorem path_parts_archive :
    pathJoinInto [] (pathParent [] (bytes "/a/../b/c.tar.gz"))
        (pathFilename [] (bytes "/a/../b/c.tar.gz")) stringScratch =
      pathNormalizeInto [] (bytes "/a/../b/c.tar.gz") stringScratch false :=
  (path_parts [] (bytes "/a/../b/c.tar.gz") (by decide) (by decide)).1

/-! ## What a path is normalized to -/

/-- Where the arrays are large enough, a path is normalized to the text of its resolved parts;
that is normalized to itself, and it is the same for two paths exactly if they lead to the same
place. -/
theorem paths_canonical (cwd path : Text) (capacity : ℕ) (forceAbsolute : Bool)
    (hfits : (pathSource cwd path forceAbsolute).length < capacity)
    (hcount : (segments isSeparator (pathSource cwd path forceAbsolute)).length ≤ pathSegments) :
    let source := pathSource cwd path forceAbsolute
    let output := pathNormalizeInto cwd path capacity forceAbsolute
    output = pathResult source ∧
      Normal dotSegment parentSegment (startsAtSeparator source)
        (names (startsAtSeparator source) source) ∧
      pathNormalizeInto cwd output capacity false = output ∧
      ∀ cwd' path' forceAbsolute', (pathSource cwd' path' forceAbsolute').length < capacity →
        (segments isSeparator (pathSource cwd' path' forceAbsolute')).length ≤ pathSegments →
        let source' := pathSource cwd' path' forceAbsolute'
        (pathNormalizeInto cwd' path' capacity forceAbsolute' = output ↔
          startsAtSeparator source' = startsAtSeparator source ∧
            names (startsAtSeparator source') source' = names (startsAtSeparator source) source ∧
            (source' = [] ↔ source = [])) := by
  have houtput := pathNormalizeInto_eq hfits hcount
  refine ⟨houtput, resolve_normal _, ?_, fun cwd' path' forceAbsolute' hfits' hcount' => ?_⟩
  · rw [houtput, pathNormalizeInto_pathResult (length_pathSource_lt _ _ _) hfits hcount]
  · dsimp only
    rw [houtput, pathNormalizeInto_eq hfits' hcount', pathResult_inj]

theorem paths_canonical_home :
    pathNormalizeInto (bytes "/home") (bytes "a\\.././b//") vfsMaxPath true = bytes "/home/b" :=
  (paths_canonical (bytes "/home") (bytes "a\\.././b//") vfsMaxPath true (by decide)
    (by decide)).1.trans (by decide)

end Wasm

end Absolute
