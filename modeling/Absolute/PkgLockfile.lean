import Mathlib.Data.Char
import Mathlib.Data.List.Lex
import Absolute.LibRegex
import Absolute.PkgResolve

/-!
# The lockfile, written and read

`PackageManager::SaveLockfile` writes the two maps as the objects of a JSON document, with
the strings as they are. `LoadLockfile` finds an object by its key anywhere in the document
and takes everything up to the first closing brace for its pairs, which it finds by an
expression in turn (`jsonObjectMap`).
-/

namespace Absolute

namespace Package

open Regex

/-! ## Writing -/

def openBrace : Char := '\x7b'
def closeBrace : Char := '\x7d'

/-- What a loop over the `std::map` goes through. -/
def inOrder (map : AList fun _ : Text => Text) : List (Text × Text) :=
  (map.entries.map fun entry => (entry.1, entry.2)).mergeSort
    fun a b => decide (a.1 ≤ b.1)

def entryText (entry : Text × Text) : Text :=
  "    \"".toList ++ entry.1 ++ "\": \"".toList ++ entry.2 ++ "\"".toList

/-- The entries, each on a line, with a comma after all but the last. -/
def entryLines : List (Text × Text) → Text
  | [] => []
  | [entry] => entryText entry ++ "\n".toList
  | entry :: rest => entryText entry ++ ",\n".toList ++ entryLines rest

def saveLockfile (lockfile : PackageLockfile) : Text :=
  [openBrace] ++ "\n".toList
    ++ "  \"versions\": ".toList ++ [openBrace] ++ "\n".toList
    ++ entryLines (inOrder lockfile.resolvedVersions)
    ++ "  ".toList ++ [closeBrace] ++ ",\n".toList
    ++ "  \"paths\": ".toList ++ [openBrace] ++ "\n".toList
    ++ entryLines (inOrder lockfile.resolvedPaths)
    ++ "  ".toList ++ [closeBrace] ++ "\n".toList
    ++ [closeBrace] ++ "\n".toList

/-! ## Reading -/

/-- `\s` -/
def isSpace (c : Char) : Bool := c ∈ [' ', '\t', '\n', '\x0b', '\x0c', '\r']

/-- `\s*:\s*` and one character. -/
def colonThen (c : Char) : Regex :=
  .seq (.star (.set isSpace)) (.seq (char ':') (.seq (.star (.set isSpace)) (char c)))

/-- `"key"\s*:\s*\{([^\}]*)\}` -/
def objectPattern (key : Text) : Groups :=
  [(false, .seq (literal ('"' :: key ++ ['"'])) (colonThen openBrace)),
    (true, .star (.set (· ≠ closeBrace))), (false, char closeBrace)]

/-- `"([^"]+)"\s*:\s*"([^"]+)"` -/
def pairPattern : Groups :=
  [(false, char '"'), (true, plus (.set (· ≠ '"'))),
    (false, .seq (char '"') (colonThen '"')), (true, plus (.set (· ≠ '"'))), (false, char '"')]

def jsonObjectMap (document key : Text) : AList fun _ : Text => Text :=
  match Regex.search (objectPattern key) none document with
  | none => ∅
  | some (groups, _) =>
      let pairs := groups.headD []
      (searchAll pairPattern pairs.length ⟨none, pairs⟩).foldl
        (fun result found => result.insert (found.getD 0 []) (found.getD 1 [])) ∅

def loadLockfile (document : Text) : PackageLockfile where
  resolvedVersions := jsonObjectMap document "versions".toList
  resolvedPaths := jsonObjectMap document "paths".toList

/-! ## What a match consists of -/

/-- After the longest run of white space. -/
theorem ends_spaces_then {next : Regex}
    (hnext : ∀ b c s, isSpace c = true → ends next ⟨b, c :: s⟩ = []) (b : Option Char) (s : Text) :
    ends (.seq (.star (.set isSpace)) next) ⟨b, s⟩ = ends next (afterRun isSpace b s) := by
  rw [ends_seq, ends_star_set, flatMap_runs hnext]

theorem ends_char_of_ne {c d : Char} (h : d ≠ c) (b : Option Char) (s : Text) :
    ends (char c) ⟨b, d :: s⟩ = [] := by
  simp [char, h]

theorem ends_char_space {c : Char} (hc : isSpace c = false) (b : Option Char) (d : Char)
    (s : Text) (hd : isSpace d = true) : ends (char c) ⟨b, d :: s⟩ = [] := by
  refine ends_char_of_ne ?_ b s
  rintro rfl
  rw [hc] at hd
  cases hd

theorem ends_char_self (c : Char) (b : Option Char) (s : Text) :
    ends (char c) ⟨b, c :: s⟩ = [⟨some c, s⟩] := by
  simp [char]

/-- The expression from its colon on. -/
theorem ends_colonThen (c : Char) (hc : isSpace c = false) (b : Option Char) (s : Text) :
    ends (colonThen c) ⟨b, s⟩ =
      (ends (char ':') (afterRun isSpace b s)).flatMap fun p =>
        ends (char c) (afterRun isSpace p.before p.rest) := by
  rw [colonThen, ends_spaces_then, ends_seq]
  · exact List.flatMap_congr fun p _ => ends_spaces_then (ends_char_space hc) p.before p.rest
  · intro b d s hd
    rw [ends_seq, ends_char_space rfl b d s hd, List.flatMap_nil]

/-- A colon and a space before a character that is none. -/
theorem ends_colonThen_colon {c d : Char} (hc : isSpace c = false) (hd : isSpace d = false)
    (b : Option Char) (s : Text) :
    ends (colonThen c) ⟨b, ':' :: ' ' :: d :: s⟩ = ends (char c) ⟨some ' ', d :: s⟩ := by
  have hspaces : afterRun isSpace b (':' :: ' ' :: d :: s) = ⟨b, ':' :: ' ' :: d :: s⟩ := rfl
  have hspace : afterRun isSpace (some ':') (' ' :: d :: s) = ⟨some ' ', d :: s⟩ :=
    @afterRun_append _ [' '] (by simp [isSpace]) _ _ (by simp [hd])
  rw [ends_colonThen c hc, hspaces, ends_char_self, List.flatMap_singleton, hspace]

theorem ends_colonThen_of_not_colon {c : Char} (hc : isSpace c = false) {b : Option Char} {s : Text}
    (h : ∀ d ∈ (s.dropWhile isSpace).head?, d ≠ ':') : ends (colonThen c) ⟨b, s⟩ = [] := by
  rw [ends_colonThen c hc, afterRun]
  cases hs : s.dropWhile isSpace with
  | nil => rfl
  | cons d s => rw [ends_char_of_ne (h d (by simp [hs])), List.flatMap_nil]

/-! ## Pairs -/

/-- As they are in a document: not empty, and without a quotation mark. -/
def Quotable (s : Text) : Prop := s ≠ [] ∧ '"' ∉ s

instance : DecidablePred Quotable := fun s => inferInstanceAs (Decidable (s ≠ [] ∧ '"' ∉ s))

theorem not_quote {s : Text} (h : '"' ∉ s) : ∀ c ∈ s, (decide (c ≠ '"')) = true := by
  intro c hc
  rw [decide_eq_true_eq]
  rintro rfl
  exact h hc

/-- A string up to its quotation mark, where what follows needs one. -/
theorem matchesAt_quoted {s : Text} (h : Quotable s) {parts : Groups}
    (hparts : ∀ b c t, c ≠ '"' → matchesAt parts ⟨b, c :: t⟩ = []) (b : Option Char) (r : Text) :
    matchesAt ((true, plus (.set (· ≠ '"'))) :: parts) ⟨b, s ++ '"' :: r⟩
      = (matchesAt parts ⟨lastOf b s, '"' :: r⟩).map fun m => (s :: m.1, m.2) := by
  obtain ⟨hne, hquote⟩ := h
  have htake : (s ++ '"' :: r).take ((s ++ '"' :: r).length - ('"' :: r).length) = s := by
    rw [List.length_append, Nat.add_sub_cancel, List.take_left]
  obtain ⟨c, t, rfl⟩ := List.exists_cons_of_ne_nil hne
  have hc : c ≠ '"' := fun heq => hquote (heq ▸ List.mem_cons_self)
  have hrun : afterRun (fun c => decide (c ≠ '"')) (some c) (t ++ '"' :: r)
      = ⟨lastOf (some c) t, '"' :: r⟩ :=
    afterRun_append (not_quote fun ht => hquote (List.mem_cons_of_mem _ ht)) _ (by simp)
  rw [matchesAt, plus, ends_seq, List.cons_append, ends_set_cons, if_pos (decide_eq_true hc),
    List.flatMap_singleton, ends_star_set, flatMap_runs, hrun]
  · simp only [if_true]
    rw [← List.cons_append, htake]
    rfl
  · intro b d u hd
    rw [hparts b d u (by simpa using hd), List.map_nil]

theorem matchesAt_quote {parts : Groups} {r : Regex} (b : Option Char) (c : Char) (t : Text)
    (hc : c ≠ '"') : matchesAt ((false, .seq (char '"') r) :: parts) ⟨b, c :: t⟩ = [] := by
  rw [matchesAt_skip, ends_seq, ends_char_of_ne hc]
  rfl

/-- An entry is found with its name and its value. -/
theorem matchesAt_pair {name value : Text} (hname : Quotable name) (hvalue : Quotable value)
    (b : Option Char) (s : Text) :
    matchesAt pairPattern ⟨b, '"' :: (name ++ '"' :: ':' :: ' ' :: '"' :: (value ++ '"' :: s))⟩
      = [([name, value], ⟨some '"', s⟩)] := by
  have hquote : isSpace '"' = false := by decide
  have hclose : ∀ b c t, c ≠ '"' → matchesAt [(false, char '"')] ⟨b, c :: t⟩ = [] := by
    intro b c t hc
    rw [matchesAt_skip, ends_char_of_ne hc]
    rfl
  rw [pairPattern, matchesAt_skip, ends_char_self, List.flatMap_singleton,
    matchesAt_quoted hname matchesAt_quote, matchesAt_skip, ends_seq, ends_char_self,
    List.flatMap_singleton, ends_colonThen_colon hquote hquote, ends_char_self,
    List.flatMap_singleton, matchesAt_quoted hvalue hclose, matchesAt_skip, ends_char_self]
  rfl

theorem quotes_char {p q : Place} (h : q ∈ ends (char '"') p) :
    q.rest.count '"' + 1 = p.rest.count '"' := by
  rw [mem_ends_char h, List.count_cons_self]

theorem quotes_ends {r : Regex} {p q : Place} (h : q ∈ ends r p) :
    q.rest.count '"' ≤ p.rest.count '"' := (ends_suffix h).sublist.count_le '"'

/-- A pair has four quotation marks. -/
theorem quotes_of_match {p : Place} {m : List Text × Place} (h : m ∈ matchesAt pairPattern p) :
    4 ≤ p.rest.count '"' := by
  rw [pairPattern, matchesAt_skip] at h
  obtain ⟨p₁, h₁, h⟩ := List.mem_flatMap.mp h
  obtain ⟨p₂, h₂, h⟩ := List.mem_flatMap.mp h
  obtain ⟨m', h, -⟩ := List.mem_map.mp h
  rw [matchesAt_skip] at h
  obtain ⟨p₄, h₄, h⟩ := List.mem_flatMap.mp h
  obtain ⟨p₃, h₃, h₄⟩ := List.mem_flatMap.mp h₄
  obtain ⟨p₅, h₅, h⟩ := List.mem_flatMap.mp h
  obtain ⟨m'', h, -⟩ := List.mem_map.mp h
  rw [matchesAt_skip] at h
  obtain ⟨p₆, h₆, -⟩ := List.mem_flatMap.mp h
  have hcolon : p₄.rest.count '"' + 1 ≤ p₃.rest.count '"' := by
    obtain ⟨q, hq, h₄⟩ := List.mem_flatMap.mp h₄
    obtain ⟨q', hq', h₄⟩ := List.mem_flatMap.mp h₄
    obtain ⟨q'', hq'', h₄⟩ := List.mem_flatMap.mp h₄
    have := quotes_char h₄
    have := quotes_ends hq
    have := quotes_ends hq'
    have := quotes_ends hq''
    omega
  have := quotes_char h₁
  have := quotes_ends h₂
  have := quotes_char h₃
  have := quotes_ends h₅
  have := quotes_char h₆
  omega

/-! ## All pairs of a text -/

theorem search_eq_none {s : Text} (h : s.count '"' < 4) (b : Option Char) :
    Regex.search pairPattern b s = none := by
  have hnone : ∀ b s, s.count '"' < 4 → (matchesAt pairPattern ⟨b, s⟩).head? = none := by
    intro b s h
    rw [List.head?_eq_none_iff, List.eq_nil_iff_forall_not_mem]
    exact fun m hm => absurd (quotes_of_match hm) (by change ¬4 ≤ s.count '"'; omega)
  induction s generalizing b with
  | nil => exact hnone b [] h
  | cons c s ih =>
    have hle : s.count '"' ≤ (c :: s).count '"' := List.count_le_count_cons
    rw [Regex.search, hnone b _ h, Option.none_or]
    exact ih (by omega) _

/-- A match does not start before a quotation mark. -/
theorem search_skip {parts : Groups} (hparts : ∀ b c t, c ≠ '"' → matchesAt parts ⟨b, c :: t⟩ = [])
    {u : Text} (hu : '"' ∉ u) (b : Option Char) (s : Text) :
    Regex.search parts b (u ++ s) = Regex.search parts (lastOf b u) s := by
  induction u generalizing b with
  | nil => rfl
  | cons c u ih =>
    obtain ⟨hc, hu⟩ := not_or.mp (mt List.mem_cons.mpr hu)
    rw [List.cons_append, Regex.search, hparts b c _ (Ne.symm hc), ih hu]
    rfl

/-- Both strings of an entry. -/
def QuotableEntry (entry : Text × Text) : Prop := Quotable entry.1 ∧ Quotable entry.2

/-- No string of the entry closes the object. -/
def Unbraced (entry : Text × Text) : Prop := closeBrace ∉ entry.1 ∧ closeBrace ∉ entry.2

instance : DecidablePred Unbraced := fun entry =>
  inferInstanceAs (Decidable (closeBrace ∉ entry.1 ∧ closeBrace ∉ entry.2))

theorem entryText_eq (entry : Text × Text) : entryText entry =
    [' ', ' ', ' ', ' ', '"'] ++ entry.1 ++ ['"', ':', ' ', '"'] ++ entry.2 ++ ['"'] := rfl

theorem entryText_append (entry : Text × Text) (s : Text) :
    entryText entry ++ s = [' ', ' ', ' ', ' ']
      ++ '"' :: (entry.1 ++ '"' :: ':' :: ' ' :: '"' :: (entry.2 ++ '"' :: s)) := by
  simp [entryText_eq]

theorem entryLines_cons (entry : Text × Text) (rest : List (Text × Text)) :
    ∃ separator, '"' ∉ separator ∧ closeBrace ∉ separator ∧
      entryLines (entry :: rest) = entryText entry ++ (separator ++ entryLines rest) := by
  cases rest with
  | nil =>
    refine ⟨['\n'], by decide, by decide, ?_⟩
    exact congrArg (entryText entry ++ ·) (List.append_nil _).symm
  | cons next rest => exact ⟨[',', '\n'], by decide, by decide, List.append_assoc _ _ _⟩

theorem searchAll_entry {entry : Text × Text} (h : QuotableEntry entry) {u : Text} (hu : '"' ∉ u)
    (n : Nat) (b : Option Char) (s : Text) :
    searchAll pairPattern (n + 1) ⟨b, u ++ (entryText entry ++ s)⟩
      = [entry.1, entry.2] :: searchAll pairPattern n ⟨some '"', s⟩ := by
  have hstart : ∀ b c t, c ≠ '"' → matchesAt pairPattern ⟨b, c :: t⟩ = [] := by
    intro b c t hc
    rw [pairPattern, matchesAt_skip, ends_char_of_ne hc]
    rfl
  rw [searchAll, entryText_append, search_skip hstart hu, search_skip hstart (by decide),
    Regex.search, matchesAt_pair h.1 h.2]
  rfl

/-- Of a text without an entry nothing is found. -/
theorem searchAll_none {s : Text} (h : s.count '"' < 4) (n : Nat) (b : Option Char) :
    searchAll pairPattern n ⟨b, s⟩ = [] := by
  cases n with
  | zero => rfl
  | succ n => rw [searchAll, search_eq_none h]

/-- What stands before the brace of an entry is not an entry. -/
theorem quotes_cut {entry : Text × Text} (h : QuotableEntry entry) (hbrace : ¬Unbraced entry)
    (s : Text) : ((entryText entry ++ s).takeWhile (· ≠ closeBrace)).count '"' < 4 := by
  let front := [' ', ' ', ' ', ' ', '"'] ++ entry.1 ++ ['"', ':', ' ', '"'] ++ entry.2
  have hmem : closeBrace ∈ front := by
    rcases not_and_or.mp hbrace with h | h
    · simp [front, not_not.mp h]
    · simp [front, not_not.mp h]
  have hcut : (entryText entry ++ s).takeWhile (· ≠ closeBrace)
      = front.takeWhile (· ≠ closeBrace) := by
    have happend : entryText entry ++ s = front ++ (['"'] ++ s) := by
      simp [entryText_eq, front]
    rw [happend, List.takeWhile_append, if_neg]
    intro hlength
    have hall := List.takeWhile_eq_self_iff.mp
      ((List.takeWhile_prefix (fun c => decide (c ≠ closeBrace))).eq_of_length hlength)
    exact absurd (hall _ hmem) (by simp)
  have hcount : front.count '"' = 3 := by
    simp [front, List.count_eq_zero.mpr h.1.2, List.count_eq_zero.mpr h.2.2]
  rw [hcut]
  have hstarts := List.takeWhile_prefix (fun c => decide (c ≠ closeBrace)) (l := front)
  have hle := hstarts.sublist.count_le '"'
  omega

/-- The lines of entries and what follows, up to the first brace. -/
def cutLines (entries : List (Text × Text)) (x : Text) : Text :=
  (entryLines entries ++ x).takeWhile (· ≠ closeBrace)

theorem not_brace {s : Text} (h : closeBrace ∉ s) : ∀ c ∈ s, (decide (c ≠ closeBrace)) = true := by
  intro c hc
  rw [decide_eq_true_eq]
  rintro rfl
  exact h hc

theorem not_mem_entryText {entry : Text × Text} (h : Unbraced entry) :
    closeBrace ∉ entryText entry := by
  have hplain : closeBrace ∉ [' ', ' ', ' ', ' ', '"'] ∧ closeBrace ∉ ['"', ':', ' ', '"']
      ∧ closeBrace ∉ ['"'] := by decide
  simp only [entryText_eq, List.mem_append, hplain.1, hplain.2.1, hplain.2.2, h.1, h.2, or_self,
    not_false_eq_true]

theorem cutLines_cons {entry : Text × Text} (h : Unbraced entry) (rest : List (Text × Text))
    (x : Text) : ∃ separator, '"' ∉ separator ∧
      cutLines (entry :: rest) x = entryText entry ++ (separator ++ cutLines rest x) := by
  obtain ⟨separator, hquote, hbrace, hlines⟩ := entryLines_cons entry rest
  refine ⟨separator, hquote, ?_⟩
  rw [cutLines, hlines, List.append_assoc, List.append_assoc,
    List.takeWhile_append_of_pos (not_brace (not_mem_entryText h)),
    List.takeWhile_append_of_pos (not_brace hbrace), cutLines]

theorem length_le_cutLines (entries : List (Text × Text)) (x : Text) :
    (entries.takeWhile fun e => decide (Unbraced e)).length ≤ (cutLines entries x).length := by
  induction entries with
  | nil => exact Nat.zero_le _
  | cons entry rest ih =>
    by_cases h : Unbraced entry
    · obtain ⟨separator, -, hcut⟩ := cutLines_cons h rest x
      rw [List.takeWhile_cons_of_pos (by simpa using h), hcut, entryText_eq]
      simp only [List.length_cons, List.length_append, List.length_nil]
      omega
    · rw [List.takeWhile_cons_of_neg (by simpa using h)]
      exact Nat.zero_le _

/-- The entries that are found are these before the first with a brace. -/
theorem searchAll_entries {entries : List (Text × Text)} (h : ∀ e ∈ entries, QuotableEntry e)
    {u x : Text} (hu : '"' ∉ u) (hx : '"' ∉ x.takeWhile (· ≠ closeBrace)) {n : Nat}
    (hn : (entries.takeWhile fun e => decide (Unbraced e)).length ≤ n) (b : Option Char) :
    searchAll pairPattern n ⟨b, u ++ cutLines entries x⟩
      = (entries.takeWhile fun e => decide (Unbraced e)).map fun e => [e.1, e.2] := by
  induction entries generalizing u n b with
  | nil =>
    refine searchAll_none ?_ n b
    simp only [cutLines, entryLines, List.nil_append, List.count_append,
      List.count_eq_zero.mpr hu, List.count_eq_zero.mpr hx]
    decide
  | cons entry rest ih =>
    obtain ⟨hentry, hrest⟩ := List.forall_mem_cons.mp h
    by_cases hunbraced : Unbraced entry
    · have htake := List.takeWhile_cons_of_pos (p := fun e => decide (Unbraced e)) (l := rest)
        (decide_eq_true hunbraced)
      obtain ⟨separator, hquote, hcut⟩ := cutLines_cons hunbraced rest x
      rw [htake] at hn
      cases n with
      | zero => simp at hn
      | succ n =>
        rw [hcut, searchAll_entry hentry hu, ih hrest hquote (Nat.le_of_succ_le_succ hn), htake,
          List.map_cons]
    · rw [List.takeWhile_cons_of_neg (by simpa using hunbraced), List.map_nil]
      refine searchAll_none ?_ n b
      obtain ⟨separator, -, -, hlines⟩ := entryLines_cons entry rest
      have hquotes := quotes_cut hentry hunbraced (separator ++ (entryLines rest ++ x))
      rw [List.count_append, List.count_eq_zero.mpr hu, Nat.zero_add, cutLines, hlines,
        List.append_assoc, List.append_assoc]
      exact hquotes

/-! ## The object of a key -/

theorem matchesAt_object_start {key : Text} (b : Option Char) (c : Char) (s : Text) (hc : c ≠ '"') :
    matchesAt (objectPattern key) ⟨b, c :: s⟩ = [] := by
  rw [objectPattern, matchesAt_skip, ends_seq, ends_literal_eq_nil]
  · rfl
  · intro hstarts
    exact hc (List.cons_prefix_cons.mp hstarts).1.symm

/-- Where the key is followed by an object: everything up to the first closing brace. -/
theorem search_object {key body : Text} (hbody : closeBrace ∈ body) (b : Option Char) :
    ∃ q, Regex.search (objectPattern key) b
        ('"' :: (key ++ '"' :: ':' :: ' ' :: openBrace :: body))
      = some ([body.takeWhile (· ≠ closeBrace)], q) := by
  have hopen : isSpace openBrace = false := by decide
  have hkey : '"' :: (key ++ '"' :: ':' :: ' ' :: openBrace :: body)
      = ('"' :: key ++ ['"']) ++ ':' :: ' ' :: openBrace :: body := by simp
  obtain ⟨rest, hrest⟩ : ∃ rest, body.dropWhile (· ≠ closeBrace) = closeBrace :: rest := by
    cases hdrop : body.dropWhile (· ≠ closeBrace) with
    | nil =>
      have hall := List.dropWhile_eq_nil_iff.mp hdrop closeBrace hbody
      simp at hall
    | cons c rest =>
      have hnot := List.head?_dropWhile_not (fun c => decide (c ≠ closeBrace)) body
      rw [hdrop] at hnot
      exact ⟨rest, by rw [show c = closeBrace by simpa using hnot]⟩
  have htake : body.take (body.length - (body.dropWhile (· ≠ closeBrace)).length)
      = body.takeWhile (· ≠ closeBrace) := by
    have hlength := congrArg List.length
      (List.takeWhile_append_dropWhile (p := (· ≠ closeBrace)) (l := body))
    rw [List.length_append] at hlength
    have hstarts := List.prefix_iff_eq_take.mp
      (List.takeWhile_prefix (fun c => decide (c ≠ closeBrace)) (l := body))
    rw [hstarts]
    congr 1
    omega
  have hmatch : matchesAt (objectPattern key)
      ⟨b, '"' :: (key ++ '"' :: ':' :: ' ' :: openBrace :: body)⟩
      = [([body.takeWhile (· ≠ closeBrace)], ⟨some closeBrace, rest⟩)] := by
    rw [hkey, objectPattern, matchesAt_skip, ends_seq, ends_literal, List.flatMap_singleton,
      ends_colonThen_colon hopen hopen, ends_char_self, List.flatMap_singleton, matchesAt,
      ends_star_set, flatMap_runs, afterRun, hrest, matchesAt_skip, ends_char_self]
    · simp only [if_true]
      rw [← hrest, htake]
      rfl
    · intro b c s hc
      rw [matchesAt_skip, ends_char_of_ne (by simpa using hc)]
      rfl
  refine ⟨⟨some closeBrace, rest⟩, ?_⟩
  rw [Regex.search, hmatch]
  rfl

/-- A quotation mark that does not open the key of an object. -/
theorem search_pass {key s : Text}
    (h : ∀ r, s = key ++ '"' :: r → ∀ b, ends (colonThen openBrace) ⟨b, r⟩ = [])
    (b : Option Char) : Regex.search (objectPattern key) b ('"' :: s)
      = Regex.search (objectPattern key) (some '"') s := by
  have hnone : matchesAt (objectPattern key) ⟨b, '"' :: s⟩ = [] := by
    rw [objectPattern, matchesAt_skip, ends_seq]
    by_cases hstarts : ('"' :: key ++ ['"']) <+: '"' :: s
    · obtain ⟨r, hr⟩ := hstarts
      have hs : s = key ++ '"' :: r := by
        have hr := (List.cons.inj hr).2
        rw [← hr]
        simp
      have hquoted : '"' :: s = ('"' :: key ++ ['"']) ++ r := hr.symm
      rw [hquoted, ends_literal, List.flatMap_singleton, h r hs]
      rfl
    · rw [ends_literal_eq_nil hstarts]
      rfl
  rw [Regex.search, hnone]
  rfl

theorem eq_of_quoted {s t r r' : Text} (hs : '"' ∉ s) (ht : '"' ∉ t)
    (h : s ++ '"' :: r = t ++ '"' :: r') : s = t ∧ r = r' := by
  induction s generalizing t with
  | nil =>
    cases t with
    | nil => exact ⟨rfl, (List.cons.inj h).2⟩
    | cons c t => exact absurd ((List.cons.inj h).1 ▸ List.mem_cons_self) ht
  | cons c s ih =>
    cases t with
    | nil => exact absurd ((List.cons.inj h).1 ▸ List.mem_cons_self) hs
    | cons d t =>
      obtain ⟨rfl, hrest⟩ := List.cons.inj h
      obtain ⟨rfl, rfl⟩ := ih (fun hc => hs (List.mem_cons_of_mem _ hc))
        (fun hc => ht (List.mem_cons_of_mem _ hc)) hrest
      exact ⟨rfl, rfl⟩

/-- No entry is the object of a key: its value is a string. -/
theorem search_entry {key : Text} (hkey : '"' ∉ key) (hcolon : ∀ c ∈ key.head?, c ≠ ':')
    {entry : Text × Text} (h : QuotableEntry entry) {s : Text}
    (hs : ∀ c ∈ (s.dropWhile isSpace).head?, c ≠ ':')
    (hnext : ∀ r, s ≠ key ++ '"' :: r) (b : Option Char) :
    Regex.search (objectPattern key) b (entryText entry ++ s)
      = Regex.search (objectPattern key) (some '"') s := by
  have hstart : ∀ b c t, c ≠ '"' → matchesAt (objectPattern key) ⟨b, c :: t⟩ = [] :=
    matchesAt_object_start
  obtain ⟨⟨-, hname⟩, -, hvalue⟩ := h
  have hgap : ∀ (b : Option Char) (s : Text), Regex.search (objectPattern key) b (':' :: ' ' :: s)
      = Regex.search (objectPattern key) (some ' ') s :=
    fun b s => @search_skip _ hstart [':', ' '] (by decide) b s
  rw [entryText_append, search_skip hstart (by decide), search_pass, search_skip hstart hname,
    search_pass, hgap, search_pass, search_skip hstart hvalue, search_pass]
  · exact fun r hr => absurd hr (hnext r)
  · intro r hr b
    obtain ⟨-, rfl⟩ := eq_of_quoted hvalue hkey hr
    exact ends_colonThen_of_not_colon (by decide) hs
  · intro r hr
    cases key with
    | nil => exact absurd (List.cons.inj hr).1 (by decide)
    | cons c key => exact absurd (List.cons.inj hr).1.symm (hcolon c rfl)
  · intro r hr b
    obtain ⟨-, rfl⟩ := eq_of_quoted hname hkey hr
    rw [ends_colonThen_colon (by decide) (by decide), ends_char_of_ne (by decide)]

/-- A key: no quotation mark, and not the start of what stands between two strings. -/
structure IsKey (key : Text) : Prop where
  quote : '"' ∉ key
  head : ∀ c ∈ key.head?, c ∉ [':', ',', '\n']

theorem IsKey.ne_append {key : Text} (h : IsKey key) {c : Char} (hc : c ∈ [':', ',', '\n'])
    (s r : Text) : c :: s ≠ key ++ '"' :: r := by
  intro heq
  cases key with
  | nil =>
    rw [(List.cons.inj heq).1] at hc
    exact absurd hc (by decide)
  | cons d key => exact h.head d rfl ((List.cons.inj heq).1 ▸ hc)

/-- The search goes past the entries of another object. -/
theorem search_entries {key : Text} (hkey : IsKey key) {entries : List (Text × Text)}
    (h : ∀ e ∈ entries, QuotableEntry e) {s : Text}
    (hs : ∀ c ∈ (s.dropWhile isSpace).head?, c ≠ ':') {groups : List Text}
    (hfound : ∀ b, ∃ q, Regex.search (objectPattern key) b s = some (groups, q)) (b : Option Char) :
    ∃ q, Regex.search (objectPattern key) b (entryLines entries ++ s) = some (groups, q) := by
  have hstart : ∀ b c t, c ≠ '"' → matchesAt (objectPattern key) ⟨b, c :: t⟩ = [] :=
    matchesAt_object_start
  have hcolon : ∀ c ∈ key.head?, c ≠ ':' := fun c hc heq => hkey.head c hc (by simp [heq])
  induction entries generalizing b with
  | nil => exact hfound b
  | cons entry rest ih =>
    obtain ⟨hentry, hrest⟩ := List.forall_mem_cons.mp h
    cases rest with
    | nil =>
      have hlines : entryLines [entry] ++ s = entryText entry ++ ('\n' :: s) :=
        List.append_assoc _ _ _
      have hspace : ('\n' :: s).dropWhile isSpace = s.dropWhile isSpace := rfl
      rw [hlines, search_entry hkey.quote hcolon hentry (hspace ▸ hs)
        (fun r => hkey.ne_append (by decide) s r)]
      obtain ⟨q, hq⟩ := hfound (some '\n')
      exact ⟨q, (@search_skip _ hstart ['\n'] (by decide) _ s).trans hq⟩
    | cons next rest =>
      have hlines : entryLines (entry :: next :: rest) ++ s
          = entryText entry ++ (',' :: '\n' :: (entryLines (next :: rest) ++ s)) := by
        change entryText entry ++ [',', '\n'] ++ entryLines (next :: rest) ++ s = _
        simp
      have hcomma : ∀ c ∈ ((',' :: '\n' :: (entryLines (next :: rest) ++ s)).dropWhile
          isSpace).head?, c ≠ ':' := by
        intro c hc
        obtain rfl : ',' = c := Option.some.inj hc
        decide
      rw [hlines, search_entry hkey.quote hcolon hentry hcomma
        (fun r => hkey.ne_append (by decide) _ r)]
      obtain ⟨q, hq⟩ := ih hrest (some '\n')
      exact ⟨q, (@search_skip _ hstart [',', '\n'] (by decide) _ _).trans hq⟩

/-! ## Maps -/

theorem lookup_foldl_insert {entries : List (Text × Text)} (hnodup : (entries.map Prod.fst).Nodup)
    (map : AList fun _ : Text => Text) (name value : Text) :
    (entries.foldl (fun result e => result.insert e.1 e.2) map).lookup name = some value
      ↔ (name, value) ∈ entries ∨ name ∉ entries.map Prod.fst ∧ map.lookup name = some value := by
  induction entries generalizing map with
  | nil => simp
  | cons e entries ih =>
    obtain ⟨key, v⟩ := e
    rw [List.map_cons, List.nodup_cons] at hnodup
    rw [List.foldl_cons, ih hnodup.2, List.mem_cons, List.map_cons, List.mem_cons]
    by_cases hname : name = key
    · subst hname
      have hnot : (name, value) ∉ entries :=
        fun hmem => hnodup.1 (List.mem_map.mpr ⟨_, hmem, rfl⟩)
      simp only [hnot, hnodup.1, AList.lookup_insert, not_false_eq_true, true_and, false_or,
        Prod.mk.injEq, or_false, not_true_eq_false, false_and, Option.some.injEq]
      exact eq_comm
    · simp only [AList.lookup_insert_ne hname, Prod.mk.injEq, hname, false_and, false_or]

theorem inOrder_perm (map : AList fun _ : Text => Text) :
    List.Perm (inOrder map) (map.entries.map fun entry => (entry.1, entry.2)) :=
  List.mergeSort_perm _ _

theorem mem_inOrder {map : AList fun _ : Text => Text} {name value : Text} :
    (name, value) ∈ inOrder map ↔ map.lookup name = some value := by
  rw [(inOrder_perm map).mem_iff, ← Option.mem_def, AList.mem_lookup_iff, List.mem_map]
  constructor
  · rintro ⟨⟨key, v⟩, hmem, heq⟩
    obtain ⟨rfl, rfl⟩ := Prod.mk.inj heq
    exact hmem
  · exact fun hmem => ⟨⟨name, value⟩, hmem, rfl⟩

theorem nodup_inOrder (map : AList fun _ : Text => Text) : ((inOrder map).map Prod.fst).Nodup := by
  refine ((inOrder_perm map).map Prod.fst).nodup_iff.mpr ?_
  rw [List.map_map]
  exact map.nodupKeys

/-- What is read of an object: its entries before the first with a brace. -/
theorem lookup_jsonObjectMap {document key x : Text} {map : AList fun _ : Text => Text}
    (h : ∀ e ∈ inOrder map, QuotableEntry e) (hx : '"' ∉ x.takeWhile (· ≠ closeBrace))
    (hfound : ∃ q, Regex.search (objectPattern key) none document
      = some ([['\n'] ++ cutLines (inOrder map) x], q)) (name value : Text) :
    (jsonObjectMap document key).lookup name = some value
      ↔ (name, value) ∈ (inOrder map).takeWhile fun e => decide (Unbraced e) := by
  obtain ⟨q, hfound⟩ := hfound
  have hlength := length_le_cutLines (inOrder map) x
  have hall := searchAll_entries h (u := ['\n']) (by decide) hx
    (n := (['\n'] ++ cutLines (inOrder map) x).length)
    (by rw [List.length_append]; omega) none
  have hnodup : (((inOrder map).takeWhile fun e => decide (Unbraced e)).map Prod.fst).Nodup :=
    (nodup_inOrder map).sublist ((List.takeWhile_sublist _).map Prod.fst)
  have hfold := lookup_foldl_insert hnodup ∅ name value
  rw [AList.lookup_empty, or_iff_left fun hnone => Option.some_ne_none _ hnone.2.symm] at hfold
  simp only [jsonObjectMap, hfound, List.headD_cons, hall, List.foldl_map]
  exact hfold

/-! ## The round trip -/

theorem isKey_versions : IsKey "versions".toList where
  quote := by simp
  head c hc := by
    obtain rfl := Option.some.inj hc
    decide

theorem isKey_paths : IsKey "paths".toList where
  quote := by simp
  head c hc := by
    obtain rfl := Option.some.inj hc
    decide

/-- What stands after the entries of an object. -/
def closing (s : Text) : Text := ' ' :: ' ' :: closeBrace :: s

theorem quote_closing (s : Text) : '"' ∉ (closing s).takeWhile (· ≠ closeBrace) := by
  have hcut : (closing s).takeWhile (· ≠ closeBrace) = [' ', ' '] := by simp [closing, closeBrace]
  rw [hcut]
  decide

/-- An object, from its key on. -/
def objectText (key : Text) (entries : List (Text × Text)) (s : Text) : Text :=
  '"' :: (key ++ '"' :: ':' :: ' ' :: openBrace :: '\n' :: (entryLines entries ++ closing s))

theorem search_objectText (key : Text) (entries : List (Text × Text)) (s : Text)
    (b : Option Char) : ∃ q, Regex.search (objectPattern key) b (objectText key entries s)
      = some ([['\n'] ++ cutLines entries (closing s)], q) := by
  have hmem : closeBrace ∈ '\n' :: (entryLines entries ++ closing s) :=
    List.mem_cons_of_mem _ (List.mem_append_right _ (by simp [closing]))
  obtain ⟨q, hq⟩ := search_object hmem b
  rw [List.takeWhile_cons_of_pos (by decide)] at hq
  exact ⟨q, hq⟩

/-- One object after the other. -/
theorem saveLockfile_eq (lockfile : PackageLockfile) : saveLockfile lockfile =
    [openBrace, '\n', ' ', ' '] ++ objectText "versions".toList (inOrder lockfile.resolvedVersions)
      ([',', '\n', ' ', ' '] ++ objectText "paths".toList (inOrder lockfile.resolvedPaths)
        ['\n', closeBrace, '\n']) := by
  simp only [saveLockfile, List.append_assoc]
  rfl

theorem search_versions (lockfile : PackageLockfile) : ∃ s q,
    Regex.search (objectPattern "versions".toList) none (saveLockfile lockfile)
      = some ([['\n'] ++ cutLines (inOrder lockfile.resolvedVersions) (closing s)], q) := by
  obtain ⟨q, hq⟩ := search_objectText "versions".toList (inOrder lockfile.resolvedVersions)
    ([',', '\n', ' ', ' '] ++ objectText "paths".toList (inOrder lockfile.resolvedPaths)
      ['\n', closeBrace, '\n']) (some ' ')
  rw [saveLockfile_eq, search_skip matchesAt_object_start (by decide)]
  exact ⟨_, q, hq⟩

/-- The versions are passed on the way to the paths. -/
theorem search_paths (lockfile : PackageLockfile)
    (h : ∀ e ∈ inOrder lockfile.resolvedVersions, QuotableEntry e) : ∃ s q,
    Regex.search (objectPattern "paths".toList) none (saveLockfile lockfile)
      = some ([['\n'] ++ cutLines (inOrder lockfile.resolvedPaths) (closing s)], q) := by
  have hstart := @matchesAt_object_start "paths".toList
  have hfound : ∀ b, ∃ q, Regex.search (objectPattern "paths".toList) b
      (closing ([',', '\n', ' ', ' '] ++ objectText "paths".toList
        (inOrder lockfile.resolvedPaths) ['\n', closeBrace, '\n']))
        = some ([['\n'] ++ cutLines (inOrder lockfile.resolvedPaths)
            (closing ['\n', closeBrace, '\n'])], q) := by
    intro b
    obtain ⟨q, hq⟩ := search_objectText "paths".toList (inOrder lockfile.resolvedPaths)
      ['\n', closeBrace, '\n'] (some ' ')
    exact ⟨q, (@search_skip _ hstart [' ', ' ', closeBrace, ',', '\n', ' ', ' '] (by decide) b
      _).trans hq⟩
  obtain ⟨q, hq⟩ := search_entries isKey_paths h (by
    intro c hc
    obtain rfl : closeBrace = c := Option.some.inj hc
    decide) hfound (some '\n')
  rw [saveLockfile_eq, search_skip hstart (by decide), objectText, search_pass,
    search_skip hstart (by decide), search_pass]
  · exact ⟨_, q, (@search_skip _ hstart [':', ' ', openBrace, '\n'] (by decide) _ _).trans hq⟩
  · exact fun r hr => absurd hr (isKey_paths.ne_append (by decide) _ r)
  · intro r hr
    obtain ⟨hkeys, -⟩ := eq_of_quoted isKey_versions.quote isKey_paths.quote hr
    exact absurd hkeys (by decide)

/-- The strings can stand between quotation marks. -/
structure WellQuoted (lockfile : PackageLockfile) : Prop where
  versions : ∀ name version, lockfile.resolvedVersions.lookup name = some version →
    QuotableEntry (name, version)
  paths : ∀ name path, lockfile.resolvedPaths.lookup name = some path → QuotableEntry (name, path)

/-- What is written is read back. -/
def RoundTrip (lockfile : PackageLockfile) : Prop :=
  (∀ name, (loadLockfile (saveLockfile lockfile)).resolvedVersions.lookup name
      = lockfile.resolvedVersions.lookup name) ∧
    ∀ name, (loadLockfile (saveLockfile lockfile)).resolvedPaths.lookup name
      = lockfile.resolvedPaths.lookup name

/-- No string has a closing brace. -/
structure WellBraced (lockfile : PackageLockfile) : Prop where
  versions : ∀ name version, lockfile.resolvedVersions.lookup name = some version →
    Unbraced (name, version)
  paths : ∀ name path, lockfile.resolvedPaths.lookup name = some path → Unbraced (name, path)

theorem same_map_iff {map result : AList fun _ : Text => Text}
    (h : ∀ name value, result.lookup name = some value
      ↔ (name, value) ∈ (inOrder map).takeWhile fun e => decide (Unbraced e)) :
    (∀ name, result.lookup name = map.lookup name)
      ↔ ∀ name value, map.lookup name = some value → Unbraced (name, value) := by
  constructor
  · intro hsame name value hvalue
    rw [← hsame, h] at hvalue
    simpa using List.mem_takeWhile_imp hvalue
  · intro hall name
    have htake : ((inOrder map).takeWhile fun e => decide (Unbraced e)) = inOrder map :=
      List.takeWhile_eq_self_iff.mpr fun e he => by
        simpa using hall e.1 e.2 (mem_inOrder.mp he)
    refine Option.ext fun value => ?_
    rw [h, htake, mem_inOrder]

theorem resolvedVersions_load (document : Text) :
    (loadLockfile document).resolvedVersions = jsonObjectMap document "versions".toList := rfl

theorem resolvedPaths_load (document : Text) :
    (loadLockfile document).resolvedPaths = jsonObjectMap document "paths".toList := rfl

section

variable {lockfile : PackageLockfile} (h : WellQuoted lockfile)

include h

theorem WellQuoted.versions_inOrder : ∀ e ∈ inOrder lockfile.resolvedVersions, QuotableEntry e :=
  fun e he => h.versions e.1 e.2 (mem_inOrder.mp he)

theorem WellQuoted.paths_inOrder : ∀ e ∈ inOrder lockfile.resolvedPaths, QuotableEntry e :=
  fun e he => h.paths e.1 e.2 (mem_inOrder.mp he)

theorem versions_read_iff :
    (∀ name, (loadLockfile (saveLockfile lockfile)).resolvedVersions.lookup name
        = lockfile.resolvedVersions.lookup name)
      ↔ ∀ name version, lockfile.resolvedVersions.lookup name = some version →
        Unbraced (name, version) := by
  obtain ⟨s, q, hsearch⟩ := search_versions lockfile
  generalize saveLockfile lockfile = document at hsearch
  rw [resolvedVersions_load]
  exact same_map_iff (lookup_jsonObjectMap h.versions_inOrder (quote_closing s) ⟨q, hsearch⟩)

theorem paths_read_iff :
    (∀ name, (loadLockfile (saveLockfile lockfile)).resolvedPaths.lookup name
        = lockfile.resolvedPaths.lookup name)
      ↔ ∀ name path, lockfile.resolvedPaths.lookup name = some path → Unbraced (name, path) := by
  obtain ⟨s, q, hsearch⟩ := search_paths lockfile h.versions_inOrder
  generalize saveLockfile lockfile = document at hsearch
  rw [resolvedPaths_load]
  exact same_map_iff (lookup_jsonObjectMap h.paths_inOrder (quote_closing s) ⟨q, hsearch⟩)

/-- A lockfile is read back exactly where no closing brace is in it. -/
theorem lockfile_roundTrip_iff : RoundTrip lockfile ↔ WellBraced lockfile := by
  rw [RoundTrip, versions_read_iff h, paths_read_iff h]
  exact ⟨fun hbraced => ⟨hbraced.1, hbraced.2⟩, fun hbraced => ⟨hbraced.versions, hbraced.paths⟩⟩

end

/-! ## One package -/

/-- A lockfile with one package. -/
def oneLocked (name version path : Text) : PackageLockfile where
  resolvedVersions := AList.singleton name version
  resolvedPaths := AList.singleton name path

theorem lookup_singleton {name value name' value' : Text} :
    (AList.singleton name value : AList fun _ : Text => Text).lookup name' = some value'
      ↔ name' = name ∧ value' = value := by
  rw [← Option.mem_def, AList.mem_lookup_iff]
  change (⟨name', value'⟩ : Sigma fun _ : Text => Text) ∈ [⟨name, value⟩] ↔ _
  simp

theorem wellQuoted_oneLocked {name version path : Text} (hname : Quotable name)
    (hversion : Quotable version) (hpath : Quotable path) :
    WellQuoted (oneLocked name version path) := by
  constructor
  · intro name' version' hlookup
    obtain ⟨rfl, rfl⟩ := lookup_singleton.mp hlookup
    exact ⟨hname, hversion⟩
  · intro name' path' hlookup
    obtain ⟨rfl, rfl⟩ := lookup_singleton.mp hlookup
    exact ⟨hname, hpath⟩

/-- A package without braces is read back. -/
theorem lockfile_roundTrip_json :
    RoundTrip (oneLocked "json".toList "1.2.0".toList "lib/json".toList) := by
  refine (lockfile_roundTrip_iff (wellQuoted_oneLocked ?_ ?_ ?_)).mpr ⟨?_, ?_⟩
  · decide
  · decide
  · decide
  · intro name version hlookup
    obtain ⟨rfl, rfl⟩ := lookup_singleton.mp hlookup
    decide
  · intro name path hlookup
    obtain ⟨rfl, rfl⟩ := lookup_singleton.mp hlookup
    decide

/-- A directory with a closing brace in its name loses the path. -/
theorem lockfile_loses_path : ¬∀ lockfile, WellQuoted lockfile → RoundTrip lockfile := by
  intro h
  have hquoted : WellQuoted (oneLocked "json".toList "1.2.0".toList "lib\x7d/json".toList) :=
    wellQuoted_oneLocked (by decide) (by decide) (by decide)
  have hunbraced := (paths_read_iff hquoted).mp (h _ hquoted).2 "json".toList
    "lib\x7d/json".toList (lookup_singleton.mpr ⟨rfl, rfl⟩)
  exact absurd hunbraced (by decide)

end Package

end Absolute
