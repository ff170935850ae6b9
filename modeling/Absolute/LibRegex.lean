import Mathlib.Algebra.Order.Ring.Nat
import Mathlib.Data.List.Basic
import Mathlib.Data.List.TakeWhile
import Mathlib.Tactic.Common

/-!
# Regular expressions that backtrack

A backtracking matcher tries the ways an expression can match in a fixed order, and takes
the first that works. `Regex.ends` lists where the matches that start at a place end, in that
order: the left side of an alternative first, another turn of a repetition first, or last
where it is lazy. A turn has to consume something.

What follows a repetition of single characters often cannot start with one of them; then the
longest run is the only one that counts (`flatMap_ends_star_set`).
-/

namespace Absolute

/-- Somewhere in a text: the character before, and what is left. -/
structure Regex.Place where
  before : Option Char
  rest : List Char
deriving DecidableEq, Repr

inductive Regex where
  | set (p : Char → Bool)
  | empty
  | seq (a b : Regex)
  | alt (a b : Regex)
  | star (a : Regex)
  | lazyStar (a : Regex)
  | wordBoundary

namespace Regex

/-! ## Matches that start at a place -/

def isWord (c : Char) : Bool := c.isAlphanum || c = '_'

/-- `\b`: a word character on one side only. -/
def atBoundary (p : Place) : Bool := p.before.any isWord != p.rest.head?.any isWord

def repeated (step : Place → List Place) : Nat → Place → List Place
  | 0, p => [p]
  | n + 1, p => (step p).flatMap
      (fun q => if q.rest.length < p.rest.length then repeated step n q else []) ++ [p]

def repeatedLazily (step : Place → List Place) : Nat → Place → List Place
  | 0, p => [p]
  | n + 1, p => p :: (step p).flatMap
      (fun q => if q.rest.length < p.rest.length then repeatedLazily step n q else [])

def ends : Regex → Place → List Place
  | .set f, p => match p.rest with
      | [] => []
      | c :: rest => if f c then [⟨some c, rest⟩] else []
  | .empty, p => [p]
  | .seq a b, p => (ends a p).flatMap (ends b)
  | .alt a b, p => ends a p ++ ends b p
  | .star a, p => repeated (ends a) p.rest.length p
  | .lazyStar a, p => repeatedLazily (ends a) p.rest.length p
  | .wordBoundary, p => if atBoundary p then [p] else []

def char (c : Char) : Regex := .set (· = c)

/-- The characters one after the other. -/
def literal : List Char → Regex
  | [] => .empty
  | c :: rest => .seq (char c) (literal rest)

def plus (a : Regex) : Regex := .seq a (.star a)

/-- `a?` -/
def optional (a : Regex) : Regex := .alt a .empty

def oneOf : List Regex → Regex
  | [] => .set fun _ => false
  | [a] => a
  | a :: rest => .alt a (oneOf rest)

/-! ## Single steps -/

@[simp] theorem ends_set_nil (f : Char → Bool) (b : Option Char) :
    ends (.set f) ⟨b, []⟩ = [] := rfl

@[simp] theorem ends_set_cons (f : Char → Bool) (b : Option Char) (c : Char) (s : List Char) :
    ends (.set f) ⟨b, c :: s⟩ = if f c then [⟨some c, s⟩] else [] := rfl

theorem ends_seq (a b : Regex) (p : Place) : ends (.seq a b) p = (ends a p).flatMap (ends b) := rfl

theorem ends_alt (a b : Regex) (p : Place) : ends (.alt a b) p = ends a p ++ ends b p := rfl

/-- The last of some characters, or what was before. -/
def lastOf : Option Char → List Char → Option Char
  | b, [] => b
  | _, c :: w => lastOf (some c) w

theorem ends_literal (w : List Char) (b : Option Char) (s : List Char) :
    ends (literal w) ⟨b, w ++ s⟩ = [⟨lastOf b w, s⟩] := by
  induction w generalizing b with
  | nil => rfl
  | cons c w ih => simp [literal, char, ends_seq, ih, lastOf]

theorem ends_literal_eq_nil {w : List Char} {p : Place} (h : ¬w <+: p.rest) :
    ends (literal w) p = [] := by
  obtain ⟨b, s⟩ := p
  induction w generalizing b s with
  | nil => exact absurd List.nil_prefix h
  | cons c w ih =>
    cases s with
    | nil => rfl
    | cons d s =>
      rw [literal, ends_seq, char, ends_set_cons]
      by_cases hd : d = c
      · subst hd
        have hrest : ¬w <+: s := fun hw => h (by simpa using hw)
        simp [ih _ s hrest]
      · simp [hd]

/-! ## Runs of single characters -/

/-- Where a run of such characters can end, the longest first. -/
def runs (f : Char → Bool) : Option Char → List Char → List Place
  | b, [] => [⟨b, []⟩]
  | b, c :: s => (if f c then runs f (some c) s else []) ++ [⟨b, c :: s⟩]

theorem repeated_set (f : Char → Bool) (b : Option Char) (s : List Char) {n : Nat}
    (hn : s.length ≤ n) : repeated (ends (.set f)) n ⟨b, s⟩ = runs f b s := by
  induction s generalizing b n with
  | nil => cases n <;> rfl
  | cons c s ih =>
    cases n with
    | zero => simp at hn
    | succ n =>
      rw [repeated, runs, ends_set_cons]
      by_cases hc : f c = true
      · simp [hc, ih (some c) (Nat.le_of_succ_le_succ hn)]
      · simp [hc]

theorem ends_star_set (f : Char → Bool) (b : Option Char) (s : List Char) :
    ends (.star (.set f)) ⟨b, s⟩ = runs f b s := repeated_set f b s le_rfl

/-- The end of the longest run. -/
def afterRun (f : Char → Bool) (b : Option Char) (s : List Char) : Place :=
  ⟨lastOf b (s.takeWhile f), s.dropWhile f⟩

theorem head?_runs (f : Char → Bool) (b : Option Char) (s : List Char) :
    (runs f b s).head? = some (afterRun f b s) := by
  induction s generalizing b with
  | nil => rfl
  | cons c s ih =>
    rw [runs, afterRun]
    by_cases hc : f c = true
    · rw [if_pos hc, List.head?_append, ih, List.takeWhile_cons_of_pos hc,
        List.dropWhile_cons_of_pos hc]
      rfl
    · rw [if_neg hc, List.takeWhile_cons_of_neg hc, List.dropWhile_cons_of_neg hc]
      rfl

/-- What cannot start with a character of the run is tried with success after the longest
run only. -/
theorem flatMap_runs {α : Type*} {f : Char → Bool} {next : Place → List α}
    (hnext : ∀ b c s, f c = true → next ⟨b, c :: s⟩ = []) (b : Option Char) (s : List Char) :
    (runs f b s).flatMap next = next (afterRun f b s) := by
  induction s generalizing b with
  | nil => simp [runs, afterRun, lastOf]
  | cons c s ih =>
    rw [runs, List.flatMap_append, List.flatMap_singleton, afterRun]
    by_cases hc : f c = true
    · rw [if_pos hc, ih, hnext b c s hc, List.append_nil, afterRun, List.takeWhile_cons_of_pos hc,
        List.dropWhile_cons_of_pos hc]
      rfl
    · rw [if_neg hc, List.takeWhile_cons_of_neg hc, List.dropWhile_cons_of_neg hc]
      rfl

/-- A run that is not followed by what could belong to it. -/
theorem afterRun_append {f : Char → Bool} {w : List Char} (hw : ∀ c ∈ w, f c = true)
    (b : Option Char) {s : List Char} (hs : ∀ c ∈ s.head?, f c = false) :
    afterRun f b (w ++ s) = ⟨lastOf b w, s⟩ := by
  have hs' : s.takeWhile f = [] ∧ s.dropWhile f = s := by
    cases s with
    | nil => exact ⟨rfl, rfl⟩
    | cons c s => simp [hs c rfl]
  rw [afterRun, List.takeWhile_append_of_pos hw, List.dropWhile_append_of_pos hw, hs'.1, hs'.2,
    List.append_nil]

/-! ## What is left after a match -/

theorem repeated_suffix {step : Place → List Place}
    (h : ∀ {p q}, q ∈ step p → q.rest <:+ p.rest) {n : Nat} {p q : Place}
    (hq : q ∈ repeated step n p) : q.rest <:+ p.rest := by
  induction n generalizing p with
  | zero =>
    obtain rfl := List.mem_singleton.mp hq
    exact List.suffix_refl _
  | succ n ih =>
    rcases List.mem_append.mp hq with hq | hq
    · obtain ⟨r, hr, hq⟩ := List.mem_flatMap.mp hq
      split at hq
      · exact (ih hq).trans (h hr)
      · cases hq
    · obtain rfl := List.mem_singleton.mp hq
      exact List.suffix_refl _

theorem repeatedLazily_suffix {step : Place → List Place}
    (h : ∀ {p q}, q ∈ step p → q.rest <:+ p.rest) {n : Nat} {p q : Place}
    (hq : q ∈ repeatedLazily step n p) : q.rest <:+ p.rest := by
  induction n generalizing p with
  | zero =>
    obtain rfl := List.mem_singleton.mp hq
    exact List.suffix_refl _
  | succ n ih =>
    rcases List.mem_cons.mp hq with rfl | hq
    · exact List.suffix_refl _
    · obtain ⟨r, hr, hq⟩ := List.mem_flatMap.mp hq
      split at hq
      · exact (ih hq).trans (h hr)
      · cases hq

theorem ends_suffix {r : Regex} {p q : Place} (h : q ∈ ends r p) : q.rest <:+ p.rest := by
  induction r generalizing p q with
  | set f =>
    obtain ⟨b, s⟩ := p
    cases s with
    | nil => cases h
    | cons c s =>
      rw [ends_set_cons] at h
      split at h
      · rw [List.mem_singleton.mp h]
        exact List.suffix_cons c s
      · cases h
  | empty =>
    obtain rfl := List.mem_singleton.mp h
    exact List.suffix_refl _
  | seq a b iha ihb =>
    obtain ⟨m, hm, hq⟩ := List.mem_flatMap.mp h
    exact (ihb hq).trans (iha hm)
  | alt a b iha ihb =>
    rcases List.mem_append.mp h with h | h
    · exact iha h
    · exact ihb h
  | star a ih => exact repeated_suffix (fun h => ih h) h
  | lazyStar a ih => exact repeatedLazily_suffix (fun h => ih h) h
  | wordBoundary =>
    rw [ends] at h
    split at h
    · obtain rfl := List.mem_singleton.mp h
      exact List.suffix_refl _
    · cases h

theorem mem_ends_char {c : Char} {p q : Place} (h : q ∈ ends (char c) p) :
    p.rest = c :: q.rest := by
  obtain ⟨b, s⟩ := p
  cases s with
  | nil => cases h
  | cons d s =>
    rw [char, ends_set_cons] at h
    split at h
    · rename_i hd
      rw [List.mem_singleton.mp h, of_decide_eq_true hd]
    · cases h

/-! ## Searching -/

/-- Some parts of an expression, the marked ones in parentheses. -/
abbrev Groups := List (Bool × Regex)

/-- The matches that start at a place, each with what the parentheses hold. -/
def matchesAt : Groups → Place → List (List (List Char) × Place)
  | [], p => [([], p)]
  | (captured, r) :: parts, p => (ends r p).flatMap fun q => (matchesAt parts q).map fun m =>
      (if captured then p.rest.take (p.rest.length - q.rest.length) :: m.1 else m.1, m.2)

/-- Nothing is kept of a part without parentheses. -/
theorem matchesAt_skip (r : Regex) (parts : Groups) (p : Place) :
    matchesAt ((false, r) :: parts) p = (ends r p).flatMap (matchesAt parts) := by
  refine List.flatMap_congr fun q _ => ?_
  exact List.map_id _

/-- `std::regex_search`: the first match of the leftmost place that has one. -/
def search (parts : Groups) (b : Option Char) : List Char → Option (List (List Char) × Place)
  | [] => (matchesAt parts ⟨b, []⟩).head?
  | c :: s => (matchesAt parts ⟨b, c :: s⟩).head?.or (search parts (some c) s)

/-- `std::sregex_iterator`: one match after the other, for expressions that do not match
the empty text. -/
def searchAll (parts : Groups) : Nat → Place → List (List (List Char))
  | 0, _ => []
  | n + 1, p => match search parts p.before p.rest with
      | none => []
      | some (groups, q) => groups :: searchAll parts n q

end Regex

end Absolute
