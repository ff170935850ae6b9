import Mathlib.Data.List.Basic
import Mathlib.Tactic.Common

/-!
# Escapes that leave their mark as it is

Characters are plain, or are written as a mark and two digits. The mark is plain itself
and stands unescaped, so that a text can hold what looks like an escape. `unescape` reads
everything that looks like one. Two texts are escaped alike exactly where they are
unescaped alike (`escape_eq_iff`).
-/

namespace Absolute

structure EscapeScheme (α : Type*) where
  plain : α → Bool
  /-- the characters that have an escape -/
  escaped : α → Prop
  mark : α
  digits : α → α × α
  read : α → α → Option α
  plain_mark : plain mark = true
  not_plain : ∀ {c}, escaped c → plain c = false
  read_eq : ∀ {a b c}, read a b = some c ↔ escaped c ∧ digits c = (a, b)
  plain_digits : ∀ {a b c}, read a b = some c → plain a = true ∧ plain b = true
  ne_mark : ∀ {a b c}, read a b = some c → a ≠ mark ∧ b ≠ mark

namespace EscapeScheme

variable {α : Type*} (S : EscapeScheme α)

def escapeOne (c : α) : List α :=
  if S.plain c then [c] else [S.mark, (S.digits c).1, (S.digits c).2]

def escape (s : List α) : List α := s.flatMap S.escapeOne

def unescape [DecidableEq α] : List α → List α
  | c :: a :: b :: rest =>
      if c = S.mark then
        match S.read a b with
        | some e => e :: unescape rest
        | none => c :: unescape (a :: b :: rest)
      else c :: unescape (a :: b :: rest)
  | c :: rest => c :: unescape rest
  | [] => []

/-- Texts of plain characters and of characters that have an escape. -/
def IsText (s : List α) : Prop := ∀ c ∈ s, S.plain c = true ∨ S.escaped c

variable {S}

theorem IsText.tail {c : α} {s : List α} (h : S.IsText (c :: s)) : S.IsText s :=
  fun d hd => h d (List.mem_cons_of_mem _ hd)

theorem IsText.append {s t : List α} (hs : S.IsText s) (ht : S.IsText t) :
    S.IsText (s ++ t) :=
  fun c hc => (List.mem_append.mp hc).elim (hs c) (ht c)

theorem escape_cons_plain {c : α} (h : S.plain c = true) (s : List α) :
    S.escape (c :: s) = c :: S.escape s := by
  simp [escape, escapeOne, h]

theorem escape_cons_escaped {c : α} (h : S.escaped c) (s : List α) :
    S.escape (c :: s) = S.mark :: (S.digits c).1 :: (S.digits c).2 :: S.escape s := by
  simp [escape, escapeOne, S.not_plain h]

/-! ## One character -/

theorem read_digits {c : α} (h : S.escaped c) :
    S.read (S.digits c).1 (S.digits c).2 = some c :=
  S.read_eq.mpr ⟨h, rfl⟩

theorem escape_of_read {a b e : α} (h : S.read a b = some e) (s : List α) :
    S.escape (e :: s) = S.escape (S.mark :: a :: b :: s) := by
  obtain ⟨he, hdigits⟩ := S.read_eq.mp h
  obtain ⟨ha, hb⟩ := S.plain_digits h
  rw [escape_cons_escaped he, hdigits, escape_cons_plain S.plain_mark, escape_cons_plain ha,
    escape_cons_plain hb]

variable (S) in
/-- Whether an escape starts with `c`. -/
def Starts (c : α) (s : List α) : Prop :=
  c = S.mark ∧ ∃ a b rest e, s = a :: b :: rest ∧ S.read a b = some e

/-- Escaping makes no escapes after a mark. -/
theorem starts_of_escape {c : α} {s : List α} (hs : S.IsText s)
    (h : S.Starts c (S.escape s)) : S.Starts c s := by
  obtain ⟨hc, a, b, rest, e, hescape, he⟩ := h
  obtain ⟨ha, hb⟩ := S.ne_mark he
  refine ⟨hc, a, b, ?_⟩
  match s with
  | [] => cases hescape
  | x :: s =>
      rcases hs x List.mem_cons_self with hx | hx
      · rw [escape_cons_plain hx] at hescape
        injection hescape with hxa hescape
        match s with
        | [] => cases hescape
        | y :: s =>
            rcases hs.tail y List.mem_cons_self with hy | hy
            · rw [escape_cons_plain hy] at hescape
              injection hescape with hyb _
              exact ⟨s, e, by rw [hxa, hyb], he⟩
            · rw [escape_cons_escaped hy] at hescape
              exact absurd (List.cons.inj hescape).1.symm hb
      · rw [escape_cons_escaped hx] at hescape
        exact absurd (List.cons.inj hescape).1.symm ha

section Unescape

variable [DecidableEq α]

theorem unescape_mark {a b e : α} (h : S.read a b = some e) (s : List α) :
    S.unescape (S.mark :: a :: b :: s) = e :: S.unescape s := by
  rw [unescape, if_pos rfl, h]

theorem unescape_cons {c : α} {s : List α} (h : ¬S.Starts c s) :
    S.unescape (c :: s) = c :: S.unescape s := by
  match s with
  | [] => rfl
  | [_] => rfl
  | a :: b :: rest =>
      rw [unescape]
      split
      · rename_i hc
        cases he : S.read a b with
        | none => rfl
        | some e => exact absurd ⟨hc, a, b, rest, e, rfl, he⟩ h
      · rfl

/-- A text is read one escape or one character at a time. -/
theorem unescape_induction {P : List α → Prop} (nil : P [])
    (read : ∀ {a b e : α} {s}, S.read a b = some e → P s → P (S.mark :: a :: b :: s))
    (cons : ∀ {c : α} {s}, ¬S.Starts c s → P s → P (c :: s)) (s : List α) : P s := by
  induction s using unescape.induct S with
  | case1 a b rest e hread ih => exact read hread ih
  | case2 a b rest hread ih =>
    refine cons ?_ ih
    rintro ⟨-, x, y, rest', e, hrest, he⟩
    simp only [List.cons.injEq] at hrest
    rw [← hrest.1, ← hrest.2.1, hread] at he
    cases he
  | case3 c a b rest hc ih => exact cons (fun h => hc h.1) ih
  | case4 c rest hshort ih =>
    refine cons ?_ ih
    rintro ⟨-, a, b, rest', e, hrest, -⟩
    exact hshort a b rest' hrest
  | case5 => exact nil

/-! ## Escaped alike, unescaped alike -/

/-- Reading escapes gives what was escaped, its own escapes read as well. -/
theorem unescape_escape {s : List α} (h : S.IsText s) :
    S.unescape (S.escape s) = S.unescape s := by
  induction s using unescape_induction (S := S) with
  | nil => rfl
  | @read a b e s he ih =>
    obtain ⟨ha, hb⟩ := S.plain_digits he
    rw [escape_cons_plain S.plain_mark, escape_cons_plain ha, escape_cons_plain hb,
      unescape_mark he, unescape_mark he, ih h.tail.tail.tail]
  | @cons c s hno ih =>
    rw [unescape_cons hno]
    rcases h c List.mem_cons_self with hplain | hescaped
    · rw [escape_cons_plain hplain,
        unescape_cons fun hstarts => hno (starts_of_escape h.tail hstarts), ih h.tail]
    · rw [escape_cons_escaped hescaped, unescape_mark (read_digits hescaped), ih h.tail]

theorem escape_unescape (s : List α) : S.escape (S.unescape s) = S.escape s := by
  induction s using unescape_induction (S := S) with
  | nil => rfl
  | @read a b e s he ih =>
    rw [unescape_mark he, ← escape_of_read he s]
    exact congrArg (S.escapeOne e ++ ·) ih
  | @cons c s hno ih =>
    rw [unescape_cons hno]
    exact congrArg (S.escapeOne c ++ ·) ih

theorem escape_eq_iff {s t : List α} (hs : S.IsText s) (ht : S.IsText t) :
    S.escape s = S.escape t ↔ S.unescape s = S.unescape t := by
  constructor
  · intro h
    rw [← unescape_escape hs, h, unescape_escape ht]
  · intro h
    rw [← escape_unescape s, h, escape_unescape]

/-- No escape goes past a character that is not plain. -/
theorem unescape_append_cons {sep : α} (hsep : S.plain sep = false) (s t : List α) :
    S.unescape (s ++ sep :: t) = S.unescape s ++ sep :: S.unescape t := by
  induction s using unescape_induction (S := S) with
  | nil =>
    refine unescape_cons fun h => ?_
    rw [h.1, S.plain_mark] at hsep
    cases hsep
  | @read a b e s he ih =>
    rw [unescape_mark he, List.cons_append, List.cons_append, List.cons_append,
      unescape_mark he, ih, List.cons_append]
  | @cons c s hno ih =>
    rw [unescape_cons hno, List.cons_append, unescape_cons, ih, List.cons_append]
    rintro ⟨hc, a, b, rest, e, heq, he⟩
    obtain ⟨ha, hb⟩ := S.plain_digits he
    match s with
    | [] =>
        rw [← (List.cons.inj heq).1, hsep] at ha
        cases ha
    | [x] =>
        rw [← (List.cons.inj (List.cons.inj heq).2).1, hsep] at hb
        cases hb
    | x :: y :: s =>
        simp only [List.cons_append, List.cons.injEq] at heq
        exact hno ⟨hc, x, y, s, e, rfl, by rw [heq.1, heq.2.1]; exact he⟩

end Unescape

/-! ## Parts behind separators -/

/-- A text and parts that each stand behind a separator. -/
def joined (sep : α) (s : List α) (parts : List (List α)) : List α :=
  s ++ parts.flatMap (sep :: ·)

theorem joined_cons (sep : α) (s part : List α) (parts : List (List α)) :
    joined sep s (part :: parts) = s ++ sep :: joined sep part parts := by
  simp [joined]

theorem eq_of_append_sep {sep : α} {s t u v : List α} (hs : sep ∉ s) (ht : sep ∉ t)
    (h : s ++ sep :: u = t ++ sep :: v) : s = t ∧ u = v := by
  rcases List.append_eq_append_iff.mp h with ⟨c, rfl, hc⟩ | ⟨c, rfl, hc⟩
  all_goals
    match c with
    | [] => simpa [eq_comm] using hc
    | x :: c =>
        obtain ⟨rfl, -⟩ := List.cons.inj hc
        simp at hs ht

theorem joined_inj {sep : α} {s t : List α} {parts parts' : List (List α)} (hs : sep ∉ s)
    (ht : sep ∉ t) (hparts : ∀ part ∈ parts, sep ∉ part)
    (hparts' : ∀ part ∈ parts', sep ∉ part) (h : joined sep s parts = joined sep t parts') :
    s = t ∧ parts = parts' := by
  induction parts generalizing s t parts' with
  | nil =>
    rw [joined, List.flatMap_nil, List.append_nil] at h
    cases parts' with
    | nil => exact ⟨by simpa [joined] using h, rfl⟩
    | cons part parts' =>
      rw [joined_cons] at h
      exact absurd (h ▸ List.mem_append_right _ List.mem_cons_self) hs
  | cons part parts ih =>
    rw [joined_cons] at h
    cases parts' with
    | nil =>
      have hnil : joined sep t [] = t := by simp [joined]
      rw [hnil] at h
      exact absurd (h ▸ List.mem_append_right _ List.mem_cons_self) ht
    | cons part' parts' =>
      rw [joined_cons] at h
      obtain ⟨rfl, hrest⟩ := eq_of_append_sep hs ht h
      obtain ⟨rfl, rfl⟩ := ih (hparts part List.mem_cons_self) (hparts' part' List.mem_cons_self)
        (fun p hp => hparts p (List.mem_cons_of_mem _ hp))
        (fun p hp => hparts' p (List.mem_cons_of_mem _ hp)) hrest
      exact ⟨rfl, rfl⟩

theorem unescape_joined [DecidableEq α] {sep : α} (hsep : S.plain sep = false) (s : List α)
    (parts : List (List α)) :
    S.unescape (joined sep s parts)
      = joined sep (S.unescape s) (parts.map S.unescape) := by
  induction parts generalizing s with
  | nil => simp [joined]
  | cons part parts ih =>
    rw [joined_cons, unescape_append_cons hsep, ih, List.map_cons, joined_cons]

end EscapeScheme

end Absolute
