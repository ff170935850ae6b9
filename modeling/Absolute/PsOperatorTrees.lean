import Absolute.PsExpressions
import Mathlib.Tactic.Common

/-!
# Trees of operators

What a sequence of operands and binary operators means: `Binds` says how operators bind,
`Reads` what is read of which tokens, and `printAt` writes a tree with the parentheses it
needs. Every sequence has a tree (`exists_reads`), and what is written for a tree reads as it
(`reads_print`).

The number beside the tokens is how many levels of the parser they take.
-/

namespace Absolute

namespace Parser

open Lexer

variable {Other : Type}

/-! ## How operators bind -/

/-- A first operand and operators with theirs, as a tree whose operators have at least some
precedence. -/
inductive Binds : ℤ → Expr Other → List (Text × Expr Other) → Expr Other → Prop
  | operand (level : ℤ) (x : Expr Other) : Binds level x [] x
  | binary {level : ℤ} {op : Text} {x y l r : Expr Other} {before behind : List (Text × Expr Other)}
      (hlevel : level ≤ getOperatorPrecedence op)
      (hleft : Binds (getOperatorPrecedence op) x before l)
      (hright : Binds (getOperatorPrecedence op + 1) y behind r) :
      Binds level x (before ++ (op, y) :: behind) (.binary op l r)

/-- The operators from `||` to `%`. -/
def IsBinary (op : Text) : Prop := 3 ≤ getOperatorPrecedence op ∧ getOperatorPrecedence op ≤ 12

theorem Binds.mono {level level' : ℤ} {x t : Expr Other} {items : List (Text × Expr Other)}
    (h : Binds level x items t) (hle : level' ≤ level) : Binds level' x items t := by
  cases h with
  | operand => exact .operand level' x
  | binary hlevel hleft hright => exact .binary (hle.trans hlevel) hleft hright

/-- Operators of a level are above it, or there is a last one on it. -/
theorem split_last {level : ℤ} {items : List (Text × Expr Other)}
    (h : ∀ item ∈ items, level ≤ getOperatorPrecedence item.1) :
    (∀ item ∈ items, level + 1 ≤ getOperatorPrecedence item.1)
      ∨ ∃ before op y behind, items = before ++ (op, y) :: behind
        ∧ getOperatorPrecedence op = level
        ∧ ∀ item ∈ behind, level + 1 ≤ getOperatorPrecedence item.1 := by
  induction items with
  | nil => exact .inl fun item hitem => by cases hitem
  | cons item items ih =>
    obtain ⟨op, y⟩ := item
    have hop := h (op, y) List.mem_cons_self
    rcases ih fun item hitem => h item (List.mem_cons_of_mem _ hitem) with habove | hlast
    · by_cases heq : getOperatorPrecedence op = level
      · exact .inr ⟨[], op, y, items, rfl, heq, habove⟩
      · refine .inl fun item hitem => ?_
        rcases List.mem_cons.mp hitem with rfl | hitem
        · exact Int.add_one_le_of_lt (lt_of_le_of_ne hop (Ne.symm heq))
        · exact habove item hitem
    · obtain ⟨before, op', y', behind, rfl, heq, hbehind⟩ := hlast
      exact .inr ⟨(op, y) :: before, op', y', behind, rfl, heq, hbehind⟩

/-- The induction is on the levels above, and for one level on the operators. -/
theorem exists_binds_above (k : ℕ) {level : ℤ} (hk : 13 ≤ level + k) (x : Expr Other)
    {items : List (Text × Expr Other)}
    (h : ∀ item ∈ items, level ≤ getOperatorPrecedence item.1 ∧ getOperatorPrecedence item.1 ≤ 12) :
    ∃ t, Binds level x items t := by
  induction k generalizing level x items with
  | zero =>
    cases items with
    | nil => exact ⟨x, .operand level x⟩
    | cons item items =>
      have := h item List.mem_cons_self
      omega
  | succ k ihLevel =>
    induction hlength : items.length using Nat.strong_induction_on generalizing x items with
    | _ length ihItems =>
      rcases split_last fun item hitem => (h item hitem).1 with habove | hlast
      · obtain ⟨t, ht⟩ := @ihLevel (level + 1) (by omega) x items
          fun item hitem => ⟨habove item hitem, (h item hitem).2⟩
        exact ⟨t, ht.mono (by omega)⟩
      · obtain ⟨before, op, y, behind, rfl, heq, hbehind⟩ := hlast
        obtain ⟨l, hl⟩ := ihItems before.length
          (by rw [← hlength, List.length_append, List.length_cons]; omega) x
          (fun item hitem => h item (List.mem_append_left _ hitem)) rfl
        obtain ⟨r, hr⟩ := @ihLevel (level + 1) (by omega) y behind fun item hitem =>
          ⟨hbehind item hitem,
            (h item (List.mem_append_right _ (List.mem_cons_of_mem _ hitem))).2⟩
        subst heq
        exact ⟨.binary op l r, .binary le_rfl hl hr⟩

/-- Any operands and operators bind. -/
theorem exists_binds (x : Expr Other) {items : List (Text × Expr Other)}
    (h : ∀ item ∈ items, IsBinary item.1) : ∃ t, Binds 3 x items t :=
  exists_binds_above 10 (by omega) x h

/-! ## What is read -/

/-- A token as the lexer makes it. -/
def WellFormed (token : Token) : Prop := isValidTokenValue token.type token.value = true

structure IsToken (token : Token) (type : TokenType) (value : Text) : Prop where
  type : token.type = type
  value : token.value = value

structure IsIdentifier (token : Token) : Prop where
  type : token.type = .identifier
  wellFormed : WellFormed token

structure IsLiteralToken (B : Beyond Other) (token : Token) : Prop where
  type : isLiteral token.type = true
  wellFormed : WellFormed token
  accepted : B.literalError token.type token.value = none

structure IsBinaryToken (token : Token) : Prop where
  type : token.type = .operator
  isBinary : IsBinary token.value

/-- The parts of a sequence. -/
inductive Part where
  | operand
  | tail
  | expression

/-- Operands (literals, identifiers, sequences in parentheses) joined by binary operators, with
`?:` between them. -/
inductive Joined (B : Beyond Other) : Part → ℕ → List Token → Prop
  | literal {n : ℕ} {token : Token} (h : IsLiteralToken B token) : Joined B .operand (n + 1) [token]
  | identifier {n : ℕ} {token : Token} (h : IsIdentifier token) :
      Joined B .operand (n + 1) [token]
  | paren {n : ℕ} {opens closes : Token} {ts : List Token} (hopen : IsToken opens .bracket ['('])
      (hclose : IsToken closes .bracket [')']) (h : Joined B .expression n ts) :
      Joined B .operand (n + 1) (opens :: (ts ++ [closes]))
  | tailNil {n : ℕ} : Joined B .tail n []
  | tailCons {n : ℕ} {op : Token} {o ts : List Token} (hop : IsBinaryToken op)
      (ho : Joined B .operand n o) (hts : Joined B .tail n ts) :
      Joined B .tail n (op :: (o ++ ts))
  | chain {n : ℕ} {o ts : List Token} (ho : Joined B .operand n o) (hts : Joined B .tail n ts) :
      Joined B .expression (n + 1) (o ++ ts)
  | conditional {n : ℕ} {question colon : Token} {o ts yes no : List Token}
      (hquestion : IsToken question .operator ['?']) (hcolon : IsToken colon .operator [':'])
      (ho : Joined B .operand n o) (hts : Joined B .tail n ts) (hyes : Joined B .expression n yes)
      (hno : Joined B .expression n no) :
      Joined B .expression (n + 1) (o ++ (ts ++ question :: (yes ++ colon :: no)))

/-- What a part of a sequence means. -/
inductive Reading (Other : Type) where
  | operand (e : Expr Other)
  | tail (items : List (Text × Expr Other))
  | expression (e : Expr Other)

def Reading.part : Reading Other → Part
  | operand _ => .operand
  | tail _ => .tail
  | expression _ => .expression

/-- The in-order reading of tokens, where every operator binds by its precedence. -/
inductive Reads (B : Beyond Other) : Reading Other → ℕ → List Token → Prop
  | literal {n : ℕ} {token : Token} (h : IsLiteralToken B token) :
      Reads B (.operand (.literal token.type token.value)) (n + 1) [token]
  | identifier {n : ℕ} {token : Token} (h : IsIdentifier token) :
      Reads B (.operand (.identifier token.value)) (n + 1) [token]
  | paren {n : ℕ} {opens closes : Token} {ts : List Token} {e : Expr Other}
      (hopen : IsToken opens .bracket ['(']) (hclose : IsToken closes .bracket [')'])
      (h : Reads B (.expression e) n ts) :
      Reads B (.operand e) (n + 1) (opens :: (ts ++ [closes]))
  | tailNil {n : ℕ} : Reads B (.tail []) n []
  | tailCons {n : ℕ} {op : Token} {y : Expr Other} {items : List (Text × Expr Other)}
      {o ts : List Token} (hop : IsBinaryToken op) (ho : Reads B (.operand y) n o)
      (hts : Reads B (.tail items) n ts) :
      Reads B (.tail ((op.value, y) :: items)) n (op :: (o ++ ts))
  | chain {n : ℕ} {x e : Expr Other} {items : List (Text × Expr Other)} {o ts : List Token}
      (ho : Reads B (.operand x) n o) (hts : Reads B (.tail items) n ts)
      (hbinds : Binds 3 x items e) : Reads B (.expression e) (n + 1) (o ++ ts)
  | conditional {n : ℕ} {question colon : Token} {x c e f : Expr Other}
      {items : List (Text × Expr Other)} {o ts yes no : List Token}
      (hquestion : IsToken question .operator ['?']) (hcolon : IsToken colon .operator [':'])
      (ho : Reads B (.operand x) n o) (hts : Reads B (.tail items) n ts)
      (hbinds : Binds 3 x items c) (hyes : Reads B (.expression e) n yes)
      (hno : Reads B (.expression f) n no) :
      Reads B (.expression (.ternary c e f)) (n + 1)
        (o ++ (ts ++ question :: (yes ++ colon :: no)))

variable {B : Beyond Other}

theorem isBinary_of_reads {r : Reading Other} {n : ℕ} {ts : List Token} (h : Reads B r n ts)
    {items : List (Text × Expr Other)} (hr : r = .tail items) :
    ∀ item ∈ items, IsBinary item.1 := by
  induction h generalizing items with
  | tailNil =>
    cases hr
    intro item hitem
    cases hitem
  | tailCons hop _ _ _ ihts =>
    cases hr
    intro item hitem
    rcases List.mem_cons.mp hitem with rfl | hitem
    · exact hop.isBinary
    · exact ihts rfl item hitem
  | _ => cases hr

/-- Every sequence has a tree. -/
theorem exists_reads {p : Part} {n : ℕ} {ts : List Token} (h : Joined B p n ts) :
    ∃ r : Reading Other, r.part = p ∧ Reads B r n ts := by
  induction h with
  | literal h => exact ⟨_, rfl, .literal h⟩
  | identifier h => exact ⟨_, rfl, .identifier h⟩
  | paren hopen hclose _ ih =>
    obtain ⟨r, hr, h⟩ := ih
    cases r with
    | expression e => exact ⟨_, rfl, .paren hopen hclose h⟩
    | _ => cases hr
  | tailNil => exact ⟨_, rfl, .tailNil⟩
  | tailCons hop _ _ iho ihts =>
    obtain ⟨ro, hro, ho⟩ := iho
    obtain ⟨rts, hrts, hts⟩ := ihts
    cases ro with
    | operand y =>
      cases rts with
      | tail items => exact ⟨_, rfl, .tailCons hop ho hts⟩
      | _ => cases hrts
    | _ => cases hro
  | chain _ _ iho ihts =>
    obtain ⟨ro, hro, ho⟩ := iho
    obtain ⟨rts, hrts, hts⟩ := ihts
    cases ro with
    | operand x =>
      cases rts with
      | tail items =>
        obtain ⟨e, hbinds⟩ := exists_binds x (isBinary_of_reads hts rfl)
        exact ⟨_, rfl, .chain ho hts hbinds⟩
      | _ => cases hrts
    | _ => cases hro
  | conditional hquestion hcolon _ _ _ _ iho ihts ihyes ihno =>
    obtain ⟨ro, hro, ho⟩ := iho
    obtain ⟨rts, hrts, hts⟩ := ihts
    obtain ⟨ryes, hryes, hyes⟩ := ihyes
    obtain ⟨rno, hrno, hno⟩ := ihno
    cases ro with
    | operand x =>
      cases rts with
      | tail items =>
        cases ryes with
        | expression e =>
          cases rno with
          | expression f =>
            obtain ⟨c, hbinds⟩ := exists_binds x (isBinary_of_reads hts rfl)
            exact ⟨_, rfl, .conditional hquestion hcolon ho hts hbinds hyes hno⟩
          | _ => cases hrno
        | _ => cases hryes
      | _ => cases hrts
    | _ => cases hro

/-- More levels do no harm. -/
theorem Reads.mono {r : Reading Other} {n : ℕ} {ts : List Token} (h : Reads B r n ts) {m : ℕ}
    (hle : n ≤ m) : Reads B r m ts := by
  induction h generalizing m with
  | literal h =>
    obtain ⟨m, rfl⟩ := Nat.exists_eq_add_of_le' (Nat.one_le_of_lt hle)
    exact .literal h
  | identifier h =>
    obtain ⟨m, rfl⟩ := Nat.exists_eq_add_of_le' (Nat.one_le_of_lt hle)
    exact .identifier h
  | paren hopen hclose _ ih =>
    obtain ⟨m, rfl⟩ := Nat.exists_eq_add_of_le' (Nat.one_le_of_lt hle)
    exact .paren hopen hclose (ih (Nat.le_of_succ_le_succ hle))
  | tailNil => exact .tailNil
  | tailCons hop _ _ iho ihts => exact .tailCons hop (iho hle) (ihts hle)
  | chain _ _ hbinds iho ihts =>
    obtain ⟨m, rfl⟩ := Nat.exists_eq_add_of_le' (Nat.one_le_of_lt hle)
    have hle := Nat.le_of_succ_le_succ hle
    exact .chain (iho hle) (ihts hle) hbinds
  | conditional hquestion hcolon _ _ hbinds _ _ iho ihts ihyes ihno =>
    obtain ⟨m, rfl⟩ := Nat.exists_eq_add_of_le' (Nat.one_le_of_lt hle)
    have hle := Nat.le_of_succ_le_succ hle
    exact .conditional hquestion hcolon (iho hle) (ihts hle) hbinds (ihyes hle) (ihno hle)

/-! ## Writing a tree -/

/-- A token that is written. -/
def written (type : TokenType) (value : Text) : Token := ⟨type, value, ⟨0, 0⟩⟩

def parens (ts : List Token) : List Token :=
  written .bracket ['('] :: (ts ++ [written .bracket [')']])

/-- A tree of operators where only some precedence and above may stand without parentheses. -/
def printAt : ℤ → Expr Other → List Token
  | _, .literal type text => [written type text]
  | _, .identifier name => [written .identifier name]
  | level, .binary op left right =>
      let tokens := printAt (getOperatorPrecedence op) left
        ++ written .operator op :: printAt (getOperatorPrecedence op + 1) right
      if level ≤ getOperatorPrecedence op then tokens else parens tokens
  | level, .ternary condition yes no =>
      let tokens := printAt 3 condition
        ++ written .operator ['?'] :: (printAt 0 yes ++ written .operator [':'] :: printAt 0 no)
      if level ≤ 2 then tokens else parens tokens
  | _, _ => []

def print (e : Expr Other) : List Token := printAt 0 e

/-- What is written at a level reads as an operand and a tail that bind at it. -/
def Fits (B : Beyond Other) (n : ℕ) (level : ℤ) (e : Expr Other) : Prop :=
  ∃ x items o ts, printAt level e = o ++ ts ∧ Reads B (.operand x) n o ∧ Reads B (.tail items) n ts
    ∧ Binds level x items e

theorem Fits.mono {n m : ℕ} {level : ℤ} {e : Expr Other} (h : Fits B n level e) (hle : n ≤ m) :
    Fits B m level e := by
  obtain ⟨x, items, o, ts, hprint, ho, hts, hbinds⟩ := h
  exact ⟨x, items, o, ts, hprint, ho.mono hle, hts.mono hle, hbinds⟩

theorem fits_operand {n : ℕ} {level : ℤ} {e : Expr Other}
    (h : Reads B (.operand e) n (printAt level e)) : Fits B n level e :=
  ⟨e, [], _, [], (List.append_nil _).symm, h, .tailNil, .operand level e⟩

theorem reads_parens {n : ℕ} {e : Expr Other} {ts : List Token}
    (h : Reads B (.expression e) n ts) : Reads B (.operand e) (n + 1) (parens ts) :=
  .paren ⟨rfl, rfl⟩ ⟨rfl, rfl⟩ h

theorem reads_append {n : ℕ} {before behind : List (Text × Expr Other)} {ts ts' : List Token}
    (h : Reads B (.tail before) n ts) (h' : Reads B (.tail behind) n ts') :
    Reads B (.tail (before ++ behind)) n (ts ++ ts') := by
  induction before generalizing ts with
  | nil =>
    cases h
    exact h'
  | cons item before ih =>
    cases h with
    | @tailCons _ op y items o ts hop ho hts =>
      have := Reads.tailCons hop ho (ih hts)
      rwa [← List.append_assoc] at this

theorem isBinaryToken_written {op : Text} (h : IsBinary op) :
    IsBinaryToken (written .operator op) := ⟨rfl, h⟩

/-- What binds at a level fits there, where its operands fit anywhere. -/
theorem fits_of_binds {n : ℕ} {level : ℤ} {x e : Expr Other} {items : List (Text × Expr Other)}
    (h : Binds level x items e) (hlevel : 3 ≤ level) (hx : ∀ l, 3 ≤ l → Fits B n l x)
    (hitems : ∀ item ∈ items, IsBinary item.1 ∧ ∀ l, 3 ≤ l → Fits B n l item.2) :
    Fits B n level e := by
  induction h with
  | operand level x => exact hx level hlevel
  | @binary level op x y l r before behind hle hleft hright ihl ihr =>
    obtain ⟨hop, hy⟩ := hitems (op, y) (by simp)
    have hp := hop.1
    obtain ⟨x1, items1, o1, ts1, hprint1, ho1, hts1, hbinds1⟩ :=
      ihl hp hx fun item hitem => hitems item (List.mem_append_left _ hitem)
    obtain ⟨x2, items2, o2, ts2, hprint2, ho2, hts2, hbinds2⟩ :=
      ihr (by omega) hy fun item hitem =>
        hitems item (List.mem_append_right _ (List.mem_cons_of_mem _ hitem))
    refine ⟨x1, items1 ++ (op, x2) :: items2, o1,
      ts1 ++ (written .operator op :: (o2 ++ ts2)), ?_, ho1, ?_, .binary hle hbinds1 hbinds2⟩
    · rw [printAt, if_pos hle, hprint1, hprint2, List.append_assoc]
    · exact reads_append hts1 (.tailCons (isBinaryToken_written hop) ho2 hts2)

/-- What the parts of a sequence are written as. -/
def Writes (B : Beyond Other) (n : ℕ) : Reading Other → Prop
  | .operand e => Reads B (.expression e) (n + 1) (printAt 0 e) ∧ ∀ l, 3 ≤ l → Fits B n l e
  | .tail items => ∀ item ∈ items, IsBinary item.1 ∧ ∀ l, 3 ≤ l → Fits B n l item.2
  | .expression e => Reads B (.expression e) n (printAt 0 e) ∧ ∀ l, 3 ≤ l → Fits B (n + 1) l e

theorem writes_leaf {n : ℕ} {e : Expr Other} {token : Token}
    (hprint : ∀ level, printAt level e = [token])
    (h : Reads B (.operand e) (n + 1) [token]) : Writes B (n + 1) (.operand e) := by
  refine ⟨?_, fun l _ => fits_operand (by rwa [hprint l])⟩
  rw [hprint 0]
  exact .chain h .tailNil (.operand 3 e)

/-- A tree of binary operators is written the same up to its own level, and in parentheses above
it. -/
theorem fits_anywhere {n : ℕ} {op : Text} {l r : Expr Other} (h : Fits B n 3 (.binary op l r))
    (hop : IsBinary op) (level : ℤ) : Fits B (n + 2) level (.binary op l r) := by
  obtain ⟨x, items, o, ts, hprint, ho, hts, hbinds⟩ := h
  rw [printAt, if_pos hop.1] at hprint
  by_cases hlevel : level ≤ getOperatorPrecedence op
  · refine Fits.mono ⟨x, items, o, ts, ?_, ho, hts, ?_⟩ (Nat.le_add_right n 2)
    · rw [printAt, if_pos hlevel, hprint]
    · generalize hb : Expr.binary op l r = b at hbinds
      cases hbinds with
      | operand => exact .operand level _
      | binary _ hleft hright =>
        obtain ⟨rfl, rfl, rfl⟩ := Expr.binary.inj hb
        exact .binary hlevel hleft hright
  · refine fits_operand ?_
    rw [printAt, if_neg hlevel, hprint]
    exact reads_parens (.chain ho hts hbinds)

theorem writes_of_reads {r : Reading Other} {n : ℕ} {ts : List Token} (h : Reads B r n ts) :
    Writes B n r := by
  induction h with
  | @literal n token h =>
    refine writes_leaf (fun _ => rfl) (@Reads.literal _ B n (written token.type token.value) ?_)
    exact ⟨h.type, h.wellFormed, h.accepted⟩
  | @identifier n token h =>
    refine writes_leaf (fun _ => rfl) (@Reads.identifier _ B n (written .identifier token.value) ?_)
    refine ⟨rfl, ?_⟩
    have := h.wellFormed
    rw [WellFormed, h.type] at this
    exact this
  | paren _ _ _ ih => exact ⟨ih.1.mono (by omega), ih.2⟩
  | tailNil =>
    intro item hitem
    cases hitem
  | tailCons hop _ _ iho ihts =>
    intro item hitem
    rcases List.mem_cons.mp hitem with rfl | hitem
    · exact ⟨hop.isBinary, iho.2⟩
    · exact ihts item hitem
  | @chain n x e items o ts _ _ hbinds iho ihts =>
    have hfits := fits_of_binds hbinds le_rfl iho.2 ihts
    cases hbinds with
    | operand => exact ⟨iho.1, fun l hl => (iho.2 l hl).mono (by omega)⟩
    | @binary _ op _ y l r before behind _ _ _ =>
      have hop := (ihts (op, y) (by simp)).1
      refine ⟨?_, fun level _ => fits_anywhere hfits hop level⟩
      obtain ⟨x', items', o', ts', hprint, ho', hts', hbinds'⟩ := hfits
      have hzero : printAt 0 (.binary op l r) = printAt 3 (.binary op l r) := by
        rw [printAt, printAt, if_pos hop.1, if_pos (by have := hop.1; omega)]
      rw [hzero, hprint]
      exact .chain ho' hts' hbinds'
  | @conditional n question colon x c e f items o ts yes no _ _ _ _ hbinds _ _ iho ihts ihyes ihno =>
    obtain ⟨x', items', o', ts', hprint, ho', hts', hbinds'⟩ :=
      fits_of_binds hbinds le_rfl iho.2 ihts
    have hreads : Reads B (.expression (.ternary c e f)) (n + 1) (printAt 0 (.ternary c e f)) := by
      rw [printAt, if_pos (by decide), hprint, List.append_assoc]
      exact .conditional ⟨rfl, rfl⟩ ⟨rfl, rfl⟩ ho' hts' hbinds' ihyes.1 ihno.1
    refine ⟨hreads, fun l hl => fits_operand ?_⟩
    rw [printAt, if_pos (by decide)] at hreads
    rw [printAt, if_neg (by omega)]
    exact reads_parens hreads

/-- What is written for a tree reads as it, in as many levels as what it was read from. -/
theorem reads_print {e : Expr Other} {n : ℕ} {ts : List Token}
    (h : Reads B (.expression e) n ts) : Reads B (.expression e) n (print e) :=
  (writes_of_reads h).1

end Parser

end Absolute
