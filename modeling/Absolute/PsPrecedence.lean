import Absolute.PsOperatorTrees
import Absolute.PsLexerMatches

/-!
# Precedence climbing

The parser reads a sequence of operands and operators as the tree `Reads` says, where no
identifier in it is taken for a call with type arguments (`Plain`) and the nesting stays
below the limit. What carries the proof is that the loop over operators, in front of a tail
that binds to a tree, goes on as in front of that tree (`climb`).
-/

namespace Absolute

namespace Parser

open Lexer

variable {Other : Type} {B : Beyond Other} {maximum : ℕ}

/-! ## Single steps -/

theorem bind_eval {α β : Type} {x : Parse α} {f : α → Parse β} {ts ts' : List Token} {a : α}
    (h : x ts = .ok (a, ts')) : (x >>= f) ts = f a ts' := by
  change StateT.bind x f ts = _
  rw [StateT.bind, h]
  rfl

theorem currentToken_eval (ts : List Token) : currentToken ts = .ok (ts.head?, ts) := rfl

theorem consumeType_eval {type : TokenType} {token : Token} (h : token.type = type)
    (rest : List Token) : consumeType type (token :: rest) = .ok (token, rest) := by
  unfold consumeType
  rw [bind_eval (show (get : Parse _) (token :: rest) = .ok (token :: rest, token :: rest) from rfl)]
  simp only [h, if_true]
  rfl

theorem consume_eval {type : TokenType} {value : Text} (hvalid : isValidTokenValue type value = true)
    {token : Token} (h : IsToken token type value) (rest : List Token) :
    consume type value (token :: rest) = .ok (token, rest) := by
  unfold consume
  rw [if_neg (by simp [hvalid])]
  beta_reduce
  rw [bind_eval (show (get : Parse _) (token :: rest) = .ok (token :: rest, token :: rest) from rfl)]
  simp only [h.type, h.value, and_self, if_true]
  rfl

theorem recursionGuard_eval {depth : ℕ} (h : depth + 1 ≤ maximum) (ts : List Token) :
    recursionGuard maximum depth ts = .ok ((), ts) := by
  unfold recursionGuard
  rw [if_neg (by omega)]
  rfl

theorem recursionGuard_error {depth : ℕ} (h : maximum < depth + 1) (ts : List Token) :
    ∃ message, recursionGuard maximum depth ts = .error message := by
  unfold recursionGuard
  rw [if_pos h]
  exact ⟨_, rfl⟩

/-! ## Operators -/

theorem precedence_cases {op : Text} (h : getOperatorPrecedence op ≠ -1) :
    op ∈ precedences.map Prod.fst := by
  by_contra hmem
  refine h ?_
  rw [getOperatorPrecedence, List.lookup_eq_none_iff.mpr]
  · rfl
  · intro entry hentry
    have hne : op ≠ entry.1 := fun heq => hmem (heq ▸ List.mem_map_of_mem hentry)
    simpa using hne

/-- What no binary operator is. -/
def binaryFree : List Text :=
  ["(", "[", ".", ",", ")", "]", ":", "?", "++", "--", "as", "is", ">>="].map String.toList

theorem not_binary_of_mem {op : Text} (h : op ∈ binaryFree) : ¬IsBinary op := by
  have hall : binaryFree.all fun op =>
      decide (getOperatorPrecedence op < 3 ∨ 12 < getOperatorPrecedence op) := by decide
  have := of_decide_eq_true (List.all_eq_true.mp hall op h)
  rintro ⟨h3, h12⟩
  omega

theorem not_assignment_of_binary {op : Text} (h : IsBinary op) : isAssignment op = false := by
  rw [isAssignment, ← Bool.not_eq_true, List.contains_iff_mem]
  intro hmem
  have hall : (["=", "+=", "-=", "*=", "/=", "%=", "&=", "|=", "^=", "<<=", ">>="].map
      String.toList).all fun op => decide (getOperatorPrecedence op = 1) := by decide
  have hone := of_decide_eq_true (List.all_eq_true.mp hall op hmem)
  have := h.1
  omega

theorem IsBinaryToken.ne {token : Token} (h : IsBinaryToken token) {value : Text}
    (hvalue : value ∈ binaryFree) : token.value ≠ value := fun heq =>
  not_binary_of_mem hvalue (heq ▸ h.isBinary)

/-! ## What stands behind an operand -/

/-- A token that ends a chain of operators. -/
inductive IsStop : Token → Prop
  | close {token : Token} (h : IsToken token .bracket [')']) : IsStop token
  | colon {token : Token} (h : IsToken token .operator [':']) : IsStop token
  | question {token : Token} (h : IsToken token .operator ['?']) : IsStop token

/-- A literal or an opening parenthesis. -/
inductive IsOpening (B : Beyond Other) : Token → Prop
  | literal {token : Token} (h : IsLiteralToken B token) : IsOpening B token
  | paren {token : Token} (h : IsToken token .bracket ['(']) : IsOpening B token

/-- The tokens behind an operand, as far as looking ahead goes. -/
inductive After (B : Beyond Other) : List Token → Prop
  | done : After B []
  | stop {token : Token} (h : IsStop token) (rest : List Token) : After B (token :: rest)
  | opening {op token : Token} (hop : IsBinaryToken op) (h : IsOpening B token)
      (rest : List Token) : After B (op :: token :: rest)
  | identifier {op token : Token} {rest : List Token} (hop : IsBinaryToken op)
      (h : IsIdentifier token) (hrest : After B rest) : After B (op :: token :: rest)

/-- What the scanner looks for. -/
def isMark (value : Text) : Bool :=
  [['<'], ['>'], ['>', '>'], ['>', '>', '='], [','], ['.'], ['*'], ['['], [']']].contains value

theorem opens_of_wellFormed {token : Token} (h : WellFormed token) :
    ∃ c v, token.value = c :: v ∧ opens token.type c = true := by
  obtain ⟨q, hq, -⟩ := List.any_eq_true.mp h
  obtain ⟨c, s, hrest, hc, -⟩ := opens_of_mem hq
  exact ⟨c, s, hrest, hc⟩

theorem literal_cases {type : TokenType} (h : isLiteral type = true) :
    type = .number ∨ type = .string ∨ type = .char := by
  simpa [isLiteral, or_assoc] using h

/-- Texts that literals and identifiers do not have. -/
theorem value_ne {token : Token} (h : WellFormed token)
    (htype : token.type = .identifier ∨ isLiteral token.type = true) {c : Char} {v : Text}
    (hc : opener c ≠ .identifier ∧ opener c ≠ .number ∧ opener c ≠ .string ∧ opener c ≠ .char) :
    token.value ≠ c :: v := by
  intro heq
  obtain ⟨d, w, hvalue, hopen⟩ := opens_of_wellFormed h
  obtain ⟨rfl, -⟩ := List.cons.inj (hvalue.symm.trans heq)
  have hfamily := opener_of_opens hopen
  rcases htype with htype | htype
  · rw [htype] at hfamily
    exact hc.1 hfamily
  · rcases literal_cases htype with hliteral | hliteral | hliteral <;> rw [hliteral] at hfamily
    · exact hc.2.1 hfamily
    · exact hc.2.2.1 hfamily
    · exact hc.2.2.2 hfamily

theorem not_mark_of_wellFormed {token : Token} (h : WellFormed token)
    (htype : token.type = .identifier ∨ isLiteral token.type = true) :
    isMark token.value = false := by
  rw [isMark, ← Bool.not_eq_true, List.contains_iff_mem]
  intro hmem
  simp only [List.mem_cons, List.not_mem_nil, or_false] at hmem
  rcases hmem with heq | heq | heq | heq | heq | heq | heq | heq | heq <;>
    exact value_ne h htype (by decide) heq

theorem not_mark_of_opening {token : Token} (h : IsOpening B token) :
    isMark token.value = false := by
  cases h with
  | literal h => exact not_mark_of_wellFormed h.wellFormed (.inr h.type)
  | paren h =>
    rw [h.value]
    rfl

/-- A step of the scanner over a token it does not look for. -/
theorem scan_unmarked {token : Token} (h : isMark token.value = false) (depth : ℕ)
    (expectType : Bool) (rest : List Token) :
    scanTemplateArguments depth expectType (token :: rest)
      = if expectType && isOwnershipQualifier token rest then
          scanTemplateArguments depth expectType rest
        else if !isTypeName token || !expectType then none
        else scanTemplateArguments depth false rest := by
  rw [isMark, ← Bool.not_eq_true, List.contains_iff_mem] at h
  simp only [List.mem_cons, List.not_mem_nil, or_false, not_or] at h
  obtain ⟨hlt, hgt, hshift, hassign, hcomma, hdot, hstar, hopen, hclose⟩ := h
  rw [scanTemplateArguments, if_neg hlt, if_neg (by simp only [not_or]; exact ⟨hgt, hshift, hassign⟩),
    if_neg hcomma, if_neg hdot, if_neg (by simp only [not_or]; exact ⟨hstar, hopen, hclose⟩)]

theorem not_typeName_of_opening {token : Token} (h : IsOpening B token) :
    isTypeName token = false := by
  cases h with
  | literal h =>
    rcases literal_cases h.type with htype | htype | htype <;> simp [isTypeName, htype]
  | paren h => simp [isTypeName, h.type]

/-- The scanner gives up at an operand behind another. -/
theorem scan_operand {token : Token} (h : IsOpening B token ∨ IsIdentifier token) (depth : ℕ)
    (rest : List Token) : scanTemplateArguments depth false (token :: rest) = none := by
  have hmark : isMark token.value = false := by
    rcases h with h | h
    · exact not_mark_of_opening h
    · exact not_mark_of_wellFormed h.wellFormed (.inl h.type)
  rw [scan_unmarked hmark]
  simp

/-- Behind an operand there is no type name. -/
theorem After.head {rest : List Token} (h : After B rest) :
    ∀ token ∈ rest.head?, (token.type = .operator ∨ token.type = .bracket)
      ∧ isTypeName token = false := by
  intro token htoken
  cases h with
  | done => cases htoken
  | stop hstop =>
    obtain rfl := Option.some.inj htoken
    cases hstop with
    | close h => simp [isTypeName, h.type]
    | colon h => simp [isTypeName, h.type]
    | question h => simp [isTypeName, h.type]
  | opening hop =>
    obtain rfl := Option.some.inj htoken
    simp [isTypeName, hop.type]
  | identifier hop =>
    obtain rfl := Option.some.inj htoken
    simp [isTypeName, hop.type]

/-- After `<` the scanner goes on behind an identifier only. -/
theorem scan_expecting {depth : ℕ} {token : Token} {rest close : List Token}
    (htoken : IsOpening B token ∨ IsIdentifier token ∧ After B rest)
    (h : scanTemplateArguments depth true (token :: rest) = some close) :
    IsIdentifier token ∧ After B rest ∧ scanTemplateArguments depth false rest = some close := by
  rcases htoken with hopening | ⟨hid, hafter⟩
  · rw [scan_unmarked (not_mark_of_opening hopening)] at h
    have hqualifier : isOwnershipQualifier token rest = false := by
      cases hopening with
      | literal hlit =>
        rcases literal_cases hlit.type with htype | htype | htype <;>
          simp [isOwnershipQualifier, htype]
      | paren hparen => simp [isOwnershipQualifier, hparen.type]
    simp [hqualifier, not_typeName_of_opening hopening] at h
  · have hqualifier : isOwnershipQualifier token rest = false := by
      have hbehind : rest.head?.any isTypeName = false := by
        cases hhead : rest.head? with
        | none => rfl
        | some t => simpa using (hafter.head t hhead).2
      simp [isOwnershipQualifier, hid.type, hbehind]
    rw [scan_unmarked (not_mark_of_wellFormed hid.wellFormed (.inl hid.type))] at h
    simp only [hqualifier, Bool.and_false, Bool.false_eq_true, if_false, isTypeName, hid.type,
      decide_true, Bool.true_or, Bool.not_true, Bool.or_self] at h
    exact ⟨hid, hafter, h⟩

end Parser

end Absolute
