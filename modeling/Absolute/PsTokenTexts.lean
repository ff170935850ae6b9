import Absolute.PsRelex

/-!
# The texts of tokens

A word that is no keyword is lexed to one token (`lexer_word`), and no token has a text with a
dot before a word at its end (`not_qualified_of_lexed`): what is written so is lexed to several.
-/

namespace Absolute

namespace Lexer

open Regex

variable {isSyntaxPluginKeyword : Text → Bool}

/-! ## Words -/

/-- A letter or `_`, and letters, digits and `_`. -/
def PlainWord (w : Text) : Prop :=
  ∃ c v, w = c :: v ∧ isIdentifierStart c = true ∧ ∀ d ∈ v, isWord d = true

theorem isWord_of_identifierStart {c : Char} (h : isIdentifierStart c = true) :
    isWord c = true := by
  simp only [isIdentifierStart, Bool.or_eq_true, decide_eq_true_eq] at h
  rcases h with rfl | h
  · rfl
  · simp [isWord, Char.isAlphanum, h]

theorem PlainWord.isWord {w : Text} (h : PlainWord w) : ∀ c ∈ w, isWord c = true := by
  obtain ⟨c, v, rfl, hc, hv⟩ := h
  intro d hd
  rcases List.mem_cons.mp hd with rfl | hd
  · exact isWord_of_identifierStart hc
  · exact hv d hd

theorem matchAt_word {w : Text} (h : PlainWord w) (hkey : w ∉ keywords) :
    ∃ q, MatchAt ⟨none, w⟩ .identifier q ∧ q.rest = [] := by
  have hall := h.isWord
  obtain ⟨c, v, rfl, hc, hv⟩ := h
  have htake : v.takeWhile Regex.isWord = v := List.takeWhile_eq_self_iff.mpr hv
  have hdrop : v.dropWhile Regex.isWord = [] := by
    simpa using hv
  have htaken := @ends_identifier none c v hc
  rw [htake, hdrop] at htaken
  refine ⟨_, ⟨htaken, fun x hx => ?_⟩, rfl⟩
  by_cases hkeyword : x = .keyword
  · subst hkeyword
    refine ends_keyword_eq_nil ?_
    rwa [List.takeWhile_eq_self_iff.mpr hall]
  · refine @ends_eq_nil_of_opens .identifier x ⟨none, c :: v⟩ c v rfl hc ?_
    cases x with
    | keyword => exact absurd rfl hkeyword
    | identifier | whitespace => exact absurd hx (by decide)
    | _ => decide

/-- A word that is no keyword is one token. -/
theorem lexer_word {w : Text} (h : PlainWord w) (hkey : w ∉ keywords) :
    lexer isSyntaxPluginKeyword w =
      .ok [⟨if isSyntaxPluginKeyword w then .keyword else .identifier, w, ⟨1, 1⟩⟩] := by
  obtain ⟨q, hmatch, hq⟩ := matchAt_word h hkey
  obtain ⟨b, s⟩ := q
  obtain rfl : s = [] := hq
  exact lexerLoop_of_lexed (.step hmatch (apart_start w) (List.append_nil w).symm rfl
    (.done _ b)) le_rfl

/-! ## Qualified names -/

/-- A dot and a word end the text. -/
def Qualified (w : Text) : Prop := ∃ space name, w = space ++ '.' :: name ∧ PlainWord name

theorem Qualified.dot_mem {w : Text} (h : Qualified w) : '.' ∈ w := by
  obtain ⟨space, name, rfl, -⟩ := h
  simp

theorem Qualified.lastOf {w : Text} (h : Qualified w) (b : Option Char) :
    ∃ c, Regex.lastOf b w = some c ∧ isWord c = true := by
  obtain ⟨space, name, rfl, hname⟩ := h
  rw [lastOf_append, Regex.lastOf]
  have hword := hname.isWord
  obtain ⟨c, v, rfl, -⟩ := hname
  clear * - hword
  induction v generalizing c with
  | nil => exact ⟨c, rfl, hword c List.mem_cons_self⟩
  | cons d v ih => exact ih d fun e he => hword e (List.mem_cons_of_mem _ he)

theorem not_qualified_of_words {w : Text} (h : ∀ c ∈ w, isWord c = true) : ¬Qualified w :=
  fun hqualified => absurd (h _ hqualified.dot_mem) (by decide)

theorem dot_not_mem_grouped {w : Text} (h : Grouped Char.isDigit w) : '.' ∉ w := by
  intro hmem
  rcases h.2 _ hmem with hdigit | heq
  · exact absurd hdigit (by decide)
  · exact absurd heq (by decide)

theorem dot_not_mem_exponent {w : Text} (h : Exponent w) : '.' ∉ w := by
  rcases h with rfl | ⟨e, sign, d, rfl, he, hsign, hd⟩
  · exact List.not_mem_nil
  · have hsign' : '.' ∉ sign := by rcases hsign with rfl | rfl | rfl <;> decide
    have he' : '.' ≠ e := by rcases he with rfl | rfl <;> decide
    simp [he', hsign', dot_not_mem_grouped hd]

/-- Behind the dot of a number is a digit. -/
theorem not_qualified_of_decimal {w : Text} (h : Decimal w) (hplain : '_' ∉ w) :
    ¬Qualified w := by
  rintro ⟨space, name, hw, c, v, rfl, hc, -⟩
  have hwhole := dot_not_mem_grouped h.wholeGrouped
  have hexponent := dot_not_mem_exponent h.isExponent
  have heq := h.eq
  rcases h.isFraction with hnil | ⟨d, hd, hgrouped⟩
  · have hmem : '.' ∈ w := by simp [hw]
    rw [heq, hnil] at hmem
    simp [hwhole, hexponent] at hmem
  · have hrest : '.' ∉ d ++ h.exponent := by simp [dot_not_mem_grouped hgrouped, hexponent]
    have hsame := heq.symm.trans hw
    rw [hd, List.cons_append] at hsame
    obtain ⟨-, -, hname⟩ := (List.append_cons_inj_of_notMem hwhole hrest).mp hsame
    cases d with
    | nil => exact hgrouped.1 rfl
    | cons e d =>
      obtain ⟨rfl, -⟩ := List.cons.inj hname
      rcases hgrouped.2 e List.mem_cons_self with hdigit | rfl
      · rw [not_digit_of_identifierStart hc] at hdigit
        cases hdigit
      · exact hplain (by simp [hw])

theorem not_qualified_of_matchAt {p q : Place} {name : TokenType}
    (hname : name ∈ [.string, .char, .operator, .delimiter, .bracket, .whitespace])
    (h : MatchAt p name q) {value : Text} (hp : p.rest = value ++ q.rest) :
    ¬Qualified value := by
  intro hqualified
  obtain ⟨c, hc, hword⟩ := hqualified.lastOf p.before
  rw [← before_of_mem (mem_of_taken h) hp] at hc
  rcases last_of_mem (mem_of_taken h) with ⟨-, hnull⟩ | ⟨d, hd, hlast⟩
  · exact absurd (hnull.symm.trans (nullable_tokenSpec name)) (by decide)
  · obtain rfl := Option.some.inj (hd.symm.trans hc)
    rw [not_word_of_last hname hlast] at hword
    cases hword

/-- No token has a qualified name for its text. -/
theorem not_qualified_of_lexed {pos : Position} {p : Place} {tokens : List Token}
    (h : Lexed isSyntaxPluginKeyword pos p tokens) : ∀ token ∈ tokens, ¬Qualified token.value := by
  induction h with
  | done pos b =>
    intro token htoken
    cases htoken
  | @step pos p q name value token tokens hmatch hapart hp htoken _ ih =>
    intro t ht
    rcases List.mem_append.mp ht with ht | ht
    · cases name with
      | comment | whitespace =>
        obtain rfl := Except.ok.inj htoken
        cases ht
      | number =>
        have htoken' : tokenOf noPlugins .number value q.rest pos = .ok token := htoken
        obtain ⟨-, text, rfl, hnumber, -⟩ := (tokenOf_cases htoken').resolve_left (by simp)
        obtain rfl := List.mem_singleton.mp ht
        obtain ⟨-, ⟨hdecimal⟩, hplain⟩ :=
          numeral_of_normalize (written_of_matchAt hmatch hp) (hnumber rfl)
        exact not_qualified_of_decimal hdecimal hplain
      | keyword =>
        obtain rfl := Except.ok.inj htoken
        obtain rfl := List.mem_singleton.mp ht
        obtain ⟨w, hw, hrest, -⟩ := mem_ends_keyword.mp (mem_of_taken hmatch)
        obtain rfl := List.append_cancel_right (hp.symm.trans hrest)
        exact not_qualified_of_words (isWord_of_keyword hw)
      | identifier =>
        obtain rfl := Except.ok.inj htoken
        obtain rfl := List.mem_singleton.mp ht
        exact not_qualified_of_words (not_keyword_of_identifier hmatch hapart hp).2.1
      | string | char | operator | delimiter | bracket =>
        obtain rfl := Except.ok.inj htoken
        obtain rfl := List.mem_singleton.mp ht
        exact not_qualified_of_matchAt (by decide) hmatch hp
    · exact ih t ht

end Lexer

end Absolute
