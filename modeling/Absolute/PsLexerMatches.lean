import Absolute.PsLexer
import Mathlib.Data.List.Infix

/-!
# The matches of the lexer

A match is the first end of the first alternative that has one (`MatchAt`). The ten
expressions start with different characters, but for comments and operators and for keywords
and identifiers (`opens_of_first`). So the second pass gives a match the type of the
alternative that took it, where no word is cut in two (`typeOf_of_matchAt`), and no match cuts
one (`MatchAt.apart`).
-/

namespace Absolute

namespace Lexer

open Regex

/-- The types that are tried before one. -/
def earlier (name : TokenType) : List TokenType := tokenOrder.takeWhile (· ≠ name)

/-- What is matched at a place, by which alternative. -/
structure MatchAt (p : Place) (name : TokenType) (q : Place) : Prop where
  taken : (ends (tokenSpec name) p).head? = some q
  refused : ∀ x ∈ earlier name, ends (tokenSpec x) p = []

theorem findSome?_takeWhile {α β : Type*} [DecidableEq α] {f : α → Option β} {l : List α} {b : β} :
    l.findSome? f = some b
      ↔ ∃ a ∈ l, f a = some b ∧ ∀ x ∈ l.takeWhile (· ≠ a), f x = none := by
  induction l with
  | nil => simp
  | cons y l ih =>
    rw [List.findSome?_cons]
    cases hy : f y with
    | some d =>
      constructor
      · intro h
        exact ⟨y, List.mem_cons_self, hy.trans h, by simp⟩
      · rintro ⟨a, ha, hfa, hnone⟩
        by_cases hay : y = a
        · rw [← hfa, ← hay, hy]
        · have := hnone y (by simp [hay])
          rw [hy] at this
          cases this
    | none =>
      simp only [ih]
      constructor
      · rintro ⟨a, ha, hfa, hnone⟩
        refine ⟨a, List.mem_cons_of_mem _ ha, hfa, fun x hx => ?_⟩
        rw [List.takeWhile_cons] at hx
        split at hx
        · rcases List.mem_cons.mp hx with rfl | hx
          · exact hy
          · exact hnone x hx
        · cases hx
      · rintro ⟨a, ha, hfa, hnone⟩
        have hya : y ≠ a := by
          rintro rfl
          rw [hy] at hfa
          cases hfa
        refine ⟨a, (List.mem_cons.mp ha).resolve_left (Ne.symm hya), hfa, fun x hx => hnone x ?_⟩
        rw [List.takeWhile_cons_of_pos (by simpa using hya)]
        exact List.mem_cons_of_mem _ hx

theorem mem_tokenOrder (name : TokenType) : name ∈ tokenOrder := by cases name <;> decide

theorem head_tokenRegex {p q : Place} :
    (ends tokenRegex p).head? = some q ↔ ∃ name, MatchAt p name q := by
  rw [tokenRegex, ends_oneOf, List.flatMap_map, List.head?_flatMap, findSome?_takeWhile]
  constructor
  · rintro ⟨name, -, htaken, hrefused⟩
    exact ⟨name, htaken, fun x hx => List.head?_eq_none_iff.mp (hrefused x hx)⟩
  · rintro ⟨name, htaken, hrefused⟩
    refine ⟨name, mem_tokenOrder name, htaken, fun x hx => ?_⟩
    exact List.head?_eq_none_iff.mpr (hrefused x hx)

/-! ## Words -/

theorem keywords_words : keywords.all (fun w => w ≠ [] && w.all isWord) = true := by decide

theorem ne_nil_of_keyword {w : Text} (h : w ∈ keywords) : w ≠ [] := by
  have := List.all_eq_true.mp keywords_words w h
  rw [Bool.and_eq_true, decide_eq_true_eq] at this
  exact this.1

theorem isWord_of_keyword {w : Text} (h : w ∈ keywords) : ∀ c ∈ w, isWord c = true := by
  have := List.all_eq_true.mp keywords_words w h
  rw [Bool.and_eq_true] at this
  exact List.all_eq_true.mp this.2

theorem not_of_head_dropWhile {f : Char → Bool} {s : Text} {c : Char}
    (h : c ∈ (s.dropWhile f).head?) : f c = false := by
  have := List.head?_dropWhile_not f s
  rw [Option.mem_def.mp h] at this
  exact this

theorem head_seq {a b : Regex} {p q : Place} (h : (ends (.seq a b) p).head? = some q) :
    ∃ m ∈ ends a p, (ends b m).head? = some q := by
  rw [ends_seq, List.head?_flatMap] at h
  exact List.exists_of_findSome?_eq_some h

/-- A text that does not go on with a word. -/
def WordFree (s : Text) : Prop := ∀ c ∈ s.head?, isWord c = false

theorem takeWhile_word {w s : Text} (hw : ∀ c ∈ w, isWord c = true) (hs : WordFree s) :
    (w ++ s).takeWhile isWord = w ∧ (w ++ s).dropWhile isWord = s := by
  have := afterRun_append hw none hs
  rw [afterRun] at this
  have hdrop := (Place.mk.inj this).2
  have happend := List.takeWhile_append_dropWhile (p := isWord) (l := w ++ s)
  rw [hdrop] at happend
  exact ⟨List.append_cancel_right happend, hdrop⟩

theorem wordFree_iff {s : Text} : WordFree s ↔ s.head?.any isWord = false := by
  cases s <;> simp [WordFree]

/-- A keyword is a whole word. -/
theorem mem_ends_keyword {p q : Place} :
    q ∈ ends (tokenSpec .keyword) p
      ↔ ∃ w ∈ keywords, p.rest = w ++ q.rest ∧ q.before = lastOf p.before w
        ∧ p.before.any isWord = false ∧ WordFree q.rest := by
  have hlast : ∀ {w : Text} (b : Option Char), w ∈ keywords → (lastOf b w).any isWord = true := by
    intro w b hw
    have hword := isWord_of_keyword hw
    have hne := ne_nil_of_keyword hw
    clear hw
    induction w generalizing b with
    | nil => exact absurd rfl hne
    | cons c w ih =>
      cases w with
      | nil => simpa [lastOf] using hword
      | cons d w => exact ih (some c) (fun c hc => hword c (List.mem_cons_of_mem _ hc)) (by simp)
  obtain ⟨b, s⟩ := p
  have hspec : ends (tokenSpec .keyword) ⟨b, s⟩
      = (if atBoundary ⟨b, s⟩ then [⟨b, s⟩] else []).flatMap fun m =>
        (keywords.flatMap fun w => ends (literal w) m).flatMap (ends .wordBoundary) := by
    rw [tokenSpec, ends_seq]
    refine List.flatMap_congr fun m _ => ?_
    rw [ends_seq, ends_oneOf, List.flatMap_map]
  rw [hspec]
  constructor
  · intro h
    obtain ⟨m, hm, h⟩ := List.mem_flatMap.mp h
    split at hm
    · rename_i hstart
      obtain rfl := List.mem_singleton.mp hm
      obtain ⟨t, ht, hq⟩ := List.mem_flatMap.mp h
      obtain ⟨w, hw, ht⟩ := List.mem_flatMap.mp ht
      by_cases hpre : w <+: s
      · obtain ⟨u, rfl⟩ := hpre
        rw [ends_literal] at ht
        obtain rfl := List.mem_singleton.mp ht
        rw [ends] at hq
        split at hq
        · rename_i hstop
          obtain rfl := List.mem_singleton.mp hq
          refine ⟨w, hw, rfl, rfl, ?_, ?_⟩
          · have hhead : (w ++ u).head?.any isWord = true := by
              cases hcases : w with
              | nil => exact absurd hcases (ne_nil_of_keyword hw)
              | cons c w' => simpa using isWord_of_keyword hw c (by simp [hcases])
            have hstart : (b.any isWord != (w ++ u).head?.any isWord) = true := hstart
            rw [hhead] at hstart
            simpa using hstart
          · rw [wordFree_iff]
            simpa [atBoundary, hlast _ hw] using hstop
        · cases hq
      · rw [ends_literal_eq_nil hpre] at ht
        cases ht
    · cases hm
  · rintro ⟨w, hw, hrest, hbefore, hstart, hstop⟩
    obtain ⟨b', u⟩ := q
    obtain rfl : s = w ++ u := hrest
    obtain rfl : b' = lastOf b w := hbefore
    have hhead : (w ++ u).head?.any isWord = true := by
      cases hcases : w with
      | nil => exact absurd hcases (ne_nil_of_keyword hw)
      | cons c w' => simpa using isWord_of_keyword hw c (by simp [hcases])
    have hatStart : atBoundary ⟨b, w ++ u⟩ = true := by
      simp only [atBoundary, hhead]
      rw [show b.any isWord = false from hstart]
      rfl
    rw [if_pos hatStart, List.flatMap_singleton]
    refine List.mem_flatMap.mpr ⟨⟨lastOf b w, u⟩, ?_, ?_⟩
    · exact List.mem_flatMap.mpr ⟨w, hw, by rw [ends_literal]; exact List.mem_singleton_self _⟩
    · have hatStop : atBoundary ⟨lastOf b w, u⟩ = true := by
        simp only [atBoundary, hlast b hw]
        rw [wordFree_iff.mp hstop]
        rfl
      rw [ends, if_pos hatStop]
      exact List.mem_singleton_self _

/-- The word at a place decides whether a keyword is there. -/
theorem ends_keyword_eq_nil {p : Place} (h : p.rest.takeWhile isWord ∉ keywords) :
    ends (tokenSpec .keyword) p = [] := by
  refine List.eq_nil_iff_forall_not_mem.mpr fun q hq => ?_
  obtain ⟨w, hw, hrest, -, -, hstop⟩ := mem_ends_keyword.mp hq
  rw [hrest, (takeWhile_word (isWord_of_keyword hw) hstop).1] at h
  exact h hw

/-- The longest word is an identifier. -/
theorem ends_identifier {b : Option Char} {c : Char} {s : Text} (hc : isIdentifierStart c = true) :
    (ends (tokenSpec .identifier) ⟨b, c :: s⟩).head?
      = some ⟨lastOf (some c) (s.takeWhile isWord), s.dropWhile isWord⟩ := by
  rw [tokenSpec, ends_seq, ends_set_cons, if_pos hc, List.flatMap_singleton, ends_star_set,
    head?_runs]
  rfl

/-! ## First characters -/

/-- The characters that tokens of a type start with. -/
def opens : TokenType → Char → Bool
  | .number, c => c.isDigit
  | .keyword, c => isIdentifierStart c
  | .identifier, c => isIdentifierStart c
  | .operator, c => c ∈ ['!', '~', '?'] || isOperator c
  | .delimiter, c => isDelimiter c
  | .string, c => c = '"'
  | .char, c => c = '\x27'
  | .comment, c => c = '/'
  | .bracket, c => isBracket c
  | .whitespace, c => isSpace c

theorem nullable_tokenSpec (name : TokenType) : nullable (tokenSpec name) = false := by
  cases name <;> decide

theorem operators_open : operators.all (fun w => w.head?.any (opens .operator)) = true := by decide

theorem keywords_open : keywords.all (fun w => w.head?.any (opens .keyword)) = true := by decide

theorem opens_of_first {name : TokenType} {c : Char} (hname : name ≠ .keyword)
    (h : first (tokenSpec name) c = true) : opens name c = true := by
  cases name with
  | number =>
    have hdigit : c.isDigit = true ∨ c = '0' := by
      simpa [tokenSpec, oneOf, based, decimal, separated, char, first, nullable, or_comm, or_assoc]
        using h
    rcases hdigit with hdigit | rfl
    · exact hdigit
    · rfl
  | keyword => exact absurd rfl hname
  | identifier => simpa [tokenSpec, first, nullable, opens] using h
  | operator =>
    rw [tokenSpec, first_oneOf, List.any_append, Bool.or_eq_true, List.any_map] at h
    rcases h with h | h
    · obtain ⟨w, hw, hfirst⟩ := List.any_eq_true.mp h
      have hopen := List.all_eq_true.mp operators_open w hw
      rw [Function.comp_apply, first_literal] at hfirst
      cases hhead : w.head? with
      | none => simp [hhead] at hfirst
      | some d =>
        rw [hhead] at hfirst hopen
        obtain rfl : c = d := by simpa using hfirst
        exact hopen
    · have hop : isOperator c = true := by simpa [first] using h
      simp [opens, hop]
  | delimiter => exact h
  | string => simpa [tokenSpec, char, first, nullable, opens] using h
  | char => simpa [tokenSpec, char, first, nullable, opens] using h
  | comment => simpa [tokenSpec, char, first, nullable, opens] using h
  | bracket => exact h
  | whitespace => simpa [tokenSpec, plus, first, nullable, opens] using h

/-- A match takes a first character of its type. -/
theorem opens_of_mem {name : TokenType} {p q : Place} (h : q ∈ ends (tokenSpec name) p) :
    StartsIn (opens name) p q := by
  by_cases hname : name = .keyword
  · subst hname
    obtain ⟨w, hw, hrest, -⟩ := mem_ends_keyword.mp h
    have hopen := List.all_eq_true.mp keywords_open w hw
    cases w with
    | nil => cases hopen
    | cons c w => exact ⟨c, w ++ q.rest, hrest, hopen, List.suffix_append ..⟩
  · rcases first_of_mem h with ⟨-, hnull⟩ | hstart
    · exact absurd (hnull.symm.trans (nullable_tokenSpec name)) (by decide)
    · exact hstart.mono (fun c hc => opens_of_first hname hc) (List.suffix_refl _)

/-- The types that share their first characters. -/
def family : TokenType → TokenType
  | .keyword => .identifier
  | .comment => .operator
  | name => name

/-- The family that a character opens. -/
def opener (c : Char) : TokenType :=
  if c.isDigit then .number
  else if isIdentifierStart c then .identifier
  else if c = '"' then .string
  else if c = '\x27' then .char
  else if isDelimiter c then .delimiter
  else if isBracket c then .bracket
  else if isSpace c then .whitespace
  else .operator

theorem not_digit_of_identifierStart {c : Char} (h : isIdentifierStart c = true) :
    c.isDigit = false := by
  by_contra hdigit
  simp only [isIdentifierStart, Char.isAlpha, Char.isUpper, Char.isLower, Char.isDigit,
    Bool.or_eq_true, Bool.and_eq_true, decide_eq_true_eq, Bool.not_eq_false] at h hdigit
  rcases h with rfl | ⟨h, -⟩ | ⟨h, -⟩
  · exact absurd hdigit.2 (by decide)
  · exact absurd (UInt32.le_trans h hdigit.2) (by decide)
  · exact absurd (UInt32.le_trans h hdigit.2) (by decide)

theorem opener_of_opens {name : TokenType} {c : Char} (h : opens name c = true) :
    opener c = family name := by
  cases name with
  | number => exact if_pos h
  | keyword =>
    have h : isIdentifierStart c = true := h
    rw [opener, not_digit_of_identifierStart h, if_neg Bool.false_ne_true, if_pos h]
    rfl
  | identifier =>
    have h : isIdentifierStart c = true := h
    rw [opener, not_digit_of_identifierStart h, if_neg Bool.false_ne_true, if_pos h]
    rfl
  | operator =>
    simp only [opens, isOperator, Bool.or_eq_true, decide_eq_true_eq, List.mem_cons,
      List.not_mem_nil, or_false] at h
    rcases h with (rfl | rfl | rfl)
      | rfl | rfl | rfl | rfl | rfl | rfl | rfl | rfl | rfl | rfl | rfl | rfl | rfl <;> rfl
  | delimiter =>
    simp only [opens, isDelimiter, decide_eq_true_eq, List.mem_cons, List.not_mem_nil,
      or_false] at h
    rcases h with rfl | rfl | rfl <;> rfl
  | string =>
    obtain rfl := of_decide_eq_true h
    rfl
  | char =>
    obtain rfl := of_decide_eq_true h
    rfl
  | comment =>
    obtain rfl := of_decide_eq_true h
    rfl
  | bracket =>
    simp only [opens, isBracket, decide_eq_true_eq, List.mem_cons, List.not_mem_nil, or_false] at h
    rcases h with rfl | rfl | rfl | rfl | rfl | rfl <;> rfl
  | whitespace =>
    simp only [opens, isSpace, decide_eq_true_eq, List.mem_cons, List.not_mem_nil, or_false] at h
    rcases h with rfl | rfl | rfl | rfl | rfl | rfl <;> rfl

/-- Where one type opens, no type of another family matches. -/
theorem ends_eq_nil_of_opens {name x : TokenType} {p : Place} {c : Char} {s : Text}
    (hp : p.rest = c :: s) (hc : opens name c = true) (hx : family x ≠ family name) :
    ends (tokenSpec x) p = [] := by
  refine List.eq_nil_iff_forall_not_mem.mpr fun q hq => hx ?_
  obtain ⟨d, t, hrest, hd, -⟩ := opens_of_mem hq
  obtain ⟨rfl, -⟩ := List.cons.inj (hp.symm.trans hrest)
  exact (opener_of_opens hd).symm.trans (opener_of_opens hc)

/-! ## The second pass -/

/-- No word starts in the middle of another. -/
def Apart (p : Place) : Prop := p.before.any isWord = true → WordFree p.rest

theorem mem_of_taken {p q : Place} {name : TokenType} (h : MatchAt p name q) :
    q ∈ ends (tokenSpec name) p := List.mem_of_head? h.taken

/-- The text of a match starts as its type does. -/
theorem MatchAt.opens {p q : Place} {name : TokenType} (h : MatchAt p name q) {value : Text}
    (hvalue : p.rest = value ++ q.rest) : ∃ c v, value = c :: v ∧ opens name c = true := by
  obtain ⟨c, s, hrest, hc, hsuffix⟩ := opens_of_mem (mem_of_taken h)
  cases value with
  | nil =>
    rw [hrest] at hvalue
    have := hsuffix.length_le
    rw [← List.nil_append q.rest, ← hvalue] at this
    simp at this
  | cons d v =>
    rw [hrest] at hvalue
    exact ⟨d, v, rfl, (List.cons.inj hvalue).1 ▸ hc⟩

theorem boundaryFree_tokenSpec {name : TokenType} (h : name ≠ .keyword) :
    boundaryFree (tokenSpec name) = true := by
  cases name with
  | keyword => exact absurd rfl h
  | _ => decide

/-- An alternative that refuses a place refuses the start of its text. -/
theorem regexMatch_of_refused {x : TokenType} (hx : x ≠ .keyword) {p : Place} {value s : Text}
    (hp : p.rest = value ++ s) (h : ends (tokenSpec x) p = []) :
    regexMatch value (tokenSpec x) = false := by
  have hlonger := @ends_longer _ (boundaryFree_tokenSpec hx) s ⟨none, value⟩ p hp
  rw [h] at hlonger
  rw [regexMatch, List.forall₂_nil_right_iff.mp hlonger]
  rfl

theorem regexMatch_keyword {value : Text} :
    regexMatch value (tokenSpec .keyword) = true ↔ value ∈ keywords := by
  rw [regexMatch, List.any_eq_true]
  constructor
  · rintro ⟨q, hq, hrest⟩
    obtain ⟨w, hw, hvalue, -⟩ := mem_ends_keyword.mp hq
    rw [of_decide_eq_true hrest, List.append_nil] at hvalue
    obtain rfl : value = w := hvalue
    exact hw
  · intro h
    refine ⟨⟨lastOf none value, []⟩, mem_ends_keyword.mpr ⟨value, h, ?_, rfl, rfl, ?_⟩, by simp⟩
    · rw [List.append_nil]
    · intro c hc
      cases hc

theorem tokenOrder_split (name : TokenType) :
    ∃ later, tokenOrder = earlier name ++ name :: later := by
  cases name <;> exact ⟨_, rfl⟩

/-- An identifier that is a match is no keyword. -/
theorem not_keyword_of_identifier {p q : Place} (h : MatchAt p .identifier q) (hapart : Apart p)
    {value : Text} (hp : p.rest = value ++ q.rest) :
    value ∉ keywords ∧ (∀ c ∈ value, isWord c = true) ∧ WordFree q.rest := by
  obtain ⟨b, s⟩ := p
  obtain ⟨c, t, rfl, hc, -⟩ := opens_of_mem (mem_of_taken h)
  have htaken := h.taken
  rw [ends_identifier hc] at htaken
  obtain rfl := (Option.some.inj htaken).symm
  have hword : isWord c = true := by
    simp only [Lexer.opens, isIdentifierStart, Bool.or_eq_true, decide_eq_true_eq] at hc
    rcases hc with rfl | hc
    · rfl
    · simp [isWord, Char.isAlphanum, hc]
  have hvalue : value = c :: t.takeWhile isWord := by
    have hsplit : c :: t = (c :: t.takeWhile isWord) ++ t.dropWhile isWord := by
      rw [List.cons_append, List.takeWhile_append_dropWhile]
    exact List.append_cancel_right (hp.symm.trans hsplit)
  have hfree : WordFree (t.dropWhile isWord) := fun d hd =>
    not_of_head_dropWhile hd
  have hbefore : b.any isWord = false := by
    by_contra hb
    have := hapart (by simpa using hb) c rfl
    exact absurd (hword.symm.trans this) (by decide)
  refine ⟨fun hkey => ?_, ?_, hfree⟩
  · have hrefused := h.refused .keyword (by decide)
    have hmem : (⟨lastOf b value, t.dropWhile isWord⟩ : Place)
        ∈ ends (tokenSpec .keyword) ⟨b, c :: t⟩ :=
      mem_ends_keyword.mpr ⟨value, hkey, hp, rfl, hbefore, hfree⟩
    rw [hrefused] at hmem
    cases hmem
  · rw [hvalue]
    intro d hd
    rcases List.mem_cons.mp hd with rfl | hd
    · exact hword
    · exact List.mem_takeWhile_imp hd

/-- The second pass finds the alternative that took the match. -/
theorem typeOf_of_matchAt {p q : Place} {name : TokenType} (h : MatchAt p name q)
    (hapart : Apart p) {value : Text} (hp : p.rest = value ++ q.rest) :
    typeOf value = some name := by
  obtain ⟨later, hsplit⟩ := tokenOrder_split name
  refine List.find?_eq_some_iff_append.mpr ⟨?_, earlier name, later, hsplit, fun x hx => ?_⟩
  · by_cases hname : name = .keyword
    · subst hname
      obtain ⟨w, hw, hrest, -⟩ := mem_ends_keyword.mp (mem_of_taken h)
      obtain rfl := List.append_cancel_right (hp.symm.trans hrest)
      exact regexMatch_keyword.mpr hw
    · obtain ⟨q', hq', hrest⟩ :=
        Reaches.alone (boundaryFree_tokenSpec hname) hp ⟨q, h.taken, rfl⟩ none
      exact List.any_eq_true.mpr ⟨q', List.mem_of_head? hq', by simpa using hrest⟩
  · by_cases hkey : x = .keyword
    · subst hkey
      obtain ⟨c, v, hvalue, hc⟩ := h.opens hp
      rw [Bool.not_eq_true', Bool.eq_false_iff, ne_eq, regexMatch_keyword]
      by_cases hname : name = .identifier
      · subst hname
        exact (not_keyword_of_identifier h hapart hp).1
      · intro hkeyword
        have hopen := List.all_eq_true.mp keywords_open value hkeyword
        rw [hvalue, List.head?_cons, Option.any_some] at hopen
        have hfamily := (opener_of_opens hc).symm.trans (opener_of_opens hopen)
        cases name with
        | keyword => exact absurd hx (by decide)
        | identifier => exact hname rfl
        | _ => cases hfamily
    · rw [regexMatch_of_refused hkey hp (h.refused x hx)]
      rfl

/-! ## Between two matches -/

theorem last_oneOf (rs : List Regex) (c : Char) : last (oneOf rs) c = rs.any (last · c) := by
  induction rs with
  | nil => rfl
  | cons r rs ih =>
    cases rs with
    | nil => simp [oneOf]
    | cons r' rs =>
      rw [oneOf_cons_cons, last, ih]
      rfl

theorem operators_last :
    operators.all (fun w => w.getLast?.any (opens .operator)) = true := by decide

theorem last_literal (w : Text) (c : Char) (h : last (literal w) c = true) :
    w.getLast? = some c := by
  induction w with
  | nil => cases h
  | cons d w ih =>
    rw [literal, last, Bool.or_eq_true] at h
    rcases h with h | h
    · rw [List.getLast?_cons, ih h]
      rfl
    · cases w with
      | nil =>
        have hd : c = d := by simpa [literal, nullable, char, last] using h
        rw [hd]
        rfl
      | cons e w => simp [literal, char, nullable] at h

theorem not_word_of_operator {c : Char} (h : opens .operator c = true) : isWord c = false := by
  simp only [Lexer.opens, isOperator, Bool.or_eq_true, decide_eq_true_eq, List.mem_cons,
    List.not_mem_nil, or_false] at h
  rcases h with (rfl | rfl | rfl)
    | rfl | rfl | rfl | rfl | rfl | rfl | rfl | rfl | rfl | rfl | rfl | rfl | rfl <;> rfl

/-- The types whose matches do not end in a word. -/
theorem not_word_of_last {name : TokenType}
    (hname : name ∈ [.string, .char, .operator, .delimiter, .bracket, .whitespace]) {c : Char}
    (h : last (tokenSpec name) c = true) : isWord c = false := by
  cases name with
  | string =>
    obtain rfl : c = '"' := by simpa [tokenSpec, char, last, nullable] using h
    rfl
  | char =>
    obtain rfl : c = '\x27' := by simpa [tokenSpec, char, last, nullable] using h
    rfl
  | operator =>
    refine not_word_of_operator ?_
    rw [tokenSpec, last_oneOf, List.any_append, Bool.or_eq_true, List.any_map] at h
    rcases h with h | h
    · obtain ⟨w, hw, hlast⟩ := List.any_eq_true.mp h
      have hopen := List.all_eq_true.mp operators_last w hw
      rw [last_literal w c hlast] at hopen
      exact hopen
    · have hop : isOperator c = true := by simpa [last] using h
      simp [Lexer.opens, hop]
  | delimiter =>
    have h : isDelimiter c = true := h
    simp only [isDelimiter, decide_eq_true_eq, List.mem_cons, List.not_mem_nil, or_false] at h
    rcases h with rfl | rfl | rfl <;> rfl
  | bracket =>
    have h : isBracket c = true := h
    simp only [isBracket, decide_eq_true_eq, List.mem_cons, List.not_mem_nil, or_false] at h
    rcases h with rfl | rfl | rfl | rfl | rfl | rfl <;> rfl
  | whitespace =>
    have h : isSpace c = true := by simpa [tokenSpec, plus, last, nullable] using h
    simp only [isSpace, decide_eq_true_eq, List.mem_cons, List.not_mem_nil, or_false] at h
    rcases h with rfl | rfl | rfl | rfl | rfl | rfl <;> rfl
  | _ => exact absurd hname (by decide)

theorem apart_of_endsIn {f : Char → Bool} {q : Place} (h : EndsIn f q)
    (hf : ∀ c, f c = true → isWord c = false) : Apart q := by
  obtain ⟨c, hbefore, hc⟩ := h
  intro hword
  rw [hbefore, Option.any_some, hf c hc] at hword
  cases hword

theorem wordFree_of_dot {s : Text} (h : ∀ c ∈ s.head?, dot c = false) : WordFree s := by
  intro c hc
  have hdot := h c hc
  simp only [dot, Bool.and_eq_false_iff, decide_eq_false_iff_not, ne_eq, not_not] at hdot
  rcases hdot with rfl | rfl <;> rfl

theorem apart_of_comment {p q : Place} (h : (ends (tokenSpec .comment) p).head? = some q) :
    Apart q := by
  rw [tokenSpec, ends_alt, List.head?_append, Option.or_eq_some_iff] at h
  rcases h with h | ⟨-, h⟩
  · have hlast := last_of_mem (List.mem_of_head? h)
    rcases hlast with ⟨-, hnull⟩ | hlast
    · cases hnull
    · refine apart_of_endsIn hlast fun c hc => ?_
      obtain rfl : c = '/' := by simpa [char, last, nullable] using hc
      rfl
  · obtain ⟨m, -, h⟩ := head_seq h
    obtain ⟨⟨b, s⟩, -, h⟩ := head_seq h
    rw [ends_star_set, head?_runs] at h
    obtain rfl := Option.some.inj h
    exact fun _ => wordFree_of_dot fun c hc => not_of_head_dropWhile hc

theorem MatchAt.apart {p q : Place} {name : TokenType} (h : MatchAt p name q) (hapart : Apart p)
    (hnumber : name = .number → WordFree q.rest) : Apart q := by
  have hlast : name ∈ [.string, .char, .operator, .delimiter, .bracket, .whitespace] → Apart q := by
    intro hname
    rcases last_of_mem (mem_of_taken h) with ⟨-, hnull⟩ | hlast
    · exact absurd (hnull.symm.trans (nullable_tokenSpec name)) (by decide)
    · exact apart_of_endsIn hlast fun c hc => not_word_of_last hname hc
  cases name with
  | number => exact fun _ => hnumber rfl
  | keyword =>
    obtain ⟨-, -, -, -, -, hfree⟩ := mem_ends_keyword.mp (mem_of_taken h)
    exact fun _ => hfree
  | identifier =>
    obtain ⟨value, hvalue⟩ := ends_suffix (mem_of_taken h)
    exact fun _ => (not_keyword_of_identifier h hapart hvalue.symm).2.2
  | comment => exact apart_of_comment h.taken
  | _ => exact hlast (by decide)

end Lexer

end Absolute
