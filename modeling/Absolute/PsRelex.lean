import Absolute.PsNumbers

/-!
# Lexing twice

An accepted source is one match after the other (`Lexed`), and each token text is matched
again, by its own alternative, when it stands between blanks (`Stable`). So the texts of the
tokens joined by blanks are lexed to the same tokens (`lexer_lossless_stable`).
-/

namespace Absolute

namespace Lexer

open Regex

/-! ## The same match in front of a blank -/

theorem sole_quotedCharacter {quote : Char} (hquote : quote ≠ '\\') :
    Sole (quotedCharacter quote) ∧ ∀ c, first (quotedCharacter quote) c = true → c ≠ quote := by
  constructor
  · refine Sole.alt (Sole.seq (sole_set _) (sole_set _)) (sole_set _) rfl rfl fun c hc => ?_
    have hc : c = '\\' := by simpa [char, first, nullable] using hc
    simp [first, hc]
  · intro c hc
    have hc : c = '\\' ∨ (c ≠ quote ∧ c ≠ '\\') := by
      simpa [quotedCharacter, char, first, nullable] using hc
    rcases hc with rfl | hc
    · exact hquote.symm
    · exact hc.1

theorem sole_string : Sole (tokenSpec .string) := by
  obtain ⟨hsole, hfirst⟩ := @sole_quotedCharacter '"' (by decide)
  refine Sole.seq (sole_set _) (Sole.star_seq hsole (sole_set _) rfl fun c hc => ?_)
  simpa [char, first] using hfirst c hc

theorem sole_char : Sole (tokenSpec .char) :=
  Sole.seq (sole_set _) (Sole.seq (sole_quotedCharacter (by decide)).1 (sole_set _))

/-- The types that take no blank. -/
theorem not_accepts_blank {name : TokenType}
    (h : name ∈ [.operator, .delimiter, .bracket, .identifier]) :
    accepts (tokenSpec name) ' ' = false := by
  cases name with
  | operator => decide
  | delimiter => decide
  | bracket => decide
  | identifier => decide
  | _ => exact absurd h (by decide)

theorem operators_slash :
    operators.all (fun w => w.head? ≠ some '/' || (w.drop 1).head? = some '=') = true := by decide

theorem operator_text {value : Text} (h : Reaches (tokenSpec .operator) ⟨none, value⟩ []) :
    value ∈ operators ∨ ∃ c, value = [c] := by
  obtain ⟨q, hq, hrest⟩ := h
  have hmem := List.mem_of_head? hq
  rw [tokenSpec, ends_oneOf] at hmem
  obtain ⟨r, hr, hmem⟩ := List.mem_flatMap.mp hmem
  rcases List.mem_append.mp hr with hr | hr
  · obtain ⟨w, hw, rfl⟩ := List.mem_map.mp hr
    by_cases hpre : w <+: value
    · obtain ⟨u, rfl⟩ := hpre
      rw [ends_literal] at hmem
      obtain rfl := List.mem_singleton.mp hmem
      obtain rfl : u = [] := hrest
      exact .inl (by rwa [List.append_nil])
    · rw [ends_literal_eq_nil hpre] at hmem
      cases hmem
  · obtain rfl := List.mem_singleton.mp hr
    obtain ⟨c, -, hvalue⟩ := mem_ends_set hmem
    exact .inr ⟨c, by rw [show value = c :: q.rest from hvalue, hrest]⟩

theorem mem_ends_comment {p q : Place} (h : q ∈ ends (tokenSpec .comment) p) :
    ∃ d t, p.rest = '/' :: d :: t ∧ (d = '*' ∨ d = '/') := by
  rcases List.mem_append.mp h with h | h <;>
    (obtain ⟨m, hm, h⟩ := List.mem_flatMap.mp h
     obtain ⟨m', hm', -⟩ := List.mem_flatMap.mp h)
  · exact ⟨'*', m'.rest, by rw [mem_ends_char hm, mem_ends_char hm'], .inl rfl⟩
  · exact ⟨'/', m'.rest, by rw [mem_ends_char hm, mem_ends_char hm'], .inr rfl⟩

/-- No operator starts a comment. -/
theorem ends_comment_operator {p : Place} {value s : Text}
    (h : Reaches (tokenSpec .operator) ⟨none, value⟩ []) (hs : Blank s) (hp : p.rest = value ++ s) :
    ends (tokenSpec .comment) p = [] := by
  refine List.eq_nil_iff_forall_not_mem.mpr fun q hq => ?_
  obtain ⟨d, t, hrest, hd⟩ := mem_ends_comment hq
  have hne : d ≠ ' ' ∧ d ≠ '=' := by rcases hd with rfl | rfl <;> decide
  rw [hp] at hrest
  match value, hrest, operator_text h with
  | [], hrest, _ =>
    have hsd : s = '/' :: d :: t := hrest
    exact absurd (hs '/' (by rw [hsd]; rfl)) (by decide)
  | [c], hrest, _ =>
    have hsd : s = d :: t := (List.cons.inj hrest).2
    exact hne.1 (hs d (by rw [hsd]; rfl))
  | c :: e :: w, hrest, htext =>
    obtain ⟨hc, hrest⟩ := List.cons.inj hrest
    obtain ⟨he, -⟩ := List.cons.inj hrest
    rcases htext with hw | ⟨c, hc⟩
    · have := List.all_eq_true.mp operators_slash _ hw
      simp [hc, he, hne.2] at this
    · cases hc

/-- Two types of one family, the first of which is tried first. -/
theorem pair_of_family {x name : TokenType} (hx : x ∈ earlier name)
    (h : family x = family name) :
    (x = .keyword ∧ name = .identifier) ∨ (x = .comment ∧ name = .operator) := by
  cases name <;> cases x <;> first
    | exact .inl ⟨rfl, rfl⟩
    | exact .inr ⟨rfl, rfl⟩
    | exact absurd hx (by decide)
    | cases h

/-- A token that is not a number is matched again. -/
theorem rematch {p q : Place} {name : TokenType} (h : MatchAt p name q) (hapart : Apart p)
    {value : Text} (hp : p.rest = value ++ q.rest)
    (hname : name ≠ .comment ∧ name ≠ .whitespace ∧ name ≠ .number) {b : Option Char}
    (hb : b.any isWord = false) {s : Text} (hs : Blank s) :
    ∃ q', MatchAt ⟨b, value ++ s⟩ name q' ∧ q'.rest = s := by
  have hfree : WordFree s := fun c hc => by
    rw [hs c hc]
    rfl
  have hreaches : Reaches (tokenSpec name) ⟨b, value ++ s⟩ s := by
    have hstopped : name ∈ [.operator, .delimiter, .bracket, .identifier] →
        Reaches (tokenSpec name) ⟨b, value ++ s⟩ s := by
      intro hmem
      have hkey : name ≠ .keyword := by
        rintro rfl
        exact absurd hmem (by decide)
      have halone := Reaches.alone (boundaryFree_tokenSpec hkey) hp ⟨q, h.taken, rfl⟩ b
      refine halone.stopped (boundaryFree_tokenSpec hkey) (fun c hc => ?_) rfl
      rw [hs c hc]
      exact not_accepts_blank hmem
    cases name with
    | string =>
      have halone := Reaches.alone (boundaryFree_tokenSpec (by decide)) hp ⟨q, h.taken, rfl⟩ b
      exact sole_string.reaches (boundaryFree_tokenSpec (by decide)) halone rfl
    | char =>
      have halone := Reaches.alone (boundaryFree_tokenSpec (by decide)) hp ⟨q, h.taken, rfl⟩ b
      exact sole_char.reaches (boundaryFree_tokenSpec (by decide)) halone rfl
    | keyword =>
      obtain ⟨w, hw, hrest, -⟩ := mem_ends_keyword.mp (mem_of_taken h)
      obtain rfl := List.append_cancel_right (hp.symm.trans hrest)
      have hmem : (⟨lastOf b value, s⟩ : Place) ∈ ends (tokenSpec .keyword) ⟨b, value ++ s⟩ :=
        mem_ends_keyword.mpr ⟨value, hw, rfl, rfl, hb, hfree⟩
      cases hends : ends (tokenSpec .keyword) ⟨b, value ++ s⟩ with
      | nil =>
        rw [hends] at hmem
        cases hmem
      | cons q' l =>
        refine ⟨q', by rw [hends]; rfl, ?_⟩
        obtain ⟨w', hw', hrest', -, -, hfree'⟩ :=
          mem_ends_keyword.mp (hends ▸ List.mem_cons_self : q' ∈ ends (tokenSpec .keyword) _)
        have hword := (takeWhile_word (isWord_of_keyword hw') hfree').2
        rw [← hrest'] at hword
        exact hword.symm.trans (takeWhile_word (isWord_of_keyword hw) hfree).2
    | number => exact absurd rfl hname.2.2
    | comment => exact absurd rfl hname.1
    | whitespace => exact absurd rfl hname.2.1
    | _ => exact hstopped (by decide)
  obtain ⟨q', hq', hrest⟩ := hreaches
  refine ⟨q', ⟨hq', fun x hx => ?_⟩, hrest⟩
  obtain ⟨c, v, hvalue, hc⟩ := h.opens hp
  have hcons : value ++ s = c :: (v ++ s) := by rw [hvalue, List.cons_append]
  by_cases hfamily : family x = family name
  · rcases pair_of_family hx hfamily with ⟨rfl, rfl⟩ | ⟨rfl, rfl⟩
    · obtain ⟨hkey, hword, -⟩ := not_keyword_of_identifier h hapart hp
      refine ends_keyword_eq_nil ?_
      rw [(takeWhile_word hword hfree).1]
      exact hkey
    · exact ends_comment_operator
        (Reaches.alone (boundaryFree_tokenSpec (by decide)) hp ⟨q, h.taken, rfl⟩ none) hs rfl
  · exact ends_eq_nil_of_opens hcons hc hfamily

/-! ## One match after the other -/

/-- The loop where every match starts at the end of the one before. -/
inductive Lexed (isSyntaxPluginKeyword : Text → Bool) : Position → Place → List Token → Prop
  | done (pos : Position) (b : Option Char) : Lexed isSyntaxPluginKeyword pos ⟨b, []⟩ []
  | step {pos : Position} {p q : Place} {name : TokenType} {value : Text} {token : Option Token}
      {tokens : List Token} (h : MatchAt p name q) (hapart : Apart p)
      (hp : p.rest = value ++ q.rest)
      (htoken : tokenOf isSyntaxPluginKeyword name value q.rest pos = .ok token)
      (hrest : Lexed isSyntaxPluginKeyword (pos.after value) q tokens) :
      Lexed isSyntaxPluginKeyword pos p (token.toList ++ tokens)

variable {isSyntaxPluginKeyword : Text → Bool}

theorem matchesAt_tokenRegex (p : Place) :
    matchesAt [(true, tokenRegex)] p
      = (ends tokenRegex p).map fun q => ([p.rest.take (p.rest.length - q.rest.length)], q) := by
  simp [matchesAt, List.map_eq_flatMap]

theorem nextMatch_nil (b : Option Char) : nextMatch ⟨b, []⟩ = none := by
  have hnone : (ends tokenRegex ⟨b, []⟩).head? = none := by
    refine Option.eq_none_iff_forall_ne_some.mpr fun q hq => ?_
    obtain ⟨name, hmatch⟩ := head_tokenRegex.mp hq
    obtain ⟨c, s, hrest, -⟩ := opens_of_mem (mem_of_taken hmatch)
    cases hrest
  rw [nextMatch, search, matchesAt_tokenRegex, List.head?_map, hnone]
  rfl

theorem length_lt_of_mem {p q : Place} {name : TokenType} (h : q ∈ ends (tokenSpec name) p) :
    q.rest.length < p.rest.length := by
  obtain ⟨c, s, hrest, -, hsuffix⟩ := opens_of_mem h
  rw [hrest, List.length_cons]
  exact Nat.lt_succ_of_le hsuffix.length_le

/-- The iterator stays where there is a match. -/
theorem nextMatch_of_matchAt {p q : Place} {name : TokenType} (h : MatchAt p name q) {value : Text}
    (hp : p.rest = value ++ q.rest) : nextMatch p = some ⟨[], value, q⟩ := by
  have hhead := head_tokenRegex.mpr ⟨name, h⟩
  obtain ⟨b, s⟩ := p
  obtain rfl : s = value ++ q.rest := hp
  have hmatch :
      (matchesAt [(true, tokenRegex)] ⟨b, value ++ q.rest⟩).head? = some ([value], q) := by
    rw [matchesAt_tokenRegex, List.head?_map, hhead]
    simp
  have hsearch : search [(true, tokenRegex)] b (value ++ q.rest) = some ([value], q) := by
    cases hs : value ++ q.rest with
    | nil =>
      rw [hs] at hmatch
      exact hmatch
    | cons c t =>
      rw [hs] at hmatch
      rw [search, hmatch]
      rfl
  rw [nextMatch, hsearch]
  simp

/-- Where the iterator passes something over, it is no blank. -/
theorem not_space_of_no_match {b : Option Char} {c : Char} {s : Text}
    (h : (ends tokenRegex ⟨b, c :: s⟩).head? = none) : isSpace c = false := by
  by_contra hc
  have hmem : (⟨some c, s⟩ : Place) ∈ ends (tokenSpec .whitespace) ⟨b, c :: s⟩ := by
    rw [tokenSpec, plus, ends_seq, ends_set_cons, if_pos (by simpa using hc),
      List.flatMap_singleton, ends_star_set]
    cases s with
    | nil => exact List.mem_singleton_self _
    | cons d s =>
      rw [runs]
      exact List.mem_append_right _ (List.mem_singleton_self _)
  have hnil := List.head?_eq_none_iff.mp h
  rw [tokenRegex, ends_oneOf, List.flatMap_map] at hnil
  have := List.flatMap_eq_nil_iff.mp hnil .whitespace (mem_tokenOrder _)
  rw [this] at hmem
  cases hmem

theorem length_of_search {b : Option Char} {s : Text} {groups : List Text} {q : Place}
    (h : search [(true, tokenRegex)] b s = some (groups, q)) :
    (groups.headD []).length + q.rest.length ≤ s.length := by
  have hhere : ∀ {p : Place}, (matchesAt [(true, tokenRegex)] p).head? = some (groups, q) →
      (groups.headD []).length + q.rest.length ≤ p.rest.length := by
    intro p hp
    rw [matchesAt_tokenRegex, List.head?_map] at hp
    obtain ⟨q', hq', heq⟩ := Option.map_eq_some_iff.mp hp
    obtain ⟨rfl, rfl⟩ := Prod.mk.inj heq
    have := length_of_mem (List.mem_of_head? hq')
    rw [List.headD_cons, List.length_take]
    omega
  induction s generalizing b with
  | nil => exact hhere h
  | cons c s ih =>
    rw [search] at h
    cases hmatch : (matchesAt [(true, tokenRegex)] ⟨b, c :: s⟩).head? with
    | some m =>
      rw [hmatch] at h
      exact hhere (hmatch.trans h)
    | none =>
      rw [hmatch] at h
      exact (ih h).trans (Nat.le_succ _)

/-- Without a match at a place, its first character is passed over. -/
theorem skipped_of_no_match {b : Option Char} {c : Char} {s : Text} {found : Match}
    (h : (ends tokenRegex ⟨b, c :: s⟩).head? = none)
    (hfound : nextMatch ⟨b, c :: s⟩ = some found) : ∃ gap, found.skipped = c :: gap := by
  obtain ⟨⟨groups, q⟩, hsearch, rfl⟩ := Option.map_eq_some_iff.mp hfound
  have hnone : (matchesAt [(true, tokenRegex)] ⟨b, c :: s⟩).head? = none := by
    rw [matchesAt_tokenRegex, List.head?_map, h]
    rfl
  rw [search, hnone] at hsearch
  have hlength := length_of_search hsearch
  have hpos : (c :: s).length - ((groups.headD []).length + q.rest.length) ≠ 0 := by
    rw [List.length_cons]
    omega
  obtain ⟨n, hn⟩ := Nat.exists_eq_succ_of_ne_zero hpos
  exact ⟨s.take n, by simp only [hn, List.take_succ_cons]⟩

theorem skipGap_error {pos : Position} {c : Char} (hc : isSpace c = false) (gap : Text) :
    ∃ message, skipGap pos (c :: gap) = .error message := by
  rw [skipGap, hc]
  exact ⟨_, rfl⟩

/-- What is behind a number is no word. -/
theorem wordFree_of_tokenOf {value behind : Text} {pos : Position} {token : Option Token}
    (h : tokenOf isSyntaxPluginKeyword .number value behind pos = .ok token) : WordFree behind := by
  simp only [tokenOf] at h
  split at h
  · cases h
  · rename_i htail
    intro c hc
    by_contra hword
    cases behind with
    | nil => cases hc
    | cons d behind =>
      obtain rfl : d = c := Option.some.inj hc
      rw [List.takeWhile_cons_of_pos (by simpa using hword)] at htail
      exact htail (by simp)

/-- The loop finds one match after the other, where it accepts. -/
theorem lexed_of_lexerLoop {n : ℕ} {pos : Position} {p : Place} {tokens : List Token}
    (hn : p.rest.length ≤ n) (hapart : Apart p)
    (h : lexerLoop isSyntaxPluginKeyword n pos [] p = .ok tokens) :
    Lexed isSyntaxPluginKeyword pos p tokens := by
  induction n generalizing pos p tokens with
  | zero =>
    obtain ⟨b, s⟩ := p
    obtain rfl := List.eq_nil_of_length_eq_zero (Nat.le_zero.mp hn)
    obtain rfl := Except.ok.inj h
    exact .done pos b
  | succ n ih =>
    cases hhead : (ends tokenRegex p).head? with
    | some q =>
      obtain ⟨name, hmatch⟩ := head_tokenRegex.mp hhead
      obtain ⟨value, hvalue⟩ := ends_suffix (mem_of_taken hmatch)
      have hp := hvalue.symm
      rw [lexerLoop, nextMatch_of_matchAt hmatch hp] at h
      simp only [List.nil_append, skipGap, typeOf_of_matchAt hmatch hapart hp] at h
      cases htoken : tokenOf isSyntaxPluginKeyword name value q.rest pos with
      | error message =>
        rw [htoken] at h
        cases h
      | ok token =>
        rw [htoken] at h
        cases hloop : lexerLoop isSyntaxPluginKeyword n (pos.after value) [] q with
        | error message =>
          simp only [hloop] at h
          cases h
        | ok rest =>
          simp only [hloop] at h
          obtain rfl := Except.ok.inj h
          have hlt := length_lt_of_mem (mem_of_taken hmatch)
          refine .step hmatch hapart hp htoken (ih (by omega) (hmatch.apart hapart ?_) hloop)
          rintro rfl
          exact wordFree_of_tokenOf htoken
    | none =>
      obtain ⟨b, s⟩ := p
      cases s with
      | nil =>
        rw [lexerLoop, nextMatch_nil] at h
        obtain rfl := Except.ok.inj h
        exact .done pos b
      | cons c s =>
        have hc := not_space_of_no_match hhead
        rw [lexerLoop] at h
        cases hfound : nextMatch ⟨b, c :: s⟩ with
        | none =>
          obtain ⟨message, hmessage⟩ := @skipGap_error pos c hc s
          rw [hfound] at h
          simp only [List.nil_append, hmessage] at h
          cases h
        | some found =>
          obtain ⟨gap, hgap⟩ := skipped_of_no_match hhead hfound
          obtain ⟨message, hmessage⟩ := @skipGap_error pos c hc gap
          rw [hfound] at h
          simp only [List.nil_append, hgap, hmessage] at h
          cases h

/-- One match after the other is what the loop finds. -/
theorem lexerLoop_of_lexed {n : ℕ} {pos : Position} {p : Place} {tokens : List Token}
    (h : Lexed isSyntaxPluginKeyword pos p tokens) (hn : p.rest.length ≤ n) :
    lexerLoop isSyntaxPluginKeyword n pos [] p = .ok tokens := by
  induction h generalizing n with
  | done pos b =>
    cases n with
    | zero => rfl
    | succ n =>
      rw [lexerLoop, nextMatch_nil]
      rfl
  | @step pos p q name value token tokens hmatch hapart hp htoken hrest ih =>
    have hlt := length_lt_of_mem (mem_of_taken hmatch)
    cases n with
    | zero => omega
    | succ n =>
      rw [lexerLoop, nextMatch_of_matchAt hmatch hp]
      simp only [List.nil_append, skipGap, typeOf_of_matchAt hmatch hapart hp, htoken,
        ih (by omega : q.rest.length ≤ n)]
      rfl

/-! ## What is lexed -/

/-- No syntax plugin is registered. -/
def noPlugins : Text → Bool := fun _ => false

/-- A part of a source and what it is. -/
structure Lexeme where
  type : TokenType
  written : Text

/-- The expression of the type matches all of it. -/
def Lexeme.Recognised (lexeme : Lexeme) : Prop :=
  lexeme.written ≠ [] ∧ regexMatch lexeme.written (tokenSpec lexeme.type) = true

/-- The token text of what is written. -/
structure TextOf (name : TokenType) (written text : Text) : Prop where
  number : name = .number → NumberText written text
  other : name ≠ .number → text = written

/-- The tokens of a source that is cut into parts: one for each part that is not a comment or
blank, at the position of its first character. -/
inductive TokensOf : Position → List Lexeme → List Token → Prop
  | done (pos : Position) : TokensOf pos [] []
  | skipped {pos : Position} {name : TokenType} {written : Text} {rest : List Lexeme}
      {tokens : List Token} (h : name = .comment ∨ name = .whitespace)
      (hrest : TokensOf (pos.after written) rest tokens) :
      TokensOf pos (⟨name, written⟩ :: rest) tokens
  | token {pos : Position} {name : TokenType} {written text : Text} {rest : List Lexeme}
      {tokens : List Token} (h : name ≠ .comment ∧ name ≠ .whitespace)
      (htext : TextOf name written text) (hrest : TokensOf (pos.after written) rest tokens) :
      TokensOf pos (⟨name, written⟩ :: rest) (⟨name, text, pos⟩ :: tokens)

theorem tokenOf_cases {name : TokenType} {value behind : Text} {pos : Position}
    {token : Option Token} (h : tokenOf noPlugins name value behind pos = .ok token) :
    ((name = .comment ∨ name = .whitespace) ∧ token = none)
      ∨ (name ≠ .comment ∧ name ≠ .whitespace) ∧ ∃ text, token = some ⟨name, text, pos⟩
        ∧ (name = .number → normalizeNumericLiteral value pos = .ok text)
        ∧ (name ≠ .number → text = value) := by
  cases name with
  | comment => exact .inl ⟨.inl rfl, (Except.ok.inj h).symm⟩
  | whitespace => exact .inl ⟨.inr rfl, (Except.ok.inj h).symm⟩
  | number =>
    refine .inr ⟨by decide, ?_⟩
    simp only [tokenOf] at h
    split at h
    · cases h
    · cases hnormal : normalizeNumericLiteral value pos with
      | error message =>
        rw [hnormal] at h
        cases h
      | ok text =>
        rw [hnormal] at h
        exact ⟨text, (Except.ok.inj h).symm, fun _ => rfl, fun hne => absurd rfl hne⟩
  | _ =>
    refine .inr ⟨by decide, value, (Except.ok.inj h).symm, fun hname => ?_, fun _ => rfl⟩
    cases hname

theorem written_of_matchAt {p q : Place} (h : MatchAt p .number q) {value : Text}
    (hp : p.rest = value ++ q.rest) : Written value := by
  obtain ⟨w, hrest, hw⟩ := written_of_mem (mem_of_taken h)
  rwa [List.append_cancel_right (hp.symm.trans hrest)]

theorem recognised_of_matchAt {p q : Place} {name : TokenType} (h : MatchAt p name q)
    (hapart : Apart p) {value : Text} (hp : p.rest = value ++ q.rest) :
    (⟨name, value⟩ : Lexeme).Recognised := by
  have htype := typeOf_of_matchAt h hapart hp
  refine ⟨?_, List.find?_some (p := fun name => regexMatch value (tokenSpec name)) htype⟩
  obtain ⟨c, v, hvalue, -⟩ := h.opens hp
  simp [hvalue]

/-- Nothing of a source is lost. -/
theorem tokensOf_of_lexed {pos : Position} {p : Place} {tokens : List Token}
    (h : Lexed noPlugins pos p tokens) :
    ∃ lexemes : List Lexeme, p.rest = (lexemes.map Lexeme.written).flatten
      ∧ (∀ lexeme ∈ lexemes, lexeme.Recognised) ∧ TokensOf pos lexemes tokens := by
  induction h with
  | done pos b => exact ⟨[], rfl, fun lexeme h => (List.not_mem_nil h).elim, .done pos⟩
  | @step pos p q name value token tokens hmatch hapart hp htoken _ ih =>
    obtain ⟨lexemes, hflatten, hrecognised, htokens⟩ := ih
    refine ⟨⟨name, value⟩ :: lexemes, ?_, ?_, ?_⟩
    · rw [hp, hflatten, List.map_cons, List.flatten_cons]
    · intro lexeme hmem
      rcases List.mem_cons.mp hmem with rfl | hmem
      · exact recognised_of_matchAt hmatch hapart hp
      · exact hrecognised lexeme hmem
    · rcases tokenOf_cases htoken with ⟨hskipped, rfl⟩ | ⟨hname, text, rfl, hnumber, hother⟩
      · exact .skipped hskipped htokens
      · refine .token hname ⟨fun hnum => ?_, hother⟩ htokens
        subst hnum
        exact (numeral_of_normalize (written_of_matchAt hmatch hp) (hnumber rfl)).1

/-! ## The texts of the tokens, lexed again -/

/-- A text that is a token between blanks. -/
structure Stable (name : TokenType) (text : Text) : Prop where
  visible : name ≠ .comment ∧ name ≠ .whitespace
  rematch : ∀ {b : Option Char} {s : Text}, b.any isWord = false → Blank s →
    ∃ q, MatchAt ⟨b, text ++ s⟩ name q ∧ q.rest = s
  token : ∀ {s : Text} (pos : Position), Blank s →
    tokenOf noPlugins name text s pos = .ok (some ⟨name, text, pos⟩)

theorem stable_number {w text : Text} {pos : Position} (hw : Written w)
    (h : normalizeNumericLiteral w pos = .ok text) : Stable .number text := by
  obtain ⟨-, ⟨hdecimal⟩, hplain⟩ := numeral_of_normalize hw h
  refine ⟨by decide, fun _ hs => matchAt_decimal hdecimal hplain hs _, fun {s} pos hs => ?_⟩
  have htail : s.takeWhile isWord = [] := by
    cases s with
    | nil => rfl
    | cons c s =>
      rw [hs c rfl]
      rfl
  have hnormal : normalizeNumericLiteral text pos = .ok text := by
    rw [normalize_decimal hdecimal, strip_eq_self hplain]
  simp only [tokenOf, htail, ne_eq, not_true_eq_false, if_false, hnormal]
  rfl

theorem stable_of_lexed {pos : Position} {p : Place} {tokens : List Token}
    (h : Lexed noPlugins pos p tokens) : ∀ token ∈ tokens, Stable token.type token.value := by
  induction h with
  | done pos b =>
    intro token htoken
    cases htoken
  | @step pos p q name value token tokens hmatch hapart hp htoken _ ih =>
    intro t ht
    rcases List.mem_append.mp ht with ht | ht
    · rcases tokenOf_cases htoken with ⟨-, rfl⟩ | ⟨hname, text, rfl, hnumber, hother⟩
      · cases ht
      · obtain rfl := List.mem_singleton.mp ht
        by_cases hnum : name = .number
        · subst hnum
          exact stable_number (written_of_matchAt hmatch hp) (hnumber rfl)
        · obtain rfl := hother hnum
          refine ⟨hname, fun hb hs => rematch hmatch hapart hp ⟨hname.1, hname.2, hnum⟩ hb hs,
            fun pos hs => ?_⟩
          cases name with
          | number => exact absurd rfl hnum
          | comment => exact absurd rfl hname.1
          | whitespace => exact absurd rfl hname.2
          | _ => rfl
    · exact ih t ht

/-- Texts with a blank between any two of them. -/
def spaced (values : List Text) : Text := List.intercalate [' '] values

theorem spaced_cons_cons (v w : Text) (values : List Text) :
    spaced (v :: w :: values) = v ++ ' ' :: spaced (w :: values) := by
  simp [spaced, List.intercalate, List.intersperse]

theorem spaced_singleton (v : Text) : spaced [v] = v := by simp [spaced, List.intercalate]

theorem matchAt_blank (b : Option Char) {c : Char} {s : Text} (hc : isSpace c = false) :
    MatchAt ⟨b, ' ' :: c :: s⟩ .whitespace ⟨some ' ', c :: s⟩ := by
  have hspace : isSpace ' ' = true := rfl
  refine ⟨?_, fun x hx => @ends_eq_nil_of_opens .whitespace x _ _ _ rfl hspace ?_⟩
  · rw [tokenSpec, plus, ends_seq, ends_set_cons, if_pos hspace, List.flatMap_singleton,
      ends_star_set, head?_runs, afterRun, List.takeWhile_cons_of_neg (by simp [hc]),
      List.dropWhile_cons_of_neg (by simp [hc])]
    rfl
  · cases x <;> first | decide | exact absurd hx (by decide)

theorem Stable.head {name : TokenType} {text : Text} (h : Stable name text) :
    ∃ c v, text = c :: v ∧ isSpace c = false := by
  obtain ⟨q, hmatch, hq⟩ := @h.rematch none [] rfl fun c hc => by cases hc
  obtain ⟨c, v, hvalue, hc⟩ := hmatch.opens (show text ++ [] = text ++ q.rest by rw [hq])
  refine ⟨c, v, hvalue, ?_⟩
  by_contra hspace
  have hblank : Lexer.opens .whitespace c = true := by simpa [Lexer.opens] using hspace
  have hfamily := (opener_of_opens hc).symm.trans (opener_of_opens hblank)
  have hvisible := h.visible
  cases name with
  | whitespace => exact hvisible.2 rfl
  | _ => cases hfamily

theorem lexed_spaced {l : List (TokenType × Text)} (h : ∀ t ∈ l, Stable t.1 t.2) (pos : Position)
    {b : Option Char} (hb : b.any isWord = false) :
    ∃ again, Lexed noPlugins pos ⟨b, spaced (l.map Prod.snd)⟩ again
      ∧ again.map (fun token => (token.type, token.value)) = l := by
  induction l generalizing pos b with
  | nil => exact ⟨[], .done pos b, rfl⟩
  | cons t l ih =>
    have hstable := h t List.mem_cons_self
    have hapart : ∀ s, Apart ⟨b, s⟩ := fun s hword => by
      rw [show b.any isWord = false from hb] at hword
      cases hword
    cases l with
    | nil =>
      obtain ⟨q, hmatch, hq⟩ := @hstable.rematch b [] hb fun c hc => by cases hc
      have htoken := @hstable.token q.rest pos (by rw [hq]; exact fun c hc => by cases hc)
      have hdone : Lexed noPlugins (pos.after t.2) q [] := by
        obtain ⟨b', s⟩ := q
        obtain rfl : s = [] := hq
        exact .done _ b'
      refine ⟨[⟨t.1, t.2, pos⟩], ?_, rfl⟩
      have hspaced : spaced ([t].map Prod.snd) = t.2 ++ [] := by
        rw [List.map_cons, List.map_nil, spaced_singleton, List.append_nil]
      rw [hspaced]
      exact .step hmatch (hapart _) (by rw [hq]) htoken hdone
    | cons u l =>
      obtain ⟨c, v, hvalue, hc⟩ := (h u (List.mem_cons_of_mem _ List.mem_cons_self)).head
      obtain ⟨s, hs⟩ : ∃ s, spaced ((u :: l).map Prod.snd) = c :: s := by
        cases l with
        | nil => exact ⟨v, by rw [List.map_cons, List.map_nil, spaced_singleton, hvalue]⟩
        | cons w l =>
          refine ⟨v ++ ' ' :: spaced ((w :: l).map Prod.snd), ?_⟩
          rw [List.map_cons, List.map_cons, spaced_cons_cons, hvalue]
          rfl
      have hblank : Blank (' ' :: spaced ((u :: l).map Prod.snd)) := fun d hd =>
        (Option.some.inj hd).symm
      obtain ⟨q, hmatch, hq⟩ := hstable.rematch hb hblank
      obtain ⟨again, hagain, hmap⟩ := @ih (fun w hw => h w (List.mem_cons_of_mem _ hw))
        ((pos.after t.2).after [' ']) (some ' ') rfl
      have htoken := @hstable.token q.rest pos (by rw [hq]; exact hblank)
      have hskip : Lexed noPlugins (pos.after t.2) q again := by
        obtain ⟨b', s'⟩ := q
        obtain rfl : s' = ' ' :: spaced ((u :: l).map Prod.snd) := hq
        rw [hs] at hagain ⊢
        refine @Lexed.step _ _ _ _ _ [' '] none _ (matchAt_blank b' hc) (fun _ => ?_) rfl rfl hagain
        intro d hd
        obtain rfl := Option.some.inj hd
        rfl
      refine ⟨⟨t.1, t.2, pos⟩ :: again, ?_, by rw [List.map_cons, hmap]⟩
      rw [List.map_cons, List.map_cons, spaced_cons_cons]
      exact .step hmatch (hapart _) (by rw [hq]) htoken hskip

/-! ## The lexer -/

theorem apart_start (code : Text) : Apart ⟨none, code⟩ := fun h => by cases h

/-- An accepted source is its tokens, comments and blanks one after the other, and the texts of
the tokens with blanks between them are lexed to the same tokens. -/
theorem lexer_lossless_stable {code : Text} {tokens : List Token}
    (h : lexer noPlugins code = .ok tokens) :
    (∃ lexemes : List Lexeme, code = (lexemes.map Lexeme.written).flatten
      ∧ (∀ lexeme ∈ lexemes, lexeme.Recognised) ∧ TokensOf ⟨1, 1⟩ lexemes tokens)
    ∧ ∃ again, lexer noPlugins (spaced (tokens.map Token.value)) = .ok again
      ∧ again.map (fun token => (token.type, token.value))
        = tokens.map (fun token => (token.type, token.value)) := by
  have hlexed := lexed_of_lexerLoop le_rfl (apart_start code) h
  refine ⟨tokensOf_of_lexed hlexed, ?_⟩
  have hstable : ∀ t ∈ tokens.map (fun token => (token.type, token.value)), Stable t.1 t.2 := by
    intro t ht
    obtain ⟨token, htoken, rfl⟩ := List.mem_map.mp ht
    exact stable_of_lexed hlexed token htoken
  obtain ⟨again, hagain, hmap⟩ := @lexed_spaced _ hstable ⟨1, 1⟩ none rfl
  rw [List.map_map] at hagain
  exact ⟨again, lexerLoop_of_lexed hagain le_rfl, hmap⟩

/-- `0x1F` -/
theorem lexer_lossless_stable_hexadecimal :
    (∃ lexemes : List Lexeme, ['0', 'x', '1', 'F'] = (lexemes.map Lexeme.written).flatten
      ∧ (∀ lexeme ∈ lexemes, lexeme.Recognised)
      ∧ TokensOf ⟨1, 1⟩ lexemes [⟨.number, ['3', '1'], ⟨1, 1⟩⟩])
    ∧ ∃ again, lexer noPlugins (spaced [['3', '1']]) = .ok again
      ∧ again.map (fun token => (token.type, token.value)) = [(.number, ['3', '1'])] :=
  @lexer_lossless_stable ['0', 'x', '1', 'F'] _ rfl

end Lexer

end Absolute
