import Absolute.RtJson
import Mathlib.Data.List.DropRight

/-!
# What the JSON parser reads

`ReadsValue src v tokens rest`: the text `src` begins with a value `v`, `rest` is what
follows it, and `tokens` are the numbers and the strings it is written with, in their
order. The parser returns a value and the rest exactly where it can be read
(`parseValue_ok_iff`), and what is read is unique with its tokens
(`ReadsValue.unique`).
-/

namespace Absolute

namespace Json

/-- A number or the text between the quotes of a string, as it is written. -/
inductive Token where
  | number (text : NumberText)
  | string (body : Text)

/-- After an opening quote: the value of the string, its text and what follows the quote
that closes it. -/
inductive ReadsString : Text → Text → Text → Text → Prop
  | quote (rest : Text) : ReadsString (byte '"' :: rest) [] [] rest
  | raw {c : UInt8} {src s body rest : Text} (hq : c ≠ byte '"') (hb : c ≠ byte '\\')
      (h : ReadsString src s body rest) :
      ReadsString (c :: src) (c :: s) (c :: body) rest
  | escape {esc : UInt8} {src s body rest : Text} (hu : esc ≠ byte 'u')
      (h : ReadsString src s body rest) :
      ReadsString (byte '\\' :: esc :: src) (unescape esc :: s) (byte '\\' :: esc :: body) rest
  | unicode {h₁ h₂ h₃ h₄ : UInt8} {src s body rest : Text}
      (hex : [h₁, h₂, h₃, h₄].all isHex = true) (h : ReadsString src s body rest) :
      ReadsString (byte '\\' :: byte 'u' :: h₁ :: h₂ :: h₃ :: h₄ :: src)
        (encodeCode (strtoul [h₁, h₂, h₃, h₄]) ++ s)
        (byte '\\' :: byte 'u' :: h₁ :: h₂ :: h₃ :: h₄ :: body) rest

/-- The properties after the members that are assigned in turn. -/
def putAll (objectProperties members : List (Text × Node)) : List (Text × Node) :=
  members.foldl (fun l m => assign m.1 m.2 l) objectProperties

mutual

inductive ReadsValue : Text → Node → List Token → Text → Prop
  | null {src rest : Text} (h : skipWhitespace src = bytes "null" ++ rest) :
      ReadsValue src .null [] rest
  | isTrue {src rest : Text} (h : skipWhitespace src = bytes "true" ++ rest) :
      ReadsValue src (.bool true) [] rest
  | isFalse {src rest : Text} (h : skipWhitespace src = bytes "false" ++ rest) :
      ReadsValue src (.bool false) [] rest
  | number {src tail rest : Text} {c : UInt8} {n : NumberText} {val : Binary64}
      (h : skipWhitespace src = c :: tail) (hc : c = byte '-' ∨ isdigit c = true)
      (hn : scanNumber (c :: tail) = (n, rest)) (hval : strtod n.text = some val) :
      ReadsValue src (.number val) [.number n] rest
  | string {src tail s body rest : Text} (h : skipWhitespace src = byte '"' :: tail)
      (hs : ReadsString tail s body rest) : ReadsValue src (.string s) [.string body] rest
  | emptyArray {src inner rest : Text} (h : skipWhitespace src = byte '[' :: inner)
      (hend : skipWhitespace inner = byte ']' :: rest) : ReadsValue src (.array []) [] rest
  | array {src inner rest : Text} {elements : List Node} {tokens : List Token}
      (h : skipWhitespace src = byte '[' :: inner)
      (he : ReadsElements inner elements tokens rest) :
      ReadsValue src (.array elements) tokens rest
  | emptyObject {src inner rest : Text} (h : skipWhitespace src = byte '\x7b' :: inner)
      (hend : skipWhitespace inner = byte '\x7d' :: rest) : ReadsValue src (.object []) [] rest
  | object {src inner rest : Text} {members : List (Text × Node)} {tokens : List Token}
      (h : skipWhitespace src = byte '\x7b' :: inner)
      (hm : ReadsMembers inner members tokens rest) :
      ReadsValue src (.object (putAll [] members)) tokens rest

inductive ReadsElements : Text → List Node → List Token → Text → Prop
  | last {src after rest : Text} {v : Node} {tokens : List Token}
      (hv : ReadsValue src v tokens after) (hend : skipWhitespace after = byte ']' :: rest) :
      ReadsElements src [v] tokens rest
  | more {src after next rest : Text} {v : Node} {elements : List Node}
      {tokens tokens' : List Token} (hv : ReadsValue src v tokens after)
      (hsep : skipWhitespace after = byte ',' :: next)
      (he : ReadsElements next elements tokens' rest) :
      ReadsElements src (v :: elements) (tokens ++ tokens') rest

/-- The members of an object as they are written, a key that comes again included. -/
inductive ReadsMembers : Text → List (Text × Node) → List Token → Text → Prop
  | last {src tail key body afterKey inner after rest : Text} {v : Node}
      {tokens : List Token} (hq : skipWhitespace src = byte '"' :: tail)
      (hk : ReadsString tail key body afterKey)
      (hcolon : skipWhitespace afterKey = byte ':' :: inner)
      (hv : ReadsValue inner v tokens after)
      (hend : skipWhitespace after = byte '\x7d' :: rest) :
      ReadsMembers src [(key, v)] (.string body :: tokens) rest
  | more {src tail key body afterKey inner after next rest : Text} {v : Node}
      {members : List (Text × Node)} {tokens tokens' : List Token}
      (hq : skipWhitespace src = byte '"' :: tail)
      (hk : ReadsString tail key body afterKey)
      (hcolon : skipWhitespace afterKey = byte ':' :: inner)
      (hv : ReadsValue inner v tokens after)
      (hsep : skipWhitespace after = byte ',' :: next)
      (hm : ReadsMembers next members tokens' rest) :
      ReadsMembers src ((key, v) :: members) (.string body :: tokens ++ tokens') rest

end

/-! ## What is read is taken off the text -/

theorem skipWhitespace_length_le (src : Text) : (skipWhitespace src).length ≤ src.length :=
  (List.dropWhile_suffix _).length_le

theorem length_lt_of_skipWhitespace {src rest : Text} {c : UInt8}
    (h : skipWhitespace src = c :: rest) : rest.length < src.length := by
  have := skipWhitespace_length_le src
  rw [h, List.length_cons] at this
  exact this

theorem ReadsString.length_lt {src s body rest : Text} (h : ReadsString src s body rest) :
    rest.length < src.length := by
  induction h <;> simp only [List.length_cons] at * <;> omega

theorem scanSign_append (src : Text) : (scanSign src).1 ++ (scanSign src).2 = src := by
  unfold scanSign
  split
  · split <;> simp
  · rfl

theorem scanDigits_append (src : Text) : (scanDigits src).1 ++ (scanDigits src).2 = src :=
  List.takeWhile_append_dropWhile

theorem scanFraction_append (src : Text) :
    (scanFraction src).1 ++ (scanFraction src).2 = src := by
  unfold scanFraction
  split
  · split <;> simp [scanDigits_append]
  · rfl

theorem scanExponentSign_append (src : Text) :
    (scanExponentSign src).1 ++ (scanExponentSign src).2 = src := by
  unfold scanExponentSign
  split
  · split <;> simp
  · rfl

theorem scanExponent_append (src : Text) :
    (scanExponent src).1 ++ (scanExponent src).2 = src := by
  unfold scanExponent
  split
  · split
    · simp [scanDigits_append, scanExponentSign_append]
    · rfl
  · rfl

/-- The scanner of a number splits the text. -/
theorem scanNumber_append (src : Text) : (scanNumber src).1.text ++ (scanNumber src).2 = src := by
  simp only [scanNumber, NumberText.text, List.append_assoc, scanExponent_append,
    scanFraction_append, scanDigits_append, scanSign_append]

theorem eq_of_scanNumber {src rest : Text} {n : NumberText} (h : scanNumber src = (n, rest)) :
    src = n.text ++ rest := by
  rw [← scanNumber_append src, h]

theorem scanNumber_length_lt {c : UInt8} {tail rest : Text} {n : NumberText}
    (hc : c = byte '-' ∨ isdigit c = true) (h : scanNumber (c :: tail) = (n, rest)) :
    rest.length ≤ tail.length := by
  have happ := congrArg List.length (eq_of_scanNumber h)
  have hpos : 0 < n.text.length := by
    have hn : n = (scanNumber (c :: tail)).1 := by rw [h]
    rcases hc with rfl | hdigit
    · simp [hn, scanNumber, NumberText.text, scanSign]
    · have hne : c ≠ byte '-' := by rintro rfl; simp [isdigit] at hdigit
      simp only [hn, scanNumber, NumberText.text, scanSign, if_neg hne]
      simp [scanDigits, hdigit]
  simp only [List.length_append, List.length_cons] at happ
  omega

mutual

theorem ReadsValue.length_lt {src rest : Text} {v : Node} {tokens : List Token} :
    ReadsValue src v tokens rest → rest.length < src.length
  | .null h => by
    have := skipWhitespace_length_le src
    rw [h] at this
    simp [bytes] at this
    omega
  | .isTrue h => by
    have := skipWhitespace_length_le src
    rw [h] at this
    simp [bytes] at this
    omega
  | .isFalse h => by
    have := skipWhitespace_length_le src
    rw [h] at this
    simp [bytes] at this
    omega
  | .number h hc hn _ =>
    (scanNumber_length_lt hc hn).trans_lt (length_lt_of_skipWhitespace h)
  | .string h hs => hs.length_lt.trans (length_lt_of_skipWhitespace h)
  | .emptyArray h hend =>
    (length_lt_of_skipWhitespace hend).trans (length_lt_of_skipWhitespace h)
  | .array h he => he.length_lt.trans (length_lt_of_skipWhitespace h)
  | .emptyObject h hend =>
    (length_lt_of_skipWhitespace hend).trans (length_lt_of_skipWhitespace h)
  | .object h hm => hm.length_lt.trans (length_lt_of_skipWhitespace h)

theorem ReadsElements.length_lt {src rest : Text} {elements : List Node} {tokens : List Token} :
    ReadsElements src elements tokens rest → rest.length < src.length
  | .last hv hend => (length_lt_of_skipWhitespace hend).trans hv.length_lt
  | .more hv hsep he =>
    he.length_lt.trans ((length_lt_of_skipWhitespace hsep).trans hv.length_lt)

theorem ReadsMembers.length_lt {src rest : Text} {members : List (Text × Node)}
    {tokens : List Token} : ReadsMembers src members tokens rest → rest.length < src.length
  | .last hq hk hcolon hv hend =>
    calc _ < _ := length_lt_of_skipWhitespace hend
      _ < _ := hv.length_lt
      _ < _ := length_lt_of_skipWhitespace hcolon
      _ < _ := hk.length_lt
      _ < _ := length_lt_of_skipWhitespace hq
  | .more hq hk hcolon hv hsep hm =>
    calc _ < _ := hm.length_lt
      _ < _ := length_lt_of_skipWhitespace hsep
      _ < _ := hv.length_lt
      _ < _ := length_lt_of_skipWhitespace hcolon
      _ < _ := hk.length_lt
      _ < _ := length_lt_of_skipWhitespace hq

end

/-! ## White space before a value is nothing to it -/

section SkipWhitespace

variable {src src' rest : Text} {tokens : List Token}

theorem ReadsValue.congr (heq : skipWhitespace src' = skipWhitespace src) {v : Node} :
    ReadsValue src v tokens rest → ReadsValue src' v tokens rest
  | .null h => .null (heq.trans h)
  | .isTrue h => .isTrue (heq.trans h)
  | .isFalse h => .isFalse (heq.trans h)
  | .number h hc hn hval => .number (heq.trans h) hc hn hval
  | .string h hs => .string (heq.trans h) hs
  | .emptyArray h hend => .emptyArray (heq.trans h) hend
  | .array h he => .array (heq.trans h) he
  | .emptyObject h hend => .emptyObject (heq.trans h) hend
  | .object h hm => .object (heq.trans h) hm

theorem ReadsElements.congr (heq : skipWhitespace src' = skipWhitespace src)
    {elements : List Node} :
    ReadsElements src elements tokens rest → ReadsElements src' elements tokens rest
  | .last hv hend => .last (hv.congr heq) hend
  | .more hv hsep he => .more (hv.congr heq) hsep he

theorem ReadsMembers.congr (heq : skipWhitespace src' = skipWhitespace src)
    {members : List (Text × Node)} :
    ReadsMembers src members tokens rest → ReadsMembers src' members tokens rest
  | .last hq hk hcolon hv hend => .last (heq.trans hq) hk hcolon hv hend
  | .more hq hk hcolon hv hsep hm => .more (heq.trans hq) hk hcolon hv hsep hm

theorem skipWhitespace_skipWhitespace (src : Text) :
    skipWhitespace (skipWhitespace src) = skipWhitespace src :=
  List.dropWhile_idempotent _ _

end SkipWhitespace

/-! ## The parser reads it -/

section StringBody

variable (res src : Text) {c esc h₁ h₂ h₃ h₄ : UInt8}

theorem parseStringBody_cons :
    parseStringBody res (c :: src) =
      if c = byte '"' then .ok (res, src)
      else if c = byte '\\' then
        match src with
        | [] => .error .unterminatedEscape
        | esc :: src =>
          if esc = byte 'u' then
            match src with
            | h₁ :: h₂ :: h₃ :: h₄ :: src =>
              if [h₁, h₂, h₃, h₄].all isHex then
                parseStringBody (res ++ encodeCode (strtoul [h₁, h₂, h₃, h₄])) src
              else .error .invalidUnicode
            | _ => .error .incompleteUnicode
          else parseStringBody (res ++ [unescape esc]) src
      else parseStringBody (res ++ [c]) src := by
  rw [parseStringBody.eq_def]
  rfl

theorem parseStringBody_quote : parseStringBody res (byte '"' :: src) = .ok (res, src) := by
  rw [parseStringBody_cons]
  exact if_pos rfl

theorem parseStringBody_raw (hq : c ≠ byte '"') (hb : c ≠ byte '\\') :
    parseStringBody res (c :: src) = parseStringBody (res ++ [c]) src := by
  rw [parseStringBody_cons, if_neg hq, if_neg hb]

theorem parseStringBody_escape (hu : esc ≠ byte 'u') :
    parseStringBody res (byte '\\' :: esc :: src) =
      parseStringBody (res ++ [unescape esc]) src := by
  rw [parseStringBody_cons, if_neg (by decide), if_pos rfl]
  exact if_neg hu

theorem parseStringBody_unicode (hex : [h₁, h₂, h₃, h₄].all isHex = true) :
    parseStringBody res (byte '\\' :: byte 'u' :: h₁ :: h₂ :: h₃ :: h₄ :: src) =
      parseStringBody (res ++ encodeCode (strtoul [h₁, h₂, h₃, h₄])) src := by
  rw [parseStringBody_cons, if_neg (by decide), if_pos rfl]
  dsimp only
  rw [if_pos rfl, if_pos hex]

end StringBody

theorem ReadsString.parse {src s body rest : Text} (h : ReadsString src s body rest) (res : Text) :
    parseStringBody res src = .ok (res ++ s, rest) := by
  induction h generalizing res with
  | quote rest => rw [parseStringBody_quote, List.append_nil]
  | raw hq hb _ ih => rw [parseStringBody_raw _ _ hq hb, ih, ← List.append_cons]
  | escape hu _ ih => rw [parseStringBody_escape _ _ hu, ih, ← List.append_cons]
  | unicode hex _ ih => rw [parseStringBody_unicode _ _ hex, ih, List.append_assoc]

theorem readsString_of_parse {res src s rest : Text}
    (h : parseStringBody res src = .ok (s, rest)) :
    ∃ t body, s = res ++ t ∧ ReadsString src t body rest := by
  fun_induction parseStringBody res src with
  | case1 => cases h
  | case2 res src =>
    cases h
    exact ⟨[], [], by simp, .quote _⟩
  | case3 => cases h
  | case4 res h₁ h₂ h₃ h₄ src hex _ ih =>
    obtain ⟨t, body, rfl, ht⟩ := ih h
    exact ⟨_, _, List.append_assoc .., .unicode hex ht⟩
  | case5 => cases h
  | case6 => cases h
  | case7 res esc src hu _ ih =>
    obtain ⟨t, body, rfl, ht⟩ := ih h
    exact ⟨_, _, (List.append_cons ..).symm, .escape hu ht⟩
  | case8 res c src hq hb ih =>
    obtain ⟨t, body, rfl, ht⟩ := ih h
    exact ⟨_, _, (List.append_cons ..).symm, .raw hq hb ht⟩

theorem parseString_ok_iff {src s rest : Text} :
    parseString (byte '"' :: src) = .ok (s, rest) ↔ ∃ body, ReadsString src s body rest := by
  rw [parseString, if_pos rfl]
  constructor
  · intro h
    obtain ⟨t, body, rfl, ht⟩ := readsString_of_parse h
    exact ⟨body, ht⟩
  · rintro ⟨body, h⟩
    exact h.parse []

/-- What is asked of the parser of the values that are nested. -/
def Parses (bound : ℕ) (parseValue : Text → Parsed Node) : Prop :=
  ∀ ⦃src v rest⦄, src.length ≤ bound →
    (parseValue src = .ok (v, rest) ↔ ∃ tokens, ReadsValue src v tokens rest)

section Nested

variable {bound rounds : ℕ} {parseValue : Text → Parsed Node} {src rest : Text} {v : Node}

theorem readsElements_of_parse (hp : Parses bound parseValue) {acc : List Node}
    (hsrc : src.length ≤ bound) (h : parseElements parseValue rounds acc src = .ok (v, rest)) :
    ∃ elements tokens, v = .array (acc ++ elements) ∧
      ReadsElements src elements tokens rest := by
  induction rounds generalizing acc src with
  | zero => cases h
  | succ rounds ih =>
    rcases src with _ | ⟨c, src⟩
    · cases h
    rw [parseElements] at h
    split at h
    · cases h
    next elem after hv =>
      obtain ⟨tokens, hv⟩ := (hp hsrc).mp hv
      split at h
      · cases h
      next c' next hsep =>
        split_ifs at h with hend hcomma
        · cases h
          exact ⟨[elem], tokens, rfl, .last hv (hend ▸ hsep)⟩
        · have hlt : next.length ≤ bound :=
            ((length_lt_of_skipWhitespace hsep).trans hv.length_lt).le.trans hsrc
          obtain ⟨elements, tokens', rfl, he⟩ := ih hlt h
          exact ⟨elem :: elements, _, by simp, .more hv (hcomma ▸ hsep) he⟩

theorem ReadsElements.parse (hp : Parses bound parseValue) {acc elements : List Node}
    {tokens : List Token} (hsrc : src.length ≤ bound) (hrounds : src.length ≤ rounds)
    (h : ReadsElements src elements tokens rest) :
    parseElements parseValue rounds acc src = .ok (.array (acc ++ elements), rest) := by
  induction rounds generalizing acc src elements tokens with
  | zero => exact absurd (h.length_lt.trans_le hrounds) (Nat.not_lt_zero _)
  | succ rounds ih =>
    have hpos := h.length_lt
    rcases src with _ | ⟨c, src⟩
    · exact absurd hpos (Nat.not_lt_zero _)
    cases h with
    | last hv hend => simp [parseElements, (hp hsrc).mpr ⟨_, hv⟩, hend]
    | @more _ _ _ _ elem _ _ _ hv hsep he =>
      have hlt := (length_lt_of_skipWhitespace hsep).trans hv.length_lt
      have hnext := @ih _ (acc ++ [elem]) _ _ (hlt.le.trans hsrc) (by omega) he
      simp [parseElements, (hp hsrc).mpr ⟨_, hv⟩, hsep, hnext]

theorem readsMembers_of_parse (hp : Parses bound parseValue) {acc : List (Text × Node)}
    (hsrc : src.length ≤ bound) (h : parseMembers parseValue rounds acc src = .ok (v, rest)) :
    ∃ members tokens, v = .object (putAll acc members) ∧
      ReadsMembers src members tokens rest := by
  induction rounds generalizing acc src with
  | zero => cases h
  | succ rounds ih =>
    rcases src with _ | ⟨c, src⟩
    · cases h
    rw [parseMembers] at h
    split at h
    · cases h
    next q tail hq =>
      rw [ite_not] at h
      split_ifs at h with hquote
      subst hquote
      split at h
      · cases h
      next key afterKey hk =>
        obtain ⟨body, hk⟩ := parseString_ok_iff.mp hk
        split at h
        · cases h
        next colon inner hcolon =>
          rw [ite_not] at h
          split_ifs at h with hc
          subst hc
          have hinner : inner.length < (c :: src).length :=
            (length_lt_of_skipWhitespace hcolon).trans
              (hk.length_lt.trans (length_lt_of_skipWhitespace hq))
          split at h
          · cases h
          next value after hv =>
            obtain ⟨tokens, hv⟩ := (hp (hinner.le.trans hsrc)).mp hv
            dsimp only at h
            split at h
            · cases h
            next c' next hsep =>
              split_ifs at h with hend hcomma
              · cases h
                exact ⟨[(key, value)], _, rfl, .last hq hk hcolon hv (hend ▸ hsep)⟩
              · have hlt : next.length ≤ bound :=
                  ((length_lt_of_skipWhitespace hsep).trans
                    (hv.length_lt.trans hinner)).le.trans hsrc
                obtain ⟨members, tokens', rfl, hm⟩ := ih hlt h
                exact ⟨(key, value) :: members, _, rfl,
                  .more hq hk hcolon hv (hcomma ▸ hsep) hm⟩

/-- What the loop does after a member. -/
theorem parseMembers_cons {acc : List (Text × Node)} {c : UInt8}
    {tail key afterKey inner after : Text} {value : Node}
    (hq : skipWhitespace (c :: src) = byte '"' :: tail)
    (hk : parseString (byte '"' :: tail) = .ok (key, afterKey))
    (hcolon : skipWhitespace afterKey = byte ':' :: inner)
    (hv : parseValue inner = .ok (value, after)) :
    parseMembers parseValue (rounds + 1) acc (c :: src) =
      match skipWhitespace after with
      | [] => .error .expectedCommaOrBrace
      | c :: src =>
        if c = byte '\x7d' then .ok (.object (assign key value acc), src)
        else if c = byte ',' then parseMembers parseValue rounds (assign key value acc) src
        else .error .expectedCommaOrBrace := by
  rw [parseMembers, hq]
  dsimp only
  rw [if_neg (not_not.mpr rfl), hk]
  dsimp only
  rw [hcolon]
  dsimp only
  rw [if_neg (not_not.mpr rfl)]
  generalize parseValue inner = out at hv ⊢
  subst hv
  rfl

theorem ReadsMembers.parse (hp : Parses bound parseValue) {acc members : List (Text × Node)}
    {tokens : List Token} (hsrc : src.length ≤ bound) (hrounds : src.length ≤ rounds)
    (h : ReadsMembers src members tokens rest) :
    parseMembers parseValue rounds acc src = .ok (.object (putAll acc members), rest) := by
  induction rounds generalizing acc src members tokens with
  | zero => exact absurd (h.length_lt.trans_le hrounds) (Nat.not_lt_zero _)
  | succ rounds ih =>
    have hpos := h.length_lt
    rcases src with _ | ⟨c, src⟩
    · exact absurd hpos (Nat.not_lt_zero _)
    cases h with
    | last hq hk hcolon hv hend =>
      have hinner := (length_lt_of_skipWhitespace hcolon).trans
        (hk.length_lt.trans (length_lt_of_skipWhitespace hq))
      rw [parseMembers_cons hq (parseString_ok_iff.mpr ⟨_, hk⟩) hcolon
        ((hp (hinner.le.trans hsrc)).mpr ⟨_, hv⟩)]
      simp [hend, putAll]
    | @more _ _ key _ _ _ _ _ _ value _ _ _ hq hk hcolon hv hsep hm =>
      have hinner := (length_lt_of_skipWhitespace hcolon).trans
        (hk.length_lt.trans (length_lt_of_skipWhitespace hq))
      have hlt := (length_lt_of_skipWhitespace hsep).trans (hv.length_lt.trans hinner)
      have hnext := @ih _ (assign key value acc) _ _ (hlt.le.trans hsrc) (by omega) hm
      rw [parseMembers_cons hq (parseString_ok_iff.mpr ⟨_, hk⟩) hcolon
        ((hp (hinner.le.trans hsrc)).mpr ⟨_, hv⟩)]
      simp [hsep, hnext, putAll]

theorem ReadsValue.ne_bracket {tokens : List Token} (h : ReadsValue src v tokens rest) :
    ∃ c tail, skipWhitespace src = c :: tail ∧ c ≠ byte ']' := by
  cases h with
  | null h => exact ⟨_, _, h, by decide⟩
  | isTrue h => exact ⟨_, _, h, by decide⟩
  | isFalse h => exact ⟨_, _, h, by decide⟩
  | number h hc =>
    refine ⟨_, _, h, ?_⟩
    rintro rfl
    simp [isdigit] at hc
  | string h => exact ⟨_, _, h, by decide⟩
  | emptyArray h => exact ⟨_, _, h, by decide⟩
  | array h => exact ⟨_, _, h, by decide⟩
  | emptyObject h => exact ⟨_, _, h, by decide⟩
  | object h => exact ⟨_, _, h, by decide⟩

theorem ReadsElements.ne_bracket {elements : List Node} {tokens : List Token} :
    ReadsElements src elements tokens rest →
      ∃ c tail, skipWhitespace src = c :: tail ∧ c ≠ byte ']'
  | .last hv _ => hv.ne_bracket
  | .more hv _ _ => hv.ne_bracket

theorem ReadsElements.ne_end {after : Text} {elements : List Node} {tokens : List Token}
    (he : ReadsElements src elements tokens rest) : skipWhitespace src ≠ byte ']' :: after := by
  obtain ⟨c, tail, hc, hne⟩ := he.ne_bracket
  intro hend
  exact hne (List.cons.inj (hc.symm.trans hend)).1

theorem ReadsMembers.quote {members : List (Text × Node)} {tokens : List Token} :
    ReadsMembers src members tokens rest → ∃ tail, skipWhitespace src = byte '"' :: tail
  | .last hq _ _ _ _ => ⟨_, hq⟩
  | .more hq _ _ _ _ _ => ⟨_, hq⟩

theorem ReadsMembers.ne_end {after : Text} {members : List (Text × Node)} {tokens : List Token}
    (hm : ReadsMembers src members tokens rest) :
    skipWhitespace src ≠ byte '\x7d' :: after := by
  obtain ⟨tail, hq⟩ := hm.quote
  simp [hq]

theorem parseArray_ok_iff (hp : Parses bound parseValue) (hsrc : src.length ≤ bound) :
    parseArray parseValue src = .ok (v, rest) ↔
      (v = .array [] ∧ skipWhitespace src = byte ']' :: rest) ∨
        ∃ elements tokens, v = .array elements ∧ ReadsElements src elements tokens rest := by
  have hidem := skipWhitespace_skipWhitespace src
  have hle := (skipWhitespace_length_le src).trans hsrc
  constructor
  · intro h
    unfold parseArray at h
    split at h
    · cases h
    next c tail hc =>
      split_ifs at h with hclose
      · cases h
        exact .inl ⟨rfl, hclose ▸ hc⟩
      · obtain ⟨elements, tokens, rfl, he⟩ := readsElements_of_parse hp (hc ▸ hle) h
        exact .inr ⟨elements, tokens, rfl, (hc ▸ he).congr hidem.symm⟩
  · rintro (⟨rfl, hclose⟩ | ⟨elements, tokens, rfl, he⟩)
    · simp [parseArray, hclose]
    · obtain ⟨c, tail, hc, hne⟩ := he.ne_bracket
      have hparse := @ReadsElements.parse _ _ _ _ _ hp [] _ _ hle le_rfl (he.congr hidem)
      rw [hc] at hparse
      simp only [parseArray, hc, if_neg hne]
      exact hparse

theorem parseObject_ok_iff (hp : Parses bound parseValue) (hsrc : src.length ≤ bound) :
    parseObject parseValue src = .ok (v, rest) ↔
      (v = .object [] ∧ skipWhitespace src = byte '\x7d' :: rest) ∨
        ∃ members tokens, v = .object (putAll [] members) ∧
          ReadsMembers src members tokens rest := by
  have hidem := skipWhitespace_skipWhitespace src
  have hle := (skipWhitespace_length_le src).trans hsrc
  constructor
  · intro h
    unfold parseObject at h
    split at h
    · cases h
    next c tail hc =>
      split_ifs at h with hclose
      · cases h
        exact .inl ⟨rfl, hclose ▸ hc⟩
      · obtain ⟨members, tokens, rfl, hm⟩ := readsMembers_of_parse hp (hc ▸ hle) h
        exact .inr ⟨members, tokens, rfl, (hc ▸ hm).congr hidem.symm⟩
  · rintro (⟨rfl, hclose⟩ | ⟨members, tokens, rfl, hm⟩)
    · simp [parseObject, hclose]
    · obtain ⟨tail, hc⟩ := hm.quote
      have hparse := @ReadsMembers.parse _ _ _ _ _ hp [] _ _ hle le_rfl (hm.congr hidem)
      rw [hc] at hparse
      simp only [parseObject, hc, if_neg (show byte '"' ≠ byte '\x7d' by decide)]
      exact hparse

end Nested

theorem readsValue_of_parseNull {src rest : Text} {v : Node}
    (h : parseNull (skipWhitespace src) = .ok (v, rest)) : ReadsValue src v [] rest := by
  unfold parseNull at h
  split_ifs at h with hnull
  obtain ⟨tail, htail⟩ := List.isPrefixOf_iff_prefix.mp hnull
  rw [← htail] at h
  cases h
  exact .null htail.symm

theorem readsValue_of_parseBool {src rest : Text} {v : Node}
    (h : parseBool (skipWhitespace src) = .ok (v, rest)) : ReadsValue src v [] rest := by
  unfold parseBool at h
  split_ifs at h with htrue hfalse
  · obtain ⟨tail, htail⟩ := List.isPrefixOf_iff_prefix.mp htrue
    rw [← htail] at h
    cases h
    exact .isTrue htail.symm
  · obtain ⟨tail, htail⟩ := List.isPrefixOf_iff_prefix.mp hfalse
    rw [← htail] at h
    cases h
    exact .isFalse htail.symm

theorem readsValue_of_parse {depth : ℕ} (hp : Parses depth (parseValue depth))
    {src rest : Text} {v : Node} (hsrc : src.length ≤ depth + 1)
    (h : parseValue (depth + 1) src = .ok (v, rest)) :
    ∃ tokens, ReadsValue src v tokens rest := by
  rw [parseValue] at h
  split at h
  · cases h
  next c tail hc =>
    have htail : tail.length ≤ depth :=
      Nat.lt_succ_iff.mp ((length_lt_of_skipWhitespace hc).trans_le hsrc)
    split_ifs at h with hn hb hq ha ho hnum
    · exact ⟨[], readsValue_of_parseNull (hc ▸ h)⟩
    · exact ⟨[], readsValue_of_parseBool (hc ▸ h)⟩
    · subst hq
      cases hs : parseString (byte '"' :: tail) with
      | error e => rw [hs] at h; cases h
      | ok out =>
        rw [hs] at h
        cases h
        obtain ⟨body, hs⟩ := parseString_ok_iff.mp hs
        exact ⟨_, .string hc hs⟩
    · subst ha
      rcases (parseArray_ok_iff hp htail).mp h with ⟨rfl, hend⟩ | ⟨elements, tokens, rfl, he⟩
      · exact ⟨_, .emptyArray hc hend⟩
      · exact ⟨_, .array hc he⟩
    · subst ho
      rcases (parseObject_ok_iff hp htail).mp h with ⟨rfl, hend⟩ | ⟨members, tokens, rfl, hm⟩
      · exact ⟨_, .emptyObject hc hend⟩
      · exact ⟨_, .object hc hm⟩
    · unfold parseNumber at h
      dsimp only at h
      split at h
      · cases h
      next val hval =>
        cases h
        exact ⟨_, .number hc hnum rfl hval⟩

theorem ReadsValue.parse {depth : ℕ} (hp : Parses depth (parseValue depth))
    {src rest : Text} {v : Node} {tokens : List Token} (hsrc : src.length ≤ depth + 1)
    (h : ReadsValue src v tokens rest) : parseValue (depth + 1) src = .ok (v, rest) := by
  have htail {c tail} (hc : skipWhitespace src = c :: tail) : tail.length ≤ depth :=
    Nat.lt_succ_iff.mp ((length_lt_of_skipWhitespace hc).trans_le hsrc)
  cases h with
  | null h => simp [parseValue, h, bytes, parseNull]
  | isTrue h => simp [parseValue, h, bytes, parseBool]
  | isFalse h => simp [parseValue, h, bytes, parseBool]
  | @number _ tail _ c n val h hc hn hval =>
    have hne {l : UInt8} (hl : isdigit l = false ∧ l ≠ byte '-') : c ≠ l := by
      rintro rfl
      exact hc.elim hl.2 (by simp [hl.1])
    have hn' : c ≠ byte 'n' := hne (by decide)
    have ht : ¬(c = byte 't' ∨ c = byte 'f') := not_or.mpr ⟨hne (by decide), hne (by decide)⟩
    have hq : c ≠ byte '"' := hne (by decide)
    have ha : c ≠ byte '[' := hne (by decide)
    have ho : c ≠ byte '\x7b' := hne (by decide)
    simp only [parseValue, h, if_neg hn', if_neg ht, if_neg hq, if_neg ha, if_neg ho, if_pos hc,
      parseNumber, hn, hval]
  | string h hs =>
    have hs := parseString_ok_iff.mpr ⟨_, hs⟩
    simp only [parseValue, h]
    rw [if_neg (by decide), if_neg (by decide), if_pos trivial, hs]
    rfl
  | emptyArray h hend =>
    have hparse := (parseArray_ok_iff hp (htail h)).mpr (.inl ⟨rfl, hend⟩)
    simpa [parseValue, h] using hparse
  | array h he =>
    have hparse := (parseArray_ok_iff hp (htail h)).mpr (.inr ⟨_, _, rfl, he⟩)
    simpa [parseValue, h] using hparse
  | emptyObject h hend =>
    have hparse := (parseObject_ok_iff hp (htail h)).mpr (.inl ⟨rfl, hend⟩)
    simpa [parseValue, h] using hparse
  | object h hm =>
    have hparse := (parseObject_ok_iff hp (htail h)).mpr (.inr ⟨_, _, rfl, hm⟩)
    simpa [parseValue, h] using hparse

/-- The parser of a value reads the values that can be read, and no more. -/
theorem parses_parseValue : ∀ depth, Parses depth (parseValue depth)
  | 0 => fun src v rest hsrc =>
    ⟨fun h => (by cases h),
      fun ⟨_, h⟩ => absurd (h.length_lt.trans_le hsrc) (Nat.not_lt_zero _)⟩
  | depth + 1 => fun _ _ _ hsrc =>
    have hp := parses_parseValue depth
    ⟨readsValue_of_parse hp hsrc, fun ⟨_, h⟩ => h.parse hp hsrc⟩

/-! ## What is read is unique -/

theorem ReadsString.unique {src s s' body body' rest rest' : Text}
    (h : ReadsString src s body rest) (h' : ReadsString src s' body' rest') :
    s = s' ∧ body = body' ∧ rest = rest' := by
  induction h generalizing s' body' with
  | quote rest =>
    cases h' with
    | quote => exact ⟨rfl, rfl, rfl⟩
    | raw hq => exact absurd rfl hq
  | raw hq hb _ ih =>
    cases h' with
    | quote => exact absurd rfl hq
    | raw _ _ h' =>
      obtain ⟨rfl, rfl, rfl⟩ := ih h'
      exact ⟨rfl, rfl, rfl⟩
    | escape => exact absurd rfl hb
    | unicode => exact absurd rfl hb
  | escape hu _ ih =>
    cases h' with
    | raw _ hb => exact absurd rfl hb
    | escape _ h' =>
      obtain ⟨rfl, rfl, rfl⟩ := ih h'
      exact ⟨rfl, rfl, rfl⟩
    | unicode => exact absurd rfl hu
  | unicode _ _ ih =>
    cases h' with
    | raw _ hb => exact absurd rfl hb
    | escape hu => exact absurd rfl hu
    | unicode _ h' =>
      obtain ⟨rfl, rfl, rfl⟩ := ih h'
      exact ⟨rfl, rfl, rfl⟩

section Inversion

variable {src tail rest : Text} {v : Node} {tokens : List Token}

theorem ReadsValue.of_quote (hsrc : skipWhitespace src = byte '"' :: tail)
    (h : ReadsValue src v tokens rest) :
    ∃ s body, v = .string s ∧ tokens = [.string body] ∧ ReadsString tail s body rest := by
  cases h with
  | string h hs =>
    rw [hsrc] at h
    cases h
    exact ⟨_, _, rfl, rfl, hs⟩
  | number h hc =>
    rw [hsrc] at h
    cases h
    simp [isdigit] at hc
  | null h | isTrue h | isFalse h | emptyArray h | array h | emptyObject h | object h =>
    simp [hsrc, bytes] at h

theorem ReadsValue.of_bracket (hsrc : skipWhitespace src = byte '[' :: tail)
    (h : ReadsValue src v tokens rest) :
    (v = .array [] ∧ tokens = [] ∧ skipWhitespace tail = byte ']' :: rest) ∨
      ∃ elements, v = .array elements ∧ ReadsElements tail elements tokens rest := by
  cases h with
  | emptyArray h hend =>
    rw [hsrc] at h
    cases h
    exact .inl ⟨rfl, rfl, hend⟩
  | array h he =>
    rw [hsrc] at h
    cases h
    exact .inr ⟨_, rfl, he⟩
  | number h hc =>
    rw [hsrc] at h
    cases h
    simp [isdigit] at hc
  | null h | isTrue h | isFalse h | string h | emptyObject h | object h =>
    simp [hsrc, bytes] at h

theorem ReadsValue.of_brace (hsrc : skipWhitespace src = byte '\x7b' :: tail)
    (h : ReadsValue src v tokens rest) :
    (v = .object [] ∧ tokens = [] ∧ skipWhitespace tail = byte '\x7d' :: rest) ∨
      ∃ members, v = .object (putAll [] members) ∧ ReadsMembers tail members tokens rest := by
  cases h with
  | emptyObject h hend =>
    rw [hsrc] at h
    cases h
    exact .inl ⟨rfl, rfl, hend⟩
  | object h hm =>
    rw [hsrc] at h
    cases h
    exact .inr ⟨_, rfl, hm⟩
  | number h hc =>
    rw [hsrc] at h
    cases h
    simp [isdigit] at hc
  | null h | isTrue h | isFalse h | string h | emptyArray h | array h =>
    simp [hsrc, bytes] at h

theorem ReadsValue.of_number {c : UInt8} (hc : c = byte '-' ∨ isdigit c = true)
    (hsrc : skipWhitespace src = c :: tail) (h : ReadsValue src v tokens rest) :
    ∃ n val, v = .number val ∧ tokens = [.number n] ∧ scanNumber (c :: tail) = (n, rest) ∧
      strtod n.text = some val := by
  cases h with
  | number h _ hn hval =>
    rw [hsrc] at h
    cases h
    exact ⟨_, _, rfl, rfl, hn, hval⟩
  | null h | isTrue h | isFalse h =>
    simp [hsrc, bytes] at h
    obtain ⟨rfl, -⟩ := h
    simp [isdigit] at hc
  | string h | emptyArray h | array h | emptyObject h | object h =>
    rw [hsrc] at h
    cases h
    simp [isdigit] at hc

theorem ReadsValue.of_null (hsrc : skipWhitespace src = bytes "null" ++ tail)
    (h : ReadsValue src v tokens rest) : v = .null ∧ tokens = [] ∧ rest = tail := by
  cases h with
  | null h => exact ⟨rfl, rfl, List.append_cancel_left (h.symm.trans hsrc)⟩
  | number h hc =>
    simp only [hsrc, bytes] at h
    obtain ⟨rfl, -⟩ := List.cons.inj h
    exact absurd hc (by decide)
  | isTrue h | isFalse h | string h | emptyArray h | array h | emptyObject h | object h =>
    simp [hsrc, bytes] at h

theorem ReadsValue.of_true (hsrc : skipWhitespace src = bytes "true" ++ tail)
    (h : ReadsValue src v tokens rest) : v = .bool true ∧ tokens = [] ∧ rest = tail := by
  cases h with
  | isTrue h => exact ⟨rfl, rfl, List.append_cancel_left (h.symm.trans hsrc)⟩
  | number h hc =>
    simp only [hsrc, bytes] at h
    obtain ⟨rfl, -⟩ := List.cons.inj h
    exact absurd hc (by decide)
  | null h | isFalse h | string h | emptyArray h | array h | emptyObject h | object h =>
    simp [hsrc, bytes] at h

theorem ReadsValue.of_false (hsrc : skipWhitespace src = bytes "false" ++ tail)
    (h : ReadsValue src v tokens rest) : v = .bool false ∧ tokens = [] ∧ rest = tail := by
  cases h with
  | isFalse h => exact ⟨rfl, rfl, List.append_cancel_left (h.symm.trans hsrc)⟩
  | number h hc =>
    simp only [hsrc, bytes] at h
    obtain ⟨rfl, -⟩ := List.cons.inj h
    exact absurd hc (by decide)
  | null h | isTrue h | string h | emptyArray h | array h | emptyObject h | object h =>
    simp [hsrc, bytes] at h

end Inversion

mutual

theorem ReadsValue.unique {src rest rest' : Text} {v v' : Node} {tokens tokens' : List Token} :
    ReadsValue src v tokens rest → ReadsValue src v' tokens' rest' →
      v = v' ∧ tokens = tokens' ∧ rest = rest'
  | .null h, h' => by
    obtain ⟨rfl, rfl, rfl⟩ := h'.of_null h
    exact ⟨rfl, rfl, rfl⟩
  | .isTrue h, h' => by
    obtain ⟨rfl, rfl, rfl⟩ := h'.of_true h
    exact ⟨rfl, rfl, rfl⟩
  | .isFalse h, h' => by
    obtain ⟨rfl, rfl, rfl⟩ := h'.of_false h
    exact ⟨rfl, rfl, rfl⟩
  | .number h hc hn hval, h' => by
    obtain ⟨n', val', rfl, rfl, hn', hval'⟩ := h'.of_number hc h
    cases hn.symm.trans hn'
    cases hval.symm.trans hval'
    exact ⟨rfl, rfl, rfl⟩
  | .string h hs, h' => by
    obtain ⟨s', body', rfl, rfl, hs'⟩ := h'.of_quote h
    obtain ⟨rfl, rfl, rfl⟩ := hs.unique hs'
    exact ⟨rfl, rfl, rfl⟩
  | .emptyArray h hend, h' => by
    obtain ⟨rfl, rfl, hend'⟩ | ⟨elements', rfl, he'⟩ := h'.of_bracket h
    · cases hend.symm.trans hend'
      exact ⟨rfl, rfl, rfl⟩
    · exact absurd hend he'.ne_end
  | .array h he, h' => by
    obtain ⟨rfl, rfl, hend'⟩ | ⟨elements', rfl, he'⟩ := h'.of_bracket h
    · exact absurd hend' he.ne_end
    · obtain ⟨rfl, rfl, rfl⟩ := he.unique he'
      exact ⟨rfl, rfl, rfl⟩
  | .emptyObject h hend, h' => by
    obtain ⟨rfl, rfl, hend'⟩ | ⟨members', rfl, hm'⟩ := h'.of_brace h
    · cases hend.symm.trans hend'
      exact ⟨rfl, rfl, rfl⟩
    · exact absurd hend hm'.ne_end
  | .object h hm, h' => by
    obtain ⟨rfl, rfl, hend'⟩ | ⟨members', rfl, hm'⟩ := h'.of_brace h
    · exact absurd hend' hm.ne_end
    · obtain ⟨rfl, rfl, rfl⟩ := hm.unique hm'
      exact ⟨rfl, rfl, rfl⟩

theorem ReadsElements.unique {src rest rest' : Text} {elements elements' : List Node}
    {tokens tokens' : List Token} :
    ReadsElements src elements tokens rest → ReadsElements src elements' tokens' rest' →
      elements = elements' ∧ tokens = tokens' ∧ rest = rest'
  | .last hv hend, .last hv' hend' => by
    obtain ⟨rfl, rfl, rfl⟩ := hv.unique hv'
    cases hend.symm.trans hend'
    exact ⟨rfl, rfl, rfl⟩
  | .last hv hend, .more hv' hsep' _ => by
    obtain ⟨rfl, rfl, rfl⟩ := hv.unique hv'
    exact absurd (hend.symm.trans hsep') (by simp)
  | .more hv hsep _, .last hv' hend' => by
    obtain ⟨rfl, rfl, rfl⟩ := hv.unique hv'
    exact absurd (hend'.symm.trans hsep) (by simp)
  | .more hv hsep he, .more hv' hsep' he' => by
    obtain ⟨rfl, rfl, rfl⟩ := hv.unique hv'
    cases hsep.symm.trans hsep'
    obtain ⟨rfl, rfl, rfl⟩ := he.unique he'
    exact ⟨rfl, rfl, rfl⟩

theorem ReadsMembers.unique {src rest rest' : Text} {members members' : List (Text × Node)}
    {tokens tokens' : List Token} :
    ReadsMembers src members tokens rest → ReadsMembers src members' tokens' rest' →
      members = members' ∧ tokens = tokens' ∧ rest = rest'
  | .last hq hk hcolon hv hend, .last hq' hk' hcolon' hv' hend' => by
    cases hq.symm.trans hq'
    obtain ⟨rfl, rfl, rfl⟩ := hk.unique hk'
    cases hcolon.symm.trans hcolon'
    obtain ⟨rfl, rfl, rfl⟩ := hv.unique hv'
    cases hend.symm.trans hend'
    exact ⟨rfl, rfl, rfl⟩
  | .last hq hk hcolon hv hend, .more hq' hk' hcolon' hv' hsep' _ => by
    cases hq.symm.trans hq'
    obtain ⟨rfl, rfl, rfl⟩ := hk.unique hk'
    cases hcolon.symm.trans hcolon'
    obtain ⟨rfl, rfl, rfl⟩ := hv.unique hv'
    exact absurd (hend.symm.trans hsep') (by simp)
  | .more hq hk hcolon hv hsep _, .last hq' hk' hcolon' hv' hend' => by
    cases hq.symm.trans hq'
    obtain ⟨rfl, rfl, rfl⟩ := hk.unique hk'
    cases hcolon.symm.trans hcolon'
    obtain ⟨rfl, rfl, rfl⟩ := hv.unique hv'
    exact absurd (hend'.symm.trans hsep) (by simp)
  | .more hq hk hcolon hv hsep hm, .more hq' hk' hcolon' hv' hsep' hm' => by
    cases hq.symm.trans hq'
    obtain ⟨rfl, rfl, rfl⟩ := hk.unique hk'
    cases hcolon.symm.trans hcolon'
    obtain ⟨rfl, rfl, rfl⟩ := hv.unique hv'
    cases hsep.symm.trans hsep'
    obtain ⟨rfl, rfl, rfl⟩ := hm.unique hm'
    exact ⟨rfl, rfl, rfl⟩

end

end Json

end Absolute
