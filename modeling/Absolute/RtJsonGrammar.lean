import Absolute.RtJsonReading

/-!
# The grammar of JSON texts

The productions of RFC 8259 over the bytes of a text in UTF-8, and what the parser of the
runtime makes of them. It reads every JSON text (`Rfc.Value.reads`), and where each
number and string it has read is one of the grammar and only white space is left, the
text is a JSON text (`ReadsValue.derives`). Beyond that it takes numbers with leading
zeros or without the digits of a part, strings with control characters, undefined escapes
or bytes that are no UTF-8, and whatever follows the value (`Departs`); it is exactly
there that it takes what is no JSON text (`accepts_iff_jsonText_iff`).
-/

namespace Absolute

namespace Json

namespace Rfc

/-! ## The productions -/

/-- `ws` -/
def Whitespace (w : Text) : Prop :=
  ∀ c ∈ w, c = byte ' ' ∨ c = byte '\t' ∨ c = byte '\n' ∨ c = byte '\r'

def Digit (c : UInt8) : Prop := byte '0' ≤ c ∧ c ≤ byte '9'

/-- `1*DIGIT` -/
def Digits (ds : Text) : Prop := ds ≠ [] ∧ ∀ c ∈ ds, Digit c

/-- `minus` or nothing. -/
def Minus (m : Text) : Prop := m = [] ∨ m = bytes "-"

/-- `int = zero / ( digit1-9 *DIGIT )` -/
def Int (i : Text) : Prop :=
  i = bytes "0" ∨ ∃ c ds, i = c :: ds ∧ byte '1' ≤ c ∧ c ≤ byte '9' ∧ ∀ d ∈ ds, Digit d

/-- `frac = decimal-point 1*DIGIT`, or nothing. -/
def Frac (f : Text) : Prop := f = [] ∨ ∃ ds, f = byte '.' :: ds ∧ Digits ds

/-- `exp = e [ minus / plus ] 1*DIGIT`, or nothing. -/
def Exp (x : Text) : Prop :=
  x = [] ∨ ∃ e sign ds, x = e :: (sign ++ ds) ∧ (e = byte 'e' ∨ e = byte 'E') ∧
    (sign = [] ∨ sign = bytes "-" ∨ sign = bytes "+") ∧ Digits ds

/-- `number = [ minus ] int [ frac ] [ exp ]` -/
def Number (s : Text) : Prop :=
  ∃ m i f x, Minus m ∧ Int i ∧ Frac f ∧ Exp x ∧ s = m ++ i ++ f ++ x

def HexDigit (c : UInt8) : Prop :=
  Digit c ∨ (byte 'A' ≤ c ∧ c ≤ byte 'F') ∨ (byte 'a' ≤ c ∧ c ≤ byte 'f')

/-- `char`, an unescaped one in its UTF-8 form. -/
inductive StringChar : Text → Prop
  | unescaped (c : Char) (hc : 0x20 ≤ c.val.toNat) (hq : c ≠ '"') (hb : c ≠ '\\') :
      StringChar (String.utf8EncodeChar c)
  | escape {e : UInt8} (he : e ∈ bytes "\"\\/bfnrt") : StringChar [byte '\\', e]
  | unicode {h₁ h₂ h₃ h₄ : UInt8} (hex : ∀ h ∈ [h₁, h₂, h₃, h₄], HexDigit h) :
      StringChar [byte '\\', byte 'u', h₁, h₂, h₃, h₄]

/-- `*char` -/
inductive Chars : Text → Prop
  | nil : Chars []
  | cons {c s : Text} (hc : StringChar c) (hs : Chars s) : Chars (c ++ s)

mutual

/-- `value` -/
inductive Value : Text → Prop
  | null : Value (bytes "null")
  | isTrue : Value (bytes "true")
  | isFalse : Value (bytes "false")
  | number {s : Text} (h : Number s) : Value s
  | string {s : Text} (h : Chars s) : Value (byte '"' :: s ++ [byte '"'])
  | emptyArray {w : Text} (hw : Whitespace w) : Value (byte '[' :: w ++ [byte ']'])
  | array {s : Text} (h : Elements s) : Value (byte '[' :: s ++ [byte ']'])
  | emptyObject {w : Text} (hw : Whitespace w) : Value (byte '\x7b' :: w ++ [byte '\x7d'])
  | object {s : Text} (h : Members s) : Value (byte '\x7b' :: s ++ [byte '\x7d'])

/-- `value *( value-separator value )` with the white space around each value. -/
inductive Elements : Text → Prop
  | last {a s b : Text} (ha : Whitespace a) (hs : Value s) (hb : Whitespace b) :
      Elements (a ++ s ++ b)
  | more {a s b es : Text} (ha : Whitespace a) (hs : Value s) (hb : Whitespace b)
      (he : Elements es) : Elements (a ++ s ++ b ++ byte ',' :: es)

/-- `member *( value-separator member )` with the white space around each part. -/
inductive Members : Text → Prop
  | last {a k b c s d : Text} (ha : Whitespace a) (hk : Chars k) (hb : Whitespace b)
      (hc : Whitespace c) (hs : Value s) (hd : Whitespace d) :
      Members (a ++ byte '"' :: k ++ byte '"' :: b ++ byte ':' :: c ++ s ++ d)
  | more {a k b c s d ms : Text} (ha : Whitespace a) (hk : Chars k) (hb : Whitespace b)
      (hc : Whitespace c) (hs : Value s) (hd : Whitespace d) (hm : Members ms) :
      Members (a ++ byte '"' :: k ++ byte '"' :: b ++ byte ':' :: c ++ s ++ d ++ byte ',' :: ms)

end

/-- `JSON-text = ws value ws` -/
def JsonText (t : Text) : Prop :=
  ∃ a s b, Whitespace a ∧ Value s ∧ Whitespace b ∧ t = a ++ s ++ b

end Rfc

/-! ## Where the parser departs from it -/

/-- The token is one of the grammar. -/
def Token.IsRfc : Token → Prop
  | .number n => Rfc.Minus n.sign ∧ Rfc.Int n.whole ∧ Rfc.Frac n.fraction ∧ Rfc.Exp n.exponent
  | .string body => Rfc.Chars body

/-- What stands after each backslash of a string. -/
def escapes : Text → List UInt8
  | [] => []
  | [_] => []
  | c :: e :: src => if c = byte '\\' then e :: escapes src else escapes (e :: src)

def Utf8 (t : Text) : Prop := ∃ cs : List Char, t = cs.flatMap String.utf8EncodeChar

/-- A number without an integer part, with a leading zero, or without the digits after its
point or its exponent; a string with a control character, an escape that is not defined, or
bytes that are no UTF-8. -/
def Token.Departs : Token → Prop
  | .number n =>
    n.whole = [] ∨ (∃ d ds, n.whole = byte '0' :: d :: ds) ∨ n.fraction = [byte '.'] ∨
      (n.exponent ≠ [] ∧ ∀ c ∈ n.exponent, isdigit c = false)
  | .string body =>
    (∃ c ∈ body, c.toNat < 0x20) ∨ (∃ e ∈ escapes body, e ∉ bytes "\"\\/bfnrtu") ∨ ¬Utf8 body

/-- A value can be read that is written with such a number or such a string, or that
something else than white space follows. -/
def Departs (t : Text) : Prop :=
  ∃ v tokens rest, ReadsValue t v tokens rest ∧
    ((∃ token ∈ tokens, token.Departs) ∨ ∃ c ∈ rest, isWhitespace c = false)

/-! ## White space -/

theorem isWhitespace_iff {c : UInt8} :
    isWhitespace c = true ↔ c = byte ' ' ∨ c = byte '\t' ∨ c = byte '\n' ∨ c = byte '\r' := by
  simp only [isWhitespace, Bool.or_eq_true, decide_eq_true_eq]
  tauto

theorem skipWhitespace_append {w : Text} (hw : Rfc.Whitespace w) (src : Text) :
    skipWhitespace (w ++ src) = skipWhitespace src :=
  List.dropWhile_append_of_pos fun c hc => isWhitespace_iff.mpr (hw c hc)

theorem skipWhitespace_cons {c : UInt8} (hc : isWhitespace c = false) (src : Text) :
    skipWhitespace (c :: src) = c :: src :=
  List.dropWhile_cons_of_neg (by simp [hc])

theorem whitespace_of_skipWhitespace (src : Text) :
    ∃ w, Rfc.Whitespace w ∧ src = w ++ skipWhitespace src :=
  ⟨src.takeWhile isWhitespace, fun _ hc => isWhitespace_iff.mp (List.mem_takeWhile_imp hc),
    List.takeWhile_append_dropWhile.symm⟩

/-! ## Numbers -/

theorem isdigit_iff {c : UInt8} : isdigit c = true ↔ Rfc.Digit c := by
  simp [isdigit, Rfc.Digit]

/-- What follows does not go on with a run of digits. -/
def NoDigit (rest : Text) : Prop := ∀ c ∈ rest.head?, isdigit c = false

theorem scanDigits_append_of {ds rest : Text} (hds : ∀ c ∈ ds, Rfc.Digit c)
    (hrest : NoDigit rest) : scanDigits (ds ++ rest) = (ds, rest) := by
  have hpos : ∀ c ∈ ds, isdigit c = true := fun c hc => isdigit_iff.mpr (hds c hc)
  have htake : rest.takeWhile isdigit = [] := by
    cases rest with
    | nil => rfl
    | cons c rest => exact List.takeWhile_cons_of_neg (by simp [hrest c rfl])
  have hdrop : rest.dropWhile isdigit = rest := by
    cases rest with
    | nil => rfl
    | cons c rest => exact List.dropWhile_cons_of_neg (by simp [hrest c rfl])
  simp [scanDigits, List.takeWhile_append_of_pos hpos, List.dropWhile_append_of_pos hpos, htake,
    hdrop]

/-- What follows does not go on with a number. -/
def EndsNumber (rest : Text) : Prop :=
  ∀ c ∈ rest.head?, isdigit c = false ∧ c ≠ byte '.' ∧ c ≠ byte 'e' ∧ c ≠ byte 'E'

theorem endsNumber_nil : EndsNumber [] := fun c hc => by simp at hc

theorem Rfc.Digits.exists_cons {ds : Text} (h : Rfc.Digits ds) :
    ∃ d tail, ds = d :: tail ∧ Rfc.Digit d := by
  obtain ⟨hne, hds⟩ := h
  obtain ⟨d, tail, rfl⟩ := List.exists_cons_of_ne_nil hne
  exact ⟨d, tail, rfl, hds d List.mem_cons_self⟩

theorem Rfc.Int.exists_cons {i : Text} (h : Rfc.Int i) :
    ∃ d tail, i = d :: tail ∧ ∀ c ∈ i, Rfc.Digit c := by
  rcases h with rfl | ⟨c, ds, rfl, hlow, hhigh, hds⟩
  · exact ⟨byte '0', [], rfl, List.forall_mem_singleton.mpr ⟨by decide, by decide⟩⟩
  · have hc : Rfc.Digit c := ⟨UInt8.le_trans (show byte '0' ≤ byte '1' by decide) hlow, hhigh⟩
    exact ⟨c, ds, rfl, List.forall_mem_cons.mpr ⟨hc, hds⟩⟩

theorem Rfc.Digit.ne {c l : UInt8} (hc : Rfc.Digit c) (hl : isdigit l = false) : c ≠ l := by
  rintro rfl
  simp [isdigit_iff.mpr hc] at hl

theorem scanSign_of {m src : Text} (hm : Rfc.Minus m) (hsrc : ∀ c ∈ src.head?, c ≠ byte '-') :
    scanSign (m ++ src) = (m, src) := by
  rcases hm with rfl | rfl
  · cases src with
    | nil => rfl
    | cons c src => simp only [List.nil_append, scanSign, if_neg (hsrc c rfl)]
  · simp [bytes, scanSign]

theorem scanFraction_of {f src : Text} (hf : Rfc.Frac f) (hdigit : NoDigit src)
    (hsrc : ∀ c ∈ src.head?, c ≠ byte '.') : scanFraction (f ++ src) = (f, src) := by
  rcases hf with rfl | ⟨ds, rfl, -, hds⟩
  · cases src with
    | nil => rfl
    | cons c src => simp only [List.nil_append, scanFraction, if_neg (hsrc c rfl)]
  · simp [scanFraction, scanDigits_append_of hds hdigit]

theorem scanExponentSign_of {sign ds src : Text}
    (hsign : sign = [] ∨ sign = bytes "-" ∨ sign = bytes "+") (hds : Rfc.Digits ds) :
    scanExponentSign (sign ++ ds ++ src) = (sign, ds ++ src) := by
  rcases hsign with rfl | rfl | rfl
  · obtain ⟨d, tail, rfl, hd⟩ := hds.exists_cons
    have hsign : ¬(d = byte '+' ∨ d = byte '-') := not_or.mpr ⟨hd.ne rfl, hd.ne rfl⟩
    simp only [List.nil_append, List.cons_append, scanExponentSign, if_neg hsign]
  · rfl
  · rfl

theorem scanExponent_of {x src : Text} (hx : Rfc.Exp x) (hsrc : EndsNumber src) :
    scanExponent (x ++ src) = (x, src) := by
  rcases hx with rfl | ⟨e, sign, ds, rfl, he, hsign, hds⟩
  · cases src with
    | nil => rfl
    | cons c src =>
      obtain ⟨-, -, he, hE⟩ := hsrc c rfl
      simp only [List.nil_append, scanExponent, if_neg (not_or.mpr ⟨he, hE⟩)]
  · have hdigits := scanDigits_append_of hds.2 fun c hc => (hsrc c hc).1
    simp only [List.cons_append, scanExponent, if_pos he, scanExponentSign_of hsign hds, hdigits]

theorem endsNumber_exponent {x src : Text} (hx : Rfc.Exp x) (hsrc : EndsNumber src) :
    ∀ c ∈ (x ++ src).head?, isdigit c = false ∧ c ≠ byte '.' := by
  rcases hx with rfl | ⟨e, sign, ds, rfl, he, -, -⟩
  · exact fun c hc => ⟨(hsrc c hc).1, (hsrc c hc).2.1⟩
  · intro c hc
    obtain rfl : e = c := Option.some.inj hc
    rcases he with rfl | rfl <;> decide

theorem noDigit_fraction {f src : Text} (hf : Rfc.Frac f) (hsrc : NoDigit src) :
    NoDigit (f ++ src) := by
  rcases hf with rfl | ⟨ds, rfl, -⟩
  · exact hsrc
  · intro c hc
    obtain rfl : byte '.' = c := Option.some.inj hc
    rfl

/-- A number of the grammar is scanned whole. -/
theorem scanNumber_of {n : NumberText} {rest : Text} (hn : (Token.number n).IsRfc)
    (hrest : EndsNumber rest) : scanNumber (n.text ++ rest) = (n, rest) := by
  obtain ⟨hm, hi, hf, hx⟩ := hn
  have hexp := endsNumber_exponent hx hrest
  obtain ⟨d, tail, hd, hdigits⟩ := hi.exists_cons
  have hsign : ∀ c ∈ (n.whole ++ (n.fraction ++ (n.exponent ++ rest))).head?, c ≠ byte '-' := by
    rw [hd]
    intro c hc
    obtain rfl : d = c := Option.some.inj hc
    exact (hdigits d (hd ▸ List.mem_cons_self)).ne rfl
  simp only [NumberText.text, List.append_assoc, scanNumber, scanSign_of hm hsign,
    scanDigits_append_of hdigits (noDigit_fraction hf fun c hc => (hexp c hc).1),
    scanFraction_of hf (fun c hc => (hexp c hc).1) (fun c hc => (hexp c hc).2),
    scanExponent_of hx hrest]

theorem strtod_of {n : NumberText} (hn : (Token.number n).IsRfc) :
    ∃ val, strtod n.text = some val := by
  have hscan : scanNumber n.text = (n, []) := by
    simpa using scanNumber_of hn endsNumber_nil
  obtain ⟨d, tail, hd, -⟩ := hn.2.1.exists_cons
  have hne : n.whole ++ n.fraction.drop 1 ≠ [] := by simp [hd]
  exact ⟨_, by rw [strtod, hscan]; exact if_neg hne⟩

theorem isRfc_text {s : Text} (h : Rfc.Number s) :
    ∃ n : NumberText, (Token.number n).IsRfc ∧ s = n.text := by
  obtain ⟨m, i, f, x, hm, hi, hf, hx, rfl⟩ := h
  exact ⟨⟨m, i, f, x⟩, ⟨hm, hi, hf, hx⟩, rfl⟩

theorem number_head {n : NumberText} (hn : (Token.number n).IsRfc) :
    ∃ c tail, n.text = c :: tail ∧ (c = byte '-' ∨ isdigit c = true) := by
  obtain ⟨hm, hi, -, -⟩ := hn
  obtain ⟨d, tail, hd, hdigits⟩ := hi.exists_cons
  rcases hm with hm | hm
  · exact ⟨d, tail ++ n.fraction ++ n.exponent, by simp [NumberText.text, hm, hd],
      .inr (isdigit_iff.mpr (hdigits d (hd ▸ List.mem_cons_self)))⟩
  · exact ⟨byte '-', n.whole ++ n.fraction ++ n.exponent,
      by simp [NumberText.text, hm, bytes], .inl rfl⟩

/-! ## Strings -/

theorem isHex_iff {c : UInt8} : isHex c = true ↔ Rfc.HexDigit c := by
  simp only [isHex, Bool.or_eq_true, Bool.and_eq_true, decide_eq_true_eq, isdigit_iff,
    Rfc.HexDigit]
  tauto

/-- No byte of an unescaped character is a quote or a backslash. -/
theorem utf8EncodeChar_raw {c : Char} (hq : c ≠ '"') (hb : c ≠ '\\') :
    ∀ b ∈ String.utf8EncodeChar c, b ≠ byte '"' ∧ b ≠ byte '\\' := by
  have hne {l : Char} (h : c ≠ l) : c.val.toNat ≠ l.val.toNat := fun heq =>
    h (Char.ext (UInt32.toNat_inj.mp heq))
  have hquote := hne hq
  have hback := hne hb
  have hsmall : ('"' : Char).val.toNat = 34 ∧ ('\\' : Char).val.toNat = 92 := ⟨rfl, rfl⟩
  intro b hmem
  suffices b.toNat ≠ 34 ∧ b.toNat ≠ 92 from
    ⟨fun h => this.1 (h ▸ rfl), fun h => this.2 (h ▸ rfl)⟩
  simp only [String.utf8EncodeChar] at hmem
  split_ifs at hmem <;> simp only [List.mem_cons, List.not_mem_nil, or_false] at hmem
  · subst hmem
    simp only [UInt8.toNat_ofNat']
    omega
  all_goals
    rcases hmem with rfl | rfl | rfl | rfl <;> simp only [UInt8.toNat_ofNat'] <;> omega

theorem ReadsString.raws {cs src s body rest : Text}
    (hcs : ∀ b ∈ cs, b ≠ byte '"' ∧ b ≠ byte '\\') (h : ReadsString src s body rest) :
    ReadsString (cs ++ src) (cs ++ s) (cs ++ body) rest := by
  induction cs with
  | nil => exact h
  | cons c cs ih =>
    obtain ⟨⟨hq, hb⟩, hcs⟩ := List.forall_mem_cons.mp hcs
    exact .raw hq hb (ih hcs)

/-- The text of a string of the grammar is read whole. -/
theorem Rfc.Chars.reads {body : Text} (h : Rfc.Chars body) (rest : Text) :
    ∃ s, ReadsString (body ++ byte '"' :: rest) s body rest := by
  induction h with
  | nil => exact ⟨[], .quote rest⟩
  | cons hc _ ih =>
    obtain ⟨s, hs⟩ := ih
    cases hc with
    | unescaped c _ hq hb =>
      rw [List.append_assoc]
      exact ⟨_, hs.raws (utf8EncodeChar_raw hq hb)⟩
    | @escape e he =>
      have hu : e ≠ byte 'u' := by
        rintro rfl
        exact absurd he (by decide)
      exact ⟨_, .escape hu hs⟩
    | unicode hex =>
      exact ⟨_, .unicode (List.all_eq_true.mpr fun h hh => isHex_iff.mpr (hex h hh)) hs⟩

theorem ReadsString.text {src s body rest : Text} (h : ReadsString src s body rest) :
    src = body ++ byte '"' :: rest := by
  induction h with
  | quote rest => rfl
  | raw _ _ _ ih | escape _ _ ih | unicode _ _ ih => simp [ih]

/-! ## Every JSON text is read -/

section Following

variable {w : Text} {c : UInt8} (hw : Rfc.Whitespace w)
include hw

theorem skipWhitespace_of (hc : isWhitespace c = false) (rest : Text) :
    skipWhitespace (w ++ c :: rest) = c :: rest :=
  (skipWhitespace_append hw _).trans (skipWhitespace_cons hc rest)

theorem endsNumber_of
    (hc : isdigit c = false ∧ c ≠ byte '.' ∧ c ≠ byte 'e' ∧ c ≠ byte 'E') (rest : Text) :
    EndsNumber (w ++ c :: rest) := by
  cases w with
  | nil =>
    intro c' h
    obtain rfl : c = c' := Option.some.inj h
    exact hc
  | cons d w =>
    intro c' h
    obtain rfl : d = c' := Option.some.inj h
    rcases hw d List.mem_cons_self with rfl | rfl | rfl | rfl <;> decide

end Following

theorem not_whitespace_of_number {c : UInt8} (hc : c = byte '-' ∨ isdigit c = true) :
    isWhitespace c = false := by
  by_contra h
  rw [Bool.not_eq_false, isWhitespace_iff] at h
  rcases h with rfl | rfl | rfl | rfl <;> simp [isdigit] at hc

mutual

theorem Rfc.Value.reads {s rest : Text} (hrest : EndsNumber rest) :
    Rfc.Value s → ∃ v tokens, ReadsValue (s ++ rest) v tokens rest ∧ ∀ t ∈ tokens, t.IsRfc
  | .null => ⟨_, _, .null rfl, by simp⟩
  | .isTrue => ⟨_, _, .isTrue rfl, by simp⟩
  | .isFalse => ⟨_, _, .isFalse rfl, by simp⟩
  | .number h => by
    obtain ⟨n, hn, rfl⟩ := isRfc_text h
    obtain ⟨val, hval⟩ := strtod_of hn
    obtain ⟨c, tail, htext, hc⟩ := number_head hn
    have hscan := scanNumber_of hn hrest
    rw [htext] at hscan ⊢
    have hskip := skipWhitespace_cons (not_whitespace_of_number hc) (tail ++ rest)
    exact ⟨_, _, .number hskip hc hscan hval, List.forall_mem_singleton.mpr hn⟩
  | .string h => by
    obtain ⟨s, hs⟩ := h.reads rest
    simp only [List.cons_append, List.append_assoc, List.nil_append]
    exact ⟨_, _, .string (skipWhitespace_cons rfl _) hs, List.forall_mem_singleton.mpr h⟩
  | .emptyArray hw => by
    have hend := skipWhitespace_of hw (c := byte ']') rfl rest
    simp only [List.cons_append, List.append_assoc, List.nil_append]
    exact ⟨_, _, .emptyArray (skipWhitespace_cons rfl _) hend, List.forall_mem_nil _⟩
  | .array he => by
    obtain ⟨elements, tokens, he, htokens⟩ := he.reads rest
    simp only [List.cons_append, List.append_assoc, List.nil_append]
    exact ⟨_, _, .array (skipWhitespace_cons rfl _) he, htokens⟩
  | .emptyObject hw => by
    have hend := skipWhitespace_of hw (c := byte '\x7d') rfl rest
    simp only [List.cons_append, List.append_assoc, List.nil_append]
    exact ⟨_, _, .emptyObject (skipWhitespace_cons rfl _) hend, List.forall_mem_nil _⟩
  | .object hm => by
    obtain ⟨members, tokens, hm, htokens⟩ := hm.reads rest
    simp only [List.cons_append, List.append_assoc, List.nil_append]
    exact ⟨_, _, .object (skipWhitespace_cons rfl _) hm, htokens⟩

theorem Rfc.Elements.reads {es : Text} (rest : Text) :
    Rfc.Elements es → ∃ elements tokens,
      ReadsElements (es ++ byte ']' :: rest) elements tokens rest ∧ ∀ t ∈ tokens, t.IsRfc
  | .last ha hs hb => by
    obtain ⟨v, tokens, hv, htokens⟩ :=
      hs.reads (endsNumber_of hb (c := byte ']') (by decide) rest)
    simp only [List.append_assoc]
    exact ⟨_, _, .last (hv.congr (skipWhitespace_append ha _)) (skipWhitespace_of hb rfl _),
      htokens⟩
  | @Rfc.Elements.more a s b es ha hs hb he => by
    obtain ⟨elements, tokens', he, htokens'⟩ := he.reads rest
    obtain ⟨v, tokens, hv, htokens⟩ :=
      hs.reads (endsNumber_of hb (c := byte ',') (by decide) (es ++ byte ']' :: rest))
    simp only [List.append_assoc, List.cons_append]
    exact ⟨_, _, .more (hv.congr (skipWhitespace_append ha _)) (skipWhitespace_of hb rfl _) he,
      List.forall_mem_append.mpr ⟨htokens, htokens'⟩⟩

theorem Rfc.Members.reads {ms : Text} (rest : Text) :
    Rfc.Members ms → ∃ members tokens,
      ReadsMembers (ms ++ byte '\x7d' :: rest) members tokens rest ∧ ∀ t ∈ tokens, t.IsRfc
  | @Rfc.Members.last a k b c s d ha hk hb hc hs hd => by
    obtain ⟨v, tokens, hv, htokens⟩ :=
      hs.reads (endsNumber_of hd (c := byte '\x7d') (by decide) rest)
    obtain ⟨key, hkey⟩ := hk.reads (b ++ byte ':' :: (c ++ (s ++ (d ++ byte '\x7d' :: rest))))
    simp only [List.append_assoc, List.cons_append]
    exact ⟨_, _, .last (skipWhitespace_of ha rfl _) hkey (skipWhitespace_of hb rfl _)
        (hv.congr (skipWhitespace_append hc _)) (skipWhitespace_of hd rfl _),
      List.forall_mem_cons.mpr ⟨hk, htokens⟩⟩
  | @Rfc.Members.more a k b c s d ms ha hk hb hc hs hd hm => by
    obtain ⟨members, tokens', hm, htokens'⟩ := hm.reads rest
    obtain ⟨v, tokens, hv, htokens⟩ :=
      hs.reads (endsNumber_of hd (c := byte ',') (by decide) (ms ++ byte '\x7d' :: rest))
    obtain ⟨key, hkey⟩ := hk.reads
      (b ++ byte ':' :: (c ++ (s ++ (d ++ byte ',' :: (ms ++ byte '\x7d' :: rest)))))
    simp only [List.append_assoc, List.cons_append]
    exact ⟨_, _, .more (skipWhitespace_of ha rfl _) hkey (skipWhitespace_of hb rfl _)
        (hv.congr (skipWhitespace_append hc _)) (skipWhitespace_of hd rfl _) hm,
      List.forall_mem_cons.mpr ⟨hk, List.forall_mem_append.mpr ⟨htokens, htokens'⟩⟩⟩

end

/-! ## What is read without a departure is of the grammar -/

theorem number_of_isRfc {n : NumberText} (hn : (Token.number n).IsRfc) : Rfc.Number n.text :=
  ⟨_, _, _, _, hn.1, hn.2.1, hn.2.2.1, hn.2.2.2, rfl⟩

theorem eq_of_skipWhitespace {src tail : Text} (h : skipWhitespace src = tail) :
    ∃ w, Rfc.Whitespace w ∧ src = w ++ tail :=
  h ▸ whitespace_of_skipWhitespace src

mutual

theorem ReadsValue.derives {src rest : Text} {v : Node} {tokens : List Token}
    (hrfc : ∀ t ∈ tokens, t.IsRfc) :
    ReadsValue src v tokens rest →
      ∃ w s, Rfc.Whitespace w ∧ Rfc.Value s ∧ src = w ++ s ++ rest
  | .null h => by
    obtain ⟨w, hw, rfl⟩ := eq_of_skipWhitespace h
    exact ⟨w, _, hw, .null, (List.append_assoc ..).symm⟩
  | .isTrue h => by
    obtain ⟨w, hw, rfl⟩ := eq_of_skipWhitespace h
    exact ⟨w, _, hw, .isTrue, (List.append_assoc ..).symm⟩
  | .isFalse h => by
    obtain ⟨w, hw, rfl⟩ := eq_of_skipWhitespace h
    exact ⟨w, _, hw, .isFalse, (List.append_assoc ..).symm⟩
  | .number h _ hn _ => by
    obtain ⟨w, hw, rfl⟩ := eq_of_skipWhitespace h
    have hnumber := number_of_isRfc (List.forall_mem_singleton.mp hrfc)
    exact ⟨w, _, hw, .number hnumber, by rw [List.append_assoc, ← eq_of_scanNumber hn]⟩
  | .string h hs => by
    obtain ⟨w, hw, rfl⟩ := eq_of_skipWhitespace h
    have hbody : Rfc.Chars _ := hrfc _ List.mem_cons_self
    obtain rfl := hs.text
    exact ⟨w, _, hw, .string hbody, by simp⟩
  | .emptyArray h hend => by
    obtain ⟨w, hw, rfl⟩ := eq_of_skipWhitespace h
    obtain ⟨w', hw', rfl⟩ := eq_of_skipWhitespace hend
    exact ⟨w, _, hw, .emptyArray hw', by simp⟩
  | .array h he => by
    obtain ⟨w, hw, rfl⟩ := eq_of_skipWhitespace h
    obtain ⟨es, hes, rfl⟩ := he.derives hrfc
    exact ⟨w, _, hw, .array hes, by simp⟩
  | .emptyObject h hend => by
    obtain ⟨w, hw, rfl⟩ := eq_of_skipWhitespace h
    obtain ⟨w', hw', rfl⟩ := eq_of_skipWhitespace hend
    exact ⟨w, _, hw, .emptyObject hw', by simp⟩
  | .object h hm => by
    obtain ⟨w, hw, rfl⟩ := eq_of_skipWhitespace h
    obtain ⟨ms, hms, rfl⟩ := hm.derives hrfc
    exact ⟨w, _, hw, .object hms, by simp⟩

theorem ReadsElements.derives {src rest : Text} {elements : List Node} {tokens : List Token}
    (hrfc : ∀ t ∈ tokens, t.IsRfc) :
    ReadsElements src elements tokens rest →
      ∃ es, Rfc.Elements es ∧ src = es ++ byte ']' :: rest
  | .last hv hend => by
    obtain ⟨a, s, ha, hs, rfl⟩ := hv.derives hrfc
    obtain ⟨b, hb, rfl⟩ := eq_of_skipWhitespace hend
    exact ⟨_, .last ha hs hb, by simp⟩
  | .more hv hsep he => by
    obtain ⟨hrfc, hrfc'⟩ := List.forall_mem_append.mp hrfc
    obtain ⟨a, s, ha, hs, rfl⟩ := hv.derives hrfc
    obtain ⟨b, hb, rfl⟩ := eq_of_skipWhitespace hsep
    obtain ⟨es, hes, rfl⟩ := he.derives hrfc'
    exact ⟨_, .more ha hs hb hes, by simp⟩

theorem ReadsMembers.derives {src rest : Text} {members : List (Text × Node)}
    {tokens : List Token} (hrfc : ∀ t ∈ tokens, t.IsRfc) :
    ReadsMembers src members tokens rest →
      ∃ ms, Rfc.Members ms ∧ src = ms ++ byte '\x7d' :: rest
  | .last hq hk hcolon hv hend => by
    obtain ⟨hkey, hrfc⟩ := List.forall_mem_cons.mp hrfc
    obtain ⟨a, ha, rfl⟩ := eq_of_skipWhitespace hq
    obtain rfl := hk.text
    obtain ⟨b, hb, rfl⟩ := eq_of_skipWhitespace hcolon
    obtain ⟨c, s, hc, hs, rfl⟩ := hv.derives hrfc
    obtain ⟨d, hd, rfl⟩ := eq_of_skipWhitespace hend
    exact ⟨_, .last ha hkey hb hc hs hd, by simp⟩
  | .more hq hk hcolon hv hsep hm => by
    obtain ⟨hkey, hrfc⟩ := List.forall_mem_cons.mp hrfc
    obtain ⟨hrfc, hrfc'⟩ := List.forall_mem_append.mp hrfc
    obtain ⟨a, ha, rfl⟩ := eq_of_skipWhitespace hq
    obtain rfl := hk.text
    obtain ⟨b, hb, rfl⟩ := eq_of_skipWhitespace hcolon
    obtain ⟨c, s, hc, hs, rfl⟩ := hv.derives hrfc
    obtain ⟨d, hd, rfl⟩ := eq_of_skipWhitespace hsep
    obtain ⟨ms, hms, rfl⟩ := hm.derives hrfc'
    exact ⟨_, .more ha hkey hb hc hs hd hms, by simp⟩

end

/-! ## The departures of a token -/

/-- The tokens that can be read. -/
def Token.Scanned : Token → Prop
  | .number n => ∃ src rest, scanNumber src = (n, rest)
  | .string body => ∃ src s rest, ReadsString src s body rest

mutual

theorem ReadsValue.scanned {src rest : Text} {v : Node} {tokens : List Token} :
    ReadsValue src v tokens rest → ∀ t ∈ tokens, t.Scanned
  | .null _ | .isTrue _ | .isFalse _ | .emptyArray _ _ | .emptyObject _ _ =>
    List.forall_mem_nil _
  | .number _ _ hn _ => List.forall_mem_singleton.mpr ⟨_, _, hn⟩
  | .string _ hs => List.forall_mem_singleton.mpr ⟨_, _, _, hs⟩
  | .array _ he => he.scanned
  | .object _ hm => hm.scanned

theorem ReadsElements.scanned {src rest : Text} {elements : List Node} {tokens : List Token} :
    ReadsElements src elements tokens rest → ∀ t ∈ tokens, t.Scanned
  | .last hv _ => hv.scanned
  | .more hv _ he => List.forall_mem_append.mpr ⟨hv.scanned, he.scanned⟩

theorem ReadsMembers.scanned {src rest : Text} {members : List (Text × Node)}
    {tokens : List Token} :
    ReadsMembers src members tokens rest → ∀ t ∈ tokens, t.Scanned
  | .last _ hk _ hv _ => List.forall_mem_cons.mpr ⟨⟨_, _, _, hk⟩, hv.scanned⟩
  | .more _ hk _ hv _ hm =>
    List.forall_mem_cons.mpr ⟨⟨_, _, _, hk⟩,
      List.forall_mem_append.mpr ⟨hv.scanned, hm.scanned⟩⟩

end

theorem minus_scanSign (src : Text) : Rfc.Minus (scanSign src).1 := by
  unfold scanSign
  split
  · split_ifs with hc
    · exact .inr (hc ▸ rfl)
    · exact .inl rfl
  · exact .inl rfl

theorem digit_of_mem_scanDigits {src : Text} : ∀ c ∈ (scanDigits src).1, Rfc.Digit c :=
  fun _ hc => isdigit_iff.mp (List.mem_takeWhile_imp hc)

theorem int_iff {i : Text} (hi : ∀ c ∈ i, Rfc.Digit c) :
    Rfc.Int i ↔ i ≠ [] ∧ ¬∃ d ds, i = byte '0' :: d :: ds := by
  constructor
  · rintro (rfl | ⟨c, ds, rfl, hlow, -, -⟩)
    · simp [bytes]
    · refine ⟨List.cons_ne_nil c ds, ?_⟩
      rintro ⟨d, ds', heq⟩
      obtain ⟨rfl, -⟩ := List.cons.inj heq
      exact absurd hlow (by decide)
  · rintro ⟨hne, hzero⟩
    obtain ⟨c, ds, rfl⟩ := List.exists_cons_of_ne_nil hne
    obtain ⟨hc, hds⟩ := List.forall_mem_cons.mp hi
    by_cases h : c = byte '0'
    · subst h
      cases ds with
      | nil => exact .inl rfl
      | cons d ds => exact absurd ⟨d, ds, rfl⟩ hzero
    · have hlow : byte '1' ≤ c := by
        have hne : c.toNat ≠ 48 := fun heq => h (UInt8.toNat_inj.mp heq)
        have hle : 48 ≤ c.toNat := UInt8.le_iff_toNat_le.mp hc.1
        exact UInt8.le_iff_toNat_le.mpr (show 49 ≤ c.toNat by omega)
      exact .inr ⟨c, ds, rfl, hlow, hc.2, hds⟩

/-- A fraction of which the digits may be missing. -/
def FractionForm (f : Text) : Prop :=
  f = [] ∨ ∃ ds, f = byte '.' :: ds ∧ ∀ c ∈ ds, Rfc.Digit c

theorem scanFraction_cases (src : Text) : FractionForm (scanFraction src).1 := by
  unfold scanFraction
  split
  · split_ifs with hc
    · exact .inr ⟨_, by rw [hc], digit_of_mem_scanDigits⟩
    · exact .inl rfl
  · exact .inl rfl

theorem frac_iff {f : Text} (h : FractionForm f) :
    Rfc.Frac f ↔ f ≠ [byte '.'] := by
  rcases h with rfl | ⟨ds, rfl, hds⟩
  · exact ⟨fun _ => (List.cons_ne_nil _ _).symm, fun _ => .inl rfl⟩
  · constructor
    · rintro (h | ⟨ds', heq, hne, -⟩) hpoint
      · exact List.cons_ne_nil _ _ h
      · obtain rfl := (List.cons.inj heq).2
        exact hne (List.cons.inj hpoint).2
    · exact fun hne => .inr ⟨ds, rfl, fun h => hne (h ▸ rfl), hds⟩

theorem scanExponentSign_cases (src : Text) :
    (scanExponentSign src).1 = [] ∨ (scanExponentSign src).1 = bytes "-" ∨
      (scanExponentSign src).1 = bytes "+" := by
  unfold scanExponentSign
  split
  · split_ifs with hc
    · rcases hc with rfl | rfl
      · exact .inr (.inr rfl)
      · exact .inr (.inl rfl)
    · exact .inl rfl
  · exact .inl rfl

/-- An exponent of which the digits may be missing. -/
def ExponentForm (x : Text) : Prop :=
  x = [] ∨ ∃ e sign ds, x = e :: (sign ++ ds) ∧ (e = byte 'e' ∨ e = byte 'E') ∧
    (sign = [] ∨ sign = bytes "-" ∨ sign = bytes "+") ∧ ∀ c ∈ ds, Rfc.Digit c

theorem scanExponent_cases (src : Text) : ExponentForm (scanExponent src).1 := by
  unfold scanExponent
  split
  · split_ifs with hc
    · exact .inr ⟨_, _, _, rfl, hc, scanExponentSign_cases _, digit_of_mem_scanDigits⟩
    · exact .inl rfl
  · exact .inl rfl

theorem exp_iff {x : Text} (h : ExponentForm x) :
    Rfc.Exp x ↔ ¬(x ≠ [] ∧ ∀ c ∈ x, isdigit c = false) := by
  constructor
  · rintro (rfl | ⟨e, sign, ds, rfl, -, -, hds⟩) ⟨hne, hnone⟩
    · exact hne rfl
    · obtain ⟨d, tail, rfl, hd⟩ := hds.exists_cons
      have hdigit := hnone d (by simp)
      rw [isdigit_iff.mpr hd] at hdigit
      cases hdigit
  · intro hdigits
    rcases h with rfl | ⟨e, sign, ds, rfl, he, hsign, hds⟩
    · exact .inl rfl
    · refine .inr ⟨e, sign, ds, rfl, he, hsign, ?_, hds⟩
      rintro rfl
      refine hdigits ⟨List.cons_ne_nil _ _, List.forall_mem_cons.mpr ⟨?_, ?_⟩⟩
      · rcases he with rfl | rfl <;> rfl
      · rcases hsign with rfl | rfl | rfl
        · exact List.forall_mem_nil _
        · exact List.forall_mem_singleton.mpr rfl
        · exact List.forall_mem_singleton.mpr rfl

theorem scanNumber_parts {src rest : Text} {n : NumberText} (h : scanNumber src = (n, rest)) :
    Rfc.Minus n.sign ∧ (∀ c ∈ n.whole, Rfc.Digit c) ∧ FractionForm n.fraction ∧
      ExponentForm n.exponent := by
  obtain ⟨rfl, -⟩ := Prod.mk.inj h
  exact ⟨minus_scanSign _, digit_of_mem_scanDigits, scanFraction_cases _, scanExponent_cases _⟩

theorem number_departs_iff {src rest : Text} {n : NumberText} (h : scanNumber src = (n, rest)) :
    (Token.number n).Departs ↔ ¬(Token.number n).IsRfc := by
  obtain ⟨hm, hi, hf, hx⟩ := scanNumber_parts h
  simp only [Token.Departs, Token.IsRfc, hm, true_and, int_iff hi, frac_iff hf, exp_iff hx,
    ne_eq, not_and_or, not_or, not_not, or_assoc]

/-! ### Strings -/

theorem escapes_cons {c : UInt8} (hc : c ≠ byte '\\') (src : Text) :
    escapes (c :: src) = escapes src := by
  cases src with
  | nil => rfl
  | cons e src => rw [escapes, if_neg hc]

theorem escapes_append {cs : Text} (hcs : ∀ c ∈ cs, c ≠ byte '\\') (src : Text) :
    escapes (cs ++ src) = escapes src := by
  induction cs with
  | nil => rfl
  | cons c cs ih =>
    obtain ⟨hc, hcs⟩ := List.forall_mem_cons.mp hcs
    rw [List.cons_append, escapes_cons hc, ih hcs]

theorem escapes_backslash (e : UInt8) (src : Text) :
    escapes (byte '\\' :: e :: src) = e :: escapes src := if_pos rfl

theorem Utf8.append {a b : Text} : Utf8 a → Utf8 b → Utf8 (a ++ b)
  | ⟨cs, ha⟩, ⟨ds, hb⟩ => ⟨cs ++ ds, by rw [List.flatMap_append, ha, hb]⟩

theorem mem_utf8EncodeChar {c : Char} {b : UInt8} (hb : b ∈ String.utf8EncodeChar c) :
    (c.val.toNat < 0x80 ∧ String.utf8EncodeChar c = [b] ∧ b.toNat = c.val.toNat) ∨
      (0x80 ≤ c.val.toNat ∧ 0x80 ≤ b.toNat) := by
  simp only [String.utf8EncodeChar] at hb ⊢
  split_ifs at hb ⊢ with hascii <;> simp only [List.mem_cons, List.not_mem_nil, or_false] at hb
  · subst hb
    exact .inl ⟨by omega, rfl, by rw [UInt8.toNat_ofNat']; omega⟩
  all_goals
    right
    rcases hb with rfl | rfl | rfl | rfl <;> simp only [UInt8.toNat_ofNat'] <;> omega

theorem utf8_ascii {b : UInt8} (hb : b.toNat < 0x80) : Utf8 [b] := by
  have hvalid : b.toNat.isValidChar := .inl (by omega)
  have hval : (Char.ofNat b.toNat).val.toNat = b.toNat := by
    rw [Char.ofNat, dif_pos hvalid]
    exact UInt32.toNat_ofNatLT
  refine ⟨[Char.ofNat b.toNat], ?_⟩
  rw [List.flatMap_singleton, String.utf8EncodeChar]
  simp only [hval]
  rw [if_pos (by omega), UInt8.ofNat_toNat]

theorem Utf8.ascii_append {a t : Text} (ha : ∀ b ∈ a, b.toNat < 0x80) (h : Utf8 t) :
    Utf8 (a ++ t) := by
  induction a with
  | nil => exact h
  | cons b a ih =>
    obtain ⟨hb, ha⟩ := List.forall_mem_cons.mp ha
    exact (utf8_ascii hb).append (ih ha)

theorem Utf8.exists_cons {b : UInt8} {t : Text} (h : Utf8 (b :: t)) :
    ∃ c u, b :: t = String.utf8EncodeChar c ++ u ∧ b ∈ String.utf8EncodeChar c ∧ Utf8 u := by
  obtain ⟨cs, hcs⟩ := h
  cases cs with
  | nil => cases hcs
  | cons c cs =>
    rw [List.flatMap_cons] at hcs
    obtain ⟨d, tail, hd⟩ := List.exists_cons_of_ne_nil (@String.utf8EncodeChar_ne_nil c)
    rw [hd] at hcs
    obtain rfl := (List.cons.inj hcs).1
    exact ⟨c, _, hd ▸ hcs, hd ▸ List.mem_cons_self, cs, rfl⟩

theorem Utf8.of_ascii_append {a t : Text} (ha : ∀ b ∈ a, b.toNat < 0x80) (h : Utf8 (a ++ t)) :
    Utf8 t := by
  induction a with
  | nil => exact h
  | cons b a ih =>
    obtain ⟨hb, ha⟩ := List.forall_mem_cons.mp ha
    obtain ⟨c, u, heq, hmem, hu⟩ := Utf8.exists_cons h
    rcases mem_utf8EncodeChar hmem with ⟨-, hsingle, -⟩ | ⟨-, hhigh⟩
    · rw [hsingle] at heq
      exact ih ha ((show a ++ t = u from (List.cons.inj heq).2) ▸ hu)
    · omega

/-- A printable byte of ASCII. -/
def Printable (c : UInt8) : Prop := 0x20 ≤ c.toNat ∧ c.toNat < 0x80

theorem HexDigit.printable {c : UInt8} (h : Rfc.HexDigit c) : Printable c ∧ c ≠ byte '\\' := by
  have hbetween {a b : UInt8} (hab : 0x20 ≤ a.toNat ∧ b.toNat < 0x80) (hc : a ≤ c ∧ c ≤ b) :
      Printable c :=
    ⟨hab.1.trans (UInt8.le_iff_toNat_le.mp hc.1), (UInt8.le_iff_toNat_le.mp hc.2).trans_lt hab.2⟩
  refine ⟨?_, ?_⟩
  · rcases h with h | h | h
    · exact hbetween (by decide) h
    · exact hbetween (by decide) h
    · exact hbetween (by decide) h
  · rintro rfl
    rw [← isHex_iff] at h
    exact absurd h (by decide)

theorem defined_iff {e : UInt8} :
    e ∈ bytes "\"\\/bfnrtu" ↔ e ∈ bytes "\"\\/bfnrt" ∨ e = byte 'u' := by
  have happ : bytes "\"\\/bfnrtu" = bytes "\"\\/bfnrt" ++ [byte 'u'] := rfl
  rw [happ, List.mem_append, List.mem_singleton]

theorem defined_printable {e : UInt8} (he : e ∈ bytes "\"\\/bfnrtu") : Printable e := by
  have hall : (bytes "\"\\/bfnrtu").all (fun e => 0x20 ≤ e.toNat && e.toNat < 0x80) = true := rfl
  simpa [Printable] using List.all_eq_true.mp hall e he

/-- No control character, no escape that is not defined, and bytes of UTF-8. -/
structure CleanBody (body : Text) : Prop where
  control : ∀ c ∈ body, 0x20 ≤ c.toNat
  escape : ∀ e ∈ escapes body, e ∈ bytes "\"\\/bfnrtu"
  utf8 : Utf8 body

theorem CleanBody.printable_append {a s : Text} (ha : ∀ c ∈ a, Printable c)
    (hescapes : ∀ e ∈ escapes (a ++ s), e ∈ escapes s ∨ e ∈ bytes "\"\\/bfnrtu")
    (h : CleanBody s) : CleanBody (a ++ s) where
  control := List.forall_mem_append.mpr ⟨fun c hc => (ha c hc).1, h.control⟩
  escape := fun e he => (hescapes e he).elim (h.escape e) id
  utf8 := h.utf8.ascii_append fun c hc => (ha c hc).2

theorem Rfc.Chars.clean {body : Text} (h : Rfc.Chars body) : CleanBody body := by
  have hback : Printable (byte '\\') := ⟨by decide, by decide⟩
  induction h with
  | nil => exact ⟨List.forall_mem_nil _, List.forall_mem_nil _, [], rfl⟩
  | @cons c s hc _ ih =>
    cases hc with
    | unescaped c hcontrol hq hb =>
      have hraw := utf8EncodeChar_raw hq hb
      refine ⟨List.forall_mem_append.mpr ⟨fun b hb => ?_, ih.control⟩, ?_, ?_⟩
      · rcases mem_utf8EncodeChar hb with ⟨-, -, heq⟩ | ⟨-, hhigh⟩
        · omega
        · omega
      · rw [escapes_append fun b hb => (hraw b hb).2]
        exact ih.escape
      · exact Utf8.append ⟨[c], by simp⟩ ih.utf8
    | @escape e he =>
      have hdefined : e ∈ bytes "\"\\/bfnrtu" := defined_iff.mpr (.inl he)
      refine ih.printable_append ?_ ?_
      · exact List.forall_mem_cons.mpr
          ⟨hback, List.forall_mem_singleton.mpr (defined_printable hdefined)⟩
      · intro e' he'
        rcases List.mem_cons.mp he' with rfl | he'
        · exact .inr hdefined
        · exact .inl he'
    | @unicode h₁ h₂ h₃ h₄ hex =>
      have hdigits : ∀ h ∈ [h₁, h₂, h₃, h₄], Printable h ∧ h ≠ byte '\\' := fun h hh =>
        HexDigit.printable (hex h hh)
      refine ih.printable_append ?_ ?_
      · exact List.forall_mem_cons.mpr ⟨hback, List.forall_mem_cons.mpr
          ⟨⟨by decide, by decide⟩, fun h hh => (hdigits h hh).1⟩⟩
      · intro e he
        rcases List.mem_cons.mp he with rfl | he
        · exact .inr (by decide)
        · exact .inl ((escapes_append (fun h hh => (hdigits h hh).2) s) ▸ he)

theorem CleanBody.of_append {a s : Text} (ha : ∀ c ∈ a, c.toNat < 0x80)
    (hescapes : ∀ e ∈ escapes s, e ∈ escapes (a ++ s)) (h : CleanBody (a ++ s)) :
    CleanBody s where
  control := (List.forall_mem_append.mp h.control).2
  escape := fun e he => h.escape e (hescapes e he)
  utf8 := h.utf8.of_ascii_append ha

theorem ReadsString.of_raw {c : UInt8} {src s body rest : Text} (hb : c ≠ byte '\\')
    (h : ReadsString src s (c :: body) rest) : ∃ src' s', ReadsString src' s' body rest := by
  cases h with
  | raw _ _ h => exact ⟨_, _, h⟩
  | escape => exact absurd rfl hb
  | unicode => exact absurd rfl hb

theorem ReadsString.of_raws {cs src s body rest : Text} (hcs : ∀ b ∈ cs, b ≠ byte '\\')
    (h : ReadsString src s (cs ++ body) rest) : ∃ src' s', ReadsString src' s' body rest := by
  induction cs generalizing src s with
  | nil => exact ⟨src, s, h⟩
  | cons c cs ih =>
    obtain ⟨hb, hcs⟩ := List.forall_mem_cons.mp hcs
    obtain ⟨src', s', h⟩ := ReadsString.of_raw hb h
    exact ih hcs h

/-- The first character of a clean text that does not begin with an escape. -/
theorem CleanBody.unescaped {c : UInt8} {body : Text} (hq : c ≠ byte '"') (hb : c ≠ byte '\\')
    (h : CleanBody (c :: body)) :
    ∃ l u, Rfc.StringChar l ∧ l ≠ [] ∧ c :: body = l ++ u ∧ (∀ b ∈ l, b ≠ byte '\\') ∧
      CleanBody u := by
  obtain ⟨ch, u, heq, hmem, hu⟩ := h.utf8.exists_cons
  have hne {x : Char} (hx : x.val.toNat < 0x80) (hcx : c ≠ UInt8.ofNat x.val.toNat) :
      ch ≠ x := by
    rintro rfl
    rcases mem_utf8EncodeChar hmem with ⟨-, -, heq⟩ | ⟨hhigh, -⟩
    · exact hcx (by rw [← heq, UInt8.ofNat_toNat])
    · omega
  have hquote : ch ≠ '"' := hne (by decide) hq
  have hback : ch ≠ '\\' := hne (by decide) hb
  have hcontrol : 0x20 ≤ ch.val.toNat := by
    have hc := h.control c List.mem_cons_self
    rcases mem_utf8EncodeChar hmem with ⟨-, -, heq⟩ | ⟨hhigh, -⟩ <;> omega
  have hraw := fun b hb => (utf8EncodeChar_raw hquote hback b hb).2
  have hescapes : escapes (c :: body) = escapes u := by rw [heq, escapes_append hraw]
  refine ⟨_, u, .unescaped ch hcontrol hquote hback, List.ne_nil_of_mem hmem, heq, hraw,
    ⟨fun b hb => h.control b (heq ▸ List.mem_append_right _ hb), ?_, hu⟩⟩
  rw [← hescapes]
  exact h.escape

theorem CleanBody.chars {src s body rest : Text} (h : ReadsString src s body rest)
    (hclean : CleanBody body) : Rfc.Chars body := by
  induction hn : body.length using Nat.strong_induction_on generalizing src s body with
  | _ n ih =>
    subst hn
    cases h with
    | quote => exact .nil
    | raw hq hb h =>
      obtain ⟨l, u, hl, hne, heq, hraw, hu⟩ := hclean.unescaped hq hb
      obtain ⟨src', s', hread⟩ := (heq ▸ ReadsString.raw hq hb h).of_raws hraw
      have hlt : u.length < (l ++ u).length := by
        simpa using List.length_pos_iff.mpr hne
      rw [heq] at ih ⊢
      exact .cons hl (ih _ hlt hread hu rfl)
    | @escape esc src s body _ hu h =>
      have hmem := hclean.escape esc (escapes_backslash esc body ▸ List.mem_cons_self)
      have hdefined := (defined_iff.mp hmem).resolve_right hu
      have hrest : CleanBody body := by
        refine CleanBody.of_append (a := [byte '\\', esc]) ?_ ?_ hclean
        · exact List.forall_mem_cons.mpr
            ⟨by decide, List.forall_mem_singleton.mpr (defined_printable hmem).2⟩
        · exact fun e he => List.mem_cons_of_mem _ he
      exact .cons (.escape hdefined) (ih _ (by simp) h hrest rfl)
    | @unicode h₁ h₂ h₃ h₄ src s body _ hex h =>
      have hdigits : ∀ h ∈ [h₁, h₂, h₃, h₄], Rfc.HexDigit h := fun h hh =>
        isHex_iff.mp (List.all_eq_true.mp hex h hh)
      have hrest : CleanBody body := by
        refine CleanBody.of_append (a := [byte '\\', byte 'u', h₁, h₂, h₃, h₄]) ?_ ?_ hclean
        · exact List.forall_mem_cons.mpr ⟨by decide, List.forall_mem_cons.mpr
            ⟨by decide, fun h hh => (HexDigit.printable (hdigits h hh)).1.2⟩⟩
        · intro e he
          refine List.mem_cons_of_mem _ ?_
          have happ := escapes_append (fun h hh => (HexDigit.printable (hdigits h hh)).2) body
          exact happ ▸ he
      exact .cons (.unicode hdigits) (ih _ (by simp; omega) h hrest rfl)

theorem string_departs_iff {src s body rest : Text} (h : ReadsString src s body rest) :
    (Token.string body).Departs ↔ ¬(Token.string body).IsRfc := by
  have hiff : Rfc.Chars body ↔ CleanBody body := ⟨Rfc.Chars.clean, CleanBody.chars h⟩
  rw [Token.IsRfc, hiff]
  constructor
  · rintro (⟨c, hc, hcontrol⟩ | ⟨e, he, hundefined⟩ | hutf8) hclean
    · exact absurd (hclean.control c hc) (by omega)
    · exact hundefined (hclean.escape e he)
    · exact hutf8 hclean.utf8
  · intro hnot
    by_contra hdeparts
    obtain ⟨hcontrol, hdeparts⟩ := not_or.mp hdeparts
    obtain ⟨hescape, hutf8⟩ := not_or.mp hdeparts
    exact hnot ⟨fun c hc => not_lt.mp fun hlt => hcontrol ⟨c, hc, hlt⟩,
      fun e he => by_contra fun hno => hescape ⟨e, he, hno⟩, not_not.mp hutf8⟩

theorem Token.Scanned.departs_iff : ∀ {t : Token}, t.Scanned → (t.Departs ↔ ¬t.IsRfc)
  | .number _, ⟨_, _, h⟩ => number_departs_iff h
  | .string _, ⟨_, _, _, h⟩ => string_departs_iff h

/-! ## The texts that are taken -/

/-- A text is of the grammar exactly if it can be read without a departure. -/
theorem jsonText_iff {t : Text} :
    Rfc.JsonText t ↔ ∃ v tokens rest, ReadsValue t v tokens rest ∧
      (∀ token ∈ tokens, token.IsRfc) ∧ Rfc.Whitespace rest := by
  constructor
  · rintro ⟨a, s, b, ha, hs, hb, rfl⟩
    have hends : EndsNumber b := by
      intro c hc
      rcases hb c (List.mem_of_mem_head? hc) with rfl | rfl | rfl | rfl <;> decide
    obtain ⟨v, tokens, hv, htokens⟩ := hs.reads hends
    rw [List.append_assoc]
    exact ⟨v, tokens, b, hv.congr (skipWhitespace_append ha _), htokens, hb⟩
  · rintro ⟨v, tokens, rest, hv, htokens, hrest⟩
    obtain ⟨w, s, hw, hs, rfl⟩ := hv.derives htokens
    exact ⟨w, s, rest, hw, hs, hrest, rfl⟩

theorem cString_eq {t : Text} (h : 0 ∉ t) : cString t = t :=
  List.takeWhile_eq_self_iff.mpr fun c hc => by
    simpa using fun heq : c = 0 => h (heq ▸ hc)

theorem jsonParse_ok_iff {t : Text} {v : Node} :
    jsonParse (some t) = .ok v ↔ ∃ tokens rest, ReadsValue (cString t) v tokens rest := by
  simp only [jsonParse]
  split_ifs with hempty
  · rw [hempty]
    exact ⟨fun h => (by cases h), fun ⟨_, _, h⟩ => absurd h.length_lt (Nat.not_lt_zero _)⟩
  · have hp := @parses_parseValue (cString t).length (cString t)
    constructor
    · intro h
      cases hout : parseValue (cString t).length (cString t) with
      | error e => rw [hout] at h; cases h
      | ok out =>
        rw [hout] at h
        cases h
        obtain ⟨tokens, hv⟩ := (hp le_rfl).mp hout
        exact ⟨tokens, out.2, hv⟩
    · rintro ⟨tokens, rest, hv⟩
      rw [(hp le_rfl).mpr ⟨tokens, hv⟩]
      rfl

/-- A text without NUL is taken as the grammar says exactly if it does not depart from it. -/
theorem accepts_iff_jsonText_iff {t : Text} (ht : 0 ∉ t) :
    ((∃ v, jsonParse (some t) = .ok v) ↔ Rfc.JsonText t) ↔ ¬Departs t := by
  simp only [jsonParse_ok_iff, cString_eq ht, jsonText_iff]
  constructor
  · rintro hiff ⟨v, tokens, rest, hv, hbad⟩
    obtain ⟨v', tokens', rest', hv', hrfc, hrest⟩ := hiff.mp ⟨v, tokens, rest, hv⟩
    obtain ⟨rfl, rfl, rfl⟩ := hv.unique hv'
    rcases hbad with ⟨token, htoken, hbad⟩ | ⟨c, hc, hbad⟩
    · exact (hv.scanned token htoken).departs_iff.mp hbad (hrfc token htoken)
    · rw [isWhitespace_iff.mpr (hrest c hc)] at hbad
      cases hbad
  · intro hdeparts
    constructor
    · rintro ⟨v, tokens, rest, hv⟩
      refine ⟨v, tokens, rest, hv, fun token htoken => ?_, fun c hc => ?_⟩
      · by_contra hbad
        have hbad := (hv.scanned token htoken).departs_iff.mpr hbad
        exact hdeparts ⟨v, tokens, rest, hv, .inl ⟨token, htoken, hbad⟩⟩
      · refine isWhitespace_iff.mp (Bool.of_not_eq_false fun hbad => ?_)
        exact hdeparts ⟨v, tokens, rest, hv, .inr ⟨c, hc, hbad⟩⟩
    · rintro ⟨v, tokens, rest, hv, -⟩
      exact ⟨v, tokens, rest, hv⟩

theorem array_taken_iff :
    ((∃ v, jsonParse (some (bytes "[1, true]")) = .ok v) ↔ Rfc.JsonText (bytes "[1, true]")) ↔
      ¬Departs (bytes "[1, true]") :=
  accepts_iff_jsonText_iff (by decide)

/-- What follows the value is not looked at. -/
theorem trailing_text_taken :
    0 ∉ bytes "null x" ∧
      ¬((∃ v, jsonParse (some (bytes "null x")) = .ok v) ↔ Rfc.JsonText (bytes "null x")) := by
  refine ⟨by decide, fun hiff => ?_⟩
  obtain ⟨v, tokens, rest, hv, -, hrest⟩ := jsonText_iff.mp (hiff.mp ⟨.null, rfl⟩)
  have hnull : ReadsValue (bytes "null x") .null [] (bytes " x") := .null rfl
  obtain ⟨-, -, rfl⟩ := hnull.unique hv
  have hx := hrest (byte 'x') (by decide)
  exact absurd hx (by decide)

end Json

end Absolute
