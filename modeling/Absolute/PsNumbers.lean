import Absolute.PsLexerMatches

/-!
# Number literals

`NormalizeNumericLiteral` strips separators and writes a literal with a base prefix in
decimal. What is left is matched whole where a blank or nothing follows
(`matchAt_decimal`), and is the numeral of what was written (`numeral_of_normalize`).
-/

namespace Absolute

namespace Lexer

open Regex

/-! ## What a number is written as -/

/-- The prefixes `0x`, `0b` and `0o`. -/
inductive Radix where
  | hexadecimal
  | binary
  | octal

def Radix.value : Radix → ℕ
  | hexadecimal => 16
  | binary => 2
  | octal => 8

def Radix.letters : Radix → List Char
  | hexadecimal => ['x', 'X']
  | binary => ['b', 'B']
  | octal => ['o', 'O']

def Radix.isDigit : Radix → Char → Bool
  | hexadecimal => isHexDigit
  | binary => isBinaryDigit
  | octal => isOctalDigit

/-- A text without its separators. -/
def strip (w : Text) : Text := w.filter (· ≠ '_')

/-- The text of `D(_?D)*`, or some more. -/
def Grouped (isDigit : Char → Bool) (w : Text) : Prop :=
  strip w ≠ [] ∧ ∀ c ∈ w, isDigit c = true ∨ c = '_'

def Fraction (w : Text) : Prop := w = [] ∨ ∃ d, w = '.' :: d ∧ Grouped Char.isDigit d

def Exponent (w : Text) : Prop :=
  w = [] ∨ ∃ e sign d, w = e :: (sign ++ d) ∧ (e = 'e' ∨ e = 'E')
    ∧ (sign = [] ∨ sign = ['+'] ∨ sign = ['-']) ∧ Grouped Char.isDigit d

/-- The parts of a decimal literal. -/
structure Decimal (w : Text) where
  whole : Text
  fraction : Text
  exponent : Text
  eq : w = whole ++ (fraction ++ exponent)
  wholeGrouped : Grouped Char.isDigit whole
  isFraction : Fraction fraction
  isExponent : Exponent exponent

inductive Written : Text → Prop
  | based (radix : Radix) (x : Char) (hx : x ∈ radix.letters) (w : Text)
      (hw : Grouped radix.isDigit w) : Written ('0' :: x :: w)
  | decimal (w : Text) (hw : Nonempty (Decimal w)) : Written w

theorem mem_ends_digits {isDigit : Char → Bool} {p q : Place}
    (h : q ∈ ends (.star (.seq (optional (char '_')) (.set isDigit))) p) :
    ∃ w, p.rest = w ++ q.rest ∧ ∀ c ∈ w, isDigit c = true ∨ c = '_' := by
  refine @repeated_keeps _
    (fun r => ∃ w, p.rest = w ++ r.rest ∧ ∀ c ∈ w, isDigit c = true ∨ c = '_') ?_ _ _ _
    ⟨[], rfl, fun c hc => by cases hc⟩ h
  rintro r ⟨w, hrest, hw⟩ r' hr'
  obtain ⟨m, hm, hr'⟩ := List.mem_flatMap.mp hr'
  obtain ⟨c, hc, hmrest⟩ := mem_ends_set hr'
  rcases List.mem_append.mp hm with hm | hm
  · refine ⟨w ++ ['_', c], ?_, ?_⟩
    · rw [hrest, mem_ends_char hm, hmrest]
      simp
    · intro d hd
      rcases List.mem_append.mp hd with hd | hd
      · exact hw d hd
      · rcases List.mem_cons.mp hd with rfl | hd
        · exact .inr rfl
        · exact .inl (List.mem_singleton.mp hd ▸ hc)
  · refine ⟨w ++ [c], ?_, ?_⟩
    · rw [hrest, ← List.mem_singleton.mp hm, hmrest]
      simp
    · intro d hd
      rcases List.mem_append.mp hd with hd | hd
      · exact hw d hd
      · exact .inl (List.mem_singleton.mp hd ▸ hc)

theorem mem_ends_separated {isDigit : Char → Bool} (hunder : isDigit '_' = false) {p q : Place}
    (h : q ∈ ends (separated isDigit) p) : ∃ w, p.rest = w ++ q.rest ∧ Grouped isDigit w := by
  obtain ⟨m, hm, hq⟩ := List.mem_flatMap.mp h
  obtain ⟨w, hrest, hw⟩ := mem_ends_digits hq
  obtain ⟨b, t⟩ := p
  cases t with
  | nil => cases hm
  | cons c t =>
    rw [ends_set_cons] at hm
    split at hm
    · rename_i hc
      rw [List.mem_singleton.mp hm] at hrest
      refine ⟨c :: w, by rw [List.cons_append, ← hrest], ?_, ?_⟩
      · have hne : c ≠ '_' := by
          rintro rfl
          exact absurd (hc.symm.trans hunder) (by decide)
        simp [strip, hne]
      · intro d hd
        rcases List.mem_cons.mp hd with rfl | hd
        · exact .inl hc
        · exact hw d hd
    · cases hm

theorem mem_ends_fraction {p q : Place} (h : q ∈ ends fraction p) :
    ∃ w, p.rest = w ++ q.rest ∧ Fraction w := by
  rcases List.mem_append.mp h with h | h
  · obtain ⟨m, hm, hq⟩ := List.mem_flatMap.mp h
    obtain ⟨d, hrest, hd⟩ := mem_ends_separated (by decide) hq
    exact ⟨'.' :: d, by rw [mem_ends_char hm, hrest]; rfl, .inr ⟨d, rfl, hd⟩⟩
  · exact ⟨[], by rw [List.mem_singleton.mp h]; rfl, .inl rfl⟩

theorem mem_ends_exponent {p q : Place} (h : q ∈ ends exponent p) :
    ∃ w, p.rest = w ++ q.rest ∧ Exponent w := by
  rcases List.mem_append.mp h with h | h
  · obtain ⟨m, hm, hq⟩ := List.mem_flatMap.mp h
    obtain ⟨m', hm', hq⟩ := List.mem_flatMap.mp hq
    obtain ⟨d, hrest, hd⟩ := mem_ends_separated (by decide) hq
    obtain ⟨e, he, hprest⟩ := mem_ends_set hm
    obtain ⟨sign, hsign, hmrest⟩ : ∃ sign, (sign = [] ∨ sign = ['+'] ∨ sign = ['-'])
        ∧ m.rest = sign ++ m'.rest := by
      rcases List.mem_append.mp hm' with hm' | hm'
      · obtain ⟨c, hc, hrest⟩ := mem_ends_set hm'
        refine ⟨[c], ?_, hrest⟩
        simpa using hc
      · exact ⟨[], .inl rfl, by rw [List.mem_singleton.mp hm']; rfl⟩
    refine ⟨e :: (sign ++ d), ?_, .inr ⟨e, sign, d, rfl, by simpa using he, hsign, hd⟩⟩
    rw [hprest, hmrest, hrest]
    simp
  · exact ⟨[], by rw [List.mem_singleton.mp h]; rfl, .inl rfl⟩

/-- How a number is written. -/
theorem written_of_mem {p q : Place} (h : q ∈ ends (tokenSpec .number) p) :
    ∃ w, p.rest = w ++ q.rest ∧ Written w := by
  have hbased : ∀ radix : Radix, q ∈ ends (based radix.letters radix.isDigit) p →
      ∃ w, p.rest = w ++ q.rest ∧ Written w := by
    intro radix h
    obtain ⟨m, hm, hq⟩ := List.mem_flatMap.mp h
    obtain ⟨m', hm', hq⟩ := List.mem_flatMap.mp hq
    obtain ⟨x, hx, hmrest⟩ := mem_ends_set hm'
    have hunder : radix.isDigit '_' = false := by cases radix <;> decide
    obtain ⟨w, hrest, hw⟩ := mem_ends_separated hunder hq
    refine ⟨'0' :: x :: w, ?_, .based radix x (by simpa using hx) w hw⟩
    rw [mem_ends_char hm, hmrest, hrest]
    rfl
  rw [tokenSpec, ends_oneOf] at h
  obtain ⟨r, hr, h⟩ := List.mem_flatMap.mp h
  simp only [List.mem_cons, List.not_mem_nil, or_false] at hr
  rcases hr with rfl | rfl | rfl | rfl
  · exact hbased .hexadecimal h
  · exact hbased .binary h
  · exact hbased .octal h
  · obtain ⟨m, hm, hq⟩ := List.mem_flatMap.mp h
    obtain ⟨m', hm', hq⟩ := List.mem_flatMap.mp hq
    obtain ⟨i, hi, hwhole⟩ := mem_ends_separated (by decide) hm
    obtain ⟨f, hf, hfraction⟩ := mem_ends_fraction hm'
    obtain ⟨e, he, hexponent⟩ := mem_ends_exponent hq
    refine ⟨i ++ (f ++ e), ?_, .decimal _ ⟨⟨i, f, e, rfl, hwhole, hfraction, hexponent⟩⟩⟩
    rw [hi, hf, he]
    simp

/-! ## What it is normalized to -/

theorem strip_cons {c : Char} (hc : c ≠ '_') (w : Text) : strip (c :: w) = c :: strip w :=
  List.filter_cons_of_pos (by simpa using hc)

theorem strip_append (v w : Text) : strip (v ++ w) = strip v ++ strip w := List.filter_append ..

theorem strip_eq_self {w : Text} (h : '_' ∉ w) : strip w = w :=
  List.filter_eq_self.mpr fun c hc => by
    have : c ≠ '_' := fun heq => h (heq ▸ hc)
    simpa using this

theorem underscore_not_mem_strip (w : Text) : '_' ∉ strip w := by
  intro h
  have := List.of_mem_filter h
  simp at this

theorem strip_strip (w : Text) : strip (strip w) = strip w :=
  strip_eq_self (underscore_not_mem_strip w)

theorem mem_strip {c : Char} {w : Text} (h : c ∈ strip w) : c ∈ w ∧ c ≠ '_' :=
  ⟨List.mem_of_mem_filter h, by simpa using List.of_mem_filter h⟩

theorem Grouped.isDigit_of_mem {isDigit : Char → Bool} {w : Text} (h : Grouped isDigit w) :
    ∀ c ∈ strip w, isDigit c = true := fun c hc =>
  (h.2 c (mem_strip hc).1).resolve_right (mem_strip hc).2

theorem Grouped.strip {isDigit : Char → Bool} {w : Text} (h : Grouped isDigit w) :
    Grouped isDigit (strip w) := by
  refine ⟨?_, fun c hc => .inl (h.isDigit_of_mem c hc)⟩
  rw [strip_strip]
  exact h.1

theorem digitValue_lt_of_isHexDigit {c : Char} (h : isHexDigit c = true) : digitValue c < 16 := by
  have h0 : '0'.val.toNat = 48 := rfl
  have h9 : '9'.val.toNat = 57 := rfl
  have ha : 'a'.val.toNat = 97 := rfl
  have hf : 'f'.val.toNat = 102 := rfl
  have hA : 'A'.val.toNat = 65 := rfl
  have hF : 'F'.val.toNat = 70 := rfl
  simp only [isHexDigit, Char.isDigit, Bool.or_eq_true, Bool.and_eq_true, decide_eq_true_eq,
    Char.le_def, UInt32.le_iff_toNat_le, ge_iff_le, h0, h9, ha, hf, hA, hF] at h
  simp only [digitValue, Char.isDigit, Char.toNat, Char.le_def, UInt32.le_iff_toNat_le,
    Bool.and_eq_true, decide_eq_true_eq, ge_iff_le, h0, h9, ha, hf, hA]
  split
  · omega
  · split <;> omega

/-- The digits of a base are what `stoull` reads in it. -/
theorem Radix.digitValue_lt {radix : Radix} {c : Char} (h : radix.isDigit c = true) :
    isHexDigit c = true ∧ digitValue c < radix.value := by
  cases radix with
  | hexadecimal => exact ⟨h, digitValue_lt_of_isHexDigit h⟩
  | binary =>
    simp only [Radix.isDigit, isBinaryDigit, List.mem_cons, List.not_mem_nil, or_false,
      decide_eq_true_eq] at h
    rcases h with rfl | rfl <;> decide
  | octal =>
    simp only [Radix.isDigit, isOctalDigit, Bool.and_eq_true, decide_eq_true_eq, Char.le_def,
      UInt32.le_iff_toNat_le] at h
    have h0 : '0'.val.toNat = 48 := rfl
    have h7 : '7'.val.toNat = 55 := rfl
    have h9 : '9'.val.toNat = 57 := rfl
    have hdigit : c.isDigit = true := by
      simp only [Char.isDigit, Bool.and_eq_true, decide_eq_true_eq, ge_iff_le,
        UInt32.le_iff_toNat_le]
      omega
    refine ⟨by simp [isHexDigit, hdigit], ?_⟩
    rw [digitValue, if_pos hdigit]
    simp only [Char.toNat, Radix.value]
    omega

theorem baseOf_based {radix : Radix} {x : Char} (hx : x ∈ radix.letters) (w : Text) :
    baseOf ('0' :: x :: w) = (radix.value, 2) := by
  cases radix <;> simp only [Radix.letters, List.mem_cons, List.not_mem_nil, or_false] at hx
    <;> rcases hx with rfl | rfl <;> rfl

theorem not_underscore_of_letter {radix : Radix} {x : Char} (hx : x ∈ radix.letters) : x ≠ '_' := by
  rintro rfl
  cases radix <;> exact absurd hx (by decide)

theorem normalize_based {radix : Radix} {x : Char} (hx : x ∈ radix.letters) {w : Text}
    (hw : Grouped radix.isDigit w) {pos : Position} {text : Text}
    (h : normalizeNumericLiteral ('0' :: x :: w) pos = .ok text) :
    text = Nat.toDigits 10 (numeral radix.value (strip w)) := by
  have hstrip : ('0' :: x :: w).filter (· ≠ '_') = '0' :: x :: strip w := by
    have := strip_cons (c := '0') (by decide) (x :: w)
    rw [strip_cons (not_underscore_of_letter hx)] at this
    exact this
  have hne : radix.value ≠ 10 := by cases radix <;> decide
  have hdigits : (strip w).takeWhile (fun c => isHexDigit c && digitValue c < radix.value)
      = strip w := by
    refine List.takeWhile_eq_self_iff.mpr fun c hc => ?_
    obtain ⟨hhex, hlt⟩ := Radix.digitValue_lt (hw.isDigit_of_mem c hc)
    simp [hhex, hlt]
  unfold normalizeNumericLiteral at h
  simp only [hstrip, baseOf_based hx, if_neg hne, List.drop_succ_cons, List.drop_zero, stoull,
    hdigits, if_neg hw.1] at h
  split at h
  · rename_i value consumed hread
    split at hread
    · cases hread
    · obtain ⟨rfl, rfl⟩ := Prod.mk.inj (Option.some.inj hread)
      split at h
      · exact (Except.ok.inj h).symm
      · cases h
  · cases h

/-- The characters of a decimal literal. -/
def isDecimalCharacter (c : Char) : Bool := c.isDigit || c ∈ ['_', '.', 'e', 'E', '+', '-']

theorem Decimal.characters {w : Text} (h : Decimal w) : ∀ c ∈ w, isDecimalCharacter c = true := by
  have hgrouped : ∀ {d : Text}, Grouped Char.isDigit d → ∀ c ∈ d, isDecimalCharacter c = true := by
    intro d hd c hc
    rcases hd.2 c hc with hdigit | rfl
    · simp [isDecimalCharacter, hdigit]
    · rfl
  intro c hc
  rw [h.eq] at hc
  rcases List.mem_append.mp hc with hc | hc
  · exact hgrouped h.wholeGrouped c hc
  · rcases List.mem_append.mp hc with hc | hc
    · rcases h.isFraction with hnil | ⟨d, heq, hd⟩
      · rw [hnil] at hc
        cases hc
      · rw [heq] at hc
        rcases List.mem_cons.mp hc with rfl | hc
        · rfl
        · exact hgrouped hd c hc
    · rcases h.isExponent with hnil | ⟨e, sign, d, heq, he, hsign, hd⟩
      · rw [hnil] at hc
        cases hc
      · rw [heq] at hc
        rcases List.mem_cons.mp hc with rfl | hc
        · rcases he with rfl | rfl <;> rfl
        · rcases List.mem_append.mp hc with hc | hc
          · rcases hsign with rfl | rfl | rfl
            · cases hc
            · obtain rfl := List.mem_singleton.mp hc
              rfl
            · obtain rfl := List.mem_singleton.mp hc
              rfl
          · exact hgrouped hd c hc

theorem not_letter_of_decimal {radix : Radix} {c : Char} (h : isDecimalCharacter c = true) :
    c ∉ radix.letters := by
  intro hc
  cases radix <;> simp only [Radix.letters, List.mem_cons, List.not_mem_nil, or_false] at hc
    <;> rcases hc with rfl | rfl <;> exact absurd h (by decide)

theorem not_base_letter {c : Char} (hc : isDecimalCharacter c = true) :
    ¬(c = 'x' ∨ c = 'X') ∧ ¬(c = 'b' ∨ c = 'B') ∧ ¬(c = 'o' ∨ c = 'O') := by
  have hhex := @not_letter_of_decimal .hexadecimal c hc
  have hbin := @not_letter_of_decimal .binary c hc
  have hoct := @not_letter_of_decimal .octal c hc
  simp only [Radix.letters, List.mem_cons, List.not_mem_nil, or_false] at hhex hbin hoct
  exact ⟨hhex, hbin, hoct⟩

theorem baseOf_decimal {w : Text} (h : ∀ c ∈ w, isDecimalCharacter c = true) :
    baseOf w = (10, 0) := by
  unfold baseOf
  split
  · rename_i c rest
    obtain ⟨hhex, hbin, hoct⟩ := not_base_letter (h c (by simp))
    rw [if_neg hhex, if_neg hbin, if_neg hoct]
  · rfl

theorem normalize_decimal {w : Text} (h : Decimal w) (pos : Position) :
    normalizeNumericLiteral w pos = .ok (strip w) := by
  have hbase : baseOf (w.filter (· ≠ '_')) = (10, 0) :=
    baseOf_decimal fun c hc => h.characters c (List.mem_of_mem_filter hc)
  unfold normalizeNumericLiteral
  simp only [hbase, if_true]
  rfl

/-- The parts without their separators. -/
def Decimal.strip {w : Text} (h : Decimal w) : Decimal (strip w) where
  whole := Lexer.strip h.whole
  fraction := Lexer.strip h.fraction
  exponent := Lexer.strip h.exponent
  eq := by rw [← strip_append, ← strip_append, ← h.eq]
  wholeGrouped := h.wholeGrouped.strip
  isFraction := by
    rcases h.isFraction with hnil | ⟨d, heq, hd⟩
    · exact .inl (by rw [hnil]; rfl)
    · exact .inr ⟨Lexer.strip d, by rw [heq, strip_cons (by decide)], hd.strip⟩
  isExponent := by
    rcases h.isExponent with hnil | ⟨e, sign, d, heq, he, hsign, hd⟩
    · exact .inl (by rw [hnil]; rfl)
    · have hne : e ≠ '_' := by rcases he with rfl | rfl <;> decide
      have hsignStrip : Lexer.strip sign = sign := by
        rcases hsign with rfl | rfl | rfl <;> rfl
      refine .inr ⟨e, sign, Lexer.strip d, ?_, he, hsign, hd.strip⟩
      rw [heq, strip_cons hne, strip_append, hsignStrip]

/-- Digits alone are a decimal literal. -/
def decimalOfDigits {w : Text} (hne : w ≠ []) (h : ∀ c ∈ w, c.isDigit = true) : Decimal w where
  whole := w
  fraction := []
  exponent := []
  eq := by rw [List.append_nil, List.append_nil]
  wholeGrouped := by
    refine ⟨?_, fun c hc => .inl (h c hc)⟩
    rwa [strip_eq_self]
    intro hmem
    exact absurd (h _ hmem) (by decide)
  isFraction := .inl rfl
  isExponent := .inl rfl

/-! ## What it is matched as -/

/-- Nothing, or a blank. -/
def Blank (s : Text) : Prop := ∀ c ∈ s.head?, c = ' '

/-- What a group of digits does not go on with, nor with a fraction. -/
def Closes (s : Text) : Prop := ∀ c ∈ s.head?, c.isDigit = false ∧ c ≠ '_' ∧ c ≠ '.'

theorem Blank.closes {s : Text} (h : Blank s) : Closes s := fun c hc => by
  rw [h c hc]
  decide

theorem not_underscore_of_isDigit {c : Char} (h : c.isDigit = true) : c ≠ '_' := by
  rintro rfl
  exact absurd h (by decide)

/-- Digits without separators. -/
structure Digits (d : Text) : Prop where
  ne_nil : d ≠ []
  isDigit : ∀ c ∈ d, c.isDigit = true

theorem Grouped.digits {d : Text} (h : Grouped Char.isDigit d) (hplain : '_' ∉ d) : Digits d where
  ne_nil := by
    rintro rfl
    exact h.1 rfl
  isDigit c hc := (h.2 c hc).resolve_right fun heq => hplain (heq ▸ hc)

theorem reaches_digits {d s : Text} (hd : ∀ c ∈ d, c.isDigit = true)
    (hs : ∀ c ∈ s.head?, c.isDigit = false ∧ c ≠ '_') {p : Place} (hp : p.rest = d ++ s) :
    Reaches (.star (.seq (optional (char '_')) (.set Char.isDigit))) p s := by
  induction d generalizing p with
  | nil =>
    rw [← show p.rest = s from hp]
    refine reaches_star_nil (ends_eq_nil rfl fun c hc => ?_)
    rw [hp] at hc
    obtain ⟨hdigit, hunder⟩ := hs c hc
    simp [Regex.optional, char, first, nullable, hdigit, hunder]
  | cons c d ih =>
    have hc := hd c List.mem_cons_self
    have hnone : ends (char '_') p = [] := by
      refine ends_eq_nil rfl fun e he => ?_
      rw [hp] at he
      obtain rfl : c = e := Option.some.inj he
      simpa [char, first] using not_underscore_of_isDigit hc
    refine Reaches.star_cons (t := d ++ s) ?_ (by simp [hp]) fun q hq =>
      ih (fun e he => hd e (List.mem_cons_of_mem _ he)) hq
    exact Reaches.seq (Reaches.right hnone (reaches_empty p)) fun q hq =>
      reaches_set hc (hq.trans hp)

theorem Digits.reaches {d : Text} (h : Digits d) {s : Text}
    (hs : ∀ c ∈ s.head?, c.isDigit = false ∧ c ≠ '_') {p : Place} (hp : p.rest = d ++ s) :
    Reaches (separated Char.isDigit) p s := by
  cases d with
  | nil => exact absurd rfl h.ne_nil
  | cons c d =>
    exact Reaches.seq (reaches_set (h.isDigit c List.mem_cons_self) hp) fun q hq =>
      reaches_digits (fun e he => h.isDigit e (List.mem_cons_of_mem _ he)) hs hq

theorem reaches_fraction {f s : Text} (hf : Fraction f) (hplain : '_' ∉ f) (hs : Closes s)
    {p : Place} (hp : p.rest = f ++ s) : Reaches fraction p s := by
  rcases hf with rfl | ⟨d, rfl, hd⟩
  · rw [← show p.rest = s from hp]
    refine Reaches.right (ends_eq_nil rfl fun c hc => ?_) (reaches_empty p)
    rw [hp] at hc
    simpa [char, first, nullable] using (hs c hc).2.2
  · refine Reaches.left (Reaches.seq (reaches_set (by decide) hp) fun q hq => ?_) _
    have hdigits := hd.digits fun h => hplain (List.mem_cons_of_mem _ h)
    exact hdigits.reaches (fun c hc => ⟨(hs c hc).1, (hs c hc).2.1⟩) hq

theorem reaches_exponent {e s : Text} (he : Exponent e) (hplain : '_' ∉ e) (hs : Blank s)
    {p : Place} (hp : p.rest = e ++ s) : Reaches exponent p s := by
  rcases he with rfl | ⟨x, sign, d, rfl, hx, hsign, hd⟩
  · rw [← show p.rest = s from hp]
    refine Reaches.right (ends_eq_nil rfl fun c hc => ?_) (reaches_empty p)
    rw [hp] at hc
    rw [hs c hc]
    decide
  · have hdigits := hd.digits fun h =>
      hplain (List.mem_cons_of_mem _ (List.mem_append_right _ h))
    have hx : decide (x ∈ ['e', 'E']) = true := by rcases hx with rfl | rfl <;> decide
    refine Reaches.left (Reaches.seq (reaches_set hx hp) fun q hq => ?_) _
    have hsignReaches : Reaches (optional (.set (· ∈ ['+', '-']))) q (d ++ s) := by
      have hq : q.rest = sign ++ (d ++ s) := hq.trans (List.append_assoc ..)
      rcases hsign with rfl | rfl | rfl
      · rw [← show q.rest = d ++ s from hq]
        refine Reaches.right (ends_eq_nil rfl fun c hc => ?_) (reaches_empty q)
        have hdigit : c.isDigit = true := by
          cases d with
          | nil => exact absurd rfl hdigits.ne_nil
          | cons c' d =>
            rw [hq] at hc
            exact Option.some.inj hc ▸ hdigits.isDigit c' List.mem_cons_self
        have hne : c ≠ '+' ∧ c ≠ '-' := by
          constructor <;> rintro rfl <;> exact absurd hdigit (by decide)
        simp [first, hne]
      · exact Reaches.left (reaches_set (by decide) hq) _
      · exact Reaches.left (reaches_set (by decide) hq) _
    exact Reaches.seq hsignReaches fun q' hq' =>
      hdigits.reaches (fun c hc => ⟨(hs.closes c hc).1, (hs.closes c hc).2.1⟩) hq'

theorem reaches_decimal {w s : Text} (hw : Decimal w) (hplain : '_' ∉ w) (hs : Blank s) {p : Place}
    (hp : p.rest = w ++ s) : Reaches decimal p s := by
  have hmem : ∀ {part : Text}, '_' ∈ part → (part = hw.whole ∨ part = hw.fraction
      ∨ part = hw.exponent) → False := by
    intro part hpart hcases
    refine hplain (hw.eq ▸ ?_)
    rcases hcases with rfl | rfl | rfl <;> simp [hpart]
  have hexp : Closes (hw.exponent ++ s) := by
    rcases hw.isExponent with hnil | ⟨e, sign, d, heq, he, -, -⟩
    · rw [hnil]
      exact hs.closes
    · rw [heq]
      intro c hc
      obtain rfl : e = c := Option.some.inj hc
      rcases he with rfl | rfl <;> decide
  have hfrac : ∀ c ∈ (hw.fraction ++ (hw.exponent ++ s)).head?, c.isDigit = false ∧ c ≠ '_' := by
    rcases hw.isFraction with hnil | ⟨d, heq, -⟩
    · rw [hnil]
      exact fun c hc => ⟨(hexp c hc).1, (hexp c hc).2.1⟩
    · rw [heq]
      intro c hc
      obtain rfl : '.' = c := Option.some.inj hc
      decide
  have hdigits := hw.wholeGrouped.digits fun h => hmem h (.inl rfl)
  rw [hw.eq, List.append_assoc, List.append_assoc] at hp
  exact Reaches.seq (hdigits.reaches hfrac hp) fun q hq =>
    Reaches.seq (reaches_fraction hw.isFraction (fun h => hmem h (.inr (.inl rfl))) hexp hq)
      fun q' hq' => reaches_exponent hw.isExponent (fun h => hmem h (.inr (.inr rfl))) hs hq'

/-- No prefix is seen in a decimal literal. -/
theorem ends_based_decimal {w s : Text} (hw : Decimal w) (hs : Blank s) {p : Place}
    (hp : p.rest = w ++ s) (radix : Radix) : ends (based radix.letters radix.isDigit) p = [] := by
  refine List.eq_nil_iff_forall_not_mem.mpr fun q hq => ?_
  obtain ⟨m, hm, hq⟩ := List.mem_flatMap.mp hq
  obtain ⟨m', hm', -⟩ := List.mem_flatMap.mp hq
  obtain ⟨x, hx, hmrest⟩ := mem_ends_set hm'
  have hx : x ∈ radix.letters := of_decide_eq_true hx
  have hrest := mem_ends_char hm
  rw [hmrest, hp] at hrest
  have hcharacters := hw.characters
  match w, hrest, hcharacters with
  | [], _, _ =>
    have := hw.eq
    simp only [List.nil_eq, List.append_eq_nil_iff] at this
    exact hw.wholeGrouped.1 (by rw [this.1]; rfl)
  | [c], hrest, _ =>
    have hsx : s = x :: m'.rest := (List.cons.inj hrest).2
    obtain rfl := hs x (by rw [hsx]; rfl)
    cases radix <;> exact absurd hx (by decide)
  | c :: d :: w, hrest, hcharacters =>
    have hd := hcharacters d (by simp)
    obtain ⟨-, hrest⟩ := List.cons.inj hrest
    obtain ⟨rfl, -⟩ := List.cons.inj hrest
    exact not_letter_of_decimal hd hx

/-- A decimal literal is matched whole in front of a blank. -/
theorem matchAt_decimal {w : Text} (hw : Decimal w) (hplain : '_' ∉ w) {s : Text} (hs : Blank s)
    (b : Option Char) : ∃ q, MatchAt ⟨b, w ++ s⟩ .number q ∧ q.rest = s := by
  have hbased := @ends_based_decimal w s hw hs ⟨b, w ++ s⟩ rfl
  obtain ⟨q, hq, hrest⟩ : Reaches (tokenSpec .number) ⟨b, w ++ s⟩ s :=
    Reaches.right (hbased .hexadecimal) (Reaches.right (hbased .binary)
      (Reaches.right (hbased .octal) (reaches_decimal hw hplain hs rfl)))
  refine ⟨q, ⟨hq, fun x hx => ?_⟩, hrest⟩
  obtain ⟨c, t, hp, hc, -⟩ := opens_of_mem (List.mem_of_head? hq)
  refine ends_eq_nil_of_opens hp hc ?_
  simp only [earlier, tokenOrder] at hx
  cases x <;> first | exact absurd hx (by decide) | decide

/-! ## What it means -/

/-- The value of an integer literal as it is written. -/
def literalValue : Text → ℕ
  | '0' :: x :: w =>
      if x = 'x' ∨ x = 'X' then numeral 16 (strip w)
      else if x = 'b' ∨ x = 'B' then numeral 2 (strip w)
      else if x = 'o' ∨ x = 'O' then numeral 8 (strip w)
      else numeral 10 (strip ('0' :: x :: w))
  | w => numeral 10 (strip w)

/-- A decimal numeral of a value. -/
structure IsNumeral (text : Text) (value : ℕ) : Prop where
  digits : Digits text
  value_eq : numeral 10 text = value

theorem numeral_eq_ofDigitChars {digits : Text} (h : ∀ c ∈ digits, c.isDigit = true) :
    numeral 10 digits = Nat.ofDigitChars 10 digits 0 := by
  rw [numeral, Nat.ofDigitChars_eq_foldl]
  refine List.foldl_ext _ _ _ fun value c hc => ?_
  rw [digitValue, if_pos (h c hc), Nat.mul_comm]

theorem isNumeral_toDigits (value : ℕ) : IsNumeral (Nat.toDigits 10 value) value := by
  have hdigits : ∀ c ∈ Nat.toDigits 10 value, c.isDigit = true := fun c hc =>
    Nat.isDigit_of_mem_toDigits (by decide) (by decide) hc
  refine ⟨⟨Nat.toDigits_ne_nil, hdigits⟩, ?_⟩
  rw [numeral_eq_ofDigitChars hdigits, Nat.ofDigitChars_ten_toDigits]

theorem literalValue_based {radix : Radix} {x : Char} (hx : x ∈ radix.letters) (w : Text) :
    literalValue ('0' :: x :: w) = numeral radix.value (strip w) := by
  cases radix <;> simp only [Radix.letters, List.mem_cons, List.not_mem_nil, or_false] at hx
    <;> rcases hx with rfl | rfl <;> rfl

theorem isFloatingLiteral_based {radix : Radix} {x : Char} (hx : x ∈ radix.letters) (w : Text) :
    isFloatingLiteral ('0' :: x :: w) = false := by
  cases radix <;> simp only [Radix.letters, List.mem_cons, List.not_mem_nil, or_false] at hx
    <;> rcases hx with rfl | rfl <;> rfl

theorem literalValue_decimal {w : Text} (h : Decimal w) :
    literalValue w = numeral 10 (strip w) := by
  unfold literalValue
  split
  · rename_i x rest
    obtain ⟨hhex, hbin, hoct⟩ := not_base_letter (h.characters x (by simp))
    rw [if_neg hhex, if_neg hbin, if_neg hoct]
  · rfl

theorem isFloatingLiteral_decimal {w : Text} (h : Decimal w) :
    isFloatingLiteral w = ('.' ∈ w || 'e' ∈ w || 'E' ∈ w) := by
  unfold isFloatingLiteral
  split
  · rename_i x rest
    obtain ⟨hhex, hbin, hoct⟩ := not_base_letter (h.characters x (by simp))
    rw [if_neg]
    simp only [List.mem_cons, List.not_mem_nil, or_false]
    tauto
  · rfl

/-- A decimal literal without point and exponent is digits. -/
theorem Decimal.digits {w : Text} (h : Decimal w) (hfloating : isFloatingLiteral w = false) :
    Digits (Lexer.strip w) := by
  rw [isFloatingLiteral_decimal h, Bool.or_eq_false_iff, Bool.or_eq_false_iff] at hfloating
  obtain ⟨⟨hpoint, he⟩, hE⟩ := hfloating
  have hfraction : h.fraction = [] := by
    rcases h.isFraction with hnil | ⟨d, heq, -⟩
    · exact hnil
    · have : '.' ∈ w := by
        rw [h.eq, heq]
        simp
      exact absurd this (of_decide_eq_false hpoint)
  have hexponent : h.exponent = [] := by
    rcases h.isExponent with hnil | ⟨e, sign, d, heq, hcases, -⟩
    · exact hnil
    · have hmem : e ∈ w := by
        rw [h.eq, heq]
        simp
      rcases hcases with rfl | rfl
      · exact absurd hmem (of_decide_eq_false he)
      · exact absurd hmem (of_decide_eq_false hE)
  have hw : w = h.whole := by
    conv_lhs => rw [h.eq, hfraction, hexponent, List.append_nil, List.append_nil]
  rw [hw]
  exact h.wholeGrouped.strip.digits (underscore_not_mem_strip _)

/-- What is asked of the token text of a number. -/
structure NumberText (written text : Text) : Prop where
  integer : isFloatingLiteral written = false → IsNumeral text (literalValue written)
  floating : isFloatingLiteral written = true → text = strip written

/-- The token text of a number, which is a number again. -/
theorem numeral_of_normalize {written text : Text} {pos : Position} (hw : Written written)
    (h : normalizeNumericLiteral written pos = .ok text) :
    NumberText written text ∧ Nonempty (Decimal text) ∧ '_' ∉ text := by
  cases hw with
  | based radix x hx w hgrouped =>
    obtain rfl := normalize_based hx hgrouped h
    have hnumeral := isNumeral_toDigits (numeral radix.value (strip w))
    refine ⟨⟨fun _ => ?_, fun hfloating => ?_⟩,
      ⟨decimalOfDigits hnumeral.digits.ne_nil hnumeral.digits.isDigit⟩, fun hmem => ?_⟩
    · rw [literalValue_based hx]
      exact hnumeral
    · rw [isFloatingLiteral_based hx] at hfloating
      cases hfloating
    · exact absurd (hnumeral.digits.isDigit _ hmem) (by decide)
  | decimal w hdecimal =>
    obtain ⟨hdecimal⟩ := hdecimal
    obtain rfl := Except.ok.inj ((normalize_decimal hdecimal pos).symm.trans h)
    refine ⟨⟨fun hfloating => ?_, fun _ => rfl⟩, ⟨hdecimal.strip⟩, underscore_not_mem_strip _⟩
    exact ⟨hdecimal.digits hfloating, (literalValue_decimal hdecimal).symm⟩

end Lexer

end Absolute
