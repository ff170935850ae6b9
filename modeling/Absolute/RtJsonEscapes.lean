import Absolute.RtJsonGrammar
import Absolute.LibUtf8

/-!
# What a string literal denotes

`Rfc.Denotes` gives the text of a string of the grammar its characters. A `\uXXXX` stands
for the character of its code, and two of them for one character where they are a surrogate
pair; a surrogate on its own denotes nothing. The parser encodes every code by itself, so
that what it returns is the UTF-8 of the characters exactly where no code is a surrogate:
each surrogate makes the value a byte longer than that (`Rfc.Denotes.reads`).
-/

namespace Absolute

namespace Json

def Surrogate (n : ℕ) : Prop := 0xD800 ≤ n ∧ n ≤ 0xDFFF

instance (n : ℕ) : Decidable (Surrogate n) := inferInstanceAs (Decidable (_ ∧ _))

/-! ## The characters of a literal -/

/-- The escapes of one character, with what each stands for. -/
def Rfc.escapeTable : List (UInt8 × Char) :=
  [(byte '"', '"'), (byte '\\', '\\'), (byte '/', '/'), (byte 'b', '\x08'), (byte 'f', '\x0c'),
    (byte 'n', '\n'), (byte 'r', '\r'), (byte 't', '\t')]

/-- The text between the quotes is valid, has no lone surrogate, and denotes `cs`. -/
inductive Rfc.Denotes : Text → List Char → Prop
  | nil : Denotes [] []
  | unescaped {s : Text} {cs : List Char} (c : Char) (hc : 0x20 ≤ c.val.toNat) (hq : c ≠ '"')
      (hb : c ≠ '\\') (h : Denotes s cs) : Denotes (String.utf8EncodeChar c ++ s) (c :: cs)
  | escape {e : UInt8} {c : Char} {s : Text} {cs : List Char} (he : (e, c) ∈ Rfc.escapeTable)
      (h : Denotes s cs) : Denotes (byte '\\' :: e :: s) (c :: cs)
  | unicode {h₁ h₂ h₃ h₄ : UInt8} {c : Char} {s : Text} {cs : List Char}
      (hex : ∀ h ∈ [h₁, h₂, h₃, h₄], Rfc.HexDigit h) (hc : strtoul [h₁, h₂, h₃, h₄] = c.toNat)
      (h : Denotes s cs) :
      Denotes (byte '\\' :: byte 'u' :: h₁ :: h₂ :: h₃ :: h₄ :: s) (c :: cs)
  | pair {h₁ h₂ h₃ h₄ l₁ l₂ l₃ l₄ : UInt8} {high low : ℕ} {c : Char} {s : Text}
      {cs : List Char} (hexh : ∀ h ∈ [h₁, h₂, h₃, h₄], Rfc.HexDigit h)
      (hexl : ∀ h ∈ [l₁, l₂, l₃, l₄], Rfc.HexDigit h)
      (hhigh : strtoul [h₁, h₂, h₃, h₄] = 0xD800 + high)
      (hlow : strtoul [l₁, l₂, l₃, l₄] = 0xDC00 + low) (hh : high < 0x400) (hl : low < 0x400)
      (hc : c.toNat = 0x10000 + high * 0x400 + low) (h : Denotes s cs) :
      Denotes (byte '\\' :: byte 'u' :: h₁ :: h₂ :: h₃ :: h₄ ::
        byte '\\' :: byte 'u' :: l₁ :: l₂ :: l₃ :: l₄ :: s) (c :: cs)

/-- The codes of the `\uXXXX` of a literal. -/
def unicodeEscapes : Text → List ℕ
  | [] => []
  | [_] => []
  | c :: e :: src =>
    if c = byte '\\' then
      if e = byte 'u' then strtoul (src.take 4) :: unicodeEscapes src else unicodeEscapes src
    else unicodeEscapes (e :: src)

theorem unicodeEscapes_raw {c : UInt8} (hc : c ≠ byte '\\') (src : Text) :
    unicodeEscapes (c :: src) = unicodeEscapes src := by
  cases src with
  | nil => rfl
  | cons e src => exact if_neg hc

theorem unicodeEscapes_escape {e : UInt8} (he : e ≠ byte 'u') (src : Text) :
    unicodeEscapes (byte '\\' :: e :: src) = unicodeEscapes src := by
  rw [unicodeEscapes, if_pos rfl, if_neg he]

theorem unicodeEscapes_raws {cs : Text} (hcs : ∀ b ∈ cs, b ≠ byte '\\') (src : Text) :
    unicodeEscapes (cs ++ src) = unicodeEscapes src := by
  induction cs with
  | nil => rfl
  | cons c cs ih =>
    obtain ⟨hc, hcs⟩ := List.forall_mem_cons.mp hcs
    rw [List.cons_append, unicodeEscapes_raw hc, ih hcs]

theorem Rfc.HexDigit.ne_backslash {h : UInt8} (hh : Rfc.HexDigit h) : h ≠ byte '\\' := by
  rintro rfl
  exact absurd (isHex_iff.mpr hh) (by decide)

theorem unicodeEscapes_unicode {h₁ h₂ h₃ h₄ : UInt8}
    (hex : ∀ h ∈ [h₁, h₂, h₃, h₄], Rfc.HexDigit h) (src : Text) :
    unicodeEscapes (byte '\\' :: byte 'u' :: h₁ :: h₂ :: h₃ :: h₄ :: src) =
      strtoul [h₁, h₂, h₃, h₄] :: unicodeEscapes src := by
  have hraw := unicodeEscapes_raws (fun b hb => (hex b hb).ne_backslash) src
  rw [unicodeEscapes, if_pos rfl, if_pos rfl]
  exact congrArg _ hraw

/-! ## The bytes of a code -/

theorem hexValue_lt {h : UInt8} (hh : isHex h = true) : hexValue h < 16 := by
  have hall : ∀ n < 256, isHex (UInt8.ofNat n) = true → hexValue (UInt8.ofNat n) < 16 := by
    decide +kernel
  have h' := hall h.toNat h.toNat_lt_size
  rw [UInt8.ofNat_toNat] at h'
  exact h' hh

theorem strtoul_lt {h₁ h₂ h₃ h₄ : UInt8} (hex : ∀ h ∈ [h₁, h₂, h₃, h₄], Rfc.HexDigit h) :
    strtoul [h₁, h₂, h₃, h₄] < 0x10000 := by
  have hlt (h : UInt8) (hmem : h ∈ [h₁, h₂, h₃, h₄]) := hexValue_lt (isHex_iff.mpr (hex h hmem))
  have b₁ := hlt h₁ (by simp)
  have b₂ := hlt h₂ (by simp)
  have b₃ := hlt h₃ (by simp)
  have b₄ := hlt h₄ (by simp)
  simp only [strtoul, List.foldl_cons, List.foldl_nil]
  omega

theorem encodeCode_eq {code : ℕ} (h : code < 0x10000) : encodeCode code = Utf8.bytesOf code := by
  rw [encodeCode, Utf8.bytesOf]
  by_cases hone : code ≤ 0x7F
  · rw [if_pos hone, if_pos hone]
  by_cases htwo : code ≤ 0x7FF
  · rw [if_neg hone, if_neg hone, if_pos htwo, if_pos htwo,
      Utf8.tagged_bits (w := 32) (d := 64) 5 6 6 rfl rfl rfl rfl,
      Utf8.tagged_low (w := 64) 6 2 rfl rfl rfl]
  · rw [if_neg hone, if_neg hone, if_neg htwo, if_neg htwo, if_pos (by omega),
      Utf8.tagged_bits (w := 16) (d := 4096) 4 12 14 rfl rfl rfl rfl,
      Utf8.tagged_bits (w := 64) (d := 64) 6 6 2 rfl rfl rfl rfl,
      Utf8.tagged_low (w := 64) 6 2 rfl rfl rfl]

/-- A surrogate is written in three bytes as any other code of its size. -/
theorem length_encodeCode_surrogate {code : ℕ} (h : Surrogate code) :
    (encodeCode code).length = 3 := by
  obtain ⟨hlow, hhigh⟩ := h
  rw [encodeCode, if_neg (by omega), if_neg (by omega)]
  rfl

theorem length_utf8EncodeChar_pair {c : Char} (h : 0x10000 ≤ c.toNat) :
    (String.utf8EncodeChar c).length = 4 := by
  rw [Utf8.utf8EncodeChar_eq, Utf8.bytesOf, if_neg (by omega), if_neg (by omega),
    if_neg (by omega)]
  rfl

theorem escapeTable_spec {e : UInt8} {c : Char} (h : (e, c) ∈ Rfc.escapeTable) :
    e ≠ byte 'u' ∧ [unescape e] = String.utf8EncodeChar c := by
  have hall : ∀ p ∈ Rfc.escapeTable, p.1 ≠ byte 'u' ∧
      [unescape p.1] = String.utf8EncodeChar p.2 := by decide
  exact hall (e, c) h

theorem not_surrogate_toNat (c : Char) : ¬Surrogate c.toNat := by
  rintro ⟨hlow, hhigh⟩
  have hrange := Utf8.toNat_range c
  omega

/-! ## The value -/

/-- A literal that denotes something is one of the grammar. -/
theorem Rfc.Denotes.chars {body : Text} {cs : List Char} (h : Rfc.Denotes body cs) :
    Rfc.Chars body := by
  induction h with
  | nil => exact .nil
  | unescaped c hc hq hb _ ih => exact .cons (.unescaped c hc hq hb) ih
  | @escape e c _ _ he _ ih =>
    have hall : Rfc.escapeTable.map Prod.fst = bytes "\"\\/bfnrt" := by decide
    exact .cons (.escape (hall ▸ List.mem_map.mpr ⟨(e, c), he, rfl⟩)) ih
  | unicode hex _ _ ih => exact .cons (.unicode hex) ih
  | pair hexh hexl _ _ _ _ _ _ ih => exact .cons (.unicode hexh) (.cons (.unicode hexl) ih)

/-- Every literal of the grammar without a surrogate denotes something. -/
theorem Rfc.Chars.denotes {body : Text} (h : Rfc.Chars body)
    (hnone : ∀ n ∈ unicodeEscapes body, ¬Surrogate n) : ∃ cs, Rfc.Denotes body cs := by
  induction h with
  | nil => exact ⟨[], .nil⟩
  | cons hchar _ ih =>
    cases hchar with
    | unescaped c hc hq hb =>
      rw [unicodeEscapes_raws fun b hb' => (utf8EncodeChar_raw hq hb b hb').2] at hnone
      obtain ⟨cs, hcs⟩ := ih hnone
      exact ⟨c :: cs, .unescaped c hc hq hb hcs⟩
    | @escape e he =>
      have hall : bytes "\"\\/bfnrt" = Rfc.escapeTable.map Prod.fst := by decide
      rw [hall] at he
      obtain ⟨⟨e', c⟩, hmem, rfl⟩ := List.mem_map.mp he
      obtain ⟨cs, hcs⟩ := ih (by
        rwa [List.cons_append, List.cons_append, List.nil_append,
          unicodeEscapes_escape (escapeTable_spec hmem).1] at hnone)
      exact ⟨c :: cs, .escape hmem hcs⟩
    | @unicode h₁ h₂ h₃ h₄ hex =>
      rw [show [byte '\\', byte 'u', h₁, h₂, h₃, h₄] ++ _ =
        byte '\\' :: byte 'u' :: h₁ :: h₂ :: h₃ :: h₄ :: _ from rfl,
        unicodeEscapes_unicode hex] at hnone
      obtain ⟨hcode, hrest⟩ := List.forall_mem_cons.mp hnone
      have hlt := strtoul_lt hex
      have hrange : ¬(0xD800 ≤ strtoul [h₁, h₂, h₃, h₄] ∧ strtoul [h₁, h₂, h₃, h₄] ≤ 0xDFFF) :=
        hcode
      obtain ⟨c, hc⟩ := Utf8.exists_char (n := strtoul [h₁, h₂, h₃, h₄]) (by omega)
      obtain ⟨cs, hcs⟩ := ih hrest
      exact ⟨c :: cs, .unicode hex hc.symm hcs⟩

/-- The value that is read is longer than the characters by the number of the surrogates,
and is their encoding where there is none. -/
theorem Rfc.Denotes.reads {body : Text} {cs : List Char} (h : Rfc.Denotes body cs)
    (rest : Text) :
    ∃ s, ReadsString (body ++ byte '"' :: rest) s body rest ∧
      s.length = (Utf8.encode cs).length + (unicodeEscapes body).countP (Surrogate ·) ∧
      ((∀ n ∈ unicodeEscapes body, ¬Surrogate n) → s = Utf8.encode cs) := by
  induction h with
  | nil => exact ⟨[], .quote rest, rfl, fun _ => rfl⟩
  | unescaped c hc hq hb _ ih =>
    obtain ⟨s, hreads, hlen, heq⟩ := ih
    have hraw := utf8EncodeChar_raw hq hb
    refine ⟨_, by simpa using hreads.raws hraw, ?_, ?_⟩
    · rw [unicodeEscapes_raws fun b hb' => (hraw b hb').2, List.length_append, hlen,
        Utf8.encode_cons, List.length_append, Nat.add_assoc]
    · intro hnone
      rw [unicodeEscapes_raws fun b hb' => (hraw b hb').2] at hnone
      rw [heq hnone, Utf8.encode_cons]
  | @escape e c src _ he _ ih =>
    obtain ⟨s, hreads, hlen, heq⟩ := ih
    obtain ⟨hu, hbyte⟩ := escapeTable_spec he
    refine ⟨_, .escape hu hreads, ?_, ?_⟩
    · rw [unicodeEscapes_escape hu, Utf8.encode_cons, ← hbyte, List.length_cons, hlen,
        List.length_append, List.length_singleton]
      omega
    · intro hnone
      rw [unicodeEscapes_escape hu] at hnone
      rw [Utf8.encode_cons, ← hbyte, heq hnone, List.singleton_append]
  | @unicode _ _ _ _ c src _ hex hc _ ih =>
    obtain ⟨s, hreads, hlen, heq⟩ := ih
    have hcode : encodeCode c.toNat = String.utf8EncodeChar c := by
      rw [← hc, encodeCode_eq (strtoul_lt hex), hc, Utf8.utf8EncodeChar_eq]
    have hall := List.all_eq_true.mpr fun h hh => isHex_iff.mpr (hex h hh)
    refine ⟨_, .unicode hall hreads, ?_, ?_⟩
    · rw [unicodeEscapes_unicode hex, hc, hcode, List.length_append, hlen, Utf8.encode_cons,
        List.length_append, List.countP_cons_of_neg (by simpa using not_surrogate_toNat c),
        Nat.add_assoc]
    · intro hnone
      rw [unicodeEscapes_unicode hex] at hnone
      rw [hc, hcode, heq (List.forall_mem_cons.mp hnone).2, Utf8.encode_cons]
  | @pair _ _ _ _ _ _ _ _ high low c src _ hexh hexl hhigh hlow hh hl hc _ ih =>
    obtain ⟨s, hreads, hlen, -⟩ := ih
    have hsurh : Surrogate (0xD800 + high) := ⟨by omega, by omega⟩
    have hsurl : Surrogate (0xDC00 + low) := ⟨by omega, by omega⟩
    have hallh := List.all_eq_true.mpr fun h hh => isHex_iff.mpr (hexh h hh)
    have halll := List.all_eq_true.mpr fun h hh => isHex_iff.mpr (hexl h hh)
    refine ⟨_, .unicode hallh (.unicode halll hreads), ?_, ?_⟩
    · rw [unicodeEscapes_unicode hexh, unicodeEscapes_unicode hexl, hhigh, hlow,
        List.length_append, List.length_append, length_encodeCode_surrogate hsurh,
        length_encodeCode_surrogate hsurl, hlen, Utf8.encode_cons, List.length_append,
        length_utf8EncodeChar_pair (by omega), List.countP_cons_of_pos (by simpa using hsurh),
        List.countP_cons_of_pos (by simpa using hsurl)]
      omega
    · intro hnone
      rw [unicodeEscapes_unicode hexh, hhigh] at hnone
      exact absurd hsurh (List.forall_mem_cons.mp hnone).1

/-- A literal is read as the UTF-8 of the characters it denotes exactly where none of its
escapes is a surrogate. -/
theorem parseString_denoted_iff {body : Text} {cs : List Char} (h : Rfc.Denotes body cs)
    (rest : Text) :
    parseString (byte '"' :: body ++ byte '"' :: rest) = .ok (Utf8.encode cs, rest) ↔
      ∀ n ∈ unicodeEscapes body, ¬Surrogate n := by
  obtain ⟨s, hreads, hlen, heq⟩ := h.reads rest
  have hparse : parseString (byte '"' :: body ++ byte '"' :: rest) = .ok (s, rest) := by
    rw [List.cons_append, parseString, if_pos rfl, hreads.parse, List.nil_append]
  rw [hparse]
  constructor
  · intro hok n hn hsur
    have hs : s = Utf8.encode cs := congrArg Prod.fst (Except.ok.inj hok)
    have hpos : 0 < (unicodeEscapes body).countP (Surrogate ·) :=
      List.countP_pos_iff.mpr ⟨n, hn, by simpa using hsur⟩
    rw [hs] at hlen
    omega
  · intro hnone
    rw [heq hnone]

theorem parseString_accent :
    parseString (byte '"' :: [byte '\\', byte 'u', byte '0', byte '0', byte 'e', byte '9'] ++
      byte '"' :: []) = .ok (Utf8.encode ['é'], []) := by
  have hex : ∀ h ∈ [byte '0', byte '0', byte 'e', byte '9'], Rfc.HexDigit h := fun h hh =>
    isHex_iff.mp (List.all_eq_true.mp (by decide) h hh)
  exact (parseString_denoted_iff (.unicode hex (by decide) .nil) []).mpr (by decide)

/-- A smiling face, which is one character and two surrogates. -/
theorem not_parseString_denoted :
    ¬∀ (body : Text) (cs : List Char) (rest : Text), Rfc.Denotes body cs →
      parseString (byte '"' :: body ++ byte '"' :: rest) = .ok (Utf8.encode cs, rest) := by
  intro h
  have hexh : ∀ h ∈ [byte 'd', byte '8', byte '3', byte 'd'], Rfc.HexDigit h := fun h hh =>
    isHex_iff.mp (List.all_eq_true.mp (by decide) h hh)
  have hexl : ∀ h ∈ [byte 'd', byte 'e', byte '0', byte '0'], Rfc.HexDigit h := fun h hh =>
    isHex_iff.mp (List.all_eq_true.mp (by decide) h hh)
  have hhigh : strtoul [byte 'd', byte '8', byte '3', byte 'd'] = 0xD800 + 0x3D := rfl
  have hlow : strtoul [byte 'd', byte 'e', byte '0', byte '0'] = 0xDC00 + 0x200 := rfl
  have hface := h _ ['😀'] []
    (.pair hexh hexl hhigh hlow (by omega) (by omega) rfl .nil)
  have hlength := congrArg (fun r => r.toOption.map fun p => p.1.length) hface
  exact absurd hlength (by decide)

end Json

end Absolute
