import Absolute.StdEncoding

/-!
# Percent encoding

`std.uri.encode` and `std.uri.decode`. The encoder leaves the unreserved characters of
RFC 3986 and spells every other byte as `%XX`; the decoder reads a `%XX` that is whole and
copies what is not, so that it undoes the encoder on every text.
-/

namespace Absolute

namespace Uri

open Strings Encoding

def hexDigitUpper (value : ℕ) : ℕ := if value < 10 then 48 + value else 55 + value

def isUnreserved (byteValue : ℕ) : Bool :=
  if 65 ≤ byteValue ∧ byteValue ≤ 90 then true
  else if 97 ≤ byteValue ∧ byteValue ≤ 122 then true
  else if 48 ≤ byteValue ∧ byteValue ≤ 57 then true
  else byteValue = 45 || byteValue = 46 || byteValue = 95 || byteValue = 126

def encodeFrom (bytes : List UInt8) : ℕ → ℕ → Text → Except Encoding.Fault Text
  | 0, _, result => .ok result
  | rounds + 1, index, result =>
    if index < bytes.length then do
      let byteValue ← byteAt bytes index
      let result :=
        if isUnreserved byteValue then result ++ encodeUtf8 byteValue
        else result ++ encodeUtf8 37 ++ encodeUtf8 (hexDigitUpper ((byteValue >>> 4) &&& 15)) ++
          encodeUtf8 (hexDigitUpper (byteValue &&& 15))
      encodeFrom bytes rounds (index + 1) result
    else .ok result

def encode (text : Text) : Except Encoding.Fault Text := do
  let bytes ← utf8Encode text
  encodeFrom bytes bytes.length 0 []

/-- The byte that a `%XX` at an index spells. -/
def escapeAt (bytes : List UInt8) (source byteValue : ℕ) : Except Encoding.Fault (Option ℕ) :=
  if byteValue = 37 ∧ source + 2 < bytes.length then do
    let high := hexValue (← byteAt bytes (source + 1))
    let low := hexValue (← byteAt bytes (source + 2))
    if high ≥ 0 ∧ low ≥ 0 then return some (high.toNat <<< 4 ||| low.toNat)
    else return none
  else return none

/-- The decoded bytes and their number. -/
def decodeFrom (bytes : List UInt8) :
    ℕ → ℕ → List UInt8 → ℕ → Except Encoding.Fault (List UInt8 × ℕ)
  | 0, _, decoded, output => .ok (decoded, output)
  | rounds + 1, source, decoded, output =>
    if source < bytes.length then do
      let byteValue ← byteAt bytes source
      match ← escapeAt bytes source byteValue with
      | some value =>
        let decoded ← storeByte decoded output value
        decodeFrom bytes rounds (source + 3) decoded (output + 1)
      | none =>
        let decoded ← storeByte decoded output byteValue
        decodeFrom bytes rounds (source + 1) decoded (output + 1)
    else .ok (decoded, output)

def copyFrom (decoded : List UInt8) (output : ℕ) :
    ℕ → ℕ → List UInt8 → Except Encoding.Fault (List UInt8)
  | 0, _, exact => .ok exact
  | rounds + 1, copyIndex, exact =>
    if copyIndex < output then do
      let exact ← storeByte exact copyIndex (← byteAt decoded copyIndex)
      copyFrom decoded output rounds (copyIndex + 1) exact
    else .ok exact

def decode (text : Text) : Except Encoding.Fault Text := do
  let bytes ← utf8Encode text
  let (decoded, output) ← decodeFrom bytes bytes.length 0 (List.replicate bytes.length 0) 0
  let exact ← copyFrom decoded output output 0 (List.replicate output 0)
  utf8Decode exact

/-! ## What is written -/

/-- The unreserved characters of RFC 3986. -/
def Unreserved (c : UInt8) : Prop :=
  (0x41 ≤ c.toNat ∧ c.toNat ≤ 0x5A) ∨ (0x61 ≤ c.toNat ∧ c.toNat ≤ 0x7A) ∨
    (0x30 ≤ c.toNat ∧ c.toNat ≤ 0x39) ∨ c ∈ bytes "-._~"

/-- Unreserved characters and `%XX` only. -/
inductive PercentEncoded : Text → Prop
  | nil : PercentEncoded []
  | unreserved {c : UInt8} {t : Text} (hc : Unreserved c) (h : PercentEncoded t) :
      PercentEncoded (c :: t)
  | triple {high low : UInt8} {t : Text} (hhigh : high ∈ bytes "0123456789ABCDEF")
      (hlow : low ∈ bytes "0123456789ABCDEF") (h : PercentEncoded t) :
      PercentEncoded (0x25 :: high :: low :: t)

theorem unreserved_of_isUnreserved {c : UInt8} (h : isUnreserved c.toNat = true) :
    Unreserved c := by
  have hbyte (n : ℕ) (hn : n < 256) (heq : c.toNat = n) : c = UInt8.ofNat n := by
    rw [← heq, UInt8.ofNat_toNat]
  rw [isUnreserved] at h
  split_ifs at h with hupper hlower hdigit
  · exact .inl hupper
  · exact .inr (.inl hlower)
  · exact .inr (.inr (.inl hdigit))
  · simp only [Bool.or_eq_true, decide_eq_true_eq] at h
    refine .inr (.inr (.inr ?_))
    rcases h with ((h | h) | h) | h <;> rw [hbyte _ (by omega) h] <;> decide

/-- A hexadecimal digit, as the encoder writes it. -/
def digit (value : ℕ) : UInt8 := UInt8.ofNat (hexDigitUpper value)

theorem digit_spec : ∀ value < 16, digit value ∈ bytes "0123456789ABCDEF" ∧
    hexValue (digit value).toNat = value := by
  decide

/-- The text of a byte. -/
def percent (b : UInt8) : Text :=
  if isUnreserved b.toNat then [b] else [0x25, digit (b.toNat / 16), digit (b.toNat % 16)]

theorem percent_append {t : Text} (b : UInt8) (h : PercentEncoded t) :
    PercentEncoded (percent b ++ t) := by
  have hlt : b.toNat < 256 := b.toNat_lt_size
  rw [percent]
  split_ifs with hb
  · exact .unreserved (unreserved_of_isUnreserved hb) h
  · exact .triple (digit_spec _ (by omega)).1
      (digit_spec _ (Nat.mod_lt _ (by omega))).1 h

theorem percentEncoded_flatMap (bs : List UInt8) : PercentEncoded (bs.flatMap percent) := by
  induction bs with
  | nil => exact .nil
  | cons b bs ih => exact percent_append b ih

theorem encodeUtf8_ascii {n : ℕ} (h : n ≤ 0x7F) : encodeUtf8 n = [UInt8.ofNat n] := if_pos h

theorem hexDigitUpper_le {value : ℕ} (h : value < 16) : hexDigitUpper value ≤ 0x7F := by
  rw [hexDigitUpper]
  split_ifs <;> omega

theorem isUnreserved_le {n : ℕ} (h : isUnreserved n = true) : n ≤ 0x7F := by
  rw [isUnreserved] at h
  split_ifs at h
  · omega
  · omega
  · omega
  · simp only [Bool.or_eq_true, decide_eq_true_eq] at h
    omega

theorem encodeFrom_eq {bytes : List UInt8} {rounds index : ℕ} (result : Text)
    (hrounds : bytes.length ≤ index + rounds) :
    encodeFrom bytes rounds index result =
      .ok (result ++ (bytes.drop index).flatMap percent) := by
  induction rounds generalizing index result with
  | zero =>
    rw [Nat.add_zero] at hrounds
    rw [encodeFrom, List.drop_eq_nil_of_le hrounds, List.flatMap_nil, List.append_nil]
  | succ rounds ih =>
    rw [encodeFrom]
    rcases hl : bytes.drop index with - | ⟨b, l⟩
    · rw [if_neg (Nat.not_lt.mpr (List.drop_eq_nil_iff.mp hl)), List.flatMap_nil,
        List.append_nil]
    · have hlength := congrArg List.length hl
      have hbyte := byteAt_of_drop (k := 0) hl rfl
      have hrest : bytes.drop (index + 1) = l := by rw [← List.drop_drop, hl]; rfl
      have hlt : b.toNat < 256 := b.toNat_lt_size
      rw [List.length_drop, List.length_cons] at hlength
      rw [Nat.add_zero] at hbyte
      rw [if_pos (by omega), hbyte]
      show encodeFrom bytes rounds (index + 1) _ = _
      rw [ih _ (by omega), hrest, List.flatMap_cons, percent]
      by_cases hb : isUnreserved b.toNat = true
      · rw [if_pos hb, if_pos hb, encodeUtf8_ascii (isUnreserved_le hb), UInt8.ofNat_toNat,
          List.append_assoc]
      · have hhigh : (b.toNat >>> 4) &&& 15 = b.toNat / 16 := by
          rw [Nat.and_two_pow_sub_one_eq_mod _ 4, Nat.shiftRight_eq_div_pow]
          exact Nat.mod_eq_of_lt (by omega)
        have hlow : b.toNat &&& 15 = b.toNat % 16 := Nat.and_two_pow_sub_one_eq_mod _ 4
        rw [if_neg hb, if_neg hb, hhigh, hlow, encodeUtf8_ascii (by omega),
          encodeUtf8_ascii (hexDigitUpper_le (by omega)),
          encodeUtf8_ascii (hexDigitUpper_le (Nat.mod_lt _ (by omega)))]
        simp only [List.append_assoc]
        rfl

theorem encode_eq (text : Text) : encode text = .ok (text.flatMap percent) := by
  rw [encode, utf8Encode_eq]
  exact encodeFrom_eq [] (by rw [Nat.zero_add])

/-! ## What is read -/

theorem escapeAt_triple {bytes : List UInt8} {l : List UInt8} {source : ℕ} {b : UInt8}
    (hl : bytes.drop source = 0x25 :: digit (b.toNat / 16) :: digit (b.toNat % 16) :: l) :
    escapeAt bytes source 37 = .ok (some b.toNat) := by
  have hlength := congrArg List.length hl
  have hlt : b.toNat < 256 := b.toNat_lt_size
  have hhigh := (digit_spec (b.toNat / 16) (by omega)).2
  have hlow := (digit_spec (b.toNat % 16) (Nat.mod_lt _ (by omega))).2
  rw [List.length_drop] at hlength
  simp only [List.length_cons] at hlength
  rw [escapeAt, if_pos ⟨rfl, by omega⟩, byteAt_of_drop (k := 1) hl rfl,
    byteAt_of_drop (k := 2) hl rfl]
  simp only [bind, Except.bind, hhigh, hlow]
  rw [if_pos ⟨by omega, by omega⟩, Int.toNat_natCast, Int.toNat_natCast,
    ← Nat.shiftLeft_add_eq_or_of_lt (Nat.mod_lt _ (by omega) : b.toNat % 16 < 2 ^ 4),
    Nat.shiftLeft_eq, Nat.div_add_mod']
  rfl

theorem escapeAt_ne {bytes : List UInt8} {source byteValue : ℕ} (h : byteValue ≠ 37) :
    escapeAt bytes source byteValue = .ok none := if_neg fun hand => h hand.1

theorem decodeFrom_percent {bytes bs : List UInt8} {rounds source : ℕ} {written : List UInt8}
    (hl : bytes.drop source = bs.flatMap percent) (hrounds : bytes.length ≤ source + rounds)
    (hwritten : written.length ≤ source) :
    decodeFrom bytes rounds source (filled bytes.length written) written.length =
      .ok (filled bytes.length (written ++ bs), (written ++ bs).length) := by
  induction bs generalizing rounds source written with
  | nil =>
    rw [List.append_nil]
    rcases rounds with - | rounds
    · rfl
    · exact if_neg (Nat.not_lt.mpr (List.drop_eq_nil_iff.mp hl))
  | cons b bs ih =>
    have hlt : b.toNat < 256 := b.toNat_lt_size
    rw [List.flatMap_cons, percent] at hl
    have hlength := congrArg List.length hl
    rw [List.length_drop, List.length_append] at hlength
    by_cases hb : isUnreserved b.toNat = true
    · rw [if_pos hb] at hl hlength
      rw [List.length_singleton] at hlength
      obtain ⟨rounds, rfl⟩ : ∃ r, rounds = r + 1 := Nat.exists_eq_add_one.mpr (by omega)
      have hbyte := byteAt_of_drop (k := 0) hl rfl
      have hne : b.toNat ≠ 37 := by
        intro heq
        rw [heq] at hb
        exact absurd hb (by decide)
      have hrest : bytes.drop (source + 1) = bs.flatMap percent := by
        rw [← List.drop_drop, hl]
        rfl
      have hih := ih hrest (by omega : _ ≤ _ + rounds) (by
        rw [List.length_append, List.length_singleton]
        omega : (written ++ [b]).length ≤ _)
      rw [List.append_assoc, List.singleton_append, List.length_append,
        List.length_singleton] at hih
      rw [Nat.add_zero] at hbyte
      rw [decodeFrom, if_pos (by omega), hbyte]
      simp only [bind, Except.bind, escapeAt_ne hne,
        storeByte_filled (by omega : written.length < bytes.length), UInt8.ofNat_toNat]
      exact hih
    · rw [if_neg hb] at hl hlength
      simp only [List.length_cons, List.length_nil] at hlength
      obtain ⟨rounds, rfl⟩ : ∃ r, rounds = r + 1 := Nat.exists_eq_add_one.mpr (by omega)
      have hbyte := byteAt_of_drop (k := 0) hl rfl
      have hrest : bytes.drop (source + 3) = bs.flatMap percent := by
        rw [← List.drop_drop, hl]
        rfl
      have hih := ih hrest (by omega : _ ≤ _ + rounds) (by
        rw [List.length_append, List.length_singleton]
        omega : (written ++ [b]).length ≤ _)
      rw [List.append_assoc, List.singleton_append, List.length_append,
        List.length_singleton] at hih
      rw [Nat.add_zero] at hbyte
      rw [decodeFrom, if_pos (by omega), hbyte]
      simp only [bind, Except.bind]
      rw [show (UInt8.toNat 0x25) = 37 from rfl, escapeAt_triple hl]
      simp only [storeByte_filled (by omega : written.length < bytes.length),
        UInt8.ofNat_toNat]
      exact hih

theorem copyFrom_eq {decoded : List UInt8} {output rounds copyIndex : ℕ}
    (houtput : output ≤ decoded.length) (hcopy : copyIndex + rounds = output) :
    copyFrom decoded output rounds copyIndex (filled output (decoded.take copyIndex)) =
      .ok (decoded.take output) := by
  induction rounds generalizing copyIndex with
  | zero =>
    obtain rfl : copyIndex = output := hcopy
    rw [copyFrom, filled_full (by rw [List.length_take]; omega)]
  | succ rounds ih =>
    have hlength : (decoded.take copyIndex).length = copyIndex := by
      rw [List.length_take]
      omega
    obtain ⟨b, l, hl⟩ := List.exists_cons_of_ne_nil
      (fun h => absurd (List.drop_eq_nil_iff.mp h) (by omega) : decoded.drop copyIndex ≠ [])
    have hbyte := byteAt_of_drop (k := 0) hl rfl
    have hnext : decoded.take copyIndex ++ [b] = decoded.take (copyIndex + 1) := by
      rw [List.take_add, hl]
      rfl
    have hstore := storeByte_filled
      (by omega : (decoded.take copyIndex).length < output) b.toNat
    rw [hlength, UInt8.ofNat_toNat, hnext] at hstore
    rw [Nat.add_zero] at hbyte
    rw [copyFrom, if_pos (by omega), hbyte]
    simp only [bind, Except.bind, hstore]
    exact ih (by omega)

/-- The decoder undoes the encoder, as far as the bytes are a text. -/
theorem decode_percent (bs : List UInt8) : decode (bs.flatMap percent) = utf8Decode bs := by
  have hdecoded : decodeFrom (bs.flatMap percent) (bs.flatMap percent).length 0
      (List.replicate (bs.flatMap percent).length 0) 0 =
      .ok (filled (bs.flatMap percent).length bs, bs.length) := by
    show decodeFrom _ _ 0 (filled _ []) ([] : List UInt8).length = _
    exact decodeFrom_percent List.drop_zero (by rw [Nat.zero_add]) (Nat.le_refl 0)
  have htake : (filled (bs.flatMap percent).length bs).take bs.length = bs := List.take_left
  have hcopied : copyFrom (filled (bs.flatMap percent).length bs) bs.length bs.length 0
      (List.replicate bs.length 0) = .ok bs := by
    have hcopy := copyFrom_eq
      (by rw [filled, List.length_append]; omega :
        bs.length ≤ (filled (bs.flatMap percent).length bs).length) (Nat.zero_add bs.length)
    rwa [htake] at hcopy
  rw [decode, utf8Encode_eq]
  simp only [bind, Except.bind, hdecoded, hcopied]

/-- Strict decoding of bytes, and the two directions of percent encoding. -/
theorem utf8Decode_and_uri :
    (∀ (bytes : List UInt8) (t : Text), utf8Decode bytes = .ok t ↔
      (∃ cs, Utf8.encode cs = bytes ∧ Char.ofNat 0 ∉ cs) ∧ utf8Encode t = .ok bytes) ∧
    ∀ cs : List Char, Char.ofNat 0 ∉ cs →
      ∃ e, encode (Utf8.encode cs) = .ok e ∧ PercentEncoded e ∧
        decode e = .ok (Utf8.encode cs) := by
  constructor
  · intro bytes t
    rw [utf8Decode_iff, utf8Encode_eq, Except.ok.injEq]
    exact Iff.rfl
  · intro cs hcs
    refine ⟨_, encode_eq _, percentEncoded_flatMap _, ?_⟩
    rw [decode_percent, utf8Decode_iff]
    exact ⟨⟨cs, rfl, hcs⟩, rfl⟩

theorem uri_accent :
    ∃ e, encode (Utf8.encode ['é', '%']) = .ok e ∧ PercentEncoded e ∧
      decode e = .ok (Utf8.encode ['é', '%']) :=
  utf8Decode_and_uri.2 ['é', '%'] (by decide)

end Uri

end Absolute
