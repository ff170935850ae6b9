import Absolute.StdText

/-!
# Bytes and texts

The conversions of `std.encoding` between byte arrays and texts. An array is read at indices
that are tested against its length. `utf8Decode` takes the bytes of a character at a time
(`utf8Step`), and takes exactly the well-formed ones without U+0000 (`utf8Decode_iff`).
-/

namespace Absolute

namespace Encoding

open Strings

def hexValue (codePoint : ℕ) : ℤ :=
  if 48 ≤ codePoint ∧ codePoint ≤ 57 then codePoint - 48
  else if 65 ≤ codePoint ∧ codePoint ≤ 70 then codePoint - 65 + 10
  else if 97 ≤ codePoint ∧ codePoint ≤ 102 then codePoint - 97 + 10
  else -1

inductive Fault where
  | outOfRange
  | copyFailed
  | base64Length
  | base64Character (group : ℕ)
  | base64Padding
  | base64TrailingBits
  | nulCharacter
  | truncated (width : ℕ)
  | continuationByte
  | sequence (width : ℕ)
  | leadingByte (offset : ℕ)
deriving DecidableEq, Repr

/-- `bytes[index] as int32` -/
def byteAt (bytes : List UInt8) (index : ℕ) : Except Fault ℕ :=
  match bytes[index]? with
  | some b => .ok b.toNat
  | none => .error .outOfRange

/-- `array[index] = value as uint8` -/
def storeByte (array : List UInt8) (index value : ℕ) : Except Fault (List UInt8) :=
  if index < array.length then .ok (array.set index (UInt8.ofNat value)) else .error .outOfRange

/-- An array of `n` bytes of which the first ones are written. -/
def filled (n : ℕ) (written : List UInt8) : List UInt8 :=
  written ++ List.replicate (n - written.length) 0

theorem length_filled {n : ℕ} {written : List UInt8} (h : written.length ≤ n) :
    (filled n written).length = n := by
  rw [filled, List.length_append, List.length_replicate]
  omega

theorem filled_nil (n : ℕ) : filled n [] = List.replicate n 0 := rfl

theorem filled_full {n : ℕ} {written : List UInt8} (h : n ≤ written.length) :
    filled n written = written := by
  rw [filled, Nat.sub_eq_zero_of_le h, List.replicate_zero, List.append_nil]

theorem set_filled {n : ℕ} {written : List UInt8} (h : written.length < n) (b : UInt8) :
    (filled n written).set written.length b = filled n (written ++ [b]) := by
  obtain ⟨k, hk⟩ : ∃ k, n - written.length = k + 1 := Nat.exists_eq_add_one.mpr (by omega)
  have hrest : n - (written ++ [b]).length = k := by
    rw [List.length_append, List.length_singleton]
    omega
  rw [filled, filled, hk, hrest, List.replicate_succ]
  simp

theorem storeByte_filled {n : ℕ} {written : List UInt8} (h : written.length < n) (v : ℕ) :
    storeByte (filled n written) written.length v =
      .ok (filled n (written ++ [UInt8.ofNat v])) := by
  rw [storeByte, if_pos (by rwa [length_filled (Nat.le_of_lt h)]), set_filled h]

/-! ## Texts as bytes -/

/-- What is written for a text over an output of the given bytes, with the number of them. -/
def utf8Copy (text : Text) (output : List UInt8) : Option (ℕ × List UInt8) :=
  if text.length > output.length then none
  else some (text.length, text ++ output.drop text.length)

def utf8Encode (text : Text) : Except Fault (List UInt8) :=
  match utf8Copy text (List.replicate (byteCount text) 0) with
  | some (copied, result) => if copied ≠ byteCount text then .error .copyFailed else .ok result
  | none => .error .copyFailed

/-- The bytes are those of the text. -/
theorem utf8Encode_eq (text : Text) : utf8Encode text = .ok text := by
  have hdrop : (List.replicate (byteCount text) (0 : UInt8)).drop text.length = [] :=
    List.drop_eq_nil_of_le (by rw [List.length_replicate]; exact Nat.le_refl _)
  rw [utf8Encode, utf8Copy, if_neg (by rw [List.length_replicate]; exact Nat.lt_irrefl _), hdrop,
    List.append_nil]
  exact if_neg (fun h => h rfl)

/-! ## Bytes as a text -/

def isContinuation (value : ℕ) : Bool := 128 ≤ value && value ≤ 191

/-- The second byte of three: no shorter form, and no surrogate. -/
def validSecondOfThree (first second : ℕ) : Bool :=
  let validSecond := isContinuation second
  let validSecond := if first = 224 then 160 ≤ second && second ≤ 191 else validSecond
  if first = 237 then 128 ≤ second && second ≤ 159 else validSecond

/-- The second byte of four: no shorter form, and nothing above U+10FFFF. -/
def validSecondOfFour (first second : ℕ) : Bool :=
  let validSecond := isContinuation second
  let validSecond := if first = 240 then 144 ≤ second && second ≤ 191 else validSecond
  if first = 244 then 128 ≤ second && second ≤ 143 else validSecond

/-- The code point at an index and how many bytes it takes. -/
def utf8Step (bytes : List UInt8) (index : ℕ) : Except Fault (ℕ × ℕ) := do
  let first ← byteAt bytes index
  if first = 0 then throw .nulCharacter
  else if first ≤ 127 then return (first, 1)
  else if 194 ≤ first ∧ first ≤ 223 then
    if index + 1 ≥ bytes.length then throw (.truncated 2)
    let second ← byteAt bytes (index + 1)
    if !isContinuation second then throw .continuationByte
    return ((first &&& 31) <<< 6 ||| (second &&& 63), 2)
  else if 224 ≤ first ∧ first ≤ 239 then
    if index + 2 ≥ bytes.length then throw (.truncated 3)
    let second ← byteAt bytes (index + 1)
    let third ← byteAt bytes (index + 2)
    if !validSecondOfThree first second || !isContinuation third then throw (.sequence 3)
    return ((first &&& 15) <<< 12 ||| (second &&& 63) <<< 6 ||| (third &&& 63), 3)
  else if 240 ≤ first ∧ first ≤ 244 then
    if index + 3 ≥ bytes.length then throw (.truncated 4)
    let second ← byteAt bytes (index + 1)
    let third ← byteAt bytes (index + 2)
    let fourth ← byteAt bytes (index + 3)
    if !validSecondOfFour first second || !isContinuation third || !isContinuation fourth then
      throw (.sequence 4)
    return ((first &&& 7) <<< 18 ||| (second &&& 63) <<< 12 ||| (third &&& 63) <<< 6 |||
      (fourth &&& 63), 4)
  else throw (.leadingByte index)

/-- `while (index < bytes.length)`, each round with one code point. -/
def utf8DecodeFrom (bytes : List UInt8) : ℕ → ℕ → Text → Except Fault Text
  | 0, _, result => .ok result
  | rounds + 1, index, result =>
    if index < bytes.length then do
      let (codePoint, width) ← utf8Step bytes index
      utf8DecodeFrom bytes rounds (index + width) (result ++ encodeUtf8 codePoint)
    else .ok result

def utf8Decode (bytes : List UInt8) : Except Fault Text := utf8DecodeFrom bytes bytes.length 0 []

/-! ## One character -/

theorem byteAt_of_drop {bytes l : List UInt8} {index k : ℕ} {b : UInt8}
    (hl : bytes.drop index = l) (hk : l[k]? = some b) :
    byteAt bytes (index + k) = .ok b.toNat := by
  rw [byteAt, ← List.getElem?_drop, hl, hk]

theorem byteAt_length {bytes : List UInt8} {index : ℕ} (h : bytes.length ≤ index) :
    byteAt bytes index = .error .outOfRange := by
  rw [byteAt, List.getElem?_eq_none h]

theorem low_bits (b : ℕ) : b &&& 63 = b % 64 := Nat.and_two_pow_sub_one_eq_mod b 6

theorem low_bits_lt (b : ℕ) : b &&& 63 < 2 ^ 6 := by
  rw [low_bits]
  exact Nat.mod_lt b (by omega)

theorem value_two (a b : ℕ) : (a &&& 31) <<< 6 ||| (b &&& 63) = a % 32 * 64 + b % 64 := by
  rw [Utf8.joined_bits (w := 32) (d := 64) 5 6 rfl rfl rfl (low_bits_lt b), low_bits]

theorem value_three (a b c : ℕ) :
    (a &&& 15) <<< 12 ||| (b &&& 63) <<< 6 ||| (c &&& 63) =
      (a % 16 * 64 + b % 64) * 64 + c % 64 := by
  have hfirst : (a &&& 15) <<< 12 ||| (b &&& 63) <<< 6 = (a % 16 * 64 + b % 64) <<< 6 := by
    rw [Nat.shiftLeft_add _ 6 6, ← Nat.shiftLeft_or_distrib,
      Utf8.joined_bits (w := 16) (d := 64) 4 6 rfl rfl rfl (low_bits_lt b), low_bits]
  rw [hfirst, ← Nat.shiftLeft_add_eq_or_of_lt (low_bits_lt c), Nat.shiftLeft_eq, low_bits]

theorem value_four (a b c d : ℕ) :
    (a &&& 7) <<< 18 ||| (b &&& 63) <<< 12 ||| (c &&& 63) <<< 6 ||| (d &&& 63) =
      ((a % 8 * 64 + b % 64) * 64 + c % 64) * 64 + d % 64 := by
  have hfirst : (a &&& 7) <<< 18 ||| (b &&& 63) <<< 12 = (a % 8 * 64 + b % 64) <<< 12 := by
    rw [Nat.shiftLeft_add _ 6 12, ← Nat.shiftLeft_or_distrib,
      Utf8.joined_bits (w := 8) (d := 64) 3 6 rfl rfl rfl (low_bits_lt b), low_bits]
  have hsecond : (a % 8 * 64 + b % 64) <<< 12 ||| (c &&& 63) <<< 6 =
      ((a % 8 * 64 + b % 64) * 64 + c % 64) <<< 6 := by
    rw [Nat.shiftLeft_add _ 6 6, ← Nat.shiftLeft_or_distrib,
      ← Nat.shiftLeft_add_eq_or_of_lt (low_bits_lt c),
      Nat.shiftLeft_eq (a % 8 * 64 + b % 64) 6, low_bits]
  rw [hfirst, hsecond, ← Nat.shiftLeft_add_eq_or_of_lt (low_bits_lt d), Nat.shiftLeft_eq,
    low_bits]

theorem isContinuation_iff {value : ℕ} :
    isContinuation value = true ↔ 128 ≤ value ∧ value ≤ 191 := by
  rw [isContinuation, Bool.and_eq_true, decide_eq_true_eq, decide_eq_true_eq]

theorem validSecondOfThree_iff {first second : ℕ} :
    validSecondOfThree first second = true ↔ 128 ≤ second ∧ second ≤ 191 ∧
      (first = 224 → 160 ≤ second) ∧ (first = 237 → second ≤ 159) := by
  rw [validSecondOfThree]
  split_ifs <;> simp only [Bool.and_eq_true, decide_eq_true_eq, isContinuation_iff] <;> omega

theorem validSecondOfFour_iff {first second : ℕ} :
    validSecondOfFour first second = true ↔ 128 ≤ second ∧ second ≤ 191 ∧
      (first = 240 → 144 ≤ second) ∧ (first = 244 → second ≤ 143) := by
  rw [validSecondOfFour]
  split_ifs <;> simp only [Bool.and_eq_true, decide_eq_true_eq, isContinuation_iff] <;> omega

/-- The bytes of a character are taken, U+0000 apart. -/
theorem utf8Step_char {bytes rest : List UInt8} {index : ℕ} {c : Char}
    (h : bytes.drop index = String.utf8EncodeChar c ++ rest) (hc : c.toNat ≠ 0) :
    utf8Step bytes index = .ok (c.toNat, (String.utf8EncodeChar c).length) := by
  have hrange := Utf8.toNat_range c
  have hlength := congrArg List.length h
  rw [List.length_drop, List.length_append] at hlength
  rw [Utf8.utf8EncodeChar_eq] at h hlength ⊢
  generalize c.toNat = n at *
  have hbyte (v : ℕ) (hv : v < 256) : (UInt8.ofNat v).toNat = v := by
    rw [UInt8.toNat_ofNat', Nat.mod_eq_of_lt hv]
  have hcont (v : ℕ) : isContinuation (v % 64 + 128) = true :=
    isContinuation_iff.mpr (by omega)
  rw [Utf8.bytesOf] at h hlength ⊢
  by_cases hone : n ≤ 0x7F
  · rw [if_pos hone] at h ⊢
    have h₀ := byteAt_of_drop (k := 0) h rfl
    rw [hbyte _ (by omega), Nat.add_zero] at h₀
    simp only [utf8Step, h₀, bind, Except.bind, if_neg hc, if_pos hone]
    rfl
  rw [if_neg hone] at h hlength ⊢
  by_cases htwo : n ≤ 0x7FF
  · rw [if_pos htwo] at h hlength ⊢
    have h₀ := byteAt_of_drop (k := 0) h rfl
    have h₁ := byteAt_of_drop (k := 1) h rfl
    rw [hbyte _ (by omega)] at h₀ h₁
    rw [Nat.add_zero] at h₀
    simp only [List.length_cons, List.length_nil] at hlength
    simp only [utf8Step, h₀, bind, Except.bind]
    rw [if_neg (by omega), if_neg (by omega), if_pos (by omega), if_neg (by omega)]
    simp only [h₁, hcont, value_two]
    exact congrArg (fun v => Except.ok (v, 2)) (by omega)
  rw [if_neg htwo] at h hlength ⊢
  by_cases hthree : n ≤ 0xFFFF
  · rw [if_pos hthree] at h hlength ⊢
    have h₀ := byteAt_of_drop (k := 0) h rfl
    have h₁ := byteAt_of_drop (k := 1) h rfl
    have h₂ := byteAt_of_drop (k := 2) h rfl
    rw [hbyte _ (by omega)] at h₀ h₁ h₂
    rw [Nat.add_zero] at h₀
    simp only [List.length_cons, List.length_nil] at hlength
    simp only [utf8Step, h₀, bind, Except.bind]
    rw [if_neg (by omega), if_neg (by omega), if_neg (by omega), if_pos (by omega),
      if_neg (by omega)]
    have hsecond : validSecondOfThree (n / 4096 % 16 + 0xE0) (n / 64 % 64 + 0x80) = true :=
      validSecondOfThree_iff.mpr (by omega)
    simp only [h₁, h₂, hcont, hsecond, value_three]
    exact congrArg (fun v => Except.ok (v, 3)) (by omega)
  · rw [if_neg hthree] at h hlength ⊢
    have h₀ := byteAt_of_drop (k := 0) h rfl
    have h₁ := byteAt_of_drop (k := 1) h rfl
    have h₂ := byteAt_of_drop (k := 2) h rfl
    have h₃ := byteAt_of_drop (k := 3) h rfl
    rw [hbyte _ (by omega)] at h₀ h₁ h₂ h₃
    rw [Nat.add_zero] at h₀
    have hsecond : validSecondOfFour (n / 262144 % 8 + 0xF0) (n / 4096 % 64 + 0x80) = true :=
      validSecondOfFour_iff.mpr (by omega)
    simp only [List.length_cons, List.length_nil] at hlength
    simp only [utf8Step, h₀, bind, Except.bind]
    rw [if_neg (by omega), if_neg (by omega), if_neg (by omega), if_neg (by omega),
      if_pos (by omega), if_neg (by omega)]
    simp only [h₁, h₂, h₃, hcont, hsecond, value_four]
    exact congrArg (fun v => Except.ok (v, 4)) (by omega)

section Taken

variable {b₀ b₁ b₂ b₃ : UInt8}

theorem ofNat_eq {b : UInt8} {v : ℕ} (hv : v = b.toNat) : UInt8.ofNat v = b := by
  rw [hv, UInt8.ofNat_toNat]

theorem char_one (h₀ : b₀.toNat ≤ 127) :
    ∃ c : Char, c.toNat = b₀.toNat ∧ String.utf8EncodeChar c = [b₀] := by
  obtain ⟨c, hc⟩ := Utf8.exists_char (.inl (by omega) : b₀.toNat < 0xD800 ∨ _)
  exact ⟨c, hc, by rw [Utf8.utf8EncodeChar_eq, hc, Utf8.bytesOf_ascii h₀, UInt8.ofNat_toNat]⟩

theorem char_two (h₀ : 194 ≤ b₀.toNat ∧ b₀.toNat ≤ 223) (h₁ : isContinuation b₁.toNat = true) :
    ∃ c : Char, c.toNat = b₀.toNat % 32 * 64 + b₁.toNat % 64 ∧
      String.utf8EncodeChar c = [b₀, b₁] := by
  rw [isContinuation_iff] at h₁
  obtain ⟨c, hc⟩ := Utf8.exists_char
    (.inl (by omega) : b₀.toNat % 32 * 64 + b₁.toNat % 64 < 0xD800 ∨ _)
  refine ⟨c, hc, ?_⟩
  rw [Utf8.utf8EncodeChar_eq, hc, Utf8.bytesOf, if_neg (by omega), if_pos (by omega),
    ofNat_eq (by omega : _ = b₀.toNat), ofNat_eq (by omega : _ = b₁.toNat)]

theorem char_three (h₀ : 224 ≤ b₀.toNat ∧ b₀.toNat ≤ 239)
    (h₁ : validSecondOfThree b₀.toNat b₁.toNat = true) (h₂ : isContinuation b₂.toNat = true) :
    ∃ c : Char, c.toNat = (b₀.toNat % 16 * 64 + b₁.toNat % 64) * 64 + b₂.toNat % 64 ∧
      String.utf8EncodeChar c = [b₀, b₁, b₂] := by
  rw [validSecondOfThree_iff] at h₁
  rw [isContinuation_iff] at h₂
  obtain ⟨c, hc⟩ := Utf8.exists_char
    (by omega : (b₀.toNat % 16 * 64 + b₁.toNat % 64) * 64 + b₂.toNat % 64 < 0xD800 ∨
      0xDFFF < (b₀.toNat % 16 * 64 + b₁.toNat % 64) * 64 + b₂.toNat % 64 ∧
      (b₀.toNat % 16 * 64 + b₁.toNat % 64) * 64 + b₂.toNat % 64 < 0x110000)
  refine ⟨c, hc, ?_⟩
  rw [Utf8.utf8EncodeChar_eq, hc, Utf8.bytesOf, if_neg (by omega), if_neg (by omega),
    if_pos (by omega), ofNat_eq (by omega : _ = b₀.toNat), ofNat_eq (by omega : _ = b₁.toNat),
    ofNat_eq (by omega : _ = b₂.toNat)]

theorem char_four (h₀ : 240 ≤ b₀.toNat ∧ b₀.toNat ≤ 244)
    (h₁ : validSecondOfFour b₀.toNat b₁.toNat = true) (h₂ : isContinuation b₂.toNat = true)
    (h₃ : isContinuation b₃.toNat = true) :
    ∃ c : Char, c.toNat = ((b₀.toNat % 8 * 64 + b₁.toNat % 64) * 64 + b₂.toNat % 64) * 64 +
        b₃.toNat % 64 ∧
      String.utf8EncodeChar c = [b₀, b₁, b₂, b₃] := by
  rw [validSecondOfFour_iff] at h₁
  rw [isContinuation_iff] at h₂ h₃
  obtain ⟨c, hc⟩ := Utf8.exists_char (.inr ⟨by omega, by omega⟩ : _ ∨
    0xDFFF < ((b₀.toNat % 8 * 64 + b₁.toNat % 64) * 64 + b₂.toNat % 64) * 64 + b₃.toNat % 64 ∧
    ((b₀.toNat % 8 * 64 + b₁.toNat % 64) * 64 + b₂.toNat % 64) * 64 + b₃.toNat % 64 < 0x110000)
  refine ⟨c, hc, ?_⟩
  rw [Utf8.utf8EncodeChar_eq, hc, Utf8.bytesOf, if_neg (by omega), if_neg (by omega),
    if_neg (by omega), ofNat_eq (by omega : _ = b₀.toNat), ofNat_eq (by omega : _ = b₁.toNat),
    ofNat_eq (by omega : _ = b₂.toNat), ofNat_eq (by omega : _ = b₃.toNat)]

theorem drop_taken {bytes rest : List UInt8} {index : ℕ} (taken : List UInt8)
    (h : bytes.drop index = taken ++ rest) :
    bytes.drop index = taken ++ bytes.drop (index + taken.length) := by
  rw [← List.drop_drop, h, List.drop_left]

end Taken

/-- What is taken are the bytes of a character. -/
theorem char_of_utf8Step {bytes : List UInt8} {index codePoint width : ℕ}
    (h : utf8Step bytes index = .ok (codePoint, width)) :
    ∃ c : Char, c.toNat = codePoint ∧ codePoint ≠ 0 ∧
      width = (String.utf8EncodeChar c).length ∧
      bytes.drop index = String.utf8EncodeChar c ++ bytes.drop (index + width) := by
  rcases hl : bytes.drop index with - | ⟨b₀, l⟩
  · rw [utf8Step, byteAt_length (List.drop_eq_nil_iff.mp hl)] at h
    cases h
  rw [← hl]
  have hlength := congrArg List.length hl
  have h₀ := byteAt_of_drop (k := 0) hl rfl
  rw [Nat.add_zero] at h₀
  rw [List.length_drop, List.length_cons] at hlength
  simp only [utf8Step, h₀, bind, Except.bind] at h
  by_cases hzero : b₀.toNat = 0
  · rw [if_pos hzero] at h
    cases h
  rw [if_neg hzero] at h
  by_cases hone : b₀.toNat ≤ 127
  · rw [if_pos hone] at h
    cases h
    obtain ⟨c, hc, hbytes⟩ := char_one hone
    exact ⟨c, hc, hzero, by rw [hbytes]; rfl, hbytes ▸ drop_taken [b₀] hl⟩
  rw [if_neg hone] at h
  by_cases htwo : 194 ≤ b₀.toNat ∧ b₀.toNat ≤ 223
  · rw [if_pos htwo] at h
    rcases l with - | ⟨b₁, l⟩
    · rw [if_pos (by rw [List.length_nil] at hlength; omega)] at h
      cases h
    rw [List.length_cons] at hlength
    rw [if_neg (by omega)] at h
    simp only [byteAt_of_drop (k := 1) hl rfl] at h
    by_cases hcont : isContinuation b₁.toNat = true
    · rw [hcont] at h
      cases h
      obtain ⟨c, hc, hbytes⟩ := char_two htwo hcont
      exact ⟨c, by rw [hc, value_two], by rw [value_two]; omega, by rw [hbytes]; rfl,
        hbytes ▸ drop_taken [b₀, b₁] hl⟩
    · rw [Bool.eq_false_iff.mpr hcont] at h
      cases h
  rw [if_neg htwo] at h
  by_cases hthree : 224 ≤ b₀.toNat ∧ b₀.toNat ≤ 239
  · rw [if_pos hthree] at h
    rcases l with - | ⟨b₁, - | ⟨b₂, l⟩⟩
    · rw [if_pos (by rw [List.length_nil] at hlength; omega)] at h
      cases h
    · rw [if_pos (by rw [List.length_singleton] at hlength; omega)] at h
      cases h
    rw [List.length_cons, List.length_cons] at hlength
    rw [if_neg (by omega)] at h
    simp only [byteAt_of_drop (k := 1) hl rfl, byteAt_of_drop (k := 2) hl rfl] at h
    by_cases hvalid : (!validSecondOfThree b₀.toNat b₁.toNat || !isContinuation b₂.toNat) = true
    · rw [if_pos hvalid] at h
      cases h
    · rw [if_neg hvalid] at h
      cases h
      simp only [Bool.or_eq_true, Bool.not_eq_true', not_or, Bool.not_eq_false] at hvalid
      obtain ⟨c, hc, hbytes⟩ := char_three hthree hvalid.1 hvalid.2
      have hsecond := validSecondOfThree_iff.mp hvalid.1
      exact ⟨c, by rw [hc, value_three], by rw [value_three]; omega, by rw [hbytes]; rfl,
        hbytes ▸ drop_taken [b₀, b₁, b₂] hl⟩
  rw [if_neg hthree] at h
  by_cases hfour : 240 ≤ b₀.toNat ∧ b₀.toNat ≤ 244
  · rw [if_pos hfour] at h
    rcases l with - | ⟨b₁, - | ⟨b₂, - | ⟨b₃, l⟩⟩⟩
    · rw [if_pos (by rw [List.length_nil] at hlength; omega)] at h
      cases h
    · rw [if_pos (by rw [List.length_singleton] at hlength; omega)] at h
      cases h
    · rw [if_pos (by rw [List.length_cons, List.length_singleton] at hlength; omega)] at h
      cases h
    rw [List.length_cons, List.length_cons, List.length_cons] at hlength
    rw [if_neg (by omega)] at h
    simp only [byteAt_of_drop (k := 1) hl rfl, byteAt_of_drop (k := 2) hl rfl,
      byteAt_of_drop (k := 3) hl rfl] at h
    by_cases hvalid : (!validSecondOfFour b₀.toNat b₁.toNat || !isContinuation b₂.toNat ||
        !isContinuation b₃.toNat) = true
    · rw [if_pos hvalid] at h
      cases h
    · rw [if_neg hvalid] at h
      cases h
      simp only [Bool.or_eq_true, Bool.not_eq_true', not_or, Bool.not_eq_false] at hvalid
      obtain ⟨c, hc, hbytes⟩ := char_four hfour hvalid.1.1 hvalid.1.2 hvalid.2
      have hsecond := validSecondOfFour_iff.mp hvalid.1.1
      exact ⟨c, by rw [hc, value_four], by rw [value_four]; omega, by rw [hbytes]; rfl,
        hbytes ▸ drop_taken [b₀, b₁, b₂, b₃] hl⟩
  · rw [if_neg hfour] at h
    cases h

/-! ## A whole text -/

theorem utf8DecodeFrom_end {bytes : List UInt8} {index : ℕ} {result t : Text}
    (hindex : bytes.length ≤ index) :
    (Except.ok result : Except Fault Text) = .ok t ↔
      Utf8.NulFree (bytes.drop index) ∧ t = result ++ bytes.drop index := by
  rw [List.drop_eq_nil_of_le hindex, List.append_nil, Except.ok.injEq, eq_comm]
  exact (and_iff_right Utf8.nulFree_nil).symm

theorem utf8DecodeFrom_iff {bytes : List UInt8} {rounds index : ℕ} {result t : Text}
    (hrounds : bytes.length ≤ index + rounds) :
    utf8DecodeFrom bytes rounds index result = .ok t ↔
      Utf8.NulFree (bytes.drop index) ∧ t = result ++ bytes.drop index := by
  induction rounds generalizing index result with
  | zero => exact utf8DecodeFrom_end hrounds
  | succ rounds ih =>
    rw [utf8DecodeFrom]
    by_cases hindex : index < bytes.length
    · rw [if_pos hindex]
      constructor
      · intro h
        rcases hstep : utf8Step bytes index with fault | ⟨codePoint, width⟩
        · rw [hstep] at h
          cases h
        · rw [hstep] at h
          obtain ⟨c, rfl, hzero, rfl, hdrop⟩ := char_of_utf8Step hstep
          have hpos := List.length_pos_iff.mpr (@String.utf8EncodeChar_ne_nil c)
          obtain ⟨hfree, rfl⟩ := (ih (by omega)).mp h
          rw [hdrop, encodeUtf8_char, List.append_assoc]
          exact ⟨Utf8.nulFree_cons.mpr ⟨hzero, hfree⟩, rfl⟩
      · rintro ⟨hfree, rfl⟩
        rcases hfree.cases with hnil | ⟨c, u, hdrop, hc, hu⟩
        · exact absurd (List.drop_eq_nil_iff.mp hnil) (by omega)
        · have hpos := List.length_pos_iff.mpr (@String.utf8EncodeChar_ne_nil c)
          have hrest : bytes.drop (index + (String.utf8EncodeChar c).length) = u := by
            rw [← List.drop_drop, hdrop, List.drop_left]
          rw [utf8Step_char hdrop hc]
          refine (ih (by omega)).mpr ⟨hrest ▸ hu, ?_⟩
          rw [hrest, hdrop, encodeUtf8_char, List.append_assoc]
    · rw [if_neg hindex]
      exact utf8DecodeFrom_end (by omega)

theorem utf8Decode_iff {bytes : List UInt8} {t : Text} :
    utf8Decode bytes = .ok t ↔ Utf8.NulFree bytes ∧ t = bytes := by
  exact utf8DecodeFrom_iff (by rw [Nat.zero_add])

end Encoding

end Absolute
