import Absolute.StdEncoding

/-!
# Base64

The encoder and the decoder of `std.encoding`. `base64Of` spells the text of some bytes by
groups of three. The decoder counts the padding before it has looked at the characters, and
writes only as many bytes as that leaves; it takes a text exactly where that is the text of
some bytes, and these are what it returns (`base64Decode_iff`).
-/

namespace Absolute

namespace Encoding

open Strings

def base64Character (value : ℕ) : ℕ :=
  if value < 26 then 65 + value
  else if value < 52 then 97 + value - 26
  else if value < 62 then 48 + value - 52
  else if value = 62 then 43 else 47

def base64Value (codePoint : ℕ) : ℤ :=
  if 65 ≤ codePoint ∧ codePoint ≤ 90 then codePoint - 65
  else if 97 ≤ codePoint ∧ codePoint ≤ 122 then codePoint - 97 + 26
  else if 48 ≤ codePoint ∧ codePoint ≤ 57 then codePoint - 48 + 52
  else if codePoint = 43 then 62
  else if codePoint = 47 then 63
  else -1

/-! ## The encoder -/

/-- `while (index < bytes.length)`, each round with a group. -/
def base64EncodeFrom (input : List UInt8) : ℕ → ℕ → Text → Except Fault Text
  | 0, _, result => .ok result
  | rounds + 1, index, result =>
    if index < input.length then do
      let first ← byteAt input index
      let remaining := input.length - index
      let second ← if remaining > 1 then byteAt input (index + 1) else pure 0
      let third ← if remaining > 2 then byteAt input (index + 2) else pure 0
      let result := result ++ encodeUtf8 (base64Character (first >>> 2))
      let result := result ++ encodeUtf8 (base64Character ((first &&& 3) <<< 4 ||| second >>> 4))
      let result := result ++
        if remaining > 1 then
          encodeUtf8 (base64Character ((second &&& 15) <<< 2 ||| third >>> 6))
        else bytes "="
      let result := result ++
        if remaining > 2 then encodeUtf8 (base64Character (third &&& 63)) else bytes "="
      base64EncodeFrom input rounds (index + 3) result
    else .ok result

def base64Encode (input : List UInt8) : Except Fault Text :=
  base64EncodeFrom input input.length 0 []

/-! ## The decoder -/

/-- The three bytes of a group of four codes. -/
def base64Group (lastGroup : Bool) (group firstCode secondCode thirdCode fourthCode : ℕ) :
    Except Fault (ℕ × ℕ × ℕ) :=
  let first := base64Value firstCode
  let second := base64Value secondCode
  let third := if thirdCode = 61 then 0 else base64Value thirdCode
  let fourth := if fourthCode = 61 then 0 else base64Value fourthCode
  if first < 0 ∨ second < 0 ∨ third < 0 ∨ fourth < 0 then .error (.base64Character group)
  else if firstCode = 61 ∨ secondCode = 61 ∨
      (!lastGroup ∧ (thirdCode = 61 ∨ fourthCode = 61)) ∨ (thirdCode = 61 ∧ fourthCode ≠ 61) then
    .error .base64Padding
  else if thirdCode = 61 ∧ second.toNat &&& 15 ≠ 0 then .error .base64TrailingBits
  else if fourthCode = 61 ∧ thirdCode ≠ 61 ∧ third.toNat &&& 3 ≠ 0 then
    .error .base64TrailingBits
  else .ok (first.toNat <<< 2 ||| second.toNat >>> 4,
    (second.toNat &&& 15) <<< 4 ||| third.toNat >>> 2,
    (third.toNat &&& 3) <<< 6 ||| fourth.toNat)

/-- `if (output < result.length) { result[output] = value; output = output + 1; }` -/
def put (value : ℕ) (s : List UInt8 × ℕ) : List UInt8 × ℕ :=
  if s.2 < s.1.length then (s.1.set s.2 (UInt8.ofNat value), s.2 + 1) else s

def base64DecodeFrom (input : List UInt8) :
    ℕ → ℕ → List UInt8 × ℕ → Except Fault (List UInt8)
  | 0, _, s => .ok s.1
  | rounds + 1, source, s =>
    if source < input.length then do
      let firstCode ← byteAt input source
      let secondCode ← byteAt input (source + 1)
      let thirdCode ← byteAt input (source + 2)
      let fourthCode ← byteAt input (source + 3)
      let (x, y, z) ← base64Group (source + 4 = input.length) (source / 4)
        firstCode secondCode thirdCode fourthCode
      base64DecodeFrom input rounds (source + 4) (put z (put y (put x s)))
    else .ok s.1

/-- One where the code that far from the end is `=`. -/
def paddingAt (input : List UInt8) (back : ℕ) : Except Fault ℕ :=
  if input.length ≥ back then do
    let code ← byteAt input (input.length - back)
    return if code = 61 then 1 else 0
  else return 0

def base64Decode (text : Text) : Except Fault (List UInt8) := do
  let input ← utf8Encode text
  if input.length % 4 ≠ 0 then throw .base64Length
  let padding := (← paddingAt input 1) + (← paddingAt input 2)
  let result := List.replicate (input.length / 4 * 3 - padding) 0
  base64DecodeFrom input input.length 0 (result, 0)

/-! ## The text of some bytes -/

/-- A character of the alphabet. -/
def digit (value : ℕ) : UInt8 := UInt8.ofNat (base64Character value)

def base64Of : List UInt8 → Text
  | [] => []
  | [a] => [digit (a.toNat / 4), digit (a.toNat % 4 * 16), 61, 61]
  | [a, b] =>
    [digit (a.toNat / 4), digit (a.toNat % 4 * 16 + b.toNat / 16), digit (b.toNat % 16 * 4), 61]
  | a :: b :: c :: rest =>
    digit (a.toNat / 4) :: digit (a.toNat % 4 * 16 + b.toNat / 16) ::
      digit (b.toNat % 16 * 4 + c.toNat / 64) :: digit (c.toNat % 64) :: base64Of rest

theorem base64Character_le (value : ℕ) : base64Character value ≤ 0x7F := by
  rw [base64Character]
  split_ifs <;> omega

theorem toNat_digit (value : ℕ) : (digit value).toNat = base64Character value := by
  rw [digit, UInt8.toNat_ofNat']
  have hle := base64Character_le value
  exact Nat.mod_eq_of_lt (by show base64Character value < 256; omega)

theorem encodeUtf8_base64 (value : ℕ) : encodeUtf8 (base64Character value) = [digit value] :=
  if_pos (base64Character_le value)

theorem base64Value_character {value : ℕ} (h : value < 64) :
    base64Value (base64Character value) = value := by
  rw [base64Value, base64Character]
  split_ifs <;> omega

theorem base64Character_ne {value : ℕ} (h : value < 64) : base64Character value ≠ 61 := by
  rw [base64Character]
  split_ifs <;> omega

/-- A code with a value is the character of it. -/
theorem exists_value {code : ℕ} (h : ¬base64Value code < 0) :
    ∃ value < 64, code = base64Character value ∧ (base64Value code).toNat = value := by
  refine ⟨(base64Value code).toNat, ?_, ?_, rfl⟩
  · revert h
    rw [base64Value]
    split_ifs <;> omega
  · revert h
    rw [base64Value, base64Character]
    split_ifs <;> omega

/-! ## The bits of a group -/

section Bits

variable {a b c s₁ s₂ s₃ s₄ : ℕ}

theorem cut_second (hb : b < 256) : (a &&& 3) <<< 4 ||| b >>> 4 = a % 4 * 16 + b / 16 := by
  have hlow : b >>> 4 < 16 := by
    rw [Nat.shiftRight_eq_div_pow]
    omega
  rw [Utf8.joined_bits (w := 4) (d := 16) 2 4 rfl rfl rfl hlow, Nat.shiftRight_eq_div_pow]

theorem cut_third (hc : c < 256) : (b &&& 15) <<< 2 ||| c >>> 6 = b % 16 * 4 + c / 64 := by
  have hlow : c >>> 6 < 4 := by
    rw [Nat.shiftRight_eq_div_pow]
    omega
  rw [Utf8.joined_bits (w := 16) (d := 4) 4 2 rfl rfl rfl hlow, Nat.shiftRight_eq_div_pow]

theorem join_first (h : s₂ < 64) : s₁ <<< 2 ||| s₂ >>> 4 = s₁ * 4 + s₂ / 16 := by
  rw [← Nat.shiftLeft_add_eq_or_of_lt (by rw [Nat.shiftRight_eq_div_pow]; omega),
    Nat.shiftLeft_eq, Nat.shiftRight_eq_div_pow]

theorem join_second (h : s₃ < 64) :
    (s₂ &&& 15) <<< 4 ||| s₃ >>> 2 = s₂ % 16 * 16 + s₃ / 4 := by
  have hlow : s₃ >>> 2 < 16 := by
    rw [Nat.shiftRight_eq_div_pow]
    omega
  rw [Utf8.joined_bits (w := 16) (d := 16) 4 4 rfl rfl rfl hlow, Nat.shiftRight_eq_div_pow]

theorem join_third (h : s₄ < 64) : (s₃ &&& 3) <<< 6 ||| s₄ = s₃ % 4 * 64 + s₄ :=
  Utf8.joined_bits 2 6 rfl rfl rfl h

end Bits

/-! ## Encoding -/

theorem base64EncodeFrom_eq {input : List UInt8} {rounds index : ℕ} (result : Text)
    (hrounds : input.length ≤ index + rounds) :
    base64EncodeFrom input rounds index result =
      .ok (result ++ base64Of (input.drop index)) := by
  induction rounds generalizing index result with
  | zero =>
    rw [Nat.add_zero] at hrounds
    rw [base64EncodeFrom, List.drop_eq_nil_of_le hrounds, base64Of, List.append_nil]
  | succ rounds ih =>
    have hstep {l : List UInt8} (hl : input.drop index = l) :
        input.length - index = l.length ∧ input.drop (index + 3) = l.drop 3 := by
      rw [← List.drop_drop, hl, ← hl, List.length_drop]
      exact ⟨rfl, rfl⟩
    rw [base64EncodeFrom]
    rcases hl : input.drop index with - | ⟨a, - | ⟨b, - | ⟨c, l⟩⟩⟩
    · rw [if_neg (Nat.not_lt.mpr (List.drop_eq_nil_iff.mp hl)), base64Of, List.append_nil]
    · obtain ⟨hlength, hrest⟩ := hstep hl
      have h₀ := byteAt_of_drop (k := 0) hl rfl
      rw [Nat.add_zero] at h₀
      rw [List.length_singleton] at hlength
      rw [if_pos (by omega)]
      simp only [hlength, h₀, bind, Except.bind, pure, Except.pure]
      rw [if_neg (by omega), if_neg (by omega)]
      simp only [encodeUtf8_base64]
      rw [if_neg (by omega), if_neg (by omega), ih _ (by omega), hrest,
        cut_second (by omega : 0 < 256), Nat.shiftRight_eq_div_pow]
      simp [base64Of]
      rfl
    · obtain ⟨hlength, hrest⟩ := hstep hl
      have hb : b.toNat < 256 := b.toNat_lt_size
      have h₀ := byteAt_of_drop (k := 0) hl rfl
      rw [Nat.add_zero] at h₀
      simp only [List.length_cons, List.length_nil] at hlength
      rw [if_pos (by omega)]
      simp only [hlength, h₀, byteAt_of_drop (k := 1) hl rfl, bind, Except.bind, pure,
        Except.pure]
      rw [if_pos (by omega), if_neg (by omega)]
      simp only [encodeUtf8_base64]
      rw [if_pos (by omega), if_neg (by omega), ih _ (by omega), hrest, cut_second hb,
        cut_third (by omega : 0 < 256), Nat.shiftRight_eq_div_pow]
      simp [base64Of]
      rfl
    · obtain ⟨hlength, hrest⟩ := hstep hl
      have hb : b.toNat < 256 := b.toNat_lt_size
      have hc : c.toNat < 256 := c.toNat_lt_size
      have hlow : c.toNat &&& 63 = c.toNat % 64 := Nat.and_two_pow_sub_one_eq_mod _ 6
      have h₀ := byteAt_of_drop (k := 0) hl rfl
      rw [Nat.add_zero] at h₀
      simp only [List.length_cons] at hlength
      rw [if_pos (by omega)]
      simp only [h₀, byteAt_of_drop (k := 1) hl rfl, byteAt_of_drop (k := 2) hl rfl, bind,
        Except.bind]
      rw [if_pos (by omega), if_pos (by omega)]
      simp only [encodeUtf8_base64]
      rw [if_pos (by omega), if_pos (by omega), ih _ (by omega), hrest, cut_second hb,
        cut_third hc, hlow, Nat.shiftRight_eq_div_pow]
      simp [base64Of]

theorem base64Encode_eq (input : List UInt8) : base64Encode input = .ok (base64Of input) :=
  base64EncodeFrom_eq [] (by rw [Nat.zero_add])

/-! ## One group -/

section Group

variable {lastGroup : Bool} {group c₁ c₂ c₃ c₄ : ℕ} {r : ℕ × ℕ × ℕ}

/-- The codes of three bytes. -/
def Full (c₁ c₂ c₃ c₄ : ℕ) (r : ℕ × ℕ × ℕ) : Prop :=
  ∃ a b c : UInt8, c₁ = base64Character (a.toNat / 4) ∧
    c₂ = base64Character (a.toNat % 4 * 16 + b.toNat / 16) ∧
    c₃ = base64Character (b.toNat % 16 * 4 + c.toNat / 64) ∧
    c₄ = base64Character (c.toNat % 64) ∧ r = (a.toNat, b.toNat, c.toNat)

/-- The codes of two bytes and a padding. -/
def Two (c₁ c₂ c₃ c₄ : ℕ) (r : ℕ × ℕ × ℕ) : Prop :=
  ∃ a b : UInt8, c₁ = base64Character (a.toNat / 4) ∧
    c₂ = base64Character (a.toNat % 4 * 16 + b.toNat / 16) ∧
    c₃ = base64Character (b.toNat % 16 * 4) ∧ c₄ = 61 ∧ r = (a.toNat, b.toNat, 0)

/-- The codes of one byte and two paddings. -/
def One (c₁ c₂ c₃ c₄ : ℕ) (r : ℕ × ℕ × ℕ) : Prop :=
  ∃ a : UInt8, c₁ = base64Character (a.toNat / 4) ∧
    c₂ = base64Character (a.toNat % 4 * 16) ∧ c₃ = 61 ∧ c₄ = 61 ∧ r = (a.toNat, 0, 0)

theorem exists_byte {n : ℕ} (h : n < 256) : ∃ b : UInt8, b.toNat = n :=
  ⟨UInt8.ofNat n, by rw [UInt8.toNat_ofNat', Nat.mod_eq_of_lt h]⟩

theorem base64Group_ok (h : base64Group lastGroup group c₁ c₂ c₃ c₄ = .ok r) :
    Full c₁ c₂ c₃ c₄ r ∨ lastGroup = true ∧ (Two c₁ c₂ c₃ c₄ r ∨ One c₁ c₂ c₃ c₄ r) := by
  rw [base64Group] at h
  generalize hc₃ : (if c₃ = 61 then 0 else base64Value c₃) = third at h
  generalize hc₄ : (if c₄ = 61 then 0 else base64Value c₄) = fourth at h
  split_ifs at h with hvalues hpadding hsecond hthird
  rw [not_or, not_or, not_or] at hvalues hpadding
  obtain ⟨hv₁, hv₂, hv₃, hv₄⟩ := hvalues
  obtain ⟨-, -, hlast, hthen⟩ := hpadding
  obtain ⟨s₁, hs₁, rfl, hval₁⟩ := exists_value hv₁
  obtain ⟨s₂, hs₂, rfl, hval₂⟩ := exists_value hv₂
  have hr := (Except.ok.inj h).symm
  rw [hval₁, hval₂, join_first hs₂] at hr
  rw [hval₂] at hsecond
  have hlastGroup (hpad : c₃ = 61 ∨ c₄ = 61) : lastGroup = true := by
    by_contra hno
    exact hlast ⟨by simpa using hno, hpad⟩
  by_cases h₃ : c₃ = 61
  · have h₄ : c₄ = 61 := by
      by_contra h₄
      exact hthen ⟨h₃, h₄⟩
    have htrailing : s₂ % 16 = 0 := by
      by_contra hne
      rw [← Nat.and_two_pow_sub_one_eq_mod _ 4] at hne
      exact hsecond ⟨h₃, hne⟩
    obtain ⟨a, ha⟩ := exists_byte (by omega : s₁ * 4 + s₂ / 16 < 256)
    rw [if_pos h₃] at hc₃
    rw [if_pos h₄] at hc₄
    rw [← hc₃, ← hc₄, Int.toNat_zero, join_second (by omega), join_third (by omega)] at hr
    refine .inr ⟨hlastGroup (.inl h₃), .inr ⟨a, ?_, ?_, h₃, h₄, ?_⟩⟩
    · exact congrArg _ (by omega)
    · exact congrArg _ (by omega)
    · rw [hr, ha]
      exact congrArg₂ _ rfl (congrArg₂ _ (by omega) rfl)
  rw [if_neg h₃] at hc₃
  obtain ⟨s₃, hs₃, rfl, hval₃⟩ := exists_value (hc₃ ▸ hv₃)
  rw [← hc₃, hval₃, join_second hs₃] at hr
  rw [← hc₃, hval₃] at hthird
  by_cases h₄ : c₄ = 61
  · have htrailing : s₃ % 4 = 0 := by
      by_contra hne
      rw [← Nat.and_two_pow_sub_one_eq_mod _ 2] at hne
      exact hthird ⟨h₄, h₃, hne⟩
    obtain ⟨a, ha⟩ := exists_byte (by omega : s₁ * 4 + s₂ / 16 < 256)
    obtain ⟨b, hb⟩ := exists_byte (by omega : s₂ % 16 * 16 + s₃ / 4 < 256)
    rw [if_pos h₄] at hc₄
    rw [← hc₄, Int.toNat_zero, join_third (by omega)] at hr
    refine .inr ⟨hlastGroup (.inr h₄), .inl ⟨a, b, ?_, ?_, ?_, h₄, ?_⟩⟩
    · exact congrArg _ (by omega)
    · exact congrArg _ (by omega)
    · exact congrArg _ (by omega)
    · rw [hr, ha, hb]
      exact congrArg₂ _ rfl (congrArg₂ _ rfl (by omega))
  rw [if_neg h₄] at hc₄
  obtain ⟨s₄, hs₄, rfl, hval₄⟩ := exists_value (hc₄ ▸ hv₄)
  rw [← hc₄, hval₄, join_third hs₄] at hr
  obtain ⟨a, ha⟩ := exists_byte (by omega : s₁ * 4 + s₂ / 16 < 256)
  obtain ⟨b, hb⟩ := exists_byte (by omega : s₂ % 16 * 16 + s₃ / 4 < 256)
  obtain ⟨c, hc⟩ := exists_byte (by omega : s₃ % 4 * 64 + s₄ < 256)
  refine .inl ⟨a, b, c, ?_, ?_, ?_, ?_, ?_⟩
  · exact congrArg _ (by omega)
  · exact congrArg _ (by omega)
  · exact congrArg _ (by omega)
  · exact congrArg _ (by omega)
  · rw [hr, ha, hb, hc]

theorem base64Group_full (h : Full c₁ c₂ c₃ c₄ r) :
    base64Group lastGroup group c₁ c₂ c₃ c₄ = .ok r := by
  obtain ⟨a, b, c, rfl, rfl, rfl, rfl, rfl⟩ := h
  have ha : a.toNat < 256 := a.toNat_lt_size
  have hb : b.toNat < 256 := b.toNat_lt_size
  have hc : c.toNat < 256 := c.toNat_lt_size
  have h₁ : a.toNat / 4 < 64 := by omega
  have h₂ : a.toNat % 4 * 16 + b.toNat / 16 < 64 := by omega
  have h₃ : b.toNat % 16 * 4 + c.toNat / 64 < 64 := by omega
  have h₄ : c.toNat % 64 < 64 := by omega
  rw [base64Group]
  simp only [if_false,
    base64Value_character h₁, base64Value_character h₂, base64Value_character h₃,
    base64Value_character h₄, base64Character_ne h₁, base64Character_ne h₂,
    base64Character_ne h₃, base64Character_ne h₄, Int.toNat_natCast, join_first h₂,
    join_second h₃, join_third h₄]
  rw [if_neg (by omega), if_neg (by simp), if_neg (by simp), if_neg (by simp)]
  exact congrArg Except.ok
    (congrArg₂ Prod.mk (by omega) (congrArg₂ Prod.mk (by omega) (by omega)))

theorem base64Group_two (h : Two c₁ c₂ c₃ c₄ r) :
    base64Group true group c₁ c₂ c₃ c₄ = .ok r := by
  obtain ⟨a, b, rfl, rfl, rfl, rfl, rfl⟩ := h
  have ha : a.toNat < 256 := a.toNat_lt_size
  have hb : b.toNat < 256 := b.toNat_lt_size
  have h₁ : a.toNat / 4 < 64 := by omega
  have h₂ : a.toNat % 4 * 16 + b.toNat / 16 < 64 := by omega
  have h₃ : b.toNat % 16 * 4 < 64 := by omega
  have htrailing : b.toNat % 16 * 4 &&& 3 = 0 := by
    rw [Nat.and_two_pow_sub_one_eq_mod _ 2]
    omega
  rw [base64Group]
  simp only [if_false, base64Value_character h₁,
    base64Value_character h₂, base64Value_character h₃, base64Character_ne h₁,
    base64Character_ne h₂, base64Character_ne h₃, Int.toNat_natCast, join_first h₂,
    join_second h₃, htrailing, if_true]
  rw [if_neg (by omega), if_neg (by simp), if_neg (by simp), if_neg (by simp)]
  exact congrArg Except.ok
    (congrArg₂ Prod.mk (by omega) (congrArg₂ Prod.mk (by omega) rfl))

theorem base64Group_one (h : One c₁ c₂ c₃ c₄ r) :
    base64Group true group c₁ c₂ c₃ c₄ = .ok r := by
  obtain ⟨a, rfl, rfl, rfl, rfl, rfl⟩ := h
  have ha : a.toNat < 256 := a.toNat_lt_size
  have h₁ : a.toNat / 4 < 64 := by omega
  have h₂ : a.toNat % 4 * 16 < 64 := by omega
  have htrailing : a.toNat % 4 * 16 &&& 15 = 0 := by
    rw [Nat.and_two_pow_sub_one_eq_mod _ 4]
    omega
  rw [base64Group]
  simp only [base64Value_character h₁, base64Value_character h₂, base64Character_ne h₁,
    base64Character_ne h₂, Int.toNat_natCast, join_first h₂, htrailing, if_true]
  rw [if_neg (by omega), if_neg (by simp), if_neg (by simp), if_neg (by simp)]
  exact congrArg Except.ok (congrArg₂ Prod.mk (by omega) rfl)

end Group

/-! ## Decoding -/

theorem put_filled {n : ℕ} {written : List UInt8} (b : UInt8) (h : written.length < n) :
    put b.toNat (filled n written, written.length) =
      (filled n (written ++ [b]), (written ++ [b]).length) := by
  have hlt : written.length < (filled n written).length := by
    rwa [length_filled (Nat.le_of_lt h)]
  rw [put, if_pos hlt, set_filled h, UInt8.ofNat_toNat, List.length_append,
    List.length_singleton]

/-- What does not fit any more is dropped. -/
theorem put_full {n : ℕ} {written : List UInt8} (v : ℕ) (h : n = written.length) :
    put v (filled n written, written.length) = (filled n written, written.length) := by
  rw [put, if_neg (by rw [length_filled (by omega)]; exact Nat.not_lt.mpr (Nat.le_of_eq h))]

theorem base64DecodeFrom_end {input : List UInt8} {rounds source : ℕ} {s : List UInt8 × ℕ}
    (h : input.length ≤ source) : base64DecodeFrom input rounds source s = .ok s.1 := by
  cases rounds with
  | zero => rfl
  | succ rounds => exact if_neg (Nat.not_lt.mpr h)

/-- A round at four bytes is their group and the rounds after it. -/
theorem base64DecodeFrom_cons {input rest : List UInt8} {b₀ b₁ b₂ b₃ : UInt8}
    {rounds source : ℕ} {s : List UInt8 × ℕ}
    (hl : input.drop source = b₀ :: b₁ :: b₂ :: b₃ :: rest) :
    base64DecodeFrom input (rounds + 1) source s =
      base64Group (source + 4 = input.length) (source / 4) b₀.toNat b₁.toNat b₂.toNat b₃.toNat
        >>= fun r =>
          base64DecodeFrom input rounds (source + 4) (put r.2.2 (put r.2.1 (put r.1 s))) := by
  have hlength := congrArg List.length hl
  have h₀ := byteAt_of_drop (k := 0) hl rfl
  rw [Nat.add_zero] at h₀
  rw [List.length_drop, List.length_cons] at hlength
  rw [base64DecodeFrom, if_pos (by omega)]
  simp only [h₀, byteAt_of_drop (k := 1) hl rfl, byteAt_of_drop (k := 2) hl rfl,
    byteAt_of_drop (k := 3) hl rfl, bind, Except.bind]

theorem bind_ok_iff {α β : Type} {x : Except Fault α} {f : α → Except Fault β} {v : β} :
    (x >>= f) = .ok v ↔ ∃ r, x = .ok r ∧ f r = .ok v := by
  rcases x with fault | r
  · constructor
    · intro h
      cases h
    · rintro ⟨r, h, -⟩
      cases h
  · constructor
    · intro h
      exact ⟨r, rfl, h⟩
    · rintro ⟨r', h, hf⟩
      cases h
      exact hf

/-- One where a byte is `=`. -/
def pad (b : UInt8) : ℕ := if b = 61 then 1 else 0

theorem digit_ne {value : ℕ} (h : value < 64) : digit value ≠ 61 := by
  intro heq
  refine base64Character_ne h ?_
  rw [← toNat_digit, heq]
  rfl

theorem pad_digit {value : ℕ} (h : value < 64) : pad (digit value) = 0 := if_neg (digit_ne h)

theorem eq_digit {b : UInt8} {value : ℕ} (h : b.toNat = base64Character value) :
    b = digit value := by
  rw [digit, ← h, UInt8.ofNat_toNat]

section Put

variable {n : ℕ} {written : List UInt8} (a b c : UInt8)

theorem put_three (h : written.length + 3 ≤ n) :
    put c.toNat (put b.toNat (put a.toNat (filled n written, written.length))) =
      (filled n (written ++ [a, b, c]), (written ++ [a, b, c]).length) := by
  rw [put_filled a (by omega), put_filled b, put_filled c]
  · simp only [List.append_assoc, List.cons_append, List.nil_append]
  all_goals
    simp only [List.length_append, List.length_cons, List.length_nil]
    omega

theorem put_two (h : n = written.length + 2) :
    (put 0 (put b.toNat (put a.toNat (filled n written, written.length)))).1 =
      written ++ [a, b] := by
  have hlength : n = (written ++ [a] ++ [b]).length := by
    simp only [List.length_append, List.length_cons, List.length_nil]
    omega
  rw [put_filled a (by omega), put_filled b (by rw [List.length_append]; simp; omega),
    put_full 0 hlength, filled_full (Nat.le_of_eq hlength), List.append_assoc]
  rfl

theorem put_one (h : n = written.length + 1) :
    (put 0 (put 0 (put a.toNat (filled n written, written.length)))).1 = written ++ [a] := by
  have hlength : n = (written ++ [a]).length := by
    rw [List.length_append, List.length_singleton]
    exact h
  rw [put_filled a (by omega), put_full 0 hlength, put_full 0 hlength,
    filled_full (Nat.le_of_eq hlength)]

end Put

/-- The last group gives the last bytes. -/
theorem base64DecodeFrom_last {input : List UInt8} {b₀ b₁ b₂ b₃ : UInt8}
    {rounds source n : ℕ} {written result : List UInt8}
    (hl : input.drop source = [b₀, b₁, b₂, b₃]) (hn : n + pad b₃ + pad b₂ = written.length + 3) :
    base64DecodeFrom input (rounds + 1) source (filled n written, written.length) =
        .ok result ↔
      ∃ l, base64Of l = [b₀, b₁, b₂, b₃] ∧ result = written ++ l := by
  have hlength := congrArg List.length hl
  simp only [List.length_drop, List.length_cons, List.length_nil] at hlength
  have hlast : source + 4 = input.length := by omega
  have hend (s : List UInt8 × ℕ) :
      base64DecodeFrom input rounds input.length s = .ok result ↔ result = s.1 := by
    rw [base64DecodeFrom_end (Nat.le_refl _), Except.ok.injEq, eq_comm]
  have hpad : pad 61 = 1 := rfl
  rw [base64DecodeFrom_cons hl, bind_ok_iff]
  simp only [hlast, hend, decide_true]
  constructor
  · rintro ⟨r, hgroup, hresult⟩
    rcases base64Group_ok hgroup with ⟨a, b, c, h₀, h₁, h₂, h₃, rfl⟩ |
      ⟨-, ⟨a, b, h₀, h₁, h₂, h₃, rfl⟩ | ⟨a, h₀, h₁, h₂, h₃, rfl⟩⟩
    · have hb : b.toNat < 256 := b.toNat_lt_size
      have hc : c.toNat < 256 := c.toNat_lt_size
      obtain rfl := eq_digit h₂
      obtain rfl := eq_digit h₃
      rw [pad_digit (by omega), pad_digit (by omega)] at hn
      refine ⟨[a, b, c], by rw [base64Of, eq_digit h₀, eq_digit h₁]; rfl, ?_⟩
      rw [hresult, put_three a b c (by omega)]
      exact filled_full (by rw [List.length_append]; exact Nat.le_of_eq (by simpa using hn))
    · obtain rfl := eq_digit h₂
      obtain rfl : b₃ = 61 := UInt8.toNat_inj.mp h₃
      rw [hpad, pad_digit (by omega)] at hn
      refine ⟨[a, b], by rw [base64Of, eq_digit h₀, eq_digit h₁], ?_⟩
      rw [hresult, put_two a b (by omega)]
    · obtain rfl : b₂ = 61 := UInt8.toNat_inj.mp h₂
      obtain rfl : b₃ = 61 := UInt8.toNat_inj.mp h₃
      rw [hpad] at hn
      refine ⟨[a], by rw [base64Of, eq_digit h₀, eq_digit h₁], ?_⟩
      rw [hresult, put_one a (by omega)]
  · rintro ⟨l, hof, rfl⟩
    rcases l with - | ⟨a, - | ⟨b, - | ⟨c, l⟩⟩⟩
    · cases hof
    · rw [base64Of, List.cons.injEq, List.cons.injEq, List.cons.injEq, List.cons.injEq] at hof
      obtain ⟨rfl, rfl, rfl, rfl, -⟩ := hof
      rw [hpad] at hn
      refine ⟨_, base64Group_one ⟨a, toNat_digit _, toNat_digit _, rfl, rfl, rfl⟩, ?_⟩
      rw [put_one a (by omega)]
    · have hb : b.toNat < 256 := b.toNat_lt_size
      rw [base64Of, List.cons.injEq, List.cons.injEq, List.cons.injEq, List.cons.injEq] at hof
      obtain ⟨rfl, rfl, rfl, rfl, -⟩ := hof
      rw [hpad, pad_digit (by omega)] at hn
      refine ⟨_, base64Group_two ⟨a, b, toNat_digit _, toNat_digit _, toNat_digit _, rfl, rfl⟩,
        ?_⟩
      rw [put_two a b (by omega)]
    · have hb : b.toNat < 256 := b.toNat_lt_size
      have hc : c.toNat < 256 := c.toNat_lt_size
      rw [base64Of, List.cons.injEq, List.cons.injEq, List.cons.injEq, List.cons.injEq] at hof
      obtain ⟨rfl, rfl, rfl, rfl, hnil⟩ := hof
      obtain rfl : l = [] := by
        rcases l with - | ⟨d, - | ⟨e, - | ⟨f, l⟩⟩⟩
        · rfl
        all_goals cases hnil
      rw [pad_digit (by omega), pad_digit (by omega)] at hn
      refine ⟨_, base64Group_full ⟨a, b, c, toNat_digit _, toNat_digit _, toNat_digit _,
        toNat_digit _, rfl⟩, ?_⟩
      rw [put_three a b c (by omega)]
      exact (filled_full (by rw [List.length_append]; exact Nat.le_of_eq (by simpa using hn))).symm

theorem exists_four {l : List UInt8} {k : ℕ} (h : l.length = k + 4) :
    ∃ b₀ b₁ b₂ b₃ rest, l = b₀ :: b₁ :: b₂ :: b₃ :: rest ∧ rest.length = k := by
  rcases l with - | ⟨b₀, - | ⟨b₁, - | ⟨b₂, - | ⟨b₃, rest⟩⟩⟩⟩
  · cases h
  · exact absurd h (by rw [List.length_singleton]; omega)
  · exact absurd h (by rw [List.length_cons, List.length_singleton]; omega)
  · exact absurd h (by rw [List.length_cons, List.length_cons, List.length_singleton]; omega)
  · exact ⟨b₀, b₁, b₂, b₃, rest, rfl, by simpa using h⟩

/-- From a group on, the decoder takes what is the text of some bytes. -/
theorem base64DecodeFrom_iff {input : List UInt8} {b₂ b₃ : UInt8}
    {groups rounds source n : ℕ} {written result : List UInt8}
    (h₂ : input[input.length - 2]? = some b₂) (h₃ : input[input.length - 1]? = some b₃)
    (hlength : input.length = source + (4 * groups + 4)) (hrounds : groups < rounds)
    (hn : n + pad b₃ + pad b₂ = written.length + (3 * groups + 3)) :
    base64DecodeFrom input rounds source (filled n written, written.length) = .ok result ↔
      ∃ l, base64Of l = input.drop source ∧ result = written ++ l := by
  have hpad (b : UInt8) : pad b ≤ 1 := by
    rw [pad]
    split_ifs <;> omega
  have hpad₂ := hpad b₂
  have hpad₃ := hpad b₃
  induction groups generalizing rounds source written with
  | zero =>
    obtain ⟨rounds, rfl⟩ : ∃ r, rounds = r + 1 := Nat.exists_eq_add_one.mpr (by omega)
    obtain ⟨c₀, c₁, c₂, c₃, rest, hl, hrest⟩ := exists_four
      (by rw [List.length_drop]; omega : (input.drop source).length = 0 + 4)
    obtain rfl := List.length_eq_zero_iff.mp hrest
    have hat (k : ℕ) : input[source + k]? = [c₀, c₁, c₂, c₃][k]? := by
      rw [← List.getElem?_drop, hl]
    obtain rfl : c₂ = b₂ := by
      rw [show input.length - 2 = source + 2 by omega, hat] at h₂
      exact Option.some.inj h₂
    obtain rfl : c₃ = b₃ := by
      rw [show input.length - 1 = source + 3 by omega, hat] at h₃
      exact Option.some.inj h₃
    rw [base64DecodeFrom_last hl (by omega), hl]
  | succ groups ih =>
    obtain ⟨rounds, rfl⟩ : ∃ r, rounds = r + 1 := Nat.exists_eq_add_one.mpr (by omega)
    obtain ⟨c₀, c₁, c₂, c₃, rest, hl, hrest⟩ := exists_four
      (by rw [List.length_drop]; omega : (input.drop source).length = 4 * groups + 4 + 4)
    have hdrop : input.drop (source + 4) = rest := by
      rw [← List.drop_drop, hl]
      rfl
    have hnext (a b c : UInt8) :
        base64DecodeFrom input rounds (source + 4)
            (filled n (written ++ [a, b, c]), (written ++ [a, b, c]).length) = .ok result ↔
          ∃ l, base64Of l = input.drop (source + 4) ∧ result = written ++ [a, b, c] ++ l := by
      refine ih (by omega) (by omega) ?_
      simp only [List.length_append, List.length_cons, List.length_nil]
      omega
    have hlast : decide (source + 4 = input.length) = false :=
      decide_eq_false (by omega)
    rw [base64DecodeFrom_cons hl, bind_ok_iff, hlast, hl]
    constructor
    · rintro ⟨r, hgroup, hresult⟩
      rcases base64Group_ok hgroup with ⟨a, b, c, k₀, k₁, k₂, k₃, rfl⟩ | ⟨hfalse, -⟩
      · rw [put_three a b c (by omega)] at hresult
        obtain ⟨l, hof, rfl⟩ := (hnext a b c).mp hresult
        refine ⟨a :: b :: c :: l, ?_, by rw [List.append_assoc]; rfl⟩
        rw [base64Of, hof, hdrop, eq_digit k₀, eq_digit k₁, eq_digit k₂, eq_digit k₃]
      · cases hfalse
    · rintro ⟨l, hof, rfl⟩
      have hne : rest ≠ [] := by
        rintro rfl
        rw [List.length_nil] at hrest
        omega
      rcases l with - | ⟨a, - | ⟨b, - | ⟨c, l⟩⟩⟩
      · cases hof
      · cases hof
        exact absurd rfl hne
      · cases hof
        exact absurd rfl hne
      · rw [base64Of, List.cons.injEq, List.cons.injEq, List.cons.injEq, List.cons.injEq] at hof
        obtain ⟨rfl, rfl, rfl, rfl, hof⟩ := hof
        refine ⟨_, base64Group_full ⟨a, b, c, toNat_digit _, toNat_digit _, toNat_digit _,
          toNat_digit _, rfl⟩, ?_⟩
        rw [put_three a b c (by omega)]
        exact (hnext a b c).mpr ⟨l, hof.trans hdrop.symm, by rw [List.append_assoc]; rfl⟩

theorem length_base64Of (l : List UInt8) : (base64Of l).length % 4 = 0 := by
  induction l using base64Of.induct with
  | case1 => rfl
  | case2 a => simp only [base64Of, List.length_cons, List.length_nil, Nat.reduceAdd, Nat.reduceMod]
  | case3 a b =>
    simp only [base64Of, List.length_cons, List.length_nil, Nat.reduceAdd, Nat.reduceMod]
  | case4 a b c rest ih =>
    rw [base64Of]
    simp only [List.length_cons]
    omega

theorem paddingAt_eq {input : List UInt8} {back : ℕ} {b : UInt8}
    (h : input[input.length - back]? = some b) (hback : input.length ≥ back) :
    paddingAt input back = .ok (pad b) := by
  have hb : b.toNat = 61 ↔ b = 61 := by
    rw [← UInt8.toNat_inj]
    rfl
  rw [paddingAt, if_pos hback, byteAt, h]
  simp only [bind, Except.bind, pure, Except.pure, pad, hb]

theorem base64Of_eq_nil {l : List UInt8} : base64Of l = [] ↔ l = [] := by
  constructor
  · intro h
    rcases l with - | ⟨a, - | ⟨b, - | ⟨c, l⟩⟩⟩
    · rfl
    all_goals cases h
  · rintro rfl
    rfl

/-- The decoder on a text of whole groups. -/
theorem base64DecodeFrom_whole {t : Text} {b₂ b₃ : UInt8} {result : List UInt8}
    (h₂ : t[t.length - 2]? = some b₂) (h₃ : t[t.length - 1]? = some b₃)
    (hpos : 0 < t.length) (hfour : t.length % 4 = 0) :
    base64DecodeFrom t t.length 0
        (List.replicate (t.length / 4 * 3 - (pad b₃ + pad b₂)) 0, 0) = .ok result ↔
      base64Of result = t := by
  have hpad (b : UInt8) : pad b ≤ 1 := by
    rw [pad]
    split_ifs <;> omega
  have hpad₂ := hpad b₂
  have hpad₃ := hpad b₃
  obtain ⟨groups, hgroups⟩ : ∃ k, t.length = 4 * k + 4 := ⟨t.length / 4 - 1, by omega⟩
  have hdecode :
      base64DecodeFrom t t.length 0 (filled (t.length / 4 * 3 - (pad b₃ + pad b₂)) [],
          ([] : List UInt8).length) = .ok result ↔
        ∃ l, base64Of l = t.drop 0 ∧ result = [] ++ l :=
    base64DecodeFrom_iff h₂ h₃ (by rw [Nat.zero_add]; exact hgroups) (by omega)
      (by rw [List.length_nil]; omega)
  rw [filled_nil, List.length_nil] at hdecode
  rw [hdecode]
  constructor
  · rintro ⟨l, hof, rfl⟩
    exact hof
  · intro hof
    exact ⟨result, hof, rfl⟩

/-- The decoder takes the texts of bytes and returns these. -/
theorem base64Decode_iff (t : Text) (b : List UInt8) :
    base64Decode t = .ok b ↔ base64Encode b = .ok t := by
  rw [base64Encode_eq, Except.ok.injEq, base64Decode, utf8Encode_eq]
  simp only [bind, Except.bind]
  by_cases hfour : t.length % 4 = 0
  · rw [if_neg (not_not.mpr hfour)]
    rcases Nat.eq_zero_or_pos t.length with hzero | hpos
    · obtain rfl := List.length_eq_zero_iff.mp hzero
      show (Except.ok [] : Except Fault (List UInt8)) = .ok b ↔ _
      rw [base64Of_eq_nil, Except.ok.injEq, eq_comm]
    · have hlt₂ : t.length - 2 < t.length := by omega
      have hlt₃ : t.length - 1 < t.length := by omega
      have h₂ := List.getElem?_eq_getElem hlt₂
      have h₃ := List.getElem?_eq_getElem hlt₃
      rw [paddingAt_eq h₃ (by omega), paddingAt_eq h₂ (by omega)]
      exact base64DecodeFrom_whole h₂ h₃ hpos hfour
  · rw [if_pos hfour]
    constructor
    · intro h
      cases h
    · intro hof
      exact absurd (hof ▸ length_base64Of b) hfour

/-! ## Indices -/

theorem base64Group_inRange {lastGroup : Bool} {group c₁ c₂ c₃ c₄ : ℕ} :
    base64Group lastGroup group c₁ c₂ c₃ c₄ ≠ .error .outOfRange := by
  rw [base64Group]
  generalize (if c₃ = 61 then 0 else base64Value c₃) = third
  generalize (if c₄ = 61 then 0 else base64Value c₄) = fourth
  split_ifs <;> intro h <;> cases h

/-- Whole groups are read without leaving the input. -/
theorem base64DecodeFrom_inRange {input : List UInt8} {rounds source groups : ℕ}
    {s : List UInt8 × ℕ} (hlength : input.length = source + 4 * groups) :
    base64DecodeFrom input rounds source s ≠ .error .outOfRange := by
  induction rounds generalizing source groups s with
  | zero =>
    intro h
    cases h
  | succ rounds ih =>
    rcases groups with - | groups
    · rw [base64DecodeFrom_end (by omega)]
      intro h
      cases h
    · obtain ⟨b₀, b₁, b₂, b₃, rest, hl, -⟩ := exists_four
        (by rw [List.length_drop]; omega : (input.drop source).length = 4 * groups + 4)
      rw [base64DecodeFrom_cons hl]
      rcases hgroup : base64Group (source + 4 = input.length) (source / 4) b₀.toNat b₁.toNat
        b₂.toNat b₃.toNat with fault | r
      · intro h
        cases h
        exact base64Group_inRange hgroup
      · exact ih (by omega : input.length = source + 4 + 4 * groups)

theorem paddingAt_inRange {input : List UInt8} {back : ℕ} (hback : 0 < back) :
    ∃ p, paddingAt input back = .ok p := by
  by_cases h : input.length ≥ back
  · have hlt : input.length - back < input.length := by omega
    exact ⟨_, paddingAt_eq (List.getElem?_eq_getElem hlt) h⟩
  · exact ⟨0, if_neg h⟩

theorem base64Decode_inRange (t : Text) : base64Decode t ≠ .error .outOfRange := by
  obtain ⟨p, hp⟩ : ∃ p, paddingAt t 1 = .ok p := paddingAt_inRange (by omega)
  obtain ⟨q, hq⟩ : ∃ q, paddingAt t 2 = .ok q := paddingAt_inRange (by omega)
  rw [base64Decode, utf8Encode_eq]
  simp only [bind, Except.bind, hp, hq]
  by_cases hfour : t.length % 4 = 0
  · rw [if_neg (not_not.mpr hfour)]
    exact base64DecodeFrom_inRange (by omega : t.length = 0 + 4 * (t.length / 4))
  · rw [if_pos hfour]
    intro h
    cases h

/-- Bytes and the texts of them are two forms of the same. -/
theorem base64_bijective :
    (∀ b, ∃ t, base64Encode b = .ok t ∧ base64Decode t = .ok b) ∧
      (∀ t, (∃ b, base64Decode t = .ok b) ↔ ∃ b, base64Encode b = .ok t) ∧
      (∀ t b, base64Decode t = .ok b ↔ base64Encode b = .ok t) ∧
      ∀ t, base64Decode t ≠ .error .outOfRange := by
  refine ⟨?_, ?_, base64Decode_iff, base64Decode_inRange⟩
  · intro b
    exact ⟨base64Of b, base64Encode_eq b, (base64Decode_iff _ b).mpr (base64Encode_eq b)⟩
  · intro t
    exact exists_congr fun b => base64Decode_iff t b

end Encoding

end Absolute
