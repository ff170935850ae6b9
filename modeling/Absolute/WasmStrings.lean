import Absolute.LibRuns
import Absolute.StdTextParts
import Absolute.StdUri

/-!
# Strings of the WebAssembly runtime

The string functions of the freestanding platform, written again in C over its own heap. A text
is its bytes before the terminator and a pointer into it is what is left of the text there. The
functions are compared with those of the native runtime.

The two decoders read different numbers where a sequence of bytes is cut short, but leave the
cursor at the same byte (`utf8Decode_cursor`), so positions and lengths agree on any bytes.
-/

namespace Absolute

namespace Wasm

open Strings Occurrence

/-! ## Code points -/

/-- `for (i = 0; i < n && (*p & 0xc0) == 0x80; ++i) cp = (cp << 6) | (*p++ & 0x3f);` -/
def utf8Tail : ℕ → ℕ → Text → ℕ × Text
  | 0, cp, p => (cp, p)
  | _ + 1, cp, [] => (cp, [])
  | n + 1, cp, b :: p =>
    if b &&& 0xC0 = 0x80 then utf8Tail n (cp <<< 6 ||| (b &&& 0x3F).toNat) p else (cp, b :: p)

def utf8Decode : Text → ℕ × Text
  | [] => (0, [])
  | c :: p =>
    if c < 0x80 then (c.toNat, p)
    else if c &&& 0xE0 = 0xC0 then utf8Tail 1 (c &&& 0x1F).toNat p
    else if c &&& 0xF0 = 0xE0 then utf8Tail 2 (c &&& 0x0F).toNat p
    else if c &&& 0xF8 = 0xF0 then utf8Tail 3 (c &&& 0x07).toNat p
    else (c.toNat, p)

def utf8Encode (cp : ℕ) : Text :=
  if cp ≤ 0x7F then [UInt8.ofNat cp]
  else if cp ≤ 0x7FF then [UInt8.ofNat (0xC0 ||| cp >>> 6), UInt8.ofNat (0x80 ||| (cp &&& 0x3F))]
  else if cp ≤ 0xFFFF then
    [UInt8.ofNat (0xE0 ||| cp >>> 12), UInt8.ofNat (0x80 ||| ((cp >>> 6) &&& 0x3F)),
      UInt8.ofNat (0x80 ||| (cp &&& 0x3F))]
  else if cp ≤ 0x10FFFF then
    [UInt8.ofNat (0xF0 ||| cp >>> 18), UInt8.ofNat (0x80 ||| ((cp >>> 12) &&& 0x3F)),
      UInt8.ofNat (0x80 ||| ((cp >>> 6) &&& 0x3F)), UInt8.ofNat (0x80 ||| (cp &&& 0x3F))]
  else []

/-- `while (*cursor && current < index) wasm_utf8_decode(&cursor);` -/
def utf8Advance : ℕ → Text → Text
  | 0, cursor => cursor
  | _ + 1, [] => []
  | left + 1, c :: cursor => utf8Advance left (utf8Decode (c :: cursor)).2

def utf8ByteOffset (text : Text) (index : ℤ) : ℕ :=
  if index ≤ 0 then 0 else text.length - (utf8Advance index.toNat text).length

/-- `while (*cursor && cursor < end)`, with the bytes that are left before `end`. -/
def utf8IndexFrom : ℕ → Text → ℕ → ℕ
  | 0, _, _ => 0
  | _ + 1, [], _ => 0
  | rounds + 1, c :: cursor, left =>
    if left = 0 then 0
    else
      let next := (utf8Decode (c :: cursor)).2
      utf8IndexFrom rounds next (left - ((c :: cursor).length - next.length)) + 1

def utf8IndexAtByte (text : Text) (byteOffset : ℕ) : ℕ :=
  utf8IndexFrom text.length text byteOffset

def utf8CountFrom : ℕ → Text → ℕ
  | 0, _ => 0
  | _ + 1, [] => 0
  | rounds + 1, c :: cursor => utf8CountFrom rounds (utf8Decode (c :: cursor)).2 + 1

def stringCodePointCount (text : Text) : ℕ := utf8CountFrom text.length text

/-- `if (current++ == index) return cp;`, with what is left of `index`. -/
def utf8CodePointFrom : ℕ → Text → ℕ → ℤ
  | 0, _, _ => -1
  | _ + 1, [], _ => -1
  | rounds + 1, c :: cursor, left =>
    let (cp, next) := utf8Decode (c :: cursor)
    if left = 0 then cp else utf8CodePointFrom rounds next (left - 1)

def stringCodePointAt (text : Text) (index : ℤ) : ℤ :=
  if index < 0 then -1 else utf8CodePointFrom text.length text index.toNat

/-! ## Case -/

def stringUpperCp (cp : ℕ) : ℕ :=
  if 0x61 ≤ cp ∧ cp ≤ 0x7A then cp - 0x20
  else if 0x0430 ≤ cp ∧ cp ≤ 0x044F then cp - 32
  else if cp = 0x0451 then 0x0401 else cp

def stringLowerCp (cp : ℕ) : ℕ :=
  if 0x41 ≤ cp ∧ cp ≤ 0x5A then cp + 0x20
  else if 0x0410 ≤ cp ∧ cp ≤ 0x042F then cp + 32
  else if cp = 0x0401 then 0x0451 else cp

/-- Bytes that were written to the front of a block, and the size of the block. -/
structure Buffer where
  written : Text
  capacity : ℕ

/-- The block is taken anew, twice the size, before it would leave no room for the terminator. -/
def Buffer.append (b : Buffer) (encoded : Text) : Buffer :=
  { written := b.written ++ encoded
    capacity :=
      if b.written.length + encoded.length + 1 > b.capacity then
        (b.written.length + encoded.length + 1) * 2
      else b.capacity }

def mapCaseFrom (upper : Bool) : ℕ → Text → Buffer → Buffer
  | 0, _, result => result
  | _ + 1, [], result => result
  | rounds + 1, c :: cursor, result =>
    let (cp, next) := utf8Decode (c :: cursor)
    let cp := if upper then stringUpperCp cp else stringLowerCp cp
    mapCaseFrom upper rounds next (result.append (utf8Encode cp))

def stringMapCase (text : Text) (upper : Bool) : Buffer :=
  mapCaseFrom upper text.length text { written := [], capacity := text.length + 1 }

/-! ## Blanks -/

def stringIsSpace (value : UInt8) : Bool :=
  value == 0x20 || value == 0x09 || value == 0x0D || value == 0x0A

def stringTrimStart (text : Text) : Text := text.dropWhile stringIsSpace

/-- `while (length && wasm_string_is_space(text[length - 1])) --length;` -/
def trimmedLength (text : Text) : ℕ → ℕ
  | 0 => 0
  | length + 1 =>
    if (text[length]?).any stringIsSpace then trimmedLength text length else length + 1

def stringTrimEnd (text : Text) : Text := text.take (trimmedLength text text.length)

def stringTrim (text : Text) : Text :=
  let text := text.dropWhile stringIsSpace
  text.take (trimmedLength text text.length)

/-! ## Searching and cutting -/

/-- `for (i = 0; i + needle_length <= text_length; ++i)`, at the places that are left. -/
def findFrom (needle : Text) : ℕ → Text → Option Text
  | 0, _ => none
  | places + 1, text =>
    if text.take needle.length = needle then some text else findFrom needle places text.tail

/-- `wasm_string_find`: the text from where the needle is met on. -/
def stringFind (text needle : Text) : Option Text :=
  if needle = [] then some text
  else if needle.length > text.length then none
  else findFrom needle (text.length - needle.length + 1) text

def stringStartsWith (text pre : Text) : Bool :=
  text.length ≥ pre.length && text.take pre.length == pre

def stringEndsWith (text suf : Text) : Bool :=
  text.length ≥ suf.length && text.drop (text.length - suf.length) == suf

def stringContains (text sub : Text) : Bool := (stringFind text sub).isSome

def stringIndexOf (text sub : Text) : ℤ :=
  match stringFind text sub with
  | some found => utf8IndexAtByte text (text.length - found.length)
  | none => -1

/-- `while ((cursor = wasm_string_find(cursor, sub)) != NULL) { last = cursor; ++cursor; }` -/
def findLast (sub : Text) : ℕ → Text → Option Text → Option Text
  | 0, _, last => last
  | rounds + 1, cursor, last =>
    match stringFind cursor sub with
    | none => last
    | some found => findLast sub rounds found.tail (some found)

def stringLastIndexOf (text sub : Text) : ℤ :=
  if sub = [] then -1
  else
    match findLast sub text.length text none with
    | some last => utf8IndexAtByte text (text.length - last.length)
    | none => -1

/-- The first pass of `replace`, which counts the matches. -/
def countMatches (fromText : Text) : ℕ → Text → ℕ
  | 0, _ => 0
  | rounds + 1, cursor =>
    match stringFind cursor fromText with
    | none => 0
    | some found => countMatches fromText rounds (found.drop fromText.length) + 1

/-- The bytes the answer of `replace` is allocated with. -/
def replaceRoom (text fromText toText : Text) : ℕ :=
  if fromText = [] then text.length
  else
    let matched := countMatches fromText text.length text
    if toText.length ≥ fromText.length then
      text.length + matched * (toText.length - fromText.length)
    else text.length - matched * (fromText.length - toText.length)

/-- The second pass, which writes. -/
def writeReplaced (fromText toText : Text) : ℕ → Text → Text → Text
  | 0, cursor, written => written ++ cursor
  | rounds + 1, cursor, written =>
    match stringFind cursor fromText with
    | none => written ++ cursor
    | some found =>
      let before := cursor.take (cursor.length - found.length)
      writeReplaced fromText toText rounds (found.drop fromText.length)
        (written ++ before ++ toText)

def stringReplace (text fromText toText : Text) : Text :=
  if fromText = [] then text else writeReplaced fromText toText text.length text []

def stringSubstring (text : Text) (start length : ℤ) : Text :=
  if start < 0 ∨ length ≤ 0 then []
  else
    let count : ℤ := stringCodePointCount text
    if start ≥ count then []
    else
      let remaining := count - start
      let stop := if length > remaining then count else start + length
      let startByte := utf8ByteOffset text start
      let endByte := utf8ByteOffset text stop
      (text.drop startByte).take (endByte - startByte)

/-! ## Numbers -/

/-- The loop over the digits, with whether one was found; it ends the call where the number is
over the limit. -/
def magnitudeFrom (limit : ℕ) : Text → ℕ → Bool → Option (ℕ × Bool)
  | [], magnitude, found => some (magnitude, found)
  | c :: text, magnitude, found =>
    if isdigit c then
      let magnitude := magnitude * 10 + (c.toNat - 0x30)
      if magnitude > limit then none else magnitudeFrom limit text magnitude true
    else some (magnitude, found)

def stringParseInt (text : Text) : ℤ :=
  let (negative, rest) := readSign (text.dropWhile stringIsSpace)
  let limit := if negative then 2147483648 else 2147483647
  match magnitudeFrom limit rest 0 false with
  | none => 0
  | some (magnitude, found) =>
    if !found then 0
    else if negative then Int.bmod (-magnitude) (2 ^ 32) -- the difference is taken modulo 2³²
    else magnitude

/-! ## Builders -/

/-- The digits of a magnitude, the last one first. -/
def i64Reverse : ℕ → ℕ → Text
  | 0, _ => []
  | rounds + 1, magnitude =>
    UInt8.ofNat (0x30 + magnitude % 10) ::
      if magnitude / 10 = 0 then [] else i64Reverse rounds (magnitude / 10)

/-- The places of `char reverse[32]`. -/
def i64Places : ℕ := 32

/-- The magnitude is taken of `value + 1`, as the smallest number has no negative. -/
def i64Text (value : Int64) : Text :=
  let magnitude : UInt64 :=
    if value < 0 then (-(value + 1)).toUInt64 + 1 else value.toUInt64
  (if value < 0 then [0x2D] else []) ++ (i64Reverse i64Places magnitude.toNat).reverse

/-- A text that grows, and the size of its block. -/
structure StringBuilder where
  data : Text := []
  capacity : ℕ := 0
deriving DecidableEq

/-- `while (capacity < required) capacity *= 2;` -/
def doubled (required : ℕ) : ℕ → ℕ → ℕ
  | 0, capacity => capacity
  | rounds + 1, capacity =>
    if capacity < required then doubled required rounds (capacity * 2) else capacity

def builderReserve (builder : StringBuilder) (required : ℕ) : StringBuilder :=
  if required ≤ builder.capacity then builder
  else
    let capacity := if builder.capacity = 0 then 32 else builder.capacity
    { builder with capacity := doubled required required capacity }

def builderAppendBytes (builder : StringBuilder) (text : Text) : StringBuilder :=
  let builder := builderReserve builder (builder.data.length + text.length + 1)
  { builder with data := builder.data ++ text }

def stringBuilderCreate : StringBuilder := builderReserve {} 1

inductive BuilderCall where
  | append (text : Text)
  | appendChar (codePoint : ℤ)
  | appendInt (value : Int64)
  | appendBool (value : Bool)
  | clear

def BuilderCall.exec (builder : StringBuilder) : BuilderCall → StringBuilder
  | .append text => builderAppendBytes builder text
  | .appendChar codePoint =>
    if codePoint < 0 then builder else builderAppendBytes builder (utf8Encode codePoint.toNat)
  | .appendInt value => builderAppendBytes builder (i64Text value)
  | .appendBool value => builderAppendBytes builder (bytes (if value then "true" else "false"))
  | .clear => { builder with data := [] }

/-- The calls of the native runtime, on its `std::string`. -/
def BuilderCall.native (str : Text) : BuilderCall → Text
  | .append text => str ++ text
  | .appendChar codePoint => if codePoint < 0 then str else str ++ encodeUtf8 codePoint.toNat
  | .appendInt value => str ++ Uri.decimal value.toInt
  | .appendBool value => str ++ bytes (if value then "true" else "false")
  | .clear => []

/-! ## Cursors

Both decoders move by the same bytes. -/

theorem utf8Tail_cursor (n cp cp' : ℕ) (p : Text) :
    (utf8Tail n cp p).2 = (continuations n cp' p).2 := by
  induction n generalizing cp cp' p with
  | zero => rfl
  | succ n ih =>
    cases p with
    | nil => rfl
    | cons b p =>
      rw [utf8Tail, continuations]
      split_ifs
      · exact ih _ _ p
      · rfl

theorem utf8Decode_cursor (t : Text) : (utf8Decode t).2 = (decodeUtf8 t).2 := by
  cases t with
  | nil => rfl
  | cons c p =>
    rw [utf8Decode, decodeUtf8]
    split_ifs
    · rfl
    · exact utf8Tail_cursor _ _ _ p
    · exact utf8Tail_cursor _ _ _ p
    · exact utf8Tail_cursor _ _ _ p
    · rfl

theorem utf8CountFrom_eq (rounds : ℕ) (t : Text) : utf8CountFrom rounds t = countFrom rounds t := by
  induction rounds generalizing t with
  | zero => rfl
  | succ rounds ih =>
    cases t with
    | nil => rfl
    | cons c t => rw [utf8CountFrom, countFrom, utf8Decode_cursor, ih]

theorem stringCodePointCount_eq (t : Text) : stringCodePointCount t = codePointCount t :=
  utf8CountFrom_eq t.length t

theorem utf8Advance_eq (n : ℕ) (t : Text) : utf8Advance n t = skip n t := by
  induction n generalizing t with
  | zero => rfl
  | succ n ih =>
    cases t with
    | nil => rfl
    | cons c t => rw [utf8Advance, skip, utf8Decode_cursor, ih]

theorem utf8ByteOffset_eq (t : Text) (index : ℤ) :
    utf8ByteOffset t index = byteOffsetForCodePoint t index := by
  rw [utf8ByteOffset, byteOffsetForCodePoint]
  split_ifs with h
  · rw [Int.toNat_of_nonpos h, skip, Nat.sub_self]
  · rw [utf8Advance_eq]

theorem utf8IndexFrom_eq (rounds : ℕ) (t : Text) (left : ℕ) :
    utf8IndexFrom rounds t left = indexFrom rounds t left := by
  induction rounds generalizing t left with
  | zero => rfl
  | succ rounds ih =>
    cases t with
    | nil => rfl
    | cons c t =>
      rw [utf8IndexFrom, indexFrom]
      split_ifs
      · rfl
      · rw [utf8Decode_cursor]
        exact congrArg (· + 1) (ih _ _)

theorem utf8IndexAtByte_eq (t : Text) (byteOffset : ℕ) :
    utf8IndexAtByte t byteOffset = codePointIndexForByteOffset t byteOffset :=
  utf8IndexFrom_eq _ t _

theorem stringSubstring_eq (t : Text) (start length : ℤ) :
    stringSubstring t start length = substring t start length := by
  simp only [stringSubstring, substring, stringCodePointCount_eq, utf8ByteOffset_eq]

/-! ## Characters

A sequence with all its continuation bytes is read as the same number. -/

theorem utf8Tail_whole {n cp : ℕ} {p : Text}
    (h : (continuations n (cp <<< (6 * n)) p).2.length + n = p.length) :
    utf8Tail n cp p = continuations n (cp <<< (6 * n)) p := by
  induction n generalizing cp p with
  | zero => rfl
  | succ n ih =>
    cases p with
    | nil => cases h
    | cons b p =>
      rw [continuations] at h ⊢
      rw [utf8Tail]
      have hbits : cp <<< (6 * (n + 1)) ||| (b &&& 0x3F).toNat <<< (6 * n) =
          (cp <<< 6 ||| (b &&& 0x3F).toNat) <<< (6 * n) := by
        rw [Nat.shiftLeft_or_distrib, ← Nat.shiftLeft_add, Nat.mul_succ, Nat.add_comm 6]
      split_ifs at h ⊢ with hb
      · rw [hbits] at h ⊢
        refine ih ?_
        rw [List.length_cons] at h
        omega
      · rw [List.length_cons] at h
        omega

/-- The lead byte says how many bytes are behind it, and in a character they are. -/
theorem utf8Tail_read {n k cp : ℕ} {p q : Text}
    (h : continuations n (k <<< (6 * n)) p = (cp, q)) (hlen : q.length + n = p.length) :
    utf8Tail n k p = (cp, q) := by
  rw [utf8Tail_whole (by rw [h]; exact hlen), h]

theorem utf8Decode_char (c : Char) (p : Text) :
    utf8Decode (String.utf8EncodeChar c ++ p) = (c.toNat, p) := by
  have hnative := decodeUtf8_char c p
  rw [Utf8.utf8EncodeChar_eq, Utf8.bytesOf] at hnative ⊢
  generalize c.toNat = n at hnative ⊢
  by_cases hone : n ≤ 0x7F
  · have hbyte : UInt8.ofNat n < 0x80 := by
      rw [UInt8.lt_iff_toNat_lt, UInt8.toNat_ofNat']
      show n % 256 < 128
      omega
    rw [if_pos hone, List.singleton_append] at hnative ⊢
    rw [decodeUtf8, if_pos hbyte] at hnative
    rw [utf8Decode, if_pos hbyte, hnative]
  rw [if_neg hone] at hnative ⊢
  by_cases htwo : n ≤ 0x7FF
  · obtain ⟨hhigh, htag, -⟩ := lead_two (n / 64 % 32) (Nat.mod_lt _ (by omega))
    rw [if_pos htwo, List.cons_append] at hnative ⊢
    rw [decodeUtf8, if_neg hhigh, if_pos htag] at hnative
    rw [utf8Decode, if_neg hhigh, if_pos htag]
    exact utf8Tail_read hnative (by simp)
  rw [if_neg htwo] at hnative ⊢
  by_cases hthree : n ≤ 0xFFFF
  · obtain ⟨hhigh, htag, htag', -⟩ := lead_three (n / 4096 % 16) (Nat.mod_lt _ (by omega))
    rw [if_pos hthree, List.cons_append] at hnative ⊢
    rw [decodeUtf8, if_neg hhigh, if_neg htag, if_pos htag'] at hnative
    rw [utf8Decode, if_neg hhigh, if_neg htag, if_pos htag']
    exact utf8Tail_read hnative (by simp)
  · obtain ⟨hhigh, htag, htag', htag'', -⟩ :=
      lead_four (n / 262144 % 8) (Nat.mod_lt _ (by omega))
    rw [if_neg hthree, List.cons_append] at hnative ⊢
    rw [decodeUtf8, if_neg hhigh, if_neg htag, if_neg htag', if_pos htag''] at hnative
    rw [utf8Decode, if_neg hhigh, if_neg htag, if_neg htag', if_pos htag'']
    exact utf8Tail_read hnative (by simp)

/-- The fields of the native encoder are masked, which changes nothing below U+110000. -/
theorem utf8Encode_eq (cp : ℕ) : utf8Encode cp = encodeUtf8 cp := by
  have hmask (w k : ℕ) (h : cp >>> k < 2 ^ w) : cp >>> k &&& (2 ^ w - 1) = cp >>> k := by
    rw [Nat.and_two_pow_sub_one_eq_mod, Nat.mod_eq_of_lt h]
  rw [utf8Encode, encodeUtf8]
  by_cases hone : cp ≤ 0x7F
  · rw [if_pos hone, if_pos hone]
  rw [if_neg hone, if_neg hone]
  by_cases htwo : cp ≤ 0x7FF
  · have hlead := hmask 5 6 (by rw [Nat.shiftRight_eq_div_pow]; omega)
    rw [if_pos htwo, if_pos htwo, show 0x1F = 2 ^ 5 - 1 from rfl, hlead]
  rw [if_neg htwo, if_neg htwo]
  by_cases hthree : cp ≤ 0xFFFF
  · have hlead := hmask 4 12 (by rw [Nat.shiftRight_eq_div_pow]; omega)
    rw [if_pos hthree, if_pos hthree, show 0x0F = 2 ^ 4 - 1 from rfl, hlead]
  rw [if_neg hthree, if_neg hthree]
  by_cases hfour : cp ≤ 0x10FFFF
  · have hlead := hmask 3 18 (by rw [Nat.shiftRight_eq_div_pow]; omega)
    rw [if_pos hfour, if_pos hfour, show 0x07 = 2 ^ 3 - 1 from rfl, hlead]
  · rw [if_neg hfour, if_neg hfour]

/-- What a cursor reads at the first of some characters, in either runtime. -/
theorem decode_encode (c : Char) (cs : List Char) :
    ∃ e tail, Utf8.encode (c :: cs) = e :: tail ∧
      utf8Decode (e :: tail) = (c.toNat, Utf8.encode cs) ∧
      decodeUtf8 (e :: tail) = (c.toNat, Utf8.encode cs) := by
  obtain ⟨e, tail, hc⟩ := List.exists_cons_of_ne_nil (@String.utf8EncodeChar_ne_nil c)
  refine ⟨e, tail ++ Utf8.encode cs, ?_, ?_, ?_⟩
  · rw [Utf8.encode_cons, hc, List.cons_append]
  · rw [← List.cons_append, ← hc, utf8Decode_char]
  · rw [← List.cons_append, ← hc, decodeUtf8_char]

theorem utf8CodePointFrom_eq (rounds : ℕ) (cs : List Char) (left : ℕ) :
    utf8CodePointFrom rounds (Utf8.encode cs) left = codePointFrom rounds (Utf8.encode cs) left := by
  induction rounds generalizing cs left with
  | zero => rfl
  | succ rounds ih =>
    cases cs with
    | nil => rfl
    | cons c cs =>
      obtain ⟨e, tail, hcons, hwasm, hnative⟩ := decode_encode c cs
      rw [hcons, utf8CodePointFrom, codePointFrom, hwasm, hnative]
      simp only [ih]

theorem stringCodePointAt_eq {t : Text} (ht : Utf8.WellFormed t) (index : ℤ) :
    stringCodePointAt t index = codePointAt t index := by
  obtain ⟨cs, rfl⟩ := ht
  rw [stringCodePointAt, codePointAt, utf8CodePointFrom_eq]

/-- There is room for the terminator behind what was written. -/
def Buffer.Roomy (b : Buffer) : Prop := b.written.length < b.capacity

theorem Buffer.append_roomy (b : Buffer) (encoded : Text) : (b.append encoded).Roomy := by
  rw [Buffer.Roomy, Buffer.append, List.length_append]
  dsimp only
  split_ifs <;> omega

theorem mapCaseFrom_eq (upper : Bool) (rounds : ℕ) (cs : List Char) {result : Buffer}
    (hroom : result.Roomy) :
    (mapCaseFrom upper rounds (Utf8.encode cs) result).written = result.written ++
      mapCodePoints (if upper then toUpperCodePoint else toLowerCodePoint) rounds
        (Utf8.encode cs) ∧ (mapCaseFrom upper rounds (Utf8.encode cs) result).Roomy := by
  induction rounds generalizing cs result with
  | zero => exact ⟨(List.append_nil _).symm, hroom⟩
  | succ rounds ih =>
    cases cs with
    | nil => exact ⟨(List.append_nil _).symm, hroom⟩
    | cons c cs =>
      obtain ⟨e, tail, hcons, hwasm, hnative⟩ := decode_encode c cs
      have hcase : (if upper then stringUpperCp c.toNat else stringLowerCp c.toNat) =
          (if upper then toUpperCodePoint else toLowerCodePoint) c.toNat := by
        cases upper <;> rfl
      have hnext := ih cs (result.append_roomy (encodeUtf8
        ((if upper then toUpperCodePoint else toLowerCodePoint) c.toNat)))
      rw [hcons, mapCaseFrom, mapCodePoints, hwasm, hnative]
      dsimp only
      rw [hcase, utf8Encode_eq]
      refine ⟨?_, hnext.2⟩
      rw [hnext.1, Buffer.append, List.append_assoc]

theorem stringMapCase_eq {t : Text} (ht : Utf8.WellFormed t) (upper : Bool) :
    (stringMapCase t upper).written = (if upper then toUpper t else toLower t) ∧
      (stringMapCase t upper).Roomy := by
  obtain ⟨cs, rfl⟩ := ht
  have hroom : ({ written := [], capacity := (Utf8.encode cs).length + 1 } : Buffer).Roomy :=
    Nat.succ_pos _
  have hmap := mapCaseFrom_eq upper (Utf8.encode cs).length cs hroom
  refine ⟨?_, hmap.2⟩
  rw [stringMapCase, hmap.1]
  cases upper <;> rfl

/-! ## Places of a needle

The loop over the places finds the first occurrence, which is what the native functions search
for. -/

variable {d t a b r : Text}

theorem findFrom_firstAt (h : FirstAt d t a b) {places : ℕ} (hplaces : a.length < places) :
    findFrom d places t = some (d ++ b) := by
  obtain ⟨places, rfl⟩ : ∃ n, places = n + 1 := Nat.exists_eq_add_one.mpr (by omega)
  induction a generalizing t places with
  | nil => rw [findFrom, h.1, List.nil_append, List.take_left, if_pos rfl]
  | cons c a ih =>
    obtain ⟨rfl, hclear⟩ := h
    have hearly : ¬((c :: a) ++ (d ++ b)).take d.length = d := by
      intro htake
      obtain ⟨y, hy⟩ := List.prefix_iff_eq_take.mpr htake.symm
      have hle : (c :: a).length ≤ 0 := hclear.le (x := []) hy.symm
      exact Nat.not_succ_le_zero _ hle
    rw [List.length_cons] at hplaces
    obtain ⟨places, rfl⟩ : ∃ n, places = n + 1 := Nat.exists_eq_add_one.mpr (by omega)
    rw [findFrom, if_neg hearly, List.cons_append, List.tail_cons]
    exact ih ⟨rfl, hclear.of_append (a := [c])⟩ places (by omega)

theorem findFrom_none (h : ¬d <:+: t) (places : ℕ) : findFrom d places t = none := by
  induction places generalizing t with
  | zero => rfl
  | succ places ih =>
    have hhere : ¬t.take d.length = d := fun htake => h (htake ▸ List.take_prefix _ t).isInfix
    rw [findFrom, if_neg hhere]
    exact ih fun htail => h (htail.trans (List.tail_suffix t).isInfix)

theorem stringFind_firstAt (h : FirstAt d t a b) : stringFind t d = some (d ++ b) := by
  rw [stringFind]
  split_ifs with hd hlong
  · subst hd
    have ha := h.2 [] a (by simp)
    rw [List.eq_nil_of_length_eq_zero (Nat.le_zero.mp ha)] at h
    rw [h.1, List.nil_append]
  · rw [h.1, List.length_append, List.length_append] at hlong
    omega
  · exact findFrom_firstAt h (by rw [h.1, List.length_append, List.length_append]; omega)

theorem stringFind_none (h : ¬d <:+: t) : stringFind t d = none := by
  rw [stringFind]
  split_ifs with hd hlong
  · exact absurd (hd ▸ List.nil_infix) h
  · rfl
  · exact findFrom_none h _

theorem stringStartsWith_eq (t d : Text) : stringStartsWith t d = Strings.startsWith t d := by
  rw [Bool.eq_iff_iff, Strings.startsWith_iff, stringStartsWith, Bool.and_eq_true, decide_eq_true_eq,
    beq_iff_eq]
  constructor
  · rintro ⟨-, htake⟩
    exact List.prefix_iff_eq_take.mpr htake.symm
  · intro h
    exact ⟨h.length_le, (List.prefix_iff_eq_take.mp h).symm⟩

theorem stringEndsWith_eq (t d : Text) : stringEndsWith t d = Strings.endsWith t d := by
  rw [Bool.eq_iff_iff, Strings.endsWith, List.isSuffixOf_iff_suffix, stringEndsWith, Bool.and_eq_true,
    decide_eq_true_eq, beq_iff_eq]
  constructor
  · rintro ⟨-, hdrop⟩
    exact List.suffix_iff_eq_drop.mpr hdrop.symm
  · intro h
    exact ⟨h.length_le, (List.suffix_iff_eq_drop.mp h).symm⟩

theorem stringContains_eq (t d : Text) : stringContains t d = contains t d := by
  rw [stringContains, contains]
  by_cases h : d <:+: t
  · obtain ⟨a, b, hab⟩ := exists_firstAt h
    rw [stringFind_firstAt hab, dropInfix?_eq_some.mpr hab]
    rfl
  · rw [stringFind_none h, dropInfix?_eq_none.mpr h]
    rfl

theorem stringIndexOf_eq (t d : Text) : stringIndexOf t d = indexOf t d := by
  rw [stringIndexOf, indexOf]
  by_cases h : d <:+: t
  · obtain ⟨a, b, hab⟩ := exists_firstAt h
    have hplace : t.length - (d ++ b).length = a.length := by
      rw [hab.1, List.length_append, Nat.add_sub_cancel]
    rw [stringFind_firstAt hab, dropInfix?_eq_some.mpr hab]
    dsimp only
    rw [hplace, utf8IndexAtByte_eq]
  · rw [stringFind_none h, dropInfix?_eq_none.mpr h]

/-! The native search for the last place looks from the end, this one goes on from the byte
behind each place it finds. -/

theorem rfind_cons_some {pos : ℕ} (c : UInt8) (h : rfind d t = some pos) :
    rfind d (c :: t) = some (pos + 1) := by
  rw [rfind, h]

theorem rfind_append_some {pos : ℕ} (a : Text) (h : rfind d t = some pos) :
    rfind d (a ++ t) = some (a.length + pos) := by
  induction a with
  | nil => rw [List.nil_append, h, List.length_nil, Nat.zero_add]
  | cons c a ih =>
    rw [List.cons_append, rfind_cons_some c ih, List.length_cons]
    exact congrArg some (by omega)

theorem rfind_none (h : ¬d <:+: t) : rfind d t = none := by
  induction t with
  | nil =>
    have hd : d ≠ [] := fun hd => h (hd ▸ List.nil_infix)
    rw [rfind, if_neg hd]
  | cons c t ih =>
    have hhere : ¬d.isPrefixOf (c :: t) = true := fun hpre =>
      h (List.isPrefixOf_iff_prefix.mp hpre).isInfix
    rw [rfind, ih fun htail => h (htail.trans (List.suffix_cons c t).isInfix)]
    exact if_neg hhere

theorem findLast_eq (hd : d ≠ []) (rounds : ℕ) (last : Option Text)
    (hrounds : t.length ≤ rounds) :
    findLast d rounds t last =
      match rfind d t with
      | some pos => some (t.drop pos)
      | none => last := by
  induction rounds generalizing t last with
  | zero =>
    obtain rfl := List.length_eq_zero_iff.mp (Nat.le_zero.mp hrounds)
    rw [rfind, if_neg hd]
    rfl
  | succ rounds ih =>
    by_cases h : d <:+: t
    · obtain ⟨a, b, hab⟩ := exists_firstAt h
      obtain ⟨c, d', rfl⟩ := List.exists_cons_of_ne_nil hd
      obtain ⟨rfl, -⟩ := id hab
      have hshort : (d' ++ b).length ≤ rounds := by
        simp only [List.length_append, List.length_cons] at hrounds ⊢
        omega
      have hhere : (c :: d').isPrefixOf (c :: d' ++ b) = true :=
        List.isPrefixOf_iff_prefix.mpr (List.prefix_append _ b)
      rw [findLast, stringFind_firstAt hab]
      dsimp only
      rw [List.cons_append, List.tail_cons, ih _ hshort]
      cases hrest : rfind (c :: d') (d' ++ b) with
      | some pos =>
        rw [rfind_append_some a (rfind_cons_some c hrest)]
        dsimp only
        rw [List.drop_length_add_append, List.drop_succ_cons]
      | none =>
        have hplace : rfind (c :: d') (c :: (d' ++ b)) = some 0 := by
          rw [rfind, hrest]
          exact if_pos hhere
        rw [rfind_append_some a hplace, Nat.add_zero]
        dsimp only
        rw [List.drop_left]
    · rw [findLast, stringFind_none h, rfind_none h]

theorem rfind_le {pos : ℕ} (h : rfind d t = some pos) : pos ≤ t.length := by
  induction t generalizing pos with
  | nil =>
    rw [rfind] at h
    split_ifs at h
    exact (Option.some.inj h).ge
  | cons c t ih =>
    rw [rfind] at h
    cases hrest : rfind d t with
    | some rest =>
      rw [hrest] at h
      obtain rfl := Option.some.inj h
      exact Nat.succ_le_succ (ih hrest)
    | none =>
      rw [hrest] at h
      dsimp only at h
      split_ifs at h
      exact (Option.some.inj h).ge.trans (Nat.zero_le _)

theorem stringLastIndexOf_eq (t d : Text) : stringLastIndexOf t d = lastIndexOf t d := by
  rw [stringLastIndexOf, lastIndexOf]
  split_ifs with hd
  · rfl
  · rw [findLast_eq hd _ _ (Nat.le_refl _)]
    cases hfind : rfind d t with
    | none => rfl
    | some pos =>
      have hplace : t.length - (t.drop pos).length = pos := by
        have hle := rfind_le hfind
        rw [List.length_drop]
        omega
      dsimp only
      rw [hplace, utf8IndexAtByte_eq]

/-! ## Replacing

Both passes go over the pieces of the text between the matches. -/

variable {ps : List Text}

theorem countMatches_eq (hd : d ≠ []) (h : Pieces d t ps) (r : Text) {rounds : ℕ}
    (hrounds : t.length ≤ rounds) :
    (r.intercalate ps).length + countMatches d rounds t * d.length =
      t.length + countMatches d rounds t * r.length := by
  induction h generalizing rounds with
  | @last t hno =>
    have hcount : countMatches d rounds t = 0 := by
      cases rounds with
      | zero => rfl
      | succ rounds => rw [countMatches, stringFind_none hno]
    rw [hcount]
    simp [List.intercalate]
  | @cut a b ps hclear hps ih =>
    have hpos := List.length_pos_iff.mpr hd
    simp only [List.length_append] at hrounds
    obtain ⟨rounds, rfl⟩ : ∃ r, rounds = r + 1 := Nat.exists_eq_add_one.mpr (by omega)
    have hrest := ih (by omega : b.length ≤ rounds)
    rw [countMatches, stringFind_firstAt ⟨rfl, hclear⟩]
    dsimp only
    rw [List.drop_left, intercalate_cons hps.ne_nil]
    simp only [List.length_append, Nat.succ_mul]
    omega

theorem writeReplaced_eq (hd : d ≠ []) (h : Pieces d t ps) (r : Text) {rounds : ℕ}
    (hrounds : t.length ≤ rounds) (written : Text) :
    writeReplaced d r rounds t written = written ++ r.intercalate ps := by
  induction h generalizing rounds written with
  | @last t hno =>
    have hone : r.intercalate [t] = t := by simp [List.intercalate]
    cases rounds with
    | zero => rw [writeReplaced, hone]
    | succ rounds => rw [writeReplaced, stringFind_none hno, hone]
  | @cut a b ps hclear hps ih =>
    have hpos := List.length_pos_iff.mpr hd
    simp only [List.length_append] at hrounds
    obtain ⟨rounds, rfl⟩ : ∃ r, rounds = r + 1 := Nat.exists_eq_add_one.mpr (by omega)
    have hbefore : (a ++ (d ++ b)).length - (d ++ b).length = a.length := by
      rw [List.length_append, Nat.add_sub_cancel]
    rw [writeReplaced, stringFind_firstAt ⟨rfl, hclear⟩]
    dsimp only
    rw [hbefore, List.take_left, List.drop_left, ih (by omega), intercalate_cons hps.ne_nil]
    simp only [List.append_assoc]

theorem stringReplace_eq (t d r : Text) : stringReplace t d r = replace t d r := by
  rw [stringReplace, replace]
  split_ifs with hd
  · rfl
  · obtain ⟨ps, hps⟩ := exists_pieces hd t
    have hnative := replaceFrom_eq hd hps r (Nat.le_refl _) []
    rw [writeReplaced_eq hd hps r (Nat.le_refl _)]
    exact hnative.symm

/-- The first pass has made room for exactly what the second one writes. -/
theorem length_stringReplace (t d r : Text) : (stringReplace t d r).length = replaceRoom t d r := by
  rw [stringReplace, replaceRoom]
  by_cases hd : d = []
  · rw [if_pos hd, if_pos hd]
  · obtain ⟨ps, hps⟩ := exists_pieces hd t
    have hcount := countMatches_eq hd hps r (Nat.le_refl _)
    rw [if_neg hd, if_neg hd, writeReplaced_eq hd hps r (Nat.le_refl _), List.nil_append]
    dsimp only
    generalize countMatches d t.length t = matched at hcount ⊢
    split_ifs with hle
    · have hmul := Nat.mul_le_mul_left matched hle
      rw [Nat.mul_sub]
      omega
    · have hmul := Nat.mul_le_mul_left matched (Nat.le_of_not_ge hle)
      rw [Nat.mul_sub]
      omega

/-! ## Blanks at the ends -/

theorem stringIsSpace_iff (c : UInt8) : stringIsSpace c = true ↔ c ∈ blanks := by
  simp [stringIsSpace, blanks, or_assoc]

theorem findFirstNotOf_eq (t : Text) :
    (findFirstNotOf blanks t = none ∧ t.dropWhile stringIsSpace = [] ∧
      findLastNotOf blanks t = none) ∨
    ∃ start last, findFirstNotOf blanks t = some start ∧
      t.dropWhile stringIsSpace = t.drop start ∧
      findLastNotOf blanks (t.drop start) = some last ∧
      findLastNotOf blanks t = some (start + last) := by
  induction t with
  | nil => exact .inl ⟨rfl, rfl, rfl⟩
  | cons c t ih =>
    by_cases hc : c ∈ blanks
    · rw [findFirstNotOf, List.findIdx?_cons, if_neg (by simpa using hc),
        List.dropWhile_cons_of_pos ((stringIsSpace_iff c).mpr hc), findLastNotOf]
      rcases ih with ⟨hfirst, hdrop, hlast⟩ | ⟨start, last, hfirst, hdrop, hrest, hlast⟩
      · rw [findFirstNotOf] at hfirst
        rw [hfirst, hlast]
        exact .inl ⟨rfl, hdrop, if_neg (by simpa using hc)⟩
      · rw [findFirstNotOf] at hfirst
        rw [hfirst, hlast]
        exact .inr ⟨start + 1, last, rfl, hdrop, hrest, congrArg some (by omega)⟩
    · have hspace : ¬stringIsSpace c = true := fun h => hc ((stringIsSpace_iff c).mp h)
      have hsome : ∃ last, findLastNotOf blanks (c :: t) = some last := by
        rw [findLastNotOf]
        cases findLastNotOf blanks t with
        | none => exact ⟨0, if_pos hc⟩
        | some pos => exact ⟨pos + 1, rfl⟩
      obtain ⟨last, hlast⟩ := hsome
      rw [findFirstNotOf, List.findIdx?_cons, if_pos (by simpa using hc),
        List.dropWhile_cons_of_neg hspace]
      exact .inr ⟨0, last, rfl, rfl, hlast, by rw [hlast, Nat.zero_add]⟩

theorem findLastNotOf_concat (set : Text) (c : UInt8) (t : Text) :
    findLastNotOf set (t ++ [c]) = if c ∉ set then some t.length else findLastNotOf set t := by
  induction t with
  | nil =>
    rw [List.nil_append, findLastNotOf, findLastNotOf]
    rfl
  | cons e t ih =>
    rw [List.cons_append, findLastNotOf, ih, findLastNotOf]
    split_ifs <;> rfl

/-- The loop that shortens a text comes to the last byte that is no blank. -/
theorem trimmedLength_eq (t : Text) {n : ℕ} (hn : n ≤ t.length) :
    trimmedLength t n =
      match findLastNotOf blanks (t.take n) with
      | some pos => pos + 1
      | none => 0 := by
  induction n with
  | zero => rfl
  | succ n ih =>
    rw [trimmedLength, List.getElem?_eq_getElem hn, ih (by omega), List.take_add_one,
      List.getElem?_eq_getElem hn, Option.toList_some, findLastNotOf_concat, Option.any_some,
      List.length_take, Nat.min_eq_left (by omega)]
    by_cases hc : t[n] ∈ blanks
    · rw [if_pos ((stringIsSpace_iff _).mpr hc), if_neg (not_not_intro hc)]
    · rw [if_neg (fun h => hc ((stringIsSpace_iff _).mp h)), if_pos hc]

theorem stringTrimStart_eq (t : Text) : stringTrimStart t = trimStart t := by
  rw [stringTrimStart, trimStart]
  rcases findFirstNotOf_eq t with ⟨hfirst, hdrop, -⟩ | ⟨start, last, hfirst, hdrop, -, -⟩
  · rw [hfirst, hdrop]
  · rw [hfirst, hdrop]

theorem stringTrimEnd_eq (t : Text) : stringTrimEnd t = trimEnd t := by
  rw [stringTrimEnd, trimEnd, trimmedLength_eq t (Nat.le_refl _), List.take_length]
  cases findLastNotOf blanks t <;> rfl

theorem stringTrim_eq (t : Text) : stringTrim t = trim t := by
  rw [stringTrim, trim, trimmedLength_eq _ (Nat.le_refl _), List.take_length]
  rcases findFirstNotOf_eq t with ⟨hfirst, hdrop, -⟩ | ⟨start, last, hfirst, hdrop, hrest, hlast⟩
  · rw [hfirst, hdrop]
    rfl
  · rw [hfirst, hdrop, hrest, hlast]
    dsimp only
    rw [Nat.add_sub_cancel_left]

/-! ## Reading a number

The blanks of the C locale are two more, and the loop over the digits leaves as soon as the
number is over the limit. -/

theorem isspace_of_stringIsSpace {c : UInt8} (h : stringIsSpace c = true) : isspace c = true := by
  rw [stringIsSpace_iff, blanks] at h
  simp only [List.mem_cons, List.not_mem_nil, or_false] at h
  rcases h with rfl | rfl | rfl | rfl <;> rfl

/-- The blanks in front are the same, or this runtime stops at one that begins no number. -/
theorem dropWhile_blanks (t : Text) :
    if (t.takeWhile isspace).all stringIsSpace then
      t.dropWhile stringIsSpace = t.dropWhile isspace
    else ∃ c rest, t.dropWhile stringIsSpace = c :: rest ∧ isspace c = true := by
  induction t with
  | nil => rfl
  | cons c t ih =>
    by_cases hspace : isspace c = true
    · by_cases hblank : stringIsSpace c = true
      · rwa [List.takeWhile_cons_of_pos hspace, List.all_cons, hblank, Bool.true_and,
          List.dropWhile_cons_of_pos hblank, List.dropWhile_cons_of_pos hspace]
      · rw [List.takeWhile_cons_of_pos hspace, List.all_cons,
          if_neg (by rw [Bool.and_eq_true]; exact fun h => hblank h.1),
          List.dropWhile_cons_of_neg hblank]
        exact ⟨c, t, rfl, hspace⟩
    · have hblank : ¬stringIsSpace c = true := fun h => hspace (isspace_of_stringIsSpace h)
      rw [List.takeWhile_cons_of_neg hspace, List.dropWhile_cons_of_neg hblank,
        List.dropWhile_cons_of_neg hspace]
      rfl

theorem readSign_isspace {c : UInt8} (h : isspace c = true) (rest : Text) :
    readSign (c :: rest) = (false, c :: rest) ∧ isdigit c = false := by
  have hminus : c ≠ 0x2D := by
    rintro rfl
    exact absurd h (by decide)
  have hplus : c ≠ 0x2B := by
    rintro rfl
    exact absurd h (by decide)
  have hdigit : ¬isdigit c = true := by
    intro hdigit
    simp only [isdigit, Bool.and_eq_true, decide_eq_true_eq, UInt8.le_iff_toNat_le] at hdigit
    simp only [isspace, Bool.or_eq_true, Bool.and_eq_true, decide_eq_true_eq,
      UInt8.le_iff_toNat_le, ← UInt8.toNat_inj] at h
    simp only [UInt8.reduceToNat] at h hdigit
    omega
  rw [readSign, if_neg hminus, if_neg hplus]
  exact ⟨rfl, Bool.eq_false_iff.mpr hdigit⟩

theorem le_digits (digits : Text) (n : ℕ) :
    n ≤ digits.foldl (fun n c => 10 * n + (c.toNat - 0x30)) n := by
  induction digits generalizing n with
  | nil => exact Nat.le_refl n
  | cons c digits ih => exact (by omega : n ≤ 10 * n + (c.toNat - 0x30)).trans (ih _)

theorem magnitudeFrom_eq {limit n : ℕ} (t : Text) (found : Bool) (hn : n ≤ limit) :
    magnitudeFrom limit t n found =
      let value := (t.takeWhile isdigit).foldl (fun n c => 10 * n + (c.toNat - 0x30)) n
      if value ≤ limit then some (value, found || t.takeWhile isdigit != []) else none := by
  induction t generalizing n found with
  | nil =>
    rw [magnitudeFrom, List.takeWhile_nil]
    dsimp only [List.foldl_nil]
    rw [if_pos hn, bne_self_eq_false, Bool.or_false]
  | cons c t ih =>
    rw [magnitudeFrom]
    by_cases hc : isdigit c = true
    · rw [if_pos hc, List.takeWhile_cons_of_pos hc, List.foldl_cons]
      dsimp only
      rw [Nat.mul_comm n 10]
      split_ifs with hover hle hle
      · have hgrow := le_digits (t.takeWhile isdigit) (10 * n + (c.toNat - 0x30))
        omega
      · rfl
      · rw [ih _ (by omega)]
        dsimp only
        rw [if_pos hle]
        simp
      · rw [ih _ (by omega)]
        dsimp only
        rw [if_neg hle]
    · rw [if_neg hc, List.takeWhile_cons_of_neg hc]
      dsimp only [List.foldl_nil]
      rw [if_pos hn, bne_self_eq_false, Bool.or_false]

theorem stringParseInt_eq (t : Text) :
    stringParseInt t = if (t.takeWhile isspace).all stringIsSpace then parseInt t else 0 := by
  have hblanks := dropWhile_blanks t
  rw [stringParseInt]
  split_ifs at hblanks ⊢ with hall
  · rw [hblanks, parseInt]
    rcases readSign (t.dropWhile isspace) with ⟨negative, rest⟩
    dsimp only
    rw [magnitudeFrom_eq rest false (Nat.zero_le _)]
    dsimp only
    rw [Bool.false_or, ← digitsValue]
    by_cases hdigits : rest.takeWhile isdigit = []
    · rw [if_pos hdigits, hdigits]
      cases negative <;> rfl
    rw [if_neg hdigits]
    have hfound : (rest.takeWhile isdigit != []) = true := bne_iff_ne.mpr hdigits
    rw [hfound]
    generalize digitsValue (rest.takeWhile isdigit) = value
    cases negative with
    | true =>
      by_cases hle : value ≤ 2147483648
      · have hmod : Int.bmod (-(value : ℤ)) (2 ^ 32) = -value := by
          rw [Int.bmod_def]
          omega
        rw [if_pos rfl, if_pos hle, if_pos rfl, if_pos (by omega)]
        exact hmod
      · rw [if_pos rfl, if_neg hle, if_pos rfl, if_neg (by omega)]
    | false =>
      rw [if_neg Bool.false_ne_true, if_neg Bool.false_ne_true]
      by_cases hle : value ≤ 2147483647
      · rw [if_pos hle, if_pos (by omega)]
        rfl
      · rw [if_neg hle, if_neg (by omega)]
  · obtain ⟨c, rest, hrest, hspace⟩ := hblanks
    obtain ⟨hsign, hdigit⟩ := readSign_isspace hspace rest
    rw [hrest, hsign]
    dsimp only
    rw [magnitudeFrom, hdigit]
    rfl

/-! ## Builders in use -/

theorem i64Reverse_eq {rounds n : ℕ} (hpos : 0 < n) (hrounds : n < 10 ^ rounds) :
    i64Reverse rounds n = (Nat.digits 10 n).map fun d => UInt8.ofNat (0x30 + d) := by
  induction rounds generalizing n with
  | zero => omega
  | succ rounds ih =>
    rw [i64Reverse, Nat.digits_def' (by omega) hpos, List.map_cons]
    split_ifs with hlast
    · rw [hlast, Nat.digits_zero, List.map_nil]
    · rw [ih (by omega) (by rw [Nat.pow_succ] at hrounds; omega)]

/-- The two readings of the 64 bits. -/
theorem int64_cases (value : Int64) :
    value.toUInt64.toNat < 2 ^ 63 ∧ value.toInt = value.toUInt64.toNat ∨
      2 ^ 63 ≤ value.toUInt64.toNat ∧ value.toInt = (value.toUInt64.toNat : ℤ) - 2 ^ 64 := by
  have hread : value.toInt = if 2 * value.toUInt64.toNat < 2 ^ 64
      then (value.toUInt64.toNat : ℤ) else value.toUInt64.toNat - (2 ^ 64 : ℕ) :=
    BitVec.toInt_eq_toNat_cond value.toBitVec
  split_ifs at hread <;> omega

theorem i64Text_eq (value : Int64) : i64Text value = Uri.decimal value.toInt := by
  have hcases := int64_cases value
  have hlt := value.toUInt64.toNat_lt
  have hneg : value < 0 ↔ value.toInt < 0 := Int64.lt_iff_toInt_lt
  have hmagnitude : (if value < 0 then (-(value + 1)).toUInt64 + 1 else value.toUInt64).toNat =
      value.toInt.natAbs := by
    split_ifs with h
    · have hback : (-(value + 1)).toUInt64 + 1 = -value.toUInt64 := by
        rw [Int64.toUInt64_neg, Int64.toUInt64_add, UInt64.neg_add, UInt64.sub_eq_add_neg,
          UInt64.add_assoc]
        exact UInt64.add_zero _
      rw [hneg] at h
      rw [hback, UInt64.toNat_neg, show UInt64.size = 2 ^ 64 from rfl]
      omega
    · rw [hneg] at h
      omega
  have hdigits : (i64Reverse i64Places value.toInt.natAbs).reverse =
      if value.toInt = 0 then [0x30]
      else (Nat.digits 10 value.toInt.natAbs).reverse.map fun d => UInt8.ofNat (0x30 + d) := by
    split_ifs with hzero
    · rw [hzero]
      rfl
    · rw [i64Reverse_eq (by omega) (by rw [i64Places]; omega), List.map_reverse]
  rw [i64Text, Uri.decimal, hmagnitude, hdigits]
  simp only [hneg]
  split_ifs <;> rfl

theorem doubled_ge {required : ℕ} (rounds : ℕ) {capacity : ℕ} (hpos : 0 < capacity)
    (h : required ≤ capacity + rounds) : required ≤ doubled required rounds capacity := by
  induction rounds generalizing capacity with
  | zero => exact h
  | succ rounds ih =>
    rw [doubled]
    split_ifs with hless
    · exact ih (by omega) (by omega)
    · omega

theorem le_builderReserve (builder : StringBuilder) (required : ℕ) :
    required ≤ (builderReserve builder required).capacity := by
  rw [builderReserve]
  by_cases hfits : required ≤ builder.capacity
  · rwa [if_pos hfits]
  · rw [if_neg hfits]
    refine doubled_ge required ?_ (by omega)
    split_ifs <;> omega

theorem builderReserve_data (builder : StringBuilder) (required : ℕ) :
    (builderReserve builder required).data = builder.data := by
  rw [builderReserve]
  split_ifs <;> rfl

/-- The text is the native one, and the block has room for its terminator. -/
def StringBuilder.Holds (builder : StringBuilder) (str : Text) : Prop :=
  builder.data = str ∧ builder.data.length < builder.capacity

theorem StringBuilder.Holds.append {builder : StringBuilder} {str : Text} (h : builder.Holds str)
    (text : Text) : (builderAppendBytes builder text).Holds (str ++ text) := by
  have hroom := le_builderReserve builder (builder.data.length + text.length + 1)
  refine ⟨by rw [builderAppendBytes, builderReserve_data, h.1], ?_⟩
  rw [builderAppendBytes]
  dsimp only
  rw [builderReserve_data, List.length_append]
  omega

theorem StringBuilder.Holds.exec {builder : StringBuilder} {str : Text} (h : builder.Holds str)
    (call : BuilderCall) : (call.exec builder).Holds (call.native str) := by
  cases call with
  | append text => exact h.append text
  | appendChar codePoint =>
    rw [BuilderCall.exec, BuilderCall.native]
    split_ifs
    · exact h
    · rw [utf8Encode_eq]
      exact h.append _
  | appendInt value =>
    rw [BuilderCall.exec, BuilderCall.native, i64Text_eq]
    exact h.append _
  | appendBool value => exact h.append _
  | clear => exact ⟨rfl, Nat.lt_of_le_of_lt (Nat.zero_le _) h.2⟩

/-! ## The two runtimes -/

end Wasm

end Absolute
