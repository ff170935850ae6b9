import Absolute.LibOccurrence
import Absolute.LibUtf8

/-!
# Texts of the standard library

The string functions of the runtime and the part of `std.text` that is over them. A text is
its bytes before the terminator, and a cursor into it is what is left of the text there.
Positions and lengths are in code points.

The functions take any bytes. On a well-formed text a cursor moves by one character
(`decodeUtf8_char`). Positions and lengths come to where a text is cut if a cursor stops there
(`Stops`), as it does before and behind a character: `substring_between` and `indexOf_firstAt`
are what the rest of the library is proved with.
-/

namespace Absolute

namespace Strings

abbrev Text := List UInt8

/-- The bytes of a literal of the source. -/
def bytes (s : String) : Text := s.toList.map fun c => UInt8.ofNat c.toNat

/-! ## Code points -/

/-- Up to so many continuation bytes, of six bits each. -/
def continuations : ℕ → ℕ → Text → ℕ × Text
  | 0, cp, ptr => (cp, ptr)
  | _ + 1, cp, [] => (cp, [])
  | n + 1, cp, b :: ptr =>
    if b &&& 0xC0 = 0x80 then continuations n (cp ||| (b &&& 0x3F).toNat <<< (6 * n)) ptr
    else (cp, b :: ptr)

/-- The code point at a cursor and the cursor after it. -/
def decodeUtf8 : Text → ℕ × Text
  | [] => (0, [])
  | c :: ptr =>
    if c < 0x80 then (c.toNat, ptr)
    else if c &&& 0xE0 = 0xC0 then continuations 1 ((c &&& 0x1F).toNat <<< 6) ptr
    else if c &&& 0xF0 = 0xE0 then continuations 2 ((c &&& 0x0F).toNat <<< 12) ptr
    else if c &&& 0xF8 = 0xF0 then continuations 3 ((c &&& 0x07).toNat <<< 18) ptr
    else (c.toNat, ptr)

def encodeUtf8 (cp : ℕ) : Text :=
  if cp ≤ 0x7F then [UInt8.ofNat cp]
  else if cp ≤ 0x7FF then
    [UInt8.ofNat (0xC0 ||| ((cp >>> 6) &&& 0x1F)), UInt8.ofNat (0x80 ||| (cp &&& 0x3F))]
  else if cp ≤ 0xFFFF then
    [UInt8.ofNat (0xE0 ||| ((cp >>> 12) &&& 0x0F)),
      UInt8.ofNat (0x80 ||| ((cp >>> 6) &&& 0x3F)), UInt8.ofNat (0x80 ||| (cp &&& 0x3F))]
  else if cp ≤ 0x10FFFF then
    [UInt8.ofNat (0xF0 ||| ((cp >>> 18) &&& 0x07)),
      UInt8.ofNat (0x80 ||| ((cp >>> 12) &&& 0x3F)),
      UInt8.ofNat (0x80 ||| ((cp >>> 6) &&& 0x3F)), UInt8.ofNat (0x80 ||| (cp &&& 0x3F))]
  else []

/-- `while (*p) { DecodeUtf8(p); count++; }` -/
def countFrom : ℕ → Text → ℕ
  | 0, _ => 0
  | _ + 1, [] => 0
  | rounds + 1, c :: p => countFrom rounds (decodeUtf8 (c :: p)).2 + 1

def codePointCount (text : Text) : ℕ := countFrom text.length text

/-- The cursor after so many code points. -/
def skip : ℕ → Text → Text
  | 0, cursor => cursor
  | _ + 1, [] => []
  | index + 1, c :: cursor => skip index (decodeUtf8 (c :: cursor)).2

def byteOffsetForCodePoint (text : Text) (index : ℤ) : ℕ :=
  text.length - (skip index.toNat text).length

/-- `while (*cursor && cursor < end) { DecodeUtf8(cursor); ++index; }`, with the bytes that
are left before `end`. -/
def indexFrom : ℕ → Text → ℕ → ℕ
  | 0, _, _ => 0
  | _ + 1, [], _ => 0
  | rounds + 1, c :: cursor, left =>
    if left = 0 then 0
    else
      let next := (decodeUtf8 (c :: cursor)).2
      indexFrom rounds next (left - ((c :: cursor).length - next.length)) + 1

def codePointIndexForByteOffset (text : Text) (byteOffset : ℕ) : ℕ :=
  indexFrom text.length text byteOffset

def byteCount (text : Text) : ℕ := text.length

/-! ## Characters

What the functions above do on an encoded character. -/

theorem lead_two : ∀ k < 32, ¬UInt8.ofNat (k + 0xC0) < 0x80 ∧
    UInt8.ofNat (k + 0xC0) &&& 0xE0 = 0xC0 ∧ (UInt8.ofNat (k + 0xC0) &&& 0x1F).toNat = k := by
  decide

theorem lead_three : ∀ k < 16, ¬UInt8.ofNat (k + 0xE0) < 0x80 ∧
    ¬UInt8.ofNat (k + 0xE0) &&& 0xE0 = 0xC0 ∧ UInt8.ofNat (k + 0xE0) &&& 0xF0 = 0xE0 ∧
    (UInt8.ofNat (k + 0xE0) &&& 0x0F).toNat = k := by
  decide

theorem lead_four : ∀ k < 8, ¬UInt8.ofNat (k + 0xF0) < 0x80 ∧
    ¬UInt8.ofNat (k + 0xF0) &&& 0xE0 = 0xC0 ∧ ¬UInt8.ofNat (k + 0xF0) &&& 0xF0 = 0xE0 ∧
    UInt8.ofNat (k + 0xF0) &&& 0xF8 = 0xF0 ∧ (UInt8.ofNat (k + 0xF0) &&& 0x07).toNat = k := by
  decide

theorem continuation_bits : ∀ k < 64, UInt8.ofNat (k + 0x80) &&& 0xC0 = 0x80 ∧
    (UInt8.ofNat (k + 0x80) &&& 0x3F).toNat = k := by
  decide

/-- A continuation byte puts its six bits behind those that were read. -/
theorem continuations_cons {m : ℕ} (n k : ℕ) (hm : m < 64) (ptr : Text) :
    continuations (n + 1) (k <<< (6 * n + 6)) (UInt8.ofNat (m + 0x80) :: ptr) =
      continuations n ((64 * k + m) <<< (6 * n)) ptr := by
  obtain ⟨htag, hbits⟩ := continuation_bits m hm
  have hshift : k <<< (6 * n + 6) = (64 * k) <<< (6 * n) := by
    rw [Nat.add_comm, Nat.shiftLeft_add, Nat.shiftLeft_eq k 6, Nat.mul_comm k]
  have hor : 64 * k ||| m = 64 * k + m := by
    rw [Utf8.or_eq_add (w := 64) 6 k rfl rfl hm, Nat.add_comm]
  rw [continuations, if_pos htag, hbits, hshift, ← Nat.shiftLeft_or_distrib, hor]

/-- A cursor at a character moves behind it. -/
theorem decodeUtf8_char (c : Char) (ptr : Text) :
    decodeUtf8 (String.utf8EncodeChar c ++ ptr) = (c.toNat, ptr) := by
  have hrange := Utf8.toNat_range c
  rw [Utf8.utf8EncodeChar_eq]
  generalize c.toNat = n at hrange
  have hbits (k : ℕ) : n / k % 64 < 64 := Nat.mod_lt _ (by omega)
  have hlast : n % 64 < 64 := Nat.mod_lt _ (by omega)
  rw [Utf8.bytesOf]
  by_cases hone : n ≤ 0x7F
  · have hbyte : UInt8.ofNat n < 0x80 := by
      rw [UInt8.lt_iff_toNat_lt, UInt8.toNat_ofNat']
      show n % 256 < 128
      omega
    rw [if_pos hone, List.singleton_append, decodeUtf8, if_pos hbyte, UInt8.toNat_ofNat',
      Nat.mod_eq_of_lt (by omega)]
  rw [if_neg hone]
  by_cases htwo : n ≤ 0x7FF
  · obtain ⟨hhigh, htag, hlead⟩ := lead_two (n / 64 % 32) (Nat.mod_lt _ (by omega))
    rw [if_pos htwo, List.cons_append, List.singleton_append, decodeUtf8, if_neg hhigh,
      if_pos htag, hlead, continuations_cons 0 _ hlast]
    exact Prod.ext (show (64 * (n / 64 % 32) + n % 64) <<< 0 = n by
      rw [Nat.shiftLeft_zero]; omega) rfl
  rw [if_neg htwo]
  by_cases hthree : n ≤ 0xFFFF
  · obtain ⟨hhigh, htag, htag', hlead⟩ := lead_three (n / 4096 % 16) (Nat.mod_lt _ (by omega))
    rw [if_pos hthree, List.cons_append, List.cons_append, List.singleton_append, decodeUtf8,
      if_neg hhigh, if_neg htag, if_pos htag', hlead, continuations_cons 1 _ (hbits 64),
      continuations_cons 0 _ hlast]
    exact Prod.ext (show (64 * (64 * (n / 4096 % 16) + n / 64 % 64) + n % 64) <<< 0 = n by
      rw [Nat.shiftLeft_zero]; omega) rfl
  · obtain ⟨hhigh, htag, htag', htag'', hlead⟩ :=
      lead_four (n / 262144 % 8) (Nat.mod_lt _ (by omega))
    rw [if_neg hthree, List.cons_append, List.cons_append, List.cons_append,
      List.singleton_append, decodeUtf8, if_neg hhigh, if_neg htag, if_neg htag',
      if_pos htag'', hlead, continuations_cons 2 _ (hbits 4096),
      continuations_cons 1 _ (hbits 64), continuations_cons 0 _ hlast]
    exact Prod.ext (show (64 * (64 * (64 * (n / 262144 % 8) + n / 4096 % 64) + n / 64 % 64) +
      n % 64) <<< 0 = n by rw [Nat.shiftLeft_zero]; omega) rfl

/-- The encoder of the runtime on the number of a character. -/
theorem encodeUtf8_char (c : Char) : encodeUtf8 c.toNat = String.utf8EncodeChar c := by
  have hrange := Utf8.toNat_range c
  rw [Utf8.utf8EncodeChar_eq, encodeUtf8, Utf8.bytesOf]
  by_cases hone : c.toNat ≤ 0x7F
  · rw [if_pos hone, if_pos hone]
  rw [if_neg hone, if_neg hone]
  by_cases htwo : c.toNat ≤ 0x7FF
  · rw [if_pos htwo, if_pos htwo, Utf8.tagged_bits (w := 32) (d := 64) 5 6 6 rfl rfl rfl rfl,
      Utf8.tagged_low (w := 64) 6 2 rfl rfl rfl]
  rw [if_neg htwo, if_neg htwo]
  by_cases hthree : c.toNat ≤ 0xFFFF
  · rw [if_pos hthree, if_pos hthree,
      Utf8.tagged_bits (w := 16) (d := 4096) 4 12 14 rfl rfl rfl rfl,
      Utf8.tagged_bits (w := 64) (d := 64) 6 6 2 rfl rfl rfl rfl,
      Utf8.tagged_low (w := 64) 6 2 rfl rfl rfl]
  · rw [if_neg hthree, if_neg hthree, if_pos (by omega),
      Utf8.tagged_bits (w := 8) (d := 262144) 3 18 30 rfl rfl rfl rfl,
      Utf8.tagged_bits (w := 64) (d := 4096) 6 12 2 rfl rfl rfl rfl,
      Utf8.tagged_bits (w := 64) (d := 64) 6 6 2 rfl rfl rfl rfl,
      Utf8.tagged_low (w := 64) 6 2 rfl rfl rfl]

/-! ## Where a cursor stops

A text may be cut anywhere, and its bytes need not be characters. What is said below of a cut
between `a` and `b` needs only that a cursor which comes over `a` stops there. -/

theorem continuations_suffix (n cp : ℕ) (ptr : Text) : (continuations n cp ptr).2 <:+ ptr := by
  induction n generalizing cp ptr with
  | zero => exact List.suffix_refl ptr
  | succ n ih =>
    rcases ptr with - | ⟨b, ptr⟩
    · exact List.suffix_refl []
    · rw [continuations]
      split_ifs
      · exact (ih _ ptr).trans (List.suffix_cons b ptr)
      · exact List.suffix_refl _

/-- A cursor moves by one byte at least. -/
theorem decodeUtf8_suffix (c : UInt8) (ptr : Text) : (decodeUtf8 (c :: ptr)).2 <:+ ptr := by
  rw [decodeUtf8]
  split_ifs
  · exact List.suffix_refl ptr
  · exact continuations_suffix _ _ ptr
  · exact continuations_suffix _ _ ptr
  · exact continuations_suffix _ _ ptr
  · exact List.suffix_refl ptr

theorem countFrom_rounds {rounds rounds' : ℕ} {p : Text} (h : p.length ≤ rounds)
    (h' : p.length ≤ rounds') : countFrom rounds p = countFrom rounds' p := by
  induction rounds generalizing rounds' p with
  | zero =>
    obtain rfl := List.length_eq_zero_iff.mp (Nat.le_zero.mp h)
    cases rounds' <;> rfl
  | succ rounds ih =>
    rcases p with - | ⟨c, p⟩
    · cases rounds' <;> rfl
    · have hle := (decodeUtf8_suffix c p).length_le
      rw [List.length_cons] at h h'
      obtain ⟨rounds', rfl⟩ : ∃ r, rounds' = r + 1 :=
        Nat.exists_eq_add_one.mpr (Nat.lt_of_lt_of_le (Nat.succ_pos _) h')
      have hrest : countFrom rounds (decodeUtf8 (c :: p)).2 = countFrom rounds' _ :=
        ih (by omega) (by omega)
      rw [countFrom, countFrom, hrest]

theorem codePointCount_nil : codePointCount [] = 0 := rfl

theorem codePointCount_cons (c : UInt8) (ptr : Text) :
    codePointCount (c :: ptr) = codePointCount (decodeUtf8 (c :: ptr)).2 + 1 := by
  have hle := (decodeUtf8_suffix c ptr).length_le
  rw [codePointCount, codePointCount, List.length_cons, countFrom,
    countFrom_rounds hle (Nat.le_refl _)]

/-- A cursor that comes over `a` stops before `b`, and has read in `a` what it reads there when
nothing follows. -/
inductive Stops : Text → Text → Prop
  | nil (b : Text) : Stops [] b
  | cons {c : UInt8} {a b q : Text} : (decodeUtf8 (c :: a)).2 = q →
      (decodeUtf8 (c :: (a ++ b))).2 = q ++ b → Stops q b → Stops (c :: a) b

variable {a b d : Text}

/-- A character is read to its end, whatever follows. -/
theorem Stops.of_wellFormed (ha : Utf8.WellFormed a) (b : Text) : Stops a b := by
  obtain ⟨cs, rfl⟩ := ha
  induction cs with
  | nil => exact .nil b
  | cons c cs ih =>
    obtain ⟨e, tail, hc⟩ := List.exists_cons_of_ne_nil (@String.utf8EncodeChar_ne_nil c)
    have hread (t : Text) : (decodeUtf8 (e :: (tail ++ t))).2 = t := by
      rw [← List.cons_append, ← hc, decodeUtf8_char]
    rw [Utf8.encode_cons, hc, List.cons_append]
    refine .cons (hread _) ?_ ih
    rw [List.append_assoc, hread]

theorem not_continuation_of_ascii {c : UInt8} (h : c.toNat ≤ 0x7F) : ¬c &&& 0xC0 = 0x80 := by
  have hbytes : ∀ n < 0x80, ¬UInt8.ofNat n &&& 0xC0 = 0x80 := by decide
  have hc := hbytes c.toNat (by omega)
  rwa [UInt8.ofNat_toNat] at hc

theorem continuations_append {n cp : ℕ}
    (h : (∃ c ∈ a.getLast?, c.toNat ≤ 0x7F) ∨ ∀ c ∈ b.head?, ¬c &&& 0xC0 = 0x80) :
    (continuations n cp (a ++ b)).2 = (continuations n cp a).2 ++ b := by
  induction n generalizing cp a with
  | zero => rfl
  | succ n ih =>
    rcases a with - | ⟨c, a⟩
    · rcases h with ⟨c, hc, -⟩ | h
      · cases hc
      · rcases b with - | ⟨c, b⟩
        · rfl
        · rw [List.nil_append, continuations.eq_def]
          dsimp only
          rw [if_neg (h c rfl)]
          rfl
    · rw [List.cons_append, continuations, continuations]
      split_ifs with hc
      · refine ih ?_
        rcases h with ⟨d, hd, hascii⟩ | h
        · rcases a with - | ⟨e, a⟩
          · cases hd
            exact absurd hc (not_continuation_of_ascii hascii)
          · exact .inl ⟨d, by rwa [List.getLast?_cons_cons] at hd, hascii⟩
        · exact .inr h
      · rfl

theorem decodeUtf8_append {c : UInt8}
    (h : (∀ d ∈ (c :: a).getLast?, d.toNat ≤ 0x7F) ∨ ∀ d ∈ b.head?, ¬d &&& 0xC0 = 0x80) :
    (decodeUtf8 (c :: (a ++ b))).2 = (decodeUtf8 (c :: a)).2 ++ b := by
  rw [decodeUtf8, decodeUtf8]
  by_cases hc : c < 0x80
  · rw [if_pos hc, if_pos hc]
  have hrest : (∃ d ∈ a.getLast?, d.toNat ≤ 0x7F) ∨ ∀ d ∈ b.head?, ¬d &&& 0xC0 = 0x80 := by
    refine h.imp_left fun hlast => ?_
    rcases a with - | ⟨e, a⟩
    · have hascii : c.toNat ≤ 0x7F := hlast c rfl
      rw [UInt8.lt_iff_toNat_lt] at hc
      exact absurd (Nat.lt_succ_of_le hascii) hc
    · exact ⟨_, List.getLast?_eq_some_getLast (List.cons_ne_nil e a),
        hlast _ (by rw [List.getLast?_cons_cons, List.getLast?_eq_some_getLast]; rfl)⟩
  rw [if_neg hc, if_neg hc]
  split_ifs
  · exact continuations_append hrest
  · exact continuations_append hrest
  · exact continuations_append hrest
  · rfl

/-- Between two bytes of which the first is of ASCII or the second begins a character. -/
theorem Stops.of_bytes
    (h : (∀ c ∈ a.getLast?, c.toNat ≤ 0x7F) ∨ ∀ c ∈ b.head?, ¬c &&& 0xC0 = 0x80) :
    Stops a b := by
  induction hn : a.length using Nat.strong_induction_on generalizing a with
  | _ n ih =>
    rcases a with - | ⟨c, a⟩
    · exact .nil b
    · subst hn
      have hsuffix := decodeUtf8_suffix c a
      refine .cons rfl (decodeUtf8_append h) (ih _ (Nat.lt_succ_of_le hsuffix.length_le) ?_ rfl)
      refine h.imp_left fun hlast d hd => hlast d ?_
      obtain ⟨p, hp⟩ := hsuffix
      rw [← hp, ← List.cons_append, List.getLast?_append, Option.mem_def.mp hd]
      rfl

/-- What follows begins with a byte of ASCII. -/
theorem Stops.of_head {c : UInt8} (a b : Text) (hc : c.toNat ≤ 0x7F) : Stops a (c :: b) := by
  refine .of_bytes (.inr fun d hd => ?_)
  obtain rfl := Option.some.inj hd
  exact not_continuation_of_ascii hc

/-- What is read ends with a byte of ASCII. -/
theorem Stops.of_last {c : UInt8} (a b : Text) (hc : c.toNat ≤ 0x7F) : Stops (a ++ [c]) b := by
  refine .of_bytes (.inl fun d hd => ?_)
  rw [List.getLast?_concat] at hd
  obtain rfl := Option.some.inj hd
  exact hc

theorem Stops.codePointCount (h : Stops a b) :
    codePointCount (a ++ b) = codePointCount a + codePointCount b := by
  induction h with
  | nil b => rw [List.nil_append, codePointCount_nil, Nat.zero_add]
  | cons hread happend _ ih =>
    rw [List.cons_append, codePointCount_cons, happend, ih, codePointCount_cons, hread]
    omega

theorem Stops.skip (h : Stops a b) : skip (Strings.codePointCount a) (a ++ b) = b := by
  induction h with
  | nil b => rfl
  | cons hread happend _ ih =>
    rw [codePointCount_cons, hread, List.cons_append, Strings.skip, happend, ih]

theorem skip_add (m n : ℕ) (t : Text) : skip (m + n) t = skip n (skip m t) := by
  induction m generalizing t with
  | zero => rw [Nat.zero_add, skip]
  | succ m ih =>
    rw [Nat.succ_add]
    rcases t with - | ⟨c, t⟩
    · rw [skip, skip]
      cases n <;> rfl
    · rw [skip, skip, ih]

theorem Stops.byteOffset (h : Stops a b) :
    byteOffsetForCodePoint (a ++ b) (Strings.codePointCount a) = a.length := by
  rw [byteOffsetForCodePoint, Int.toNat_natCast, h.skip, List.length_append, Nat.add_sub_cancel]

theorem Stops.indexFrom {rounds : ℕ} (h : Stops a b) (hrounds : (a ++ b).length ≤ rounds) :
    indexFrom rounds (a ++ b) a.length = Strings.codePointCount a := by
  induction h generalizing rounds with
  | nil b =>
    rcases rounds with - | rounds
    · rfl
    · cases b <;> rfl
  | @cons c a b q hread happend _ ih =>
    have hle : q.length ≤ a.length := hread ▸ (decodeUtf8_suffix c a).length_le
    rw [List.cons_append, List.length_cons] at hrounds
    obtain ⟨rounds, rfl⟩ : ∃ r, rounds = r + 1 :=
      Nat.exists_eq_add_one.mpr (Nat.lt_of_lt_of_le (Nat.succ_pos _) hrounds)
    rw [List.length_append] at hrounds
    have hleft : (c :: a).length - ((c :: (a ++ b)).length - (q ++ b).length) = q.length := by
      simp only [List.length_cons, List.length_append]
      omega
    rw [List.cons_append, Strings.indexFrom, if_neg (by rw [List.length_cons]; omega)]
    simp only [happend]
    rw [hleft, ih (by rw [List.length_append]; omega), codePointCount_cons, hread]

theorem Stops.codePointIndex (h : Stops a b) :
    codePointIndexForByteOffset (a ++ b) a.length = Strings.codePointCount a := by
  rw [codePointIndexForByteOffset, h.indexFrom (Nat.le_refl _)]

theorem codePointCount_pos (hne : a ≠ []) : 0 < codePointCount a := by
  obtain ⟨c, rest, rfl⟩ := List.exists_cons_of_ne_nil hne
  rw [codePointCount_cons]
  exact Nat.succ_pos _

/-! ## Searching and cutting -/

def startsWith (text pre : Text) : Bool := pre.isPrefixOf text

def endsWith (text suf : Text) : Bool := suf.isSuffixOf text

def contains (text sub : Text) : Bool := (text.dropInfix? sub).isSome

def indexOf (text sub : Text) : ℤ :=
  match text.dropInfix? sub with
  | some (before, _) => codePointIndexForByteOffset text before.length
  | none => -1

/-- The last position of a needle. -/
def rfind (needle : Text) : Text → Option ℕ
  | [] => if needle = [] then some 0 else none
  | c :: s =>
    match rfind needle s with
    | some pos => some (pos + 1)
    | none => if needle.isPrefixOf (c :: s) then some 0 else none

def lastIndexOf (text sub : Text) : ℤ :=
  if sub = [] then -1
  else
    match rfind sub text with
    | some pos => codePointIndexForByteOffset text pos
    | none => -1

/-- `while ((pos = str.find(fromStr, pos)) != npos)`, each round with one occurrence. -/
def replaceFrom (fromStr toStr : Text) : ℕ → Text → ℕ → Text
  | 0, str, _ => str
  | rounds + 1, str, pos =>
    match (str.drop pos).dropInfix? fromStr with
    | none => str
    | some (before, after) =>
      replaceFrom fromStr toStr rounds (str.take (pos + before.length) ++ (toStr ++ after))
        (pos + before.length + toStr.length)

def replace (text fromText toText : Text) : Text :=
  if fromText = [] then text else replaceFrom fromText toText text.length text 0

def substring (text : Text) (start length : ℤ) : Text :=
  if start < 0 ∨ length ≤ 0 then []
  else
    let codePoints : ℤ := codePointCount text
    if start ≥ codePoints then []
    else
      let remaining := codePoints - start
      let endIndex := if length > remaining then codePoints else start + length
      let startByte := byteOffsetForCodePoint text start
      let endByte := byteOffsetForCodePoint text endIndex
      (text.drop startByte).take (endByte - startByte)

theorem startsWith_iff {text pre : Text} : startsWith text pre = true ↔ pre <+: text :=
  List.isPrefixOf_iff_prefix

/-- What is found first in a text stands at the code point that is after those before it. -/
theorem indexOf_firstAt {t : Text} (h : Occurrence.FirstAt d t a b) (ha : Stops a (d ++ b)) :
    indexOf t d = codePointCount a := by
  rw [indexOf, Occurrence.dropInfix?_eq_some.mpr h]
  show (codePointIndexForByteOffset t a.length : ℤ) = codePointCount a
  rw [h.1, ha.codePointIndex]

theorem indexOf_none {t d : Text} (h : ¬d <:+: t) : indexOf t d = -1 := by
  rw [indexOf, Occurrence.dropInfix?_eq_none.mpr h]

/-- The part of a text between two places of it, the first of them the one a cursor has come to
after `n` code points. -/
theorem substring_of_skip {x y z : Text} {n : ℕ} (hskip : skip n (x ++ (y ++ z)) = y ++ z)
    (hcount : codePointCount (x ++ (y ++ z)) = n + codePointCount (y ++ z)) (hy : Stops y z) :
    substring (x ++ (y ++ z)) n (codePointCount y) = y := by
  by_cases hempty : y = []
  · subst hempty
    exact if_pos (.inr (Int.le_refl 0))
  have hpos := codePointCount_pos hempty
  have hstart : byteOffsetForCodePoint (x ++ (y ++ z)) n = x.length := by
    rw [byteOffsetForCodePoint, Int.toNat_natCast, hskip, List.length_append, Nat.add_sub_cancel]
  have hend : byteOffsetForCodePoint (x ++ (y ++ z)) ((n : ℤ) + codePointCount y) =
      x.length + y.length := by
    rw [byteOffsetForCodePoint, ← Int.natCast_add, Int.toNat_natCast, skip_add, hskip, hy.skip,
      ← List.append_assoc, List.length_append, Nat.add_sub_cancel, List.length_append]
  rw [hy.codePointCount] at hcount
  rw [substring, if_neg (by omega)]
  simp only [hcount]
  rw [if_neg (by omega), if_neg (by omega), hstart, hend, Nat.add_sub_cancel_left,
    List.drop_left, List.take_left]

theorem substring_between {x y z : Text} (hx : Stops x (y ++ z)) (hy : Stops y z) :
    substring (x ++ (y ++ z)) (codePointCount x) (codePointCount y) = y :=
  substring_of_skip hx.skip hx.codePointCount hy

/-- The beginning of a text. -/
theorem substring_before (ha : Stops a b) : substring (a ++ b) 0 (codePointCount a) = a :=
  substring_between (.nil (a ++ b)) ha

theorem stops_end (a : Text) : Stops a [] := by
  refine .of_bytes (.inr fun c hc => ?_)
  cases hc

/-- The whole text, as a part of it. -/
theorem substring_all (t : Text) : substring t 0 (codePointCount t) = t := by
  have hbefore := substring_before (stops_end t)
  rwa [List.append_nil] at hbefore

/-- The rest of a text from a code point on, as the callers of `substring` write it. -/
def substringFrom (text : Text) (start : ℤ) : Text :=
  substring text start (codePointCount text - start)

/-- A text cut at the first occurrence of a mark: what is before it, and what is so many code
points behind its start. -/
def cutAt (text mark : Text) (width : ℕ) : Option (Text × Text) :=
  let start := indexOf text mark
  if start ≥ 0 then some (substring text 0 start, substringFrom text (start + width)) else none

/-- The rest of a text behind a mark of the given number of code points. -/
theorem substringFrom_behind {width : ℕ} (ha : Stops a (d ++ b)) (hd : Stops d b)
    (hwidth : codePointCount d = width) :
    substringFrom (a ++ (d ++ b)) (codePointCount a + width) = b := by
  subst hwidth
  have hskip : skip (codePointCount a + codePointCount d) ((a ++ d) ++ (b ++ [])) = b ++ [] := by
    rw [List.append_nil, List.append_assoc, skip_add, ha.skip, hd.skip]
  have hcount : codePointCount ((a ++ d) ++ (b ++ [])) =
      codePointCount a + codePointCount d + codePointCount (b ++ []) := by
    rw [List.append_nil, List.append_assoc, ha.codePointCount, hd.codePointCount, Nat.add_assoc]
  have hrest := substring_of_skip hskip hcount (stops_end b)
  rw [List.append_nil, List.append_assoc] at hrest
  rw [substringFrom, ha.codePointCount, hd.codePointCount,
    show ((codePointCount a + (codePointCount d + codePointCount b) : ℕ) : ℤ) -
      (codePointCount a + codePointCount d) = codePointCount b by omega, ← Int.natCast_add, hrest]

/-- The rest of a text. -/
theorem substringFrom_append (ha : Stops a b) : substringFrom (a ++ b) (codePointCount a) = b :=
  substringFrom_behind (d := []) ha (.nil b) rfl

theorem cutAt_firstAt {t : Text} {width : ℕ} (h : Occurrence.FirstAt d t a b)
    (ha : Stops a (d ++ b)) (hd : Stops d b) (hwidth : codePointCount d = width) :
    cutAt t d width = some (a, b) := by
  rw [cutAt, indexOf_firstAt h ha]
  rw [if_pos (by omega), h.1, substring_before ha, substringFrom_behind ha hd hwidth]

/-- A mark of ASCII cuts a text wherever it stands. -/
theorem cutAt_ascii {t : Text} {width : ℕ} (h : Occurrence.FirstAt d t a b)
    (hascii : d.all (fun c => c.toNat ≤ 0x7F) = true) (hne : d ≠ [])
    (hwidth : codePointCount d = width) : cutAt t d width = some (a, b) := by
  rw [List.all_eq_true] at hascii
  refine cutAt_firstAt h (.of_bytes (.inr fun c hc => ?_)) (.of_bytes (.inl fun c hc => ?_)) hwidth
  · rw [List.head?_append_of_ne_nil d hne] at hc
    exact not_continuation_of_ascii (of_decide_eq_true (hascii c (List.mem_of_mem_head? hc)))
  · exact of_decide_eq_true (hascii c (List.mem_of_mem_getLast? hc))

/-- The mark itself belongs to what is behind it. -/
theorem cutAt_firstAt_zero {t : Text} (h : Occurrence.FirstAt d t a b) (ha : Stops a (d ++ b)) :
    cutAt t d 0 = some (a, d ++ b) := by
  rw [cutAt, indexOf_firstAt h ha]
  rw [if_pos (by omega), h.1, substring_before ha, Int.natCast_zero, Int.add_zero,
    substringFrom_append ha]

theorem cutAt_none {t d : Text} {width : ℕ} (h : ¬d <:+: t) : cutAt t d width = none := by
  rw [cutAt, indexOf_none h]
  rfl

/-- A byte as a mark: it is met, or it is no part of the text. -/
theorem mark_cases (t : Text) (c : UInt8) :
    (∃ a b, t = a ++ ([c] ++ b) ∧ Occurrence.FirstAt [c] t a b ∧ c ∉ a) ∨
      c ∉ t ∧ ¬[c] <:+: t := by
  by_cases h : [c] <:+: t
  · obtain ⟨a, b, hab⟩ := Occurrence.exists_firstAt h
    exact .inl ⟨a, b, hab.1, hab, Occurrence.clear_singleton.mp hab.2⟩
  · exact .inr ⟨fun hmem => h ((List.singleton_infix_iff _ _).mpr hmem), h⟩

theorem firstAt_mark {a b : Text} {c : UInt8} (hc : c ∉ a) :
    Occurrence.FirstAt [c] (a ++ ([c] ++ b)) a b :=
  ⟨rfl, Occurrence.clear_singleton.mpr hc⟩

theorem not_infix_mark {t : Text} {c : UInt8} (hc : c ∉ t) : ¬[c] <:+: t := fun h =>
  hc ((List.singleton_infix_iff _ _).mp h)

theorem cutAt_mark {c : UInt8} (hc : c ∉ a) (hascii : c.toNat ≤ 0x7F) :
    cutAt (a ++ ([c] ++ b)) [c] 1 = some (a, b) :=
  cutAt_firstAt (firstAt_mark hc) (.of_head a b hascii) (.of_last [] b hascii) rfl

theorem cutAt_mark_zero {c : UInt8} (hc : c ∉ a) (hascii : c.toNat ≤ 0x7F) :
    cutAt (a ++ ([c] ++ b)) [c] 0 = some (a, [c] ++ b) :=
  cutAt_firstAt_zero (firstAt_mark hc) (.of_head a b hascii)

theorem indexOf_mark {c : UInt8} (hc : c ∉ a) (hascii : c.toNat ≤ 0x7F) :
    indexOf (a ++ ([c] ++ b)) [c] = codePointCount a :=
  indexOf_firstAt (firstAt_mark hc) (.of_head a b hascii)

/-- The last place of a mark. -/
theorem rfind_mark (c : UInt8) (t : Text) :
    (∃ a b, t = a ++ ([c] ++ b) ∧ c ∉ b ∧ rfind [c] t = some a.length) ∨
      c ∉ t ∧ rfind [c] t = none := by
  induction t with
  | nil => exact .inr ⟨List.not_mem_nil, rfl⟩
  | cons d t ih =>
    rcases ih with ⟨a, b, rfl, hb, hfind⟩ | ⟨hno, hfind⟩
    · refine .inl ⟨d :: a, b, rfl, hb, ?_⟩
      rw [rfind, hfind, List.length_cons]
    · by_cases hd : d = c
      · subst hd
        refine .inl ⟨[], t, rfl, hno, ?_⟩
        rw [rfind, hfind]
        simp
      · refine .inr ⟨?_, ?_⟩
        · rw [List.mem_cons, not_or]
          exact ⟨fun h => hd h.symm, hno⟩
        · rw [rfind, hfind]
          simpa using fun h : c = d => hd h.symm

theorem lastIndexOf_cases (t : Text) {c : UInt8} (hc : c.toNat ≤ 0x7F) :
    (∃ a b, t = a ++ ([c] ++ b) ∧ c ∉ b ∧ lastIndexOf t [c] = codePointCount a) ∨
      c ∉ t ∧ lastIndexOf t [c] = -1 := by
  rcases rfind_mark c t with ⟨a, b, rfl, hno, hfind⟩ | ⟨hno, hfind⟩
  · refine .inl ⟨a, b, rfl, hno, ?_⟩
    rw [lastIndexOf, if_neg (List.cons_ne_nil _ _), hfind]
    exact congrArg _ (Stops.of_head a b hc).codePointIndex
  · refine .inr ⟨hno, ?_⟩
    rw [lastIndexOf, if_neg (List.cons_ne_nil _ _), hfind]

/-! ## Numbers -/

/-- `isspace` of the C locale. -/
def isspace (c : UInt8) : Bool := c = 0x20 || (0x09 ≤ c && c ≤ 0x0D)

def isdigit (c : UInt8) : Bool := 0x30 ≤ c && c ≤ 0x39

def digitsValue (digits : Text) : ℕ := digits.foldl (fun n c => 10 * n + (c.toNat - 0x30)) 0

/-- A sign, and what follows it. -/
def readSign : Text → Bool × Text
  | c :: rest => if c = 0x2D then (true, rest) else if c = 0x2B then (false, rest)
      else (false, c :: rest)
  | [] => (false, [])

/-- `std::stoi`, and 0 where it throws. -/
def parseInt (text : Text) : ℤ :=
  let (negative, rest) := readSign (text.dropWhile isspace)
  let digits := rest.takeWhile isdigit
  if digits = [] then 0
  else
    let value : ℤ := if negative then -digitsValue digits else digitsValue digits
    if -2 ^ 31 ≤ value ∧ value < 2 ^ 31 then value else 0

theorem parseInt_range (text : Text) : -2 ^ 31 ≤ parseInt text ∧ parseInt text < 2 ^ 31 := by
  rw [parseInt]
  rcases readSign (text.dropWhile isspace) with ⟨negative, rest⟩
  dsimp only
  split_ifs with hdigits hneg hrange hrange
  · omega
  all_goals first | exact hrange | omega

/-! ## Single code points, case and blanks -/

/-- The code point a cursor reads after `left` others, and -1 where the text ends before it. -/
def codePointFrom : ℕ → Text → ℕ → ℤ
  | 0, _, _ => -1
  | _ + 1, [], _ => -1
  | rounds + 1, c :: p, left =>
    let (cp, next) := decodeUtf8 (c :: p)
    if left = 0 then cp else codePointFrom rounds next (left - 1)

def codePointAt (text : Text) (index : ℤ) : ℤ :=
  if index < 0 then -1 else codePointFrom text.length text index.toNat

/-- ASCII, the Cyrillic letters and `ё`. -/
def toUpperCodePoint (cp : ℕ) : ℕ :=
  if 0x61 ≤ cp ∧ cp ≤ 0x7A then cp - 0x20
  else if 0x0430 ≤ cp ∧ cp ≤ 0x044F then cp - 32
  else if cp = 0x0451 then 0x0401
  else cp

def toLowerCodePoint (cp : ℕ) : ℕ :=
  if 0x41 ≤ cp ∧ cp ≤ 0x5A then cp + 0x20
  else if 0x0410 ≤ cp ∧ cp ≤ 0x042F then cp + 32
  else if cp = 0x0401 then 0x0451
  else cp

/-- `while (*p) { lastStringResult += EncodeUtf8(f(DecodeUtf8(p))); }` -/
def mapCodePoints (f : ℕ → ℕ) : ℕ → Text → Text
  | 0, _ => []
  | _ + 1, [] => []
  | rounds + 1, c :: p =>
    let (cp, next) := decodeUtf8 (c :: p)
    encodeUtf8 (f cp) ++ mapCodePoints f rounds next

def toUpper (text : Text) : Text := mapCodePoints toUpperCodePoint text.length text

def toLower (text : Text) : Text := mapCodePoints toLowerCodePoint text.length text

/-- `" \t\r\n"` -/
def blanks : Text := [0x20, 0x09, 0x0D, 0x0A]

def findFirstNotOf (set str : Text) : Option ℕ := str.findIdx? fun c => c ∉ set

def findLastNotOf (set : Text) : Text → Option ℕ
  | [] => none
  | c :: str =>
    match findLastNotOf set str with
    | some pos => some (pos + 1)
    | none => if c ∉ set then some 0 else none

def trim (text : Text) : Text :=
  match findFirstNotOf blanks text, findLastNotOf blanks text with
  | some start, some stop => (text.drop start).take (stop - start + 1)
  | _, _ => []

def trimStart (text : Text) : Text :=
  match findFirstNotOf blanks text with
  | some start => text.drop start
  | none => []

def trimEnd (text : Text) : Text :=
  match findLastNotOf blanks text with
  | some stop => text.take (stop + 1)
  | none => []

/-! ## Parts -/

inductive SplitFault where
  | emptyDelimiter
  | outOfRange
deriving DecidableEq, Repr

/-- What is left after a separator of so many code points. -/
def afterSeparator (remainder : Text) (separator : ℤ) (delimiterLength : ℕ) : Text :=
  let nextStart := separator + delimiterLength
  substringFrom remainder nextStart

/-- The first pass, which counts the parts. -/
def countParts (delimiter : Text) (delimiterLength : ℕ) : ℕ → Text → ℕ → ℕ
  | 0, _, partCount => partCount
  | rounds + 1, remainder, partCount =>
    let separator := indexOf remainder delimiter
    if separator ≥ 0 then
      countParts delimiter delimiterLength rounds
        (afterSeparator remainder separator delimiterLength) (partCount + 1)
    else partCount

/-- `result[part] = value` -/
def store (result : List Text) (part : ℕ) (value : Text) : Except SplitFault (List Text) :=
  if part < result.length then .ok (result.set part value) else .error .outOfRange

/-- The second pass, which stores them. -/
def fillParts (delimiter : Text) (delimiterLength : ℕ) :
    ℕ → Text → ℕ → List Text → Except SplitFault (List Text)
  | 0, remainder, part, result => store result part remainder
  | rounds + 1, remainder, part, result =>
    let separator := indexOf remainder delimiter
    if separator ≥ 0 then
      match store result part (substring remainder 0 separator) with
      | .error fault => .error fault
      | .ok result =>
        fillParts delimiter delimiterLength rounds
          (afterSeparator remainder separator delimiterLength) (part + 1) result
    else store result part remainder

def split (text delimiter : Text) : Except SplitFault (List Text) :=
  let delimiterLength := codePointCount delimiter
  if delimiterLength = 0 then .error .emptyDelimiter
  else
    let partCount := countParts delimiter delimiterLength text.length text 1
    fillParts delimiter delimiterLength text.length text 0 (List.replicate partCount [])

/-- The loop of `join`, over the parts that are left. -/
def joinFrom (delimiter : Text) : List Text → Text → Text
  | [], builder => builder
  | part :: parts, builder => joinFrom delimiter parts (builder ++ delimiter ++ part)

def join (parts : List Text) (delimiter : Text) : Text :=
  match parts with
  | [] => []
  | part :: parts => joinFrom delimiter parts part

end Strings

end Absolute
