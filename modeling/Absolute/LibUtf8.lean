import Mathlib.Algebra.Group.Int.Defs
import Mathlib.Algebra.Group.Nat.Defs
import Mathlib.Data.List.Basic
import Mathlib.Data.List.Infix
import Mathlib.Tactic.Common

/-!
# Texts in UTF-8

A text is the list of its bytes; it is well formed when it is the encoding
of some characters. The encoding of a character starts with a byte that
none of the others can be (`UInt8.IsUTF8FirstByte`) and is no beginning of
another one's, so a well-formed text that is cut before such a byte, or
before or after a well-formed text that is found in it, is cut between
two characters.
-/

namespace Utf8

def encode (cs : List Char) : List UInt8 := cs.flatMap String.utf8EncodeChar

def WellFormed (t : List UInt8) : Prop := ∃ cs, encode cs = t

@[simp] theorem encode_nil : encode [] = [] := rfl

@[simp] theorem encode_cons (c : Char) (cs : List Char) :
    encode (c :: cs) = String.utf8EncodeChar c ++ encode cs := rfl

@[simp] theorem encode_append (cs ds : List Char) :
    encode (cs ++ ds) = encode cs ++ encode ds := List.flatMap_append

theorem WellFormed.append {s t : List UInt8} (hs : WellFormed s) (ht : WellFormed t) :
    WellFormed (s ++ t) := by
  obtain ⟨cs, rfl⟩ := hs
  obtain ⟨ds, rfl⟩ := ht
  exact ⟨cs ++ ds, encode_append cs ds⟩

/-! ## The bytes of a code point -/

/-- The bytes of the number of a character. -/
def bytesOf (n : ℕ) : List UInt8 :=
  if n ≤ 0x7F then [UInt8.ofNat n]
  else if n ≤ 0x7FF then
    [UInt8.ofNat (n / 64 % 32 + 0xC0), UInt8.ofNat (n % 64 + 0x80)]
  else if n ≤ 0xFFFF then
    [UInt8.ofNat (n / 4096 % 16 + 0xE0), UInt8.ofNat (n / 64 % 64 + 0x80),
      UInt8.ofNat (n % 64 + 0x80)]
  else
    [UInt8.ofNat (n / 262144 % 8 + 0xF0), UInt8.ofNat (n / 4096 % 64 + 0x80),
      UInt8.ofNat (n / 64 % 64 + 0x80), UInt8.ofNat (n % 64 + 0x80)]

theorem utf8EncodeChar_eq (c : Char) : String.utf8EncodeChar c = bytesOf c.toNat := rfl

/-- The numbers of characters: no surrogates, and nothing above U+10FFFF. -/
theorem toNat_range (c : Char) :
    c.toNat < 0xD800 ∨ 0xDFFF < c.toNat ∧ c.toNat < 0x110000 := c.valid

theorem exists_char {n : ℕ} (h : n < 0xD800 ∨ 0xDFFF < n ∧ n < 0x110000) :
    ∃ c : Char, c.toNat = n := ⟨Char.ofNatAux n h, rfl⟩

theorem toNat_inj {c d : Char} (h : c.toNat = d.toNat) : c = d := by
  rw [← Char.ofNat_toNat c, ← Char.ofNat_toNat d, h]

/-- A character of ASCII is its own byte. -/
theorem bytesOf_ascii {n : ℕ} (h : n ≤ 0x7F) : bytesOf n = [UInt8.ofNat n] := if_pos h

/-! ## Fields of bits -/

theorem or_eq_add {v b w : ℕ} (i a : ℕ) (hw : 2 ^ i = w) (hv : v = w * a) (hb : b < w) :
    v ||| b = b + v := by
  subst hw
  rw [hv, ← Nat.two_pow_add_eq_or_of_lt hb, Nat.add_comm]

/-- A tag over the low bits of a number, of which there are `w`. -/
theorem tagged_low {v m n w : ℕ} (i a : ℕ) (hw : 2 ^ i = w) (hv : v = w * a) (hm : m = w - 1) :
    v ||| (n &&& m) = n % w + v := by
  have hlow : n &&& m = n % w := by rw [hm, ← hw, Nat.and_two_pow_sub_one_eq_mod]
  rw [hlow]
  exact or_eq_add i a hw hv (Nat.mod_lt _ (hw ▸ Nat.two_pow_pos i))

/-- The same over a field further up. -/
theorem tagged_bits {v m n w d : ℕ} (i k a : ℕ) (hw : 2 ^ i = w) (hd : 2 ^ k = d)
    (hv : v = w * a) (hm : m = w - 1) : v ||| ((n >>> k) &&& m) = n / d % w + v := by
  rw [tagged_low i a hw hv hm, Nat.shiftRight_eq_div_pow, ← hd]

/-- The low bits of a number put before others, of which there are `d`. -/
theorem joined_bits {m n b w d : ℕ} (i k : ℕ) (hw : 2 ^ i = w) (hd : 2 ^ k = d)
    (hm : m = w - 1) (hb : b < d) : (n &&& m) <<< k ||| b = n % w * d + b := by
  have hlow : n &&& m = n % w := by rw [hm, ← hw, Nat.and_two_pow_sub_one_eq_mod]
  subst hd
  rw [hlow, ← Nat.shiftLeft_add_eq_or_of_lt hb, Nat.shiftLeft_eq]

/-! ## First bytes -/

/-- The encoding of a character: its first byte, and others that start none. -/
theorem exists_lead (c : Char) :
    ∃ b rest, String.utf8EncodeChar c = b :: rest ∧ b.IsUTF8FirstByte ∧
      ∀ x ∈ rest, ¬x.IsUTF8FirstByte := by
  have hat (i : ℕ) (x : UInt8) (hx : (String.utf8EncodeChar c)[i]? = some x) :
      x.IsUTF8FirstByte ↔ i = 0 := by
    obtain ⟨hi, rfl⟩ := List.getElem?_eq_some_iff.mp hx
    exact UInt8.isUTF8FirstByte_getElem_utf8EncodeChar
  obtain ⟨b, rest, heq⟩ := List.exists_cons_of_ne_nil (@String.utf8EncodeChar_ne_nil c)
  rw [heq] at hat
  refine ⟨b, rest, heq, (hat 0 b rfl).mpr rfl, ?_⟩
  intro x hx
  obtain ⟨i, hi⟩ := List.mem_iff_getElem?.mp hx
  exact fun hfirst => absurd ((hat (i + 1) x hi).mp hfirst) (Nat.succ_ne_zero i)

/-- `t` is empty or starts where a character can start. -/
def Starts (t : List UInt8) : Prop := ∀ b rest, t = b :: rest → b.IsUTF8FirstByte

theorem starts_nil : Starts [] := by
  intro b rest h
  cases h

theorem starts_encode (cs : List Char) (t : List UInt8) (ht : Starts t) :
    Starts (encode cs ++ t) := by
  intro b rest h
  cases cs with
  | nil => exact ht b rest h
  | cons c cs =>
      obtain ⟨d, tail, hc, hd, -⟩ := exists_lead c
      rw [encode_cons, hc] at h
      rw [← (List.cons.inj h).1]
      exact hd

theorem WellFormed.starts {t : List UInt8} (h : WellFormed t) : Starts t := by
  obtain ⟨cs, rfl⟩ := h
  simpa using starts_encode cs [] starts_nil

/-- A text cut where a character can start is cut between characters. -/
theorem split_encode {cs : List Char} {x y : List UInt8} (h : encode cs = x ++ y)
    (hy : Starts y) : ∃ as bs, cs = as ++ bs ∧ encode as = x ∧ encode bs = y := by
  induction cs generalizing x with
  | nil =>
      obtain ⟨rfl, rfl⟩ := List.append_eq_nil_iff.mp h.symm
      exact ⟨[], [], rfl, rfl, rfl⟩
  | cons c cs ih =>
      rcases List.append_eq_append_iff.mp ((encode_cons c cs).symm.trans h) with
        ⟨z, rfl, hz⟩ | ⟨z, hz, rfl⟩
      · obtain ⟨as, bs, rfl, rfl, rfl⟩ := ih hz
        exact ⟨c :: as, bs, rfl, rfl, rfl⟩
      · rcases x with - | ⟨d, x⟩
        · exact ⟨[], c :: cs, rfl, rfl, by rw [encode_cons, hz, List.nil_append]⟩
        · rcases z with - | ⟨e, z⟩
          · refine ⟨[c], cs, rfl, ?_, rfl⟩
            rw [encode_cons, hz, encode_nil, List.append_nil, List.append_nil]
          · -- the cut would stand inside the bytes of `c`
            obtain ⟨b, rest, hc, -, hrest⟩ := exists_lead c
            rw [hc] at hz
            refine absurd (hy e (z ++ encode cs) rfl) (hrest e ?_)
            rw [(List.cons.inj hz).2]
            exact List.mem_append_right x List.mem_cons_self

theorem WellFormed.split {x y : List UInt8} (h : WellFormed (x ++ y)) (hy : Starts y) :
    WellFormed x ∧ WellFormed y := by
  obtain ⟨cs, hcs⟩ := h
  obtain ⟨as, bs, -, hx, hy⟩ := split_encode hcs hy
  exact ⟨⟨as, hx⟩, ⟨bs, hy⟩⟩

/-! ## One reading -/

/-- No encoding of a character is a beginning of another one's. -/
theorem utf8EncodeChar_append_inj {c d : Char} {x y : List UInt8}
    (h : String.utf8EncodeChar c ++ x = String.utf8EncodeChar d ++ y) : c = d ∧ x = y := by
  have hread {c : Char} {x : List UInt8} :
      (String.utf8EncodeChar c ++ x).toByteArray.utf8DecodeChar? 0 = some c := by
    rw [List.toByteArray_append]
    exact ByteArray.utf8DecodeChar?_utf8EncodeChar_append
  have hc := hread (c := c) (x := x)
  rw [h, hread] at hc
  cases hc
  exact ⟨rfl, List.append_cancel_left h⟩

/-- What is left of a well-formed text after a well-formed beginning is well formed. -/
theorem WellFormed.right {x y : List UInt8} (h : WellFormed (x ++ y)) (hx : WellFormed x) :
    WellFormed y := by
  obtain ⟨cs, rfl⟩ := hx
  induction cs with
  | nil => exact h
  | cons c cs ih =>
      obtain ⟨ds, hds⟩ := h
      cases ds with
      | nil => simp [String.utf8EncodeChar_ne_nil] at hds
      | cons d ds =>
          rw [encode_cons, encode_cons, List.append_assoc] at hds
          exact ih ⟨ds, (utf8EncodeChar_append_inj hds).2⟩

/-- A well-formed text that is found in another one stands between characters. -/
theorem WellFormed.around {a d b : List UInt8} (h : WellFormed (a ++ (d ++ b)))
    (hd : WellFormed d) (hne : d ≠ []) : WellFormed a ∧ WellFormed b := by
  have hstarts : Starts (d ++ b) := by
    intro e rest heq
    obtain ⟨f, tail, rfl⟩ := List.exists_cons_of_ne_nil hne
    rw [← (List.cons.inj heq).1]
    exact hd.starts f tail rfl
  obtain ⟨ha, hrest⟩ := h.split hstarts
  exact ⟨ha, hrest.right hd⟩

/-! ## Texts without U+0000 -/

/-- A well-formed text in which U+0000 does not occur. -/
def NulFree (t : List UInt8) : Prop := ∃ cs, encode cs = t ∧ Char.ofNat 0 ∉ cs

theorem nulFree_nil : NulFree [] := ⟨[], rfl, List.not_mem_nil⟩

theorem NulFree.wellFormed {t : List UInt8} (h : NulFree t) : WellFormed t := by
  obtain ⟨cs, hcs, -⟩ := h
  exact ⟨cs, hcs⟩

theorem ne_nul_iff {c : Char} : c ≠ Char.ofNat 0 ↔ c.toNat ≠ 0 := by
  constructor
  · intro hne hzero
    exact hne (toNat_inj hzero)
  · rintro hzero rfl
    exact hzero rfl

/-- A text that starts with a character, or with nothing. -/
theorem nulFree_cons {c : Char} {t : List UInt8} :
    NulFree (String.utf8EncodeChar c ++ t) ↔ c.toNat ≠ 0 ∧ NulFree t := by
  rw [← ne_nul_iff]
  constructor
  · rintro ⟨cs, hcs, hne⟩
    cases cs with
    | nil => simp [String.utf8EncodeChar_ne_nil] at hcs
    | cons d ds =>
        obtain ⟨rfl, hrest⟩ := utf8EncodeChar_append_inj hcs
        rw [List.mem_cons, not_or] at hne
        exact ⟨fun h => hne.1 h.symm, ds, hrest, hne.2⟩
  · rintro ⟨hc, cs, rfl, hne⟩
    refine ⟨c :: cs, rfl, ?_⟩
    rw [List.mem_cons, not_or]
    exact ⟨fun h => hc h.symm, hne⟩

theorem NulFree.cases {t : List UInt8} (h : NulFree t) :
    t = [] ∨ ∃ c u, t = String.utf8EncodeChar c ++ u ∧ c.toNat ≠ 0 ∧ NulFree u := by
  obtain ⟨cs, rfl, hne⟩ := h
  cases cs with
  | nil => exact .inl rfl
  | cons c cs =>
      have hcons := nulFree_cons.mp ⟨c :: cs, rfl, hne⟩
      exact .inr ⟨c, encode cs, rfl, hcons⟩

end Utf8
