import Absolute.RtJsonGrammar
import Mathlib.Data.Nat.Digits.Lemmas

/-!
# What is printed is parsed again

The printer escapes the strings of a tree, but not the keys of its objects. A tree of
integers, strings without NUL and the rest comes back from its text exactly if no key
has a quote, a backslash or a NUL (`Tree.round_trips_iff`).

For the converse each byte is weighed. To read a character takes at least the weight it
has where it is escaped (`ReadsString.cost_le`), so that a text from which a tree is read
weighs no less than the tree with all its keys escaped; what the printer writes weighs
less by the quotes and the backslashes in the keys (`weight_stringify`).
-/

namespace Absolute

namespace Json

/-! ## The trees -/

mutual

/-- The keys of all objects of the tree. -/
def Node.keys : Node → List Text
  | .array arrayElements => elementsKeys arrayElements
  | .object objectProperties => propertiesKeys objectProperties
  | _ => []

def elementsKeys : List Node → List Text
  | [] => []
  | element :: rest => element.keys ++ elementsKeys rest

def propertiesKeys : List (Text × Node) → List Text
  | [] => []
  | (key, value) :: rest => key :: (value.keys ++ propertiesKeys rest)

end

/-- The numbers are integers that a double has exactly, the strings are without NUL, and
the properties are in the order of the map. -/
inductive Node.Ordinary : Node → Prop
  | null : Ordinary .null
  | bool (boolValue : Bool) : Ordinary (.bool boolValue)
  | number {n : ℤ} (h : n.natAbs < 2 ^ 53) : Ordinary (.number (.ofInt n))
  | string {s : Text} (h : 0 ∉ s) : Ordinary (.string s)
  | array {arrayElements : List Node} (h : ∀ v ∈ arrayElements, Ordinary v) :
      Ordinary (.array arrayElements)
  | object {objectProperties : List (Text × Node)} (hsorted : Sorted objectProperties)
      (h : ∀ p ∈ objectProperties, Ordinary p.2) : Ordinary (.object objectProperties)

structure Tree where
  root : Node
  ordinary : root.Ordinary

def PlainKey (key : Text) : Prop := byte '"' ∉ key ∧ byte '\\' ∉ key ∧ 0 ∉ key

/-! ## The properties of an object that are assigned in their order -/

theorem assign_of_lt {key : Text} {value : Node} :
    ∀ {l : List (Text × Node)}, (∀ p ∈ l, p.1 < key) → assign key value l = l ++ [(key, value)]
  | [], _ => rfl
  | (k, v) :: l, h => by
    obtain ⟨hk, hl⟩ := List.forall_mem_cons.mp h
    have hlt : ¬key < k := List.lt_asymm hk
    have hne : key ≠ k := by
      rintro rfl
      exact hlt hk
    rw [assign, if_neg hlt, if_neg hne, assign_of_lt hl]
    rfl

theorem putAll_of_sorted {acc members : List (Text × Node)} (h : Sorted (acc ++ members)) :
    putAll acc members = acc ++ members := by
  induction members generalizing acc with
  | nil => simp [putAll]
  | cons m members ih =>
    have hlt : ∀ p ∈ acc, p.1 < m.1 := by
      rw [Sorted, List.map_append, List.pairwise_append] at h
      exact fun p hp => h.2.2 _ (List.mem_map_of_mem hp) _ List.mem_cons_self
    have hassign : assign m.1 m.2 acc = acc ++ [m] := assign_of_lt hlt
    have hrec := @ih (acc ++ [m]) (by simpa using h)
    simp only [putAll, List.foldl_cons, hassign] at hrec ⊢
    simpa using hrec

/-! ## Numbers -/

theorem digitsValue_map_reverse {ds : List ℕ} (h : ∀ d ∈ ds, d < 10) :
    digitsValue (ds.reverse.map fun d => UInt8.ofNat ('0'.toNat + d)) = Nat.ofDigits 10 ds := by
  have hdigit {d : ℕ} (hd : d < 10) : (UInt8.ofNat ('0'.toNat + d)).toNat - '0'.toNat = d := by
    have hzero : '0'.toNat = 48 := rfl
    rw [UInt8.toNat_ofNat']
    omega
  induction ds with
  | nil => rfl
  | cons d ds ih =>
    obtain ⟨hd, hds⟩ := List.forall_mem_cons.mp h
    have hrec := ih hds
    rw [digitsValue] at hrec ⊢
    rw [List.reverse_cons, List.map_append, List.foldl_append, hrec]
    simp only [List.map_cons, List.map_nil, List.foldl_cons, List.foldl_nil, hdigit hd,
      Nat.ofDigits_cons]
    exact Nat.add_comm _ _

theorem digitsValue_decimalDigits (n : ℕ) : digitsValue (decimalDigits n) = n := by
  unfold decimalDigits
  split_ifs with hn
  · rw [hn]
    rfl
  · rw [digitsValue_map_reverse fun d hd => Nat.digits_lt_base (by norm_num) hd,
      Nat.ofDigits_digits]

theorem rfcInt_decimalDigits (n : ℕ) : Rfc.Int (decimalDigits n) := by
  have hbyte {d : ℕ} (hd : d < 10) : Rfc.Digit (UInt8.ofNat ('0'.toNat + d)) := by
    interval_cases d <;> exact ⟨by decide, by decide⟩
  unfold decimalDigits
  split_ifs with hn
  · exact .inl rfl
  · right
    have hne : Nat.digits 10 n ≠ [] := Nat.digits_ne_nil_iff_ne_zero.mpr hn
    have hall : ∀ d ∈ Nat.digits 10 n, d < 10 := fun d hd => Nat.digits_lt_base (by norm_num) hd
    have hlast := Nat.getLast_digit_ne_zero 10 hn
    obtain ⟨ds, last, hds⟩ := (Nat.digits 10 n).eq_nil_or_concat'.resolve_left hne
    simp only [hds, List.getLast_append_singleton] at hlast
    rw [hds] at hall ⊢
    have hlt : last < 10 := hall last (by simp)
    refine ⟨UInt8.ofNat ('0'.toNat + last),
      ds.reverse.map fun d => UInt8.ofNat ('0'.toNat + d), by simp, ?_, ?_, ?_⟩
    · interval_cases last <;> first | omega | decide
    · interval_cases last <;> decide
    · intro c hc
      obtain ⟨d, hd, rfl⟩ := List.mem_map.mp hc
      exact hbyte (hall d (by simpa using Or.inl (List.mem_reverse.mp hd)))

/-- An integer as it is printed. -/
def integerText (i : ℤ) : NumberText :=
  ⟨if i < 0 then bytes "-" else [], decimalDigits i.natAbs, [], []⟩

theorem integerText_text (i : ℤ) : (integerText i).text = decimal i := by
  simp [integerText, NumberText.text, decimal]

theorem integerText_isRfc (i : ℤ) : (Token.number (integerText i)).IsRfc := by
  refine ⟨?_, rfcInt_decimalDigits _, .inl rfl, .inl rfl⟩
  simp only [integerText]
  split_ifs
  · exact .inr rfl
  · exact .inl rfl

theorem strtod_decimal (i : ℤ) : strtod (decimal i) = some (.ofInt i) := by
  have hscan : scanNumber (decimal i) = (integerText i, []) := by
    simpa [integerText_text] using scanNumber_of (integerText_isRfc i) endsNumber_nil
  obtain ⟨d, tail, hd, -⟩ := (rfcInt_decimalDigits i.natAbs).exists_cons
  have hne : decimalDigits i.natAbs ≠ [] := by simp [hd]
  rw [strtod, hscan]
  simp only [integerText, List.drop_nil, List.append_nil, if_neg hne, digitsValue_decimalDigits]
  simp [Binary64.ofInt, exponentValue, digitsValue, bytes]

/-! ## Strings -/

theorem readsString_escaped {src s body rest : Text} (c : UInt8)
    (h : ReadsString src s body rest) :
    ReadsString (escape c ++ src) (c :: s) (escape c ++ body) rest := by
  unfold escape
  split_ifs with hq hb hn hr ht
  · exact hq ▸ .escape (show byte '"' ≠ byte 'u' by decide) h
  · exact hb ▸ .escape (show byte '\\' ≠ byte 'u' by decide) h
  · exact hn ▸ .escape (show byte 'n' ≠ byte 'u' by decide) h
  · exact hr ▸ .escape (show byte 'r' ≠ byte 'u' by decide) h
  · exact ht ▸ .escape (show byte 't' ≠ byte 'u' by decide) h
  · exact .raw hq hb h

/-- A string comes back from its escaped form. -/
theorem readsString_escape (s rest : Text) :
    ReadsString (s.flatMap escape ++ byte '"' :: rest) s (s.flatMap escape) rest := by
  induction s with
  | nil => exact .quote rest
  | cons c s ih =>
    rw [List.flatMap_cons, List.append_assoc]
    exact readsString_escaped c ih

/-- A key comes back from itself. -/
theorem PlainKey.reads {key : Text} (h : PlainKey key) (rest : Text) :
    ReadsString (key ++ byte '"' :: rest) key key rest := by
  have hraw : ∀ b ∈ key, b ≠ byte '"' ∧ b ≠ byte '\\' := fun b hb =>
    ⟨fun heq => h.1 (heq ▸ hb), fun heq => h.2.1 (heq ▸ hb)⟩
  simpa using (ReadsString.quote rest).raws hraw

/-! ## What is printed is read -/

section Printer

variable (general : Binary64 → Text) (pretty : Bool)

theorem numberText_ofInt {n : ℤ} (h : n.natAbs < 2 ^ 53) :
    numberText general (.ofInt n) = decimal n := by
  simp only [numberText, Binary64.toInt64_ofInt h, Binary64.value_ofInt h, if_true]

/-- What the printer puts after a comma or a colon. -/
def padding : Text := if pretty then bytes " " else []

theorem whitespace_padding : Rfc.Whitespace (padding pretty) := by
  unfold padding
  split_ifs
  · exact List.forall_mem_singleton.mpr (.inl rfl)
  · exact List.forall_mem_nil _

theorem separator_eq : separator pretty = byte ',' :: padding pretty := by
  cases pretty <;> rfl

theorem endsNumber_cons {c : UInt8} (rest : Text)
    (hc : isdigit c = false ∧ c ≠ byte '.' ∧ c ≠ byte 'e' ∧ c ≠ byte 'E') :
    EndsNumber (c :: rest) :=
  endsNumber_of (List.forall_mem_nil _) hc rest

section Elements

variable (rest : Text) (idx : ℕ)

/-- What follows an element of an array. -/
def afterElement (elements : List Node) : Text :=
  stringifyElements general pretty (idx + 1) elements ++ byte ']' :: rest

theorem afterElement_cons (element : Node) (elements : List Node) :
    afterElement general pretty rest idx (element :: elements) =
      byte ',' :: (padding pretty ++ (stringifyHelper general pretty element
        ++ afterElement general pretty rest (idx + 1) elements)) := by
  simp [afterElement, stringifyElements, separator_eq]

theorem endsNumber_afterElement (elements : List Node) :
    EndsNumber (afterElement general pretty rest idx elements) := by
  cases elements with
  | nil => exact endsNumber_cons rest (c := byte ']') (by decide)
  | cons element elements =>
    rw [afterElement_cons]
    exact endsNumber_cons _ (by decide)

/-- What follows a property of an object. -/
def afterProperty (properties : List (Text × Node)) : Text :=
  stringifyProperties general pretty (idx + 1) properties ++ byte '\x7d' :: rest

/-- A key as it is printed, with what follows. -/
def keyText (key after : Text) : Text :=
  byte '"' :: (key ++ byte '"' :: byte ':' :: (padding pretty ++ after))

theorem afterProperty_cons (key : Text) (value : Node) (properties : List (Text × Node)) :
    afterProperty general pretty rest idx ((key, value) :: properties) =
      byte ',' :: (padding pretty ++ keyText pretty key (stringifyHelper general pretty value
        ++ afterProperty general pretty rest (idx + 1) properties)) := by
  simp [afterProperty, stringifyProperties, separator_eq, keyText, padding, bytes]

theorem endsNumber_afterProperty (properties : List (Text × Node)) :
    EndsNumber (afterProperty general pretty rest idx properties) := by
  cases properties with
  | nil => exact endsNumber_cons rest (c := byte '\x7d') (by decide)
  | cons property properties =>
    rw [afterProperty_cons]
    exact endsNumber_cons _ (by decide)

end Elements

mutual

theorem reads_stringify {rest : Text} (hrest : EndsNumber rest) :
    ∀ v : Node, v.Ordinary → (∀ k ∈ v.keys, PlainKey k) →
      ∃ tokens, ReadsValue (stringifyHelper general pretty v ++ rest) v tokens rest
  | .null, _, _ => ⟨_, .null rfl⟩
  | .bool boolValue, _, _ => by
    cases boolValue
    · exact ⟨_, .isFalse rfl⟩
    · exact ⟨_, .isTrue rfl⟩
  | .number d, hv, _ => by
    cases hv with
    | @number n hn =>
      have hrfc := integerText_isRfc n
      obtain ⟨c, tail, htext, hc⟩ := number_head hrfc
      have hscan := scanNumber_of hrfc hrest
      have hval := strtod_decimal n
      rw [stringifyHelper, numberText_ofInt general hn, ← integerText_text, htext]
      rw [htext] at hscan
      rw [← integerText_text] at hval
      have hskip := skipWhitespace_cons (not_whitespace_of_number hc) (tail ++ rest)
      exact ⟨_, .number hskip hc hscan hval⟩
  | .string s, _, _ => by
    have htext : stringifyHelper general pretty (.string s) ++ rest =
        byte '"' :: (s.flatMap escape ++ byte '"' :: rest) := by
      simp [stringifyHelper, bytes]
    rw [htext]
    exact ⟨_, .string (skipWhitespace_cons rfl _) (readsString_escape s rest)⟩
  | .array [], _, _ => ⟨_, .emptyArray rfl rfl⟩
  | .array (element :: elements), .array hv, hkeys => by
    obtain ⟨hv, hvs⟩ := List.forall_mem_cons.mp hv
    obtain ⟨hkey, hkeys⟩ := List.forall_mem_append.mp hkeys
    have htext : stringifyHelper general pretty (.array (element :: elements)) ++ rest =
        byte '[' :: (stringifyHelper general pretty element
          ++ afterElement general pretty rest 0 elements) := by
      simp [stringifyHelper, stringifyElements, afterElement, bytes]
    obtain ⟨tokens, hv⟩ := reads_stringify
      (endsNumber_afterElement general pretty rest 0 elements) element hv hkey
    obtain ⟨tokens, he⟩ := reads_elements rest 0 elements hvs hkeys hv
    rw [htext]
    exact ⟨_, .array (skipWhitespace_cons rfl _) he⟩
  | .object [], _, _ => ⟨_, .emptyObject rfl rfl⟩
  | .object ((key, value) :: properties), .object hsorted hv, hkeys => by
    obtain ⟨hv, hvs⟩ := List.forall_mem_cons.mp hv
    obtain ⟨hkey, hkeys⟩ := List.forall_mem_cons.mp hkeys
    obtain ⟨hvkeys, hkeys⟩ := List.forall_mem_append.mp hkeys
    have htext : stringifyHelper general pretty (.object ((key, value) :: properties)) ++ rest =
        byte '\x7b' :: keyText pretty key (stringifyHelper general pretty value
          ++ afterProperty general pretty rest 0 properties) := by
      simp [stringifyHelper, stringifyProperties, afterProperty, keyText, padding, bytes]
    obtain ⟨tokens, hv⟩ := reads_stringify
      (endsNumber_afterProperty general pretty rest 0 properties) value hv hvkeys
    obtain ⟨tokens, hm⟩ := reads_properties rest 0 properties hvs hkeys hkey hv
    rw [htext, ← List.nil_append ((key, value) :: properties), ← putAll_of_sorted hsorted]
    exact ⟨_, .object (skipWhitespace_cons rfl _) hm⟩

theorem reads_elements (rest : Text) (idx : ℕ) :
    ∀ elements : List Node, (∀ v ∈ elements, v.Ordinary) →
      (∀ k ∈ elementsKeys elements, PlainKey k) →
      ∀ {src : Text} {element : Node} {tokens : List Token},
        ReadsValue src element tokens (afterElement general pretty rest idx elements) →
        ∃ tokens, ReadsElements src (element :: elements) tokens rest
  | [], _, _, src, element, tokens, hv => ⟨_, .last hv (skipWhitespace_cons rfl _)⟩
  | next :: elements, hvs, hkeys, src, element, tokens, hv => by
    obtain ⟨hnext, hvs⟩ := List.forall_mem_cons.mp hvs
    obtain ⟨hkey, hkeys⟩ := List.forall_mem_append.mp hkeys
    obtain ⟨tokens', hnext⟩ := reads_stringify
      (endsNumber_afterElement general pretty rest (idx + 1) elements) next hnext hkey
    obtain ⟨tokens', he⟩ := reads_elements rest (idx + 1) elements hvs hkeys
      (hnext.congr (skipWhitespace_append (whitespace_padding pretty) _))
    rw [afterElement_cons] at hv
    exact ⟨_, .more hv (skipWhitespace_cons rfl _) he⟩

theorem reads_properties (rest : Text) (idx : ℕ) :
    ∀ properties : List (Text × Node), (∀ p ∈ properties, p.2.Ordinary) →
      (∀ k ∈ propertiesKeys properties, PlainKey k) →
      ∀ {key src : Text} {value : Node} {tokens : List Token}, PlainKey key →
        ReadsValue src value tokens (afterProperty general pretty rest idx properties) →
        ∃ tokens, ReadsMembers (keyText pretty key src) ((key, value) :: properties) tokens rest
  | [], _, _, key, src, value, tokens, hkey, hv =>
    ⟨_, .last (skipWhitespace_cons rfl _) (hkey.reads _) (skipWhitespace_cons rfl _)
      (hv.congr (skipWhitespace_append (whitespace_padding pretty) _))
      (skipWhitespace_cons rfl _)⟩
  | (key', value') :: properties, hvs, hkeys, key, src, value, tokens, hkey, hv => by
    obtain ⟨hvalue, hvs⟩ := List.forall_mem_cons.mp hvs
    obtain ⟨hkey', hkeys⟩ := List.forall_mem_cons.mp hkeys
    obtain ⟨hvkeys, hkeys⟩ := List.forall_mem_append.mp hkeys
    obtain ⟨tokens', hvalue⟩ := reads_stringify
      (endsNumber_afterProperty general pretty rest (idx + 1) properties) value' hvalue hvkeys
    obtain ⟨tokens', hm⟩ := reads_properties rest (idx + 1) properties hvs hkeys hkey' hvalue
    rw [afterProperty_cons] at hv
    exact ⟨_, .more (skipWhitespace_cons rfl _) (hkey.reads _) (skipWhitespace_cons rfl _)
      (hv.congr (skipWhitespace_append (whitespace_padding pretty) _))
      (skipWhitespace_cons rfl _)
      (hm.congr (skipWhitespace_append (whitespace_padding pretty) _))⟩

end

end Printer

/-! ## The weight of a text -/

/-- The bytes that a text cannot have more of when it is read than when it was printed: the
backslash, the `u` of an escape, what the printer escapes by a letter, and NUL. -/
def charWeight (c : UInt8) : ℕ :=
  if c ∈ [byte '\\', byte 'u', byte '\n', byte '\r', byte '\t', 0] then 1 else 0

/-- What the printer must escape by a backslash in front. -/
def special (c : UInt8) : ℕ := if c = byte '"' ∨ c = byte '\\' then 1 else 0

def weight (t : Text) : ℕ := (t.map charWeight).sum

def specials (t : Text) : ℕ := (t.map special).sum

@[simp] theorem weight_nil : weight [] = 0 := rfl

@[simp] theorem weight_cons (c : UInt8) (t : Text) : weight (c :: t) = charWeight c + weight t :=
  rfl

@[simp] theorem weight_append (t t' : Text) : weight (t ++ t') = weight t + weight t' := by
  simp [weight]

theorem weight_escape (c : UInt8) : weight (escape c) = charWeight c + special c := by
  unfold escape
  split_ifs with hq hb hn hr ht
  · exact hq ▸ rfl
  · exact hb ▸ rfl
  · exact hn ▸ rfl
  · exact hr ▸ rfl
  · exact ht ▸ rfl
  · rw [special, if_neg (not_or.mpr ⟨hq, hb⟩)]
    rfl

theorem weight_escape_le (c : UInt8) : weight (escape c) ≤ 2 := by
  rw [weight_escape, charWeight, special]
  split_ifs <;> omega

theorem weight_flatMap_escape (t : Text) :
    weight (t.flatMap escape) = weight t + specials t := by
  induction t with
  | nil => rfl
  | cons c t ih =>
    rw [List.flatMap_cons, weight_append, ih, weight_escape, weight_cons]
    simp only [specials, List.map_cons, List.sum_cons]
    omega

theorem specials_eq_zero {t : Text} : specials t = 0 ↔ byte '"' ∉ t ∧ byte '\\' ∉ t := by
  induction t with
  | nil => simp [specials]
  | cons c t ih =>
    have hcons : specials (c :: t) = special c + specials t := rfl
    have hspecial : special c = 0 ↔ byte '"' ≠ c ∧ byte '\\' ≠ c := by
      rw [special]
      split_ifs with h
      · exact ⟨False.elim, fun hne => h.elim (fun h => absurd h.symm hne.1)
          fun h => absurd h.symm hne.2⟩
      · exact ⟨fun _ => ⟨fun heq => h (.inl heq.symm), fun heq => h (.inr heq.symm)⟩,
          fun _ => rfl⟩
    rw [hcons, Nat.add_eq_zero_iff, ih, hspecial, List.mem_cons, List.mem_cons, not_or, not_or]
    tauto

/-! ## What it takes to read a string -/

theorem weight_escape_unescape (esc : UInt8) :
    weight (escape (unescape esc)) ≤ 1 + charWeight esc := by
  unfold unescape
  split_ifs with hb hf hn hr ht
  · exact hb ▸ by decide
  · exact hf ▸ by decide
  · exact hn ▸ by decide
  · exact hr ▸ by decide
  · exact ht ▸ by decide
  · rw [weight_escape, special]
    split_ifs <;> omega

theorem weight_escape_high {c : UInt8} (h : 0x80 ≤ c.toNat) : weight (escape c) = 0 := by
  have hne {l : UInt8} (hl : l.toNat < 0x80) : c ≠ l := by
    rintro rfl
    omega
  rw [weight_escape, charWeight, special, if_neg, if_neg]
  · exact not_or.mpr ⟨hne (by decide), hne (by decide)⟩
  · simp only [List.mem_cons, List.not_mem_nil, or_false, not_or]
    exact ⟨hne (by decide), hne (by decide), hne (by decide), hne (by decide), hne (by decide),
      hne (by decide)⟩

theorem weight_flatMap_escape_high {t : Text} (h : ∀ c ∈ t, 0x80 ≤ c.toNat) :
    weight (t.flatMap escape) = 0 := by
  induction t with
  | nil => rfl
  | cons c t ih =>
    obtain ⟨hc, ht⟩ := List.forall_mem_cons.mp h
    rw [List.flatMap_cons, weight_append, weight_escape_high hc, ih ht]

theorem high_or {a z m : ℕ} (ha : 0x80 ≤ a) (ha' : a < 2 ^ 8) (hm : m < 2 ^ 8) :
    0x80 ≤ (UInt8.ofNat (a ||| (z &&& m))).toNat := by
  rw [UInt8.toNat_ofNat', Nat.mod_eq_of_lt (Nat.or_lt_two_pow ha' (Nat.and_lt_two_pow z hm))]
  exact ha.trans Nat.left_le_or

theorem weight_encodeCode (code : ℕ) : weight ((encodeCode code).flatMap escape) ≤ 2 := by
  have hhigh {a z m : ℕ} (ha : 0x80 ≤ a ∧ a < 2 ^ 8) (hm : m < 2 ^ 8) :
      0x80 ≤ (UInt8.ofNat (a ||| (z &&& m))).toNat := high_or ha.1 ha.2 hm
  unfold encodeCode
  split_ifs
  · simpa using weight_escape_le _
  · rw [weight_flatMap_escape_high]
    · exact Nat.zero_le 2
    · simp only [List.forall_mem_cons]
      exact ⟨hhigh (by decide) (by decide), hhigh (by decide) (by decide),
        List.forall_mem_nil _⟩
  · rw [weight_flatMap_escape_high]
    · exact Nat.zero_le 2
    · simp only [List.forall_mem_cons]
      exact ⟨hhigh (by decide) (by decide), hhigh (by decide) (by decide),
        hhigh (by decide) (by decide), List.forall_mem_nil _⟩

theorem ReadsString.cost_le {src s body rest : Text} (h : ReadsString src s body rest) :
    weight (s.flatMap Json.escape) + weight rest ≤ weight src := by
  induction h with
  | quote rest => exact le_of_eq (by simp [charWeight])
  | @raw c src s body rest hq hb _ ih =>
    have hcost : weight (Json.escape c) = charWeight c := by
      rw [weight_escape, special, if_neg (not_or.mpr ⟨hq, hb⟩), Nat.add_zero]
    rw [List.flatMap_cons, weight_append, weight_cons, hcost]
    omega
  | @escape esc src s body rest _ _ ih =>
    have hcost := weight_escape_unescape esc
    have hback : charWeight (byte '\\') = 1 := rfl
    rw [List.flatMap_cons, weight_append, weight_cons, weight_cons, hback]
    omega
  | @unicode h₁ h₂ h₃ h₄ src s body rest _ _ ih =>
    have hcost := weight_encodeCode (strtoul [h₁, h₂, h₃, h₄])
    have hback : charWeight (byte '\\') = 1 := rfl
    have hu : charWeight (byte 'u') = 1 := rfl
    rw [List.flatMap_append, weight_append]
    simp only [weight_cons, hback, hu]
    omega

/-! ## What it takes to read a tree -/

mutual

/-- The weight of the text of a tree in which the keys are escaped as well. -/
def Node.cost : Node → ℕ
  | .null => weight (bytes "null")
  | .bool boolValue => weight (if boolValue then bytes "true" else bytes "false")
  | .number _ => 0
  | .string s => weight (s.flatMap Json.escape)
  | .array arrayElements => elementsCost arrayElements
  | .object objectProperties => propertiesCost objectProperties

def elementsCost : List Node → ℕ
  | [] => 0
  | element :: rest => element.cost + elementsCost rest

def propertiesCost : List (Text × Node) → ℕ
  | [] => 0
  | (key, value) :: rest =>
    weight (key.flatMap Json.escape) + value.cost + propertiesCost rest

end

theorem propertiesCost_assign (key : Text) (value : Node) (l : List (Text × Node)) :
    propertiesCost (assign key value l) ≤
      weight (key.flatMap escape) + value.cost + propertiesCost l := by
  induction l with
  | nil => exact le_rfl
  | cons p l ih =>
    rw [assign]
    split_ifs with hlt heq
    · exact le_rfl
    · simp only [propertiesCost]
      omega
    · simp only [propertiesCost]
      omega

/-- A key that comes again costs more to read than it does in the tree. -/
theorem propertiesCost_putAll (acc members : List (Text × Node)) :
    propertiesCost (putAll acc members) ≤ propertiesCost acc + propertiesCost members := by
  induction members generalizing acc with
  | nil => exact le_rfl
  | cons m members ih =>
    have hrec := ih (assign m.1 m.2 acc)
    have hassign := propertiesCost_assign m.1 m.2 acc
    simp only [putAll, List.foldl_cons, propertiesCost] at hrec ⊢
    omega

theorem weight_skipWhitespace_le (src : Text) : weight (skipWhitespace src) ≤ weight src := by
  obtain ⟨w, -, hsrc⟩ := whitespace_of_skipWhitespace src
  conv_rhs => rw [hsrc, weight_append]
  exact Nat.le_add_left _ _

theorem weight_le_of_skipWhitespace {src tail : Text} (h : skipWhitespace src = tail) :
    weight tail ≤ weight src := h ▸ weight_skipWhitespace_le src

theorem weight_tail_le {src tail : Text} {c : UInt8} (h : skipWhitespace src = c :: tail) :
    weight tail ≤ weight src := by
  have := weight_le_of_skipWhitespace h
  rw [weight_cons] at this
  omega

mutual

theorem ReadsValue.cost_le {src rest : Text} {v : Node} {tokens : List Token} :
    ReadsValue src v tokens rest → v.cost + weight rest ≤ weight src
  | .null h => weight_append _ rest ▸ weight_le_of_skipWhitespace h
  | .isTrue h => weight_append _ rest ▸ weight_le_of_skipWhitespace h
  | .isFalse h => weight_append _ rest ▸ weight_le_of_skipWhitespace h
  | .number h _ hn _ => by
    have hle := weight_le_of_skipWhitespace h
    rw [eq_of_scanNumber hn, weight_append] at hle
    rw [Node.cost]
    omega
  | .string h hs => hs.cost_le.trans (weight_tail_le h)
  | .emptyArray h hend => by
    have hle := (weight_tail_le hend).trans (weight_tail_le h)
    rw [Node.cost, elementsCost]
    omega
  | .array h he => he.cost_le.trans (weight_tail_le h)
  | .emptyObject h hend => by
    have hle := (weight_tail_le hend).trans (weight_tail_le h)
    rw [Node.cost, propertiesCost]
    omega
  | @ReadsValue.object _ _ _ members _ h hm => by
    have hle := hm.cost_le.trans (weight_tail_le h)
    have hput := propertiesCost_putAll [] members
    rw [propertiesCost] at hput
    rw [Node.cost]
    omega

theorem ReadsElements.cost_le {src rest : Text} {elements : List Node} {tokens : List Token} :
    ReadsElements src elements tokens rest → elementsCost elements + weight rest ≤ weight src
  | .last hv hend => by
    have hle := hv.cost_le
    have := weight_tail_le hend
    simp only [elementsCost]
    omega
  | .more hv hsep he => by
    have hle := hv.cost_le
    have := weight_tail_le hsep
    have := he.cost_le
    rw [elementsCost]
    omega

theorem ReadsMembers.cost_le {src rest : Text} {members : List (Text × Node)}
    {tokens : List Token} :
    ReadsMembers src members tokens rest → propertiesCost members + weight rest ≤ weight src
  | .last hq hk hcolon hv hend => by
    have := weight_tail_le hq
    have := hk.cost_le
    have := weight_tail_le hcolon
    have := hv.cost_le
    have := weight_tail_le hend
    simp only [propertiesCost]
    omega
  | .more hq hk hcolon hv hsep hm => by
    have := weight_tail_le hq
    have := hk.cost_le
    have := weight_tail_le hcolon
    have := hv.cost_le
    have := weight_tail_le hsep
    have := hm.cost_le
    rw [propertiesCost]
    omega

end

/-! ## What the printer writes -/

def keySpecials (keys : List Text) : ℕ := (keys.map specials).sum

theorem keySpecials_append (keys keys' : List Text) :
    keySpecials (keys ++ keys') = keySpecials keys + keySpecials keys' := by
  simp [keySpecials]

theorem keySpecials_eq_zero {keys : List Text} :
    keySpecials keys = 0 ↔ ∀ k ∈ keys, byte '"' ∉ k ∧ byte '\\' ∉ k := by
  induction keys with
  | nil => simp [keySpecials]
  | cons k keys ih =>
    have hcons : keySpecials (k :: keys) = specials k + keySpecials keys := rfl
    rw [hcons, Nat.add_eq_zero_iff, specials_eq_zero, ih, List.forall_mem_cons]

theorem decimal_bytes (i : ℤ) : ∀ c ∈ decimal i, c = byte '-' ∨ isdigit c = true := by
  obtain ⟨-, -, -, hdigits⟩ := (rfcInt_decimalDigits i.natAbs).exists_cons
  intro c hc
  rcases List.mem_append.mp hc with hc | hc
  · split_ifs at hc
    · exact .inl (List.mem_singleton.mp hc)
    · exact absurd hc List.not_mem_nil
  · exact .inr (isdigit_iff.mpr (hdigits c hc))

theorem weight_decimal (i : ℤ) : weight (decimal i) = 0 := by
  refine List.sum_eq_zero fun n hn => ?_
  obtain ⟨c, hc, rfl⟩ := List.mem_map.mp hn
  have hne {l : UInt8} (hl : l ≠ byte '-' ∧ isdigit l = false) : c ≠ l := by
    rintro rfl
    exact (decimal_bytes i c hc).elim hl.1 (by simp [hl.2])
  rw [charWeight, if_neg]
  simp only [List.mem_cons, List.not_mem_nil, or_false, not_or]
  exact ⟨hne (by decide), hne (by decide), hne (by decide), hne (by decide), hne (by decide),
    hne (by decide)⟩

section Printed

variable (general : Binary64 → Text) (pretty : Bool)

theorem weight_separator (idx : ℕ) :
    weight (if 0 < idx then separator pretty else []) = 0 := by
  split_ifs
  · cases pretty <;> rfl
  · rfl

theorem weight_space : weight (if pretty then bytes " " else []) = 0 := by
  cases pretty <;> rfl

mutual

/-- The printed text weighs less than the tree by what is not escaped in the keys. -/
theorem weight_stringify :
    ∀ v : Node, v.Ordinary →
      weight (stringifyHelper general pretty v) + keySpecials v.keys = v.cost
  | .null, _ => rfl
  | .bool boolValue, _ => rfl
  | .number d, hv => by
    cases hv with
    | number hn =>
      rw [stringifyHelper, numberText_ofInt general hn, weight_decimal]
      rfl
  | .string s, _ => by
    simp [stringifyHelper, Node.keys, keySpecials, Node.cost, bytes, charWeight]
  | .array arrayElements, .array hv => by
    have hes := weight_elements 0 arrayElements hv
    have hbrackets : weight (bytes "[") = 0 ∧ weight (bytes "]") = 0 := ⟨rfl, rfl⟩
    simp only [stringifyHelper, weight_append, hbrackets, Node.keys, Node.cost, ← hes]
    omega
  | .object objectProperties, .object _ hv => by
    have hps := weight_properties 0 objectProperties hv
    have hbraces : weight (bytes "\x7b") = 0 ∧ weight (bytes "\x7d") = 0 := ⟨rfl, rfl⟩
    simp only [stringifyHelper, weight_append, hbraces, Node.keys, Node.cost, ← hps]
    omega

theorem weight_elements (idx : ℕ) :
    ∀ elements : List Node, (∀ v ∈ elements, v.Ordinary) →
      weight (stringifyElements general pretty idx elements)
        + keySpecials (elementsKeys elements) = elementsCost elements
  | [], _ => rfl
  | element :: elements, hvs => by
    obtain ⟨hv, hvs⟩ := List.forall_mem_cons.mp hvs
    have helement := weight_stringify element hv
    have hrest := weight_elements (idx + 1) elements hvs
    simp only [stringifyElements, weight_append, weight_separator, elementsKeys,
      keySpecials_append, elementsCost]
    omega

theorem weight_properties (idx : ℕ) :
    ∀ properties : List (Text × Node), (∀ p ∈ properties, p.2.Ordinary) →
      weight (stringifyProperties general pretty idx properties)
        + keySpecials (propertiesKeys properties) = propertiesCost properties
  | [], _ => rfl
  | (key, value) :: properties, hvs => by
    obtain ⟨hv, hvs⟩ := List.forall_mem_cons.mp hvs
    have hvalue := weight_stringify value hv
    have hrest := weight_properties (idx + 1) properties hvs
    have hquote : charWeight (byte '"') = 0 ∧ weight (bytes "\":") = 0 := ⟨rfl, rfl⟩
    have hkeys : keySpecials (key :: (value.keys ++ propertiesKeys properties)) =
        specials key + (keySpecials value.keys + keySpecials (propertiesKeys properties)) := by
      rw [← keySpecials_append]
      rfl
    simp only [stringifyProperties, weight_append, weight_cons, weight_separator, weight_space,
      hquote, propertiesKeys, hkeys, propertiesCost, weight_flatMap_escape]
    omega

end

/-! ## NUL in what is printed -/

theorem zero_mem_escape (c : UInt8) : 0 ∈ escape c ↔ c = 0 := by
  unfold escape
  split_ifs with hq hb hn hr ht
  · exact hq ▸ by decide
  · exact hb ▸ by decide
  · exact hn ▸ by decide
  · exact hr ▸ by decide
  · exact ht ▸ by decide
  · simp [eq_comm]

theorem zero_mem_separator (idx : ℕ) :
    0 ∉ (if 0 < idx then separator pretty else []) := by
  split_ifs
  · cases pretty <;> decide
  · exact List.not_mem_nil

theorem zero_mem_space : 0 ∉ (if pretty then bytes " " else []) := by
  cases pretty <;> decide

mutual

/-- A NUL in the printed text is one in a key. -/
theorem zero_mem_stringify :
    ∀ v : Node, v.Ordinary →
      (0 ∈ stringifyHelper general pretty v ↔ ∃ k ∈ v.keys, (0 : UInt8) ∈ k)
  | .null, _ => by simp [stringifyHelper, Node.keys, bytes]
  | .bool boolValue, _ => by cases boolValue <;> simp [stringifyHelper, Node.keys, bytes]
  | .number d, hv => by
    cases hv with
    | @number n hn =>
      have hzero : 0 ∉ decimal n := fun h =>
        (decimal_bytes n 0 h).elim (by decide) (by decide)
      simp [stringifyHelper, numberText_ofInt general hn, hzero, Node.keys]
  | .string s, hv => by
    cases hv with
    | string hs =>
      simp only [stringifyHelper, Node.keys, bytes, List.cons_append, List.mem_cons,
        List.mem_append, List.mem_flatMap, zero_mem_escape, exists_eq_right, hs]
      decide
  | .array arrayElements, .array hv => by
    have hes := zero_mem_elements 0 arrayElements hv
    simp [stringifyHelper, Node.keys, bytes, hes]
  | .object objectProperties, .object _ hv => by
    have hps := zero_mem_properties 0 objectProperties hv
    simp [stringifyHelper, Node.keys, bytes, hps]

theorem zero_mem_elements (idx : ℕ) :
    ∀ elements : List Node, (∀ v ∈ elements, v.Ordinary) →
      (0 ∈ stringifyElements general pretty idx elements ↔
        ∃ k ∈ elementsKeys elements, (0 : UInt8) ∈ k)
  | [], _ => by simp [stringifyElements, elementsKeys]
  | element :: elements, hvs => by
    obtain ⟨hv, hvs⟩ := List.forall_mem_cons.mp hvs
    have helement := zero_mem_stringify element hv
    have hrest := zero_mem_elements (idx + 1) elements hvs
    simp only [stringifyElements, elementsKeys, List.mem_append, zero_mem_separator, false_or,
      helement, hrest, or_and_right, exists_or]

theorem zero_mem_properties (idx : ℕ) :
    ∀ properties : List (Text × Node), (∀ p ∈ properties, p.2.Ordinary) →
      (0 ∈ stringifyProperties general pretty idx properties ↔
        ∃ k ∈ propertiesKeys properties, (0 : UInt8) ∈ k)
  | [], _ => by simp [stringifyProperties, propertiesKeys]
  | (key, value) :: properties, hvs => by
    obtain ⟨hv, hvs⟩ := List.forall_mem_cons.mp hvs
    have hvalue := zero_mem_stringify value hv
    have hrest := zero_mem_properties (idx + 1) properties hvs
    have hquote : (0 : UInt8) ≠ byte '"' ∧ 0 ∉ bytes "\":" := by decide
    simp only [stringifyProperties, propertiesKeys, List.mem_append, List.mem_cons,
      zero_mem_separator, zero_mem_space, hquote, false_or, or_false, hvalue, hrest, or_and_right,
      exists_or, exists_eq_left, or_assoc]

end

end Printed

/-! ## The round trip -/

/-- A `const char*` that weighs what the text does has all of it. -/
theorem zero_notMem_of_weight {t : Text} (h : weight t ≤ weight (cString t)) : 0 ∉ t := by
  intro hmem
  have hsplit : t = cString t ++ t.dropWhile (· ≠ 0) := List.takeWhile_append_dropWhile.symm
  have hdrop : 0 ∈ t.dropWhile (· ≠ 0) := by
    rw [hsplit, List.mem_append] at hmem
    refine hmem.resolve_left fun hmem => ?_
    simpa using List.mem_takeWhile_imp hmem
  have hpos : 1 ≤ weight (t.dropWhile (· ≠ 0)) :=
    List.single_le_sum (fun _ _ => Nat.zero_le _) _ (List.mem_map_of_mem hdrop)
  have hsum := congrArg weight hsplit
  rw [weight_append] at hsum
  omega

theorem weight_cString_le (t : Text) : weight (cString t) ≤ weight t := by
  have hsplit : t = cString t ++ t.dropWhile (· ≠ 0) := List.takeWhile_append_dropWhile.symm
  conv_rhs => rw [hsplit, weight_append]
  exact Nat.le_add_right _ _

/-- A tree comes back from its text exactly if all its keys are plain. -/
theorem Tree.round_trips_iff (general : Binary64 → Text) (pretty : Bool) (t : Tree) :
    jsonParse (some (jsonStringify general pretty (some t.root))) = .ok t.root ↔
      ∀ k ∈ t.root.keys, PlainKey k := by
  obtain ⟨v, hv⟩ := t
  have hnul := zero_mem_stringify general pretty v hv
  simp only [jsonParse_ok_iff, jsonStringify]
  constructor
  · rintro ⟨tokens, rest, hread⟩
    have hcost := hread.cost_le
    have hweight := weight_stringify general pretty v hv
    have hprefix := weight_cString_le (stringifyHelper general pretty v)
    have hzero : 0 ∉ stringifyHelper general pretty v := zero_notMem_of_weight (by omega)
    have hkeys : keySpecials v.keys = 0 := by omega
    intro k hk
    obtain ⟨hquote, hback⟩ := keySpecials_eq_zero.mp hkeys k hk
    exact ⟨hquote, hback, fun hmem => hzero (hnul.mpr ⟨k, hk, hmem⟩)⟩
  · intro hkeys
    have hzero : 0 ∉ stringifyHelper general pretty v := by
      rw [hnul]
      rintro ⟨k, hk, hmem⟩
      exact (hkeys k hk).2.2 hmem
    obtain ⟨tokens, hread⟩ := reads_stringify general pretty endsNumber_nil v hv hkeys
    rw [List.append_nil] at hread
    exact ⟨tokens, [], by rwa [cString_eq hzero]⟩

/-- The object with a null under a key of one quote. -/
def quoteKey : Tree where
  root := .object [(bytes "\"", .null)]
  ordinary := .object (List.pairwise_singleton _ _) (List.forall_mem_singleton.mpr .null)

/-- Its text has three quotes in a row. -/
theorem quote_key_lost :
    ¬∀ (general : Binary64 → Text) (pretty : Bool) (t : Tree),
      jsonParse (some (jsonStringify general pretty (some t.root))) = .ok t.root := by
  intro h
  have hlost := h (fun _ => []) false quoteKey
  simp [quoteKey, jsonStringify, stringifyHelper, stringifyProperties, bytes, jsonParse, cString,
    parseValue, skipWhitespace, isWhitespace, parseObject, parseMembers, parseString,
    parseStringBody] at hlost
  cases hlost

end Json

end Absolute
