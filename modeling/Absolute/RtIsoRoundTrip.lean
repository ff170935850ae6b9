import Absolute.RtDateTimeRoundTrip
import Absolute.RtIsoText
import Mathlib.Algebra.Order.Group.Int
import Mathlib.Data.List.Basic

/-!
# Reading back what was written

Each reader takes the digits its writer gives, whatever follows them; a year's reader stops at the
first character that is no digit, and there is one, the separator.
-/

namespace Absolute

namespace DateTime

/-! ## Numbers -/

theorem isDigit_of_mem_padded (width n : ℕ) {c : Char} (h : c ∈ padded width n) :
    c.isDigit = true := by
  rw [padded, List.mem_append] at h
  rcases h with h | h
  · rw [List.eq_of_mem_replicate h]
    rfl
  · exact Nat.isDigit_of_mem_toDigits (by omega) (by omega) h

theorem ofDigitChars_padded (width n : ℕ) : Nat.ofDigitChars 10 (padded width n) 0 = n := by
  rw [padded, Nat.ofDigitChars_append, Nat.ofDigitChars_replicate_zero, Nat.mul_zero,
    Nat.ofDigitChars_ten_toDigits]

theorem length_padded (width n : ℕ) :
    (padded width n).length = max width (Nat.toDigits 10 n).length := by
  rw [padded, List.length_append, List.length_replicate]
  omega

theorem length_padded_eq {width n : ℕ} (hpos : 0 < width) (h : n < 10 ^ width) :
    (padded width n).length = width := by
  have hle := (Nat.length_toDigits_le_iff (b := 10) (by omega) hpos).mpr h
  rw [length_padded]
  omega

theorem readFixedDigitsGo_append {digits : Text} (h : ∀ c ∈ digits, c.isDigit = true) (rest : Text)
    (result : ℕ) : readFixedDigitsGo digits.length (digits ++ rest) result
      = some (((Nat.ofDigitChars 10 digits result : ℕ) : ℤ), rest) := by
  induction digits generalizing result with
  | nil => rfl
  | cons c digits ih =>
      have hstep : (result : ℤ) * 10 + digit c
          = ((10 * result + (c.toNat - '0'.toNat) : ℕ) : ℤ) := by
        rw [digit]
        push_cast
        omega
      rw [List.length_cons, List.cons_append, readFixedDigitsGo, if_pos (h c List.mem_cons_self),
        hstep, ih fun c hc => h c (List.mem_cons_of_mem _ hc), Nat.ofDigitChars_cons]

theorem length_formatInt {width : ℕ} {x : ℤ} (hpos : 0 < width) (hnonneg : 0 ≤ x)
    (hlt : x < 10 ^ width) : (formatInt width x).length = width := by
  have hbound : x.natAbs < 10 ^ width := by
    rw [← Int.ofNat_lt, Int.natAbs_of_nonneg hnonneg]
    push_cast
    exact hlt
  rw [formatInt, if_neg (by omega), length_padded_eq hpos hbound]

theorem head_formatInt (width : ℕ) {x : ℤ} (hnonneg : 0 ≤ x) (rest : Text) :
    ((formatInt width x ++ rest).head?.any Char.isDigit) = true := by
  rw [formatInt, if_neg (by omega)]
  cases hpadded : padded width x.natAbs with
  | nil =>
      rw [padded, List.append_eq_nil_iff] at hpadded
      exact absurd hpadded.2 Nat.toDigits_ne_nil
  | cons c digits =>
      exact isDigit_of_mem_padded width x.natAbs (hpadded ▸ List.mem_cons_self)

theorem readFixedDigits_formatInt {width : ℕ} {x : ℤ} (hpos : 0 < width) (hnonneg : 0 ≤ x)
    (hlt : x < 10 ^ width) (rest : Text) :
    readFixedDigits width (formatInt width x ++ rest) = some (x, rest) := by
  have hlength := length_formatInt hpos hnonneg hlt
  rw [formatInt, if_neg (by omega)] at hlength
  have hread := readFixedDigitsGo_append
    (fun c => @isDigit_of_mem_padded width x.natAbs c) rest 0
  rw [hlength, ofDigitChars_padded] at hread
  rw [formatInt, if_neg (by omega), readFixedDigits]
  exact hread.trans (by rw [Int.natAbs_of_nonneg hnonneg])

/-- No year up to this has more than nine digits above 100000000 before its last one. -/
theorem readYearDigitsGo_append {digits rest : Text} (h : ∀ c ∈ digits, c.isDigit = true)
    (hrest : ∀ c ∈ rest.head?, c.isDigit = false) {result : ℕ} (count : ℕ)
    (hle : Nat.ofDigitChars 10 digits result ≤ 1000000009) :
    readYearDigitsGo (digits ++ rest) result count
      = some (((Nat.ofDigitChars 10 digits result : ℕ) : ℤ), count + digits.length, rest) := by
  induction digits generalizing result count with
  | nil =>
      cases rest with
      | nil => rfl
      | cons c rest =>
          rw [List.nil_append, readYearDigitsGo, if_neg (by simp [hrest c rfl])]
          rfl
  | cons c digits ih =>
      have hstep : (result : ℤ) * 10 + digit c
          = ((10 * result + (c.toNat - '0'.toNat) : ℕ) : ℤ) := by
        rw [digit]
        push_cast
        omega
      have hsmall : ¬(result : ℤ) > 100000000 := by
        rw [Nat.ofDigitChars_eq_ofDigitChars_zero, List.length_cons, Nat.pow_succ] at hle
        have hpow : 1 ≤ 10 ^ digits.length := Nat.one_le_pow _ _ (by omega)
        have : 1 * 10 * result ≤ 10 ^ digits.length * 10 * result :=
          Nat.mul_le_mul_right _ (Nat.mul_le_mul_right _ hpow)
        omega
      rw [Nat.ofDigitChars_cons] at hle ⊢
      rw [List.cons_append, readYearDigitsGo, if_pos (h c List.mem_cons_self), if_neg hsmall, hstep,
        ih (fun c hc => h c (List.mem_cons_of_mem _ hc)) _ hle, List.length_cons,
        Nat.add_right_comm, Nat.add_assoc]

/-! ## The year -/

/-- The characters of a year, whose four digits a sign does not shorten. -/
def yearText (year : ℤ) : Text :=
  if year < 0 then '-' :: padded 4 year.natAbs else padded 4 year.natAbs

theorem length_yearText {year : ℤ} (h : year.natAbs ≤ 1000000009) :
    (yearText year).length ≤ 11 := by
  have hle := (Nat.length_toDigits_le_iff (b := 10) (k := 10) (by omega) (by omega)).mpr
    (show year.natAbs < 10 ^ 10 by omega)
  have hlength := length_padded 4 year.natAbs
  unfold yearText
  split
  · rw [List.length_cons]
    omega
  · omega

theorem formatYear_eq {year : ℤ} (h : year.natAbs ≤ 1000000009) :
    formatYear year = yearText year := by
  have hlength := length_yearText h
  have htext : (if year < 0 then '-' :: formatInt 4 (-year) else formatInt 4 year)
      = yearText year := by
    unfold yearText
    split
    · rw [formatInt, if_neg (by omega), Int.natAbs_neg]
    · rename_i hnonneg
      rw [formatInt, if_neg hnonneg]
  rw [formatYear, htext, snprintf, List.take_of_length_le (by omega)]

theorem readYearDigits_padded {year : ℕ} (h : year ≤ 1000000009) {rest : Text}
    (hrest : ∀ c ∈ rest.head?, c.isDigit = false) :
    readYearDigits (padded 4 year ++ rest) = some ((year : ℤ), rest) := by
  have hread := readYearDigitsGo_append (fun c => @isDigit_of_mem_padded 4 year c) hrest 0 (by rw [ofDigitChars_padded]; exact h)
  have hlength := length_padded 4 year
  rw [ofDigitChars_padded] at hread
  rw [readYearDigits]
  change (readYearDigitsGo _ ((0 : ℕ) : ℤ) 0).bind _ = _
  rw [hread, Option.bind_some]
  dsimp only
  rw [if_neg (by omega), toInt32_eq ⟨by omega, by omega⟩]

/-! ## Dates -/

theorem readDate_padded {year : ℕ} {month day : ℤ} (hyear : year ≤ 1000000009)
    (hmonth : 0 ≤ month ∧ month < 100) (hday : 0 ≤ day ∧ day < 100) (rest : Text) :
    readDate (padded 4 year ++ '-' :: (formatInt 2 month ++ '-' :: (formatInt 2 day ++ rest)))
      = some (⟨year, month, day⟩, rest) := by
  rw [readDate, readYearDigits_padded hyear (by simp)]
  simp only [Option.bind_eq_bind, Option.bind_some, expect, List.head?_cons, if_pos, List.tail_cons]
  rw [readFixedDigits_formatInt (by omega) hmonth.1 hmonth.2]
  simp only [Option.bind_some, List.head?_cons, if_pos, List.tail_cons]
  rw [readFixedDigits_formatInt (by omega) hday.1 hday.2]
  rfl

/-! ## Times -/

theorem readClock_formatInt {hour minute second : ℤ} (hhour : 0 ≤ hour ∧ hour < 100)
    (hminute : 0 ≤ minute ∧ minute < 100) (hsecond : 0 ≤ second ∧ second < 100) (rest : Text) :
    readClock (formatInt 2 hour ++ ':' :: (formatInt 2 minute ++
        ':' :: (formatInt 2 second ++ rest))) = some (hour, minute, second, rest) := by
  rw [readClock, readFixedDigits_formatInt (by omega) hhour.1 hhour.2]
  simp only [Option.bind_eq_bind, Option.bind_some, expect, List.head?_cons, if_pos, List.tail_cons]
  rw [readFixedDigits_formatInt (by omega) hminute.1 hminute.2]
  simp only [Option.bind_some, List.head?_cons, if_pos, List.tail_cons]
  rw [readFixedDigits_formatInt (by omega) hsecond.1 hsecond.2]
  rfl

theorem readMillis_formatInt {millis : ℤ} (h : 0 ≤ millis ∧ millis < 1000) {rest : Text}
    (hrest : ∀ c ∈ rest.head?, c.isDigit = false) :
    readMillis (formatInt 3 millis ++ rest) 0 0 = (millis, rest) := by
  have hlength : (padded 3 millis.natAbs).length = 3 := length_padded_eq (by omega) (by omega)
  have hvalue := ofDigitChars_padded 3 millis.natAbs
  have hdigits : ∀ c ∈ padded 3 millis.natAbs, c.isDigit = true := fun c =>
    isDigit_of_mem_padded 3 millis.natAbs
  rw [formatInt, if_neg (by omega)]
  obtain ⟨a, b, c, habc⟩ := List.length_eq_three.mp hlength
  rw [habc] at hvalue hdigits ⊢
  have ha := hdigits a (by simp)
  have hb := hdigits b (by simp)
  have hc := hdigits c (by simp)
  simp only [Nat.ofDigitChars_cons, Nat.ofDigitChars_nil] at hvalue
  simp only [List.cons_append, List.nil_append, readMillis, if_pos ha, if_pos hb, if_pos hc]
  have hstop : ∀ x, readMillis rest x 3 = (x, rest) := fun x => by
    cases rest with
    | nil => simp [readMillis]
    | cons d rest => simp [readMillis, hrest d rfl]
  rw [hstop]
  simp only [digit, Prod.mk.injEq, and_true]
  omega

/-- A character that ends a time: the start of a zone. -/
theorem readFraction_formatInt {millis : ℤ} (h : 0 ≤ millis ∧ millis < 1000) {zone : Text}
    (hzone : ∀ c ∈ zone.head?, c.isDigit = false ∧ c ≠ '.' ∧ c ≠ ',') :
    readFraction ((if millis > 0 then '.' :: formatInt 3 millis else []) ++ zone)
      = .ok (millis, zone) := by
  split
  · rw [List.cons_append, readFraction]
    rw [if_pos (.inl rfl), if_pos (head_formatInt 3 h.1 zone),
      readMillis_formatInt h fun c hc => (hzone c hc).1]
  · obtain rfl : millis = 0 := by omega
    cases zone with
    | nil => rfl
    | cons c zone =>
        obtain ⟨-, hdot, hcomma⟩ := hzone c rfl
        rw [List.nil_append, readFraction, if_neg (by simp [hdot, hcomma])]

/-! ## Zones -/

theorem readOffset_formatInt {hours mins : ℤ} (hhours : 0 ≤ hours ∧ hours < 100)
    (hmins : 0 ≤ mins ∧ mins < 100) :
    readOffset (formatInt 2 hours ++ ':' :: formatInt 2 mins) = some (hours, mins, []) := by
  have hhead := head_formatInt 2 hmins.1 []
  have hread := @readFixedDigits_formatInt 2 mins (by omega) hmins.1 hmins.2 []
  rw [List.append_nil] at hhead hread
  rw [readOffset, readFixedDigits_formatInt (by omega) hhours.1 hhours.2]
  simp only [Option.bind_eq_bind, Option.bind_some, expect, List.head?_cons, if_pos, List.tail_cons,
    Option.getD_some]
  rw [if_pos hhead, hread]
  rfl

/-- The zone of less than a day is written in full, ends the time before it and is read back. -/
theorem formatZone_spec {offsetMinutes : ℤ} (h : -1440 < offsetMinutes ∧ offsetMinutes < 1440) :
    ∃ zone, formatZone offsetMinutes = some zone ∧ zone.length ≤ 6 ∧
      (∀ c ∈ zone.head?, c.isDigit = false ∧ c ≠ '.' ∧ c ≠ ',') ∧
      readZone zone = .ok (offsetMinutes, []) := by
  by_cases hzero : offsetMinutes = 0
  · subst hzero
    exact ⟨['Z'], rfl, by simp, by simp, rfl⟩
  obtain ⟨absOff, habs⟩ : ∃ absOff, absOff = |offsetMinutes| := ⟨_, rfl⟩
  have hbound : 0 ≤ absOff ∧ absOff < 1440 := by
    rw [habs]
    exact ⟨abs_nonneg _, abs_lt.mpr h⟩
  have hoff : (if offsetMinutes ≥ 0 then some offsetMinutes else int32 (-offsetMinutes))
      = some absOff := by
    split
    · rename_i hnonneg
      rw [habs, abs_of_nonneg hnonneg]
    · rename_i hneg
      rw [habs, abs_of_neg (by omega), int32_eq ⟨by omega, by omega⟩]
  have hread := @readOffset_formatInt (absOff / 60) (absOff % 60) (by omega) (by omega)
  have hhours := @length_formatInt 2 (absOff / 60) (by omega) (by omega) (by omega)
  have hmins := @length_formatInt 2 (absOff % 60) (by omega) (by omega) (by omega)
  obtain ⟨sign, hsign⟩ : ∃ sign, sign = if offsetMinutes ≥ 0 then '+' else '-' := ⟨_, rfl⟩
  have hzone : formatZone offsetMinutes
      = some (sign :: (formatInt 2 (absOff / 60) ++ ':' :: formatInt 2 (absOff % 60))) := by
    rw [formatZone, if_neg hzero, hoff]
    simp only [Option.bind_eq_bind, Option.bind_some]
    rw [Int.tdiv_eq_ediv_of_nonneg hbound.1, Int.tmod_eq_emod_of_nonneg hbound.1, snprintf, ← hsign,
      List.take_of_length_le]
    · rfl
    · rw [List.length_cons, List.length_append, List.length_cons]
      omega
  refine ⟨_, hzone, ?_, ?_, ?_⟩
  · rw [List.length_cons, List.length_append, List.length_cons]
    omega
  · rw [hsign]
    split <;> simp
  · rw [readZone, hread]
    have hrange : ¬(absOff / 60 > 23 ∨ absOff % 60 > 59) := by omega
    rw [hsign]
    split
    · rename_i hnonneg
      rw [abs_of_nonneg hnonneg] at habs
      simp [hrange]
      omega
    · rename_i hneg
      rw [abs_of_neg (by omega)] at habs
      simp [hrange]
      omega

/-! ## Texts -/

theorem createDate_ok {year month day : ℤ} {d : Calendar.Date}
    (h : createDate year month day = .ok d) :
    (1 ≤ month ∧ month ≤ 12) ∧ 1 ≤ day ∧ day ≤ 31 := by
  have hlength : daysInMonth year month ≤ 31 := by
    unfold daysInMonth
    split
    · split <;> omega
    · split <;> omega
  rw [createDate] at h
  split at h
  · cases h
  · split at h
    · cases h
    · omega

theorem createTime_ok {hour minute second millisecond : ℤ} {t : Time}
    (h : createTime hour minute second millisecond = .ok t) :
    (0 ≤ hour ∧ hour ≤ 23) ∧ (0 ≤ minute ∧ minute ≤ 59) ∧ (0 ≤ second ∧ second ≤ 59) ∧
      0 ≤ millisecond ∧ millisecond ≤ 999 := by
  rw [createTime] at h
  repeat
    split at h
    · cases h
  omega

/-- The sign of a year is read before its date. -/
theorem parseIso_yearText {year month day : ℤ} (hyear : year.natAbs ≤ 1000000009)
    (hmonth : 0 ≤ month ∧ month < 100) (hday : 0 ≤ day ∧ day < 100) {rest : Text} {time : Time}
    {offsetMinutes : ℤ} (hrest : readTime rest = .ok (time, offsetMinutes, [])) :
    parseIso (yearText year ++ '-' :: (formatInt 2 month ++ '-' :: (formatInt 2 day ++ rest)))
      = .ok (⟨⟨year, month, day⟩, time⟩, offsetMinutes) := by
  have hread := readDate_padded hyear hmonth hday rest
  rw [parseIso, yearText]
  by_cases hneg : year < 0
  · rw [if_pos hneg]
    simp only [List.cons_append, List.head?_cons, List.tail_cons, reduceCtorEq, if_false,
      true_or, if_true]
    rw [hread]
    have habs : (year.natAbs : ℤ) * -1 = year := by omega
    change (readTime rest >>= _) = _
    rw [hrest]
    change (.ok (⟨⟨(year.natAbs : ℤ) * -1, month, day⟩, time⟩, offsetMinutes)
      : Except String (Civil × ℤ)) = _
    rw [habs]
  · rw [if_neg hneg]
    obtain ⟨c, digits, hdigits⟩ : ∃ c digits, padded 4 year.natAbs = c :: digits := by
      cases hpadded : padded 4 year.natAbs with
      | nil =>
          rw [padded, List.append_eq_nil_iff] at hpadded
          exact absurd hpadded.2 Nat.toDigits_ne_nil
      | cons c digits => exact ⟨c, digits, rfl⟩
    have hdigit : c.isDigit = true :=
      isDigit_of_mem_padded 4 year.natAbs (hdigits ▸ List.mem_cons_self)
    have hminus : ¬c = '-' := by
      rintro rfl
      cases hdigit
    have hplus : ¬c = '+' := by
      rintro rfl
      cases hdigit
    rw [hdigits] at hread ⊢
    simp only [List.cons_append, List.head?_cons, reduceCtorEq, Option.some.injEq, hminus, hplus,
      or_self, if_false] at hread ⊢
    rw [hread]
    have habs : (year.natAbs : ℤ) * 1 = year := by omega
    change (readTime rest >>= _) = _
    rw [hrest]
    change (.ok (⟨⟨(year.natAbs : ℤ) * 1, month, day⟩, time⟩, offsetMinutes)
      : Except String (Civil × ℤ)) = _
    rw [habs]

/-- The text of valid fields is read back as them. -/
theorem parseIso_formatIso {year month day hour minute second millisecond offsetMinutes : ℤ}
    {date : Calendar.Date} {time : Time} (hdate : createDate year month day = .ok date)
    (htime : createTime hour minute second millisecond = .ok time) (hyear : |year| ≤ 1000000009)
    (hoffset : |offsetMinutes| < 1440) :
    ∃ text, formatIso ⟨⟨year, month, day⟩, ⟨hour, minute, second, millisecond⟩⟩ offsetMinutes
        = some text ∧
      parseIso text
        = .ok (⟨⟨year, month, day⟩, ⟨hour, minute, second, millisecond⟩⟩, offsetMinutes) := by
  obtain ⟨hmonth, hday⟩ := createDate_ok hdate
  obtain ⟨hhour, hminute, hsecond, hmillis⟩ := createTime_ok htime
  obtain ⟨zone, hzone, hlength, hhead, hread⟩ := formatZone_spec (abs_lt.mp hoffset)
  have hbound : year.natAbs ≤ 1000000009 := by
    rw [Int.abs_eq_natAbs] at hyear
    omega
  obtain ⟨fraction, hfraction⟩ : ∃ fraction,
      fraction = if millisecond > 0 then '.' :: formatInt 3 millisecond else [] := ⟨_, rfl⟩
  obtain ⟨rest, hrest⟩ : ∃ rest, rest = 'T' :: (formatInt 2 hour ++ ':' :: (formatInt 2 minute ++
      ':' :: (formatInt 2 second ++ (fraction ++ zone)))) := ⟨_, rfl⟩
  have htime' : readTime rest = .ok (⟨hour, minute, second, millisecond⟩, offsetMinutes, []) := by
    rw [hrest, readTime, if_pos (.inl rfl), readClock_formatInt (by omega) (by omega) (by omega)]
    dsimp only
    rw [hfraction, readFraction_formatInt (by omega) hhead]
    change (readZone zone >>= _) = _
    rw [hread]
    rfl
  have hfractionLength : fraction.length ≤ 4 := by
    rw [hfraction]
    split
    · rw [List.length_cons, length_formatInt (by omega) (by omega) (by omega)]
    · exact Nat.zero_le _
  have htext : formatIso ⟨⟨year, month, day⟩, ⟨hour, minute, second, millisecond⟩⟩ offsetMinutes
      = some (yearText year ++ '-' :: (formatInt 2 month ++ '-' :: (formatInt 2 day ++ rest))) := by
    have htwo : ∀ x : ℤ, 0 ≤ x ∧ x < 100 → (formatInt 2 x).length = 2 := fun x hx =>
      length_formatInt (by omega) hx.1 (by omega)
    have hyearLength := length_yearText hbound
    rw [formatIso, hzone]
    simp only [Option.bind_eq_bind, Option.bind_some, List.append_assoc, List.cons_append,
      ← hfraction, ← hrest, formatYear_eq hbound]
    rw [snprintf, List.take_of_length_le]
    · rfl
    · -- at most 36 characters, where the buffer has room for 63
      simp only [hrest, List.length_append, List.length_cons, htwo month (by omega),
        htwo day (by omega), htwo hour (by omega), htwo minute (by omega), htwo second (by omega)]
      omega
  exact ⟨_, htext, parseIso_yearText hbound (by omega) (by omega) htime'⟩

/-- A year before the year 1, a fraction with zeros in front and a zone west of Greenwich. -/
theorem parseIso_formatIso_negative :
    ∃ text, formatIso ⟨⟨-44, 3, 15⟩, ⟨12, 0, 59, 7⟩⟩ (-90) = some text ∧
      parseIso text = .ok (⟨⟨-44, 3, 15⟩, ⟨12, 0, 59, 7⟩⟩, -90) :=
  @parseIso_formatIso _ _ _ _ _ _ _ _ ⟨-44, 3, 15⟩ ⟨12, 0, 59, 7⟩ rfl rfl (by decide) (by decide)

end DateTime

end Absolute
