import Absolute.RtDateTime

/-!
# Civil time is the calendar

The fields of a time stamp are those of the calendar's date and of the rest of the day, and going
back from them computes the same time stamp, as long as whole seconds in milliseconds stay in
`int64`.
-/

namespace Absolute

namespace DateTime

open Calendar (Date dayNumber ofDayNumber daysBeforeYearOfEra daysOfMarchMonths yearOfEra ofMarch)

/-! ## Machine integers -/

theorem int32_eq {x : ℤ} (h : IsInt32 x) : int32 x = some x := if_pos h

theorem int64_eq {x : ℤ} (h : IsInt64 x) : int64 x = some x := if_pos h

theorem uint32_eq {x : ℤ} (h : 0 ≤ x) (h' : x < 4294967296) : uint32 x = x := Int.emod_eq_of_lt h h'

theorem toInt32_eq {x : ℤ} (h : IsInt32 x) : toInt32 x = x := by
  unfold IsInt32 at h
  exact Int.bmod_eq_of_le (by omega) (by omega)

/-- Division towards zero after a shift of the negative rounds down. -/
theorem tdiv_floor (x : ℤ) {n : ℤ} (h : 0 < n) :
    (if x ≥ 0 then x else x - (n - 1)).tdiv n = x / n := by
  split
  · rename_i hx
    exact Int.tdiv_eq_ediv_of_nonneg hx
  · rename_i hx
    have hlt := Int.emod_lt_of_pos x h
    have hsplit : x - (n - 1) = -(n - 1 - x % n + n * -(x / n)) := by
      have := Int.emod_add_mul_ediv x n
      rw [Int.mul_neg]
      omega
    have hzero : (n - 1 - x % n) / n = 0 :=
      Int.ediv_eq_zero_of_lt (by omega) (by have := Int.emod_nonneg x h.ne'; omega)
    have hle : 0 ≤ n - 1 - x % n + n * -(x / n) := by omega
    rw [hsplit, Int.neg_tdiv, Int.tdiv_eq_ediv_of_nonneg hle, Int.add_mul_ediv_left _ _ h.ne',
      hzero]
    omega

/-- A negative remainder of division towards zero, and how it is made one of rounding down. -/
theorem tmod_cases (x : ℤ) {n : ℤ} (h : 0 < n) :
    (x.tmod n < 0 ∧ x.tdiv n - 1 = x / n ∧ x.tmod n + n = x % n) ∨
      (¬x.tmod n < 0 ∧ x.tdiv n = x / n ∧ x.tmod n = x % n) := by
  have hlt := Int.emod_lt_of_pos x h
  have hnonneg := Int.emod_nonneg x h.ne'
  rw [Int.tdiv_eq_ediv, Int.tmod_eq_emod, Int.sign_eq_one_of_pos h]
  by_cases hexact : 0 ≤ x ∨ n ∣ x
  · rw [if_pos hexact, if_pos hexact]
    exact .inr ⟨by omega, by omega, by omega⟩
  · rw [if_neg hexact, if_neg hexact]
    exact .inl ⟨by omega, by omega, by omega⟩

/-! ## Days -/

/-- The number of the first of January 1970. -/
def epoch : ℤ := 719162

theorem civilFromDays_eq {days : ℤ} (h : -200000000000 ≤ days) (h' : days ≤ 200000000000) :
    civilFromDays days = some (ofDayNumber (days + epoch)) := by
  obtain ⟨shifted, hshifted⟩ : ∃ shifted, shifted = days + 719468 := ⟨_, rfl⟩
  obtain ⟨era, hera⟩ : ∃ era, era = shifted / 146097 := ⟨_, rfl⟩
  obtain ⟨doe, hdoe⟩ : ∃ doe, doe = shifted % 146097 := ⟨_, rfl⟩
  obtain ⟨yoe, hyoe⟩ : ∃ yoe, yoe = yearOfEra doe := ⟨_, rfl⟩
  obtain ⟨doy, hdoy⟩ : ∃ doy, doy = doe - daysBeforeYearOfEra yoe := ⟨_, rfl⟩
  obtain ⟨mp, hmp⟩ : ∃ mp, mp = (5 * doy + 2) / 153 := ⟨_, rfl⟩
  have hyear := Calendar.yearOfEra_spec doe (by omega) (by omega)
  rw [← hyoe, ← hdoy] at hyear
  obtain ⟨hzero, hlt, hle, hlength⟩ := hyear
  have hlength' := Calendar.yearLength_cases (yoe + 1)
  have hbefore : daysBeforeYearOfEra yoe = 365 * yoe + yoe / 4 - yoe / 100 := rfl
  have hdate : ofDayNumber (days + epoch)
      = ofMarch (400 * era + yoe) mp (doy - daysOfMarchMonths mp + 1) := by
    rw [hmp, hdoy, hyoe, hera, hdoe, hshifted, ofDayNumber, epoch, add_assoc]
    rfl
  have hfloor : (if shifted ≥ 0 then some shifted else int64 (shifted - 146096))
      = some (if shifted ≥ 0 then shifted else shifted - (146097 - 1)) := by
    split
    · rfl
    · exact int64_eq ⟨by omega, by omega⟩
  have hyoe' : uint32 (doe - doe / 1460 + doe / 36524 - doe / 146096) / 365 = yoe := by
    rw [uint32_eq (by omega) (by omega), hyoe, yearOfEra]
  have hdoy' : uint32 (doe - (365 * yoe + yoe / 4 - yoe / 100)) = doy := by
    rw [uint32_eq (by omega) (by omega), hdoy, hbefore]
  have hmp' : uint32 (5 * doy + 2) / 153 = mp := by
    rw [uint32_eq (by omega) (by omega), hmp]
  have hday : toInt32 (uint32 (doy - uint32 (153 * mp + 2) / 5 + 1))
      = doy - daysOfMarchMonths mp + 1 := by
    rw [uint32_eq (x := 153 * mp + 2) (by omega) (by omega), daysOfMarchMonths,
      uint32_eq (by omega) (by omega), toInt32_eq ⟨by omega, by omega⟩]
  have hmonth : toInt32 (uint32 (if mp < 10 then mp + 3 else mp - 9))
      = if mp < 10 then mp + 3 else mp - 9 := by
    have hbound : 0 ≤ (if mp < 10 then mp + 3 else mp - 9) ∧
        (if mp < 10 then mp + 3 else mp - 9) ≤ 12 := by split <;> omega
    rw [uint32_eq (by omega) (by omega), toInt32_eq ⟨by omega, by omega⟩]
  have hdoe' : uint32 (shifted - era * 146097) = doe := by
    rw [uint32_eq (by omega) (by omega)]
    omega
  have hyear' : toInt32
      (yoe + era * 400 + if (if mp < 10 then mp + 3 else mp - 9) ≤ 2 then 1 else 0)
        = yoe + era * 400 + if (if mp < 10 then mp + 3 else mp - 9) ≤ 2 then 1 else 0 := by
    refine toInt32_eq ?_
    split <;> exact ⟨by omega, by omega⟩
  have hlast : int64 (yoe + era * 400 + if (if mp < 10 then mp + 3 else mp - 9) ≤ 2 then 1 else 0)
      = some (yoe + era * 400 + if (if mp < 10 then mp + 3 else mp - 9) ≤ 2 then 1 else 0) := by
    refine int64_eq ?_
    split <;> exact ⟨by omega, by omega⟩
  rw [civilFromDays, int64_eq ⟨by omega, by omega⟩, ← hshifted, hdate]
  simp only [Option.bind_eq_bind, Option.bind_some, hfloor]
  rw [tdiv_floor shifted (by omega), ← hera, int64_eq (x := era * 146097) ⟨by omega, by omega⟩,
    Option.bind_some, int64_eq (x := shifted - era * 146097) ⟨by omega, by omega⟩, Option.bind_some,
    int64_eq (x := era * 400) ⟨by omega, by omega⟩, Option.bind_some]
  simp only [hdoe', hyoe']
  rw [int64_eq (x := yoe + era * 400) ⟨by omega, by omega⟩, Option.bind_some]
  simp only [hdoy', hmp', hday, hmonth, hlast, hyear', Option.bind_some]
  refine congrArg some ?_
  rw [ofMarch, add_comm yoe, mul_comm era]
  split
  · rw [if_neg (by omega), add_zero]
  · rw [if_pos (by omega)]

/-- The other way, for years that an `int32` has the start of an era before. -/
theorem daysFromCivil_eq {d : Date} (h : d.Valid) (hyear : IsInt32 d.year)
    (hmarch : -2147483249 ≤ d.marchYear) : daysFromCivil d = some (dayNumber d - epoch) := by
  unfold IsInt32 at hyear
  obtain ⟨hone, htwelve, hday, hlength⟩ := h
  obtain ⟨year, hmarchYear⟩ : ∃ year, year = d.marchYear := ⟨_, rfl⟩
  obtain ⟨mp, hmarchMonth⟩ : ∃ mp, mp = d.marchMonth := ⟨_, rfl⟩
  have hbound : -2147483249 ≤ year ∧ year ≤ 2147483647 := by
    refine ⟨hmarchYear ▸ hmarch, ?_⟩
    rw [hmarchYear, Date.marchYear]
    split <;> omega
  have hmp : 0 ≤ mp ∧ mp ≤ 11 := by
    rw [hmarchMonth, Date.marchMonth]
    split <;> omega
  have hlast : d.day ≤ 31 := by
    refine hlength.trans ?_
    unfold Calendar.monthLength
    split
    · split <;> omega
    · split <;> omega
  have hfirst : (if d.month ≤ 2 then int32 (d.year - 1) else some d.year) = some year := by
    rw [hmarchYear, Date.marchYear] at *
    split
    · rename_i hjan
      rw [if_pos hjan] at hbound
      exact int32_eq ⟨by omega, by omega⟩
    · rfl
  have hshift : (if year ≥ 0 then some year else int32 (year - 399))
      = some (if year ≥ 0 then year else year - (400 - 1)) := by
    split
    · rfl
    · exact int32_eq ⟨by omega, by omega⟩
  have hmonth : (if d.month > 2 then d.month - 3 else d.month + 9) = mp := by
    rw [hmarchMonth, Date.marchMonth]
  obtain ⟨yoe, hyoe⟩ : ∃ yoe, yoe = year % 400 := ⟨_, rfl⟩
  have hyoe' : uint32 (year - year / 400 * 400) = yoe := by
    rw [uint32_eq (by omega) (by omega)]
    omega
  have hdoy : uint32 ((153 * mp + 2).tdiv 5 + d.day - 1) = daysOfMarchMonths mp + d.day - 1 := by
    rw [Int.tdiv_eq_ediv_of_nonneg (by omega), daysOfMarchMonths,
      uint32_eq (by omega) (by omega)]
  have hdoe : uint32 (yoe * 365 + yoe / 4 - yoe / 100 + (daysOfMarchMonths mp + d.day - 1))
      = daysBeforeYearOfEra yoe + daysOfMarchMonths mp + d.day - 1 := by
    rw [daysOfMarchMonths, daysBeforeYearOfEra, uint32_eq (by omega) (by omega)]
    omega
  have hsmall : 0 ≤ daysBeforeYearOfEra yoe + daysOfMarchMonths mp + d.day - 1 ∧
      daysBeforeYearOfEra yoe + daysOfMarchMonths mp + d.day - 1 ≤ 146100 := by
    unfold daysBeforeYearOfEra daysOfMarchMonths
    omega
  rw [Date.Valid.dayNumber_eq ⟨hone, htwelve, hday, hlength⟩, ← hmarchYear, ← hmarchMonth, ← hyoe,
    epoch, daysFromCivil]
  simp only [Option.bind_eq_bind, hfirst, Option.bind_some, hshift, hmonth]
  rw [tdiv_floor year (by omega), int64_eq (x := year / 400 * 400) ⟨by omega, by omega⟩,
    Option.bind_some, int64_eq (x := year - year / 400 * 400) ⟨by omega, by omega⟩,
    Option.bind_some, int32_eq (x := mp) ⟨by omega, by omega⟩, Option.bind_some,
    int32_eq (x := 153 * mp) ⟨by omega, by omega⟩, Option.bind_some,
    int32_eq (x := 153 * mp + 2) ⟨by omega, by omega⟩, Option.bind_some,
    int64_eq (x := year / 400 * 146097) ⟨by omega, by omega⟩, Option.bind_some]
  simp only [hyoe', hdoy, hdoe]
  rw [int64_eq ⟨by omega, by omega⟩, Option.bind_some, int64_eq ⟨by omega, by omega⟩]
  refine congrArg some ?_
  omega

theorem daysFromCivil_none {d : Date} (hmarch : d.marchYear < -2147483249) :
    daysFromCivil d = none := by
  have hshift : ∀ year, year < -2147483249 → int32 (year - 399) = none := fun year hyear =>
    if_neg fun h => by
      unfold IsInt32 at h
      omega
  rw [daysFromCivil]
  unfold Date.marchYear at hmarch
  split at hmarch
  · rename_i hjan
    rw [if_pos hjan]
    cases hyear : int32 (d.year - 1) with
    | none => rfl
    | some year =>
        obtain rfl : d.year - 1 = year := by
          unfold int32 at hyear
          split at hyear
          · exact Option.some.inj hyear
          · cases hyear
        simp only [Option.bind_eq_bind, Option.bind_some]
        rw [if_neg (by omega), hshift _ hmarch]
        rfl
  · rename_i hjan
    rw [if_neg hjan]
    simp only [Option.bind_eq_bind, Option.bind_some]
    rw [if_neg (by omega), hshift _ hmarch]
    rfl

/-! ## Milliseconds -/

structure Time.Valid (t : Time) : Prop where
  hour : 0 ≤ t.hour ∧ t.hour ≤ 23
  minute : 0 ≤ t.minute ∧ t.minute ≤ 59
  second : 0 ≤ t.second ∧ t.second ≤ 59
  millisecond : 0 ≤ t.millisecond ∧ t.millisecond ≤ 999

structure Civil.Valid (c : Civil) : Prop where
  date : c.date.Valid
  time : c.time.Valid

/-- The whole seconds of the fields since 1970, where no zone is counted. -/
def Civil.seconds (c : Civil) : ℤ :=
  (dayNumber c.date - epoch) * 86400 + c.time.hour * 3600 + c.time.minute * 60 + c.time.second

def Civil.millis (c : Civil) : ℤ := c.seconds * 1000 + c.time.millisecond

/-- The fields of a number of milliseconds. -/
def civilAt (millis : ℤ) : Civil where
  date := ofDayNumber (millis / 86400000 + epoch)
  time := ⟨millis / 1000 % 86400 / 3600, millis / 1000 % 86400 % 3600 / 60,
    millis / 1000 % 86400 % 60, millis % 1000⟩

theorem civilAt_valid (millis : ℤ) : (civilAt millis).Valid where
  date := (Calendar.ofDayNumber_spec _).1
  time := ⟨by dsimp only [civilAt]; omega, by dsimp only [civilAt]; omega,
    by dsimp only [civilAt]; omega, by dsimp only [civilAt]; omega⟩

theorem millis_civilAt (millis : ℤ) : (civilAt millis).millis = millis := by
  dsimp only [Civil.millis, Civil.seconds, civilAt]
  rw [(Calendar.ofDayNumber_spec _).2]
  omega

theorem civilAt_millis {c : Civil} (h : c.Valid) : civilAt c.millis = c := by
  obtain ⟨hdate, ⟨hhour, hminute, hsecond, hmillisecond⟩⟩ := h
  have hday : c.millis / 86400000 + epoch = dayNumber c.date := by
    unfold Civil.millis Civil.seconds
    omega
  have hrest : c.millis / 1000 % 86400
      = c.time.hour * 3600 + c.time.minute * 60 + c.time.second := by
    unfold Civil.millis Civil.seconds
    omega
  have hmillis : c.millis % 1000 = c.time.millisecond := by
    unfold Civil.millis
    omega
  rw [civilAt, hday, hrest, hmillis, Calendar.ofDayNumber_dayNumber hdate]
  obtain ⟨date, hour, minute, second, millisecond⟩ := c
  simp only [Civil.mk.injEq, Time.mk.injEq, true_and, and_true]
  dsimp only at hhour hminute hsecond
  omega

theorem carry_eq {x : ℤ} {unit : ℤ} (hunit : 0 < unit) (hle : unit ≤ 86400)
    (hdiv : IsInt64 (x / unit)) :
    carry (toInt32 (x.tmod unit)) (x.tdiv unit) unit = some (x % unit, x / unit) := by
  have hlt := Int.emod_lt_of_pos x hunit
  have hnonneg := Int.emod_nonneg x hunit.ne'
  rcases tmod_cases x hunit with ⟨hneg, hdown, hup⟩ | ⟨hneg, hdown, hup⟩
  · rw [carry, toInt32_eq ⟨by omega, by omega⟩, if_pos hneg, hup, hdown,
      int32_eq ⟨by omega, by omega⟩, int64_eq hdiv]
    rfl
  · rw [carry, hup, toInt32_eq ⟨by omega, by omega⟩, if_neg (by omega), hdown]

theorem civilFromUnixMillis_eq {unixMillis offsetMinutes : ℤ} (hoffset : IsInt32 offsetMinutes)
    (hsum : IsInt64 (unixMillis + offsetMinutes * 60000)) :
    civilFromUnixMillis unixMillis offsetMinutes
      = some (civilAt (unixMillis + offsetMinutes * 60000)) := by
  unfold IsInt32 at hoffset
  obtain ⟨millis, hmillis⟩ : ∃ millis, millis = unixMillis + offsetMinutes * 60000 := ⟨_, rfl⟩
  rw [← hmillis] at hsum ⊢
  have hbound := hsum
  unfold IsInt64 at hbound
  have hdays : millis / 1000 / 86400 + epoch = millis / 86400000 + epoch := by omega
  rw [civilFromUnixMillis, int64_eq (x := offsetMinutes * 60000) ⟨by omega, by omega⟩]
  simp only [Option.bind_eq_bind, Option.bind_some, ← hmillis]
  rw [int64_eq hsum, Option.bind_some, carry_eq (by omega) (by omega) ⟨by omega, by omega⟩,
    Option.bind_some, carry_eq (by omega) (by omega) ⟨by omega, by omega⟩, Option.bind_some,
    civilFromDays_eq (by omega) (by omega), Option.bind_some, hdays]
  have hsecs : 0 ≤ millis / 1000 % 86400 := by omega
  have hhour : 0 ≤ millis / 1000 % 86400 % 3600 := by omega
  rw [Int.tdiv_eq_ediv_of_nonneg hsecs, Int.tmod_eq_emod_of_nonneg hsecs,
    Int.tmod_eq_emod_of_nonneg hsecs, Int.tdiv_eq_ediv_of_nonneg hhour]
  rfl

/-- The seconds, the milliseconds and the time stamp all fit. -/
def Civil.Fits (c : Civil) (offsetMinutes : ℤ) : Prop :=
  IsInt64 (c.seconds * 1000) ∧ IsInt64 c.millis ∧ IsInt64 (c.millis - offsetMinutes * 60000)

instance (c : Civil) (offsetMinutes : ℤ) : Decidable (c.Fits offsetMinutes) :=
  inferInstanceAs (Decidable (_ ∧ _ ∧ _))

theorem int64_of_not {x : ℤ} (h : ¬IsInt64 x) : int64 x = none := if_neg h

theorem dayNumber_bounds {d : Date} (h : d.Valid) :
    365 * (d.year - 1) + (d.year - 1) / 4 - (d.year - 1) / 100 + (d.year - 1) / 400 ≤ dayNumber d ∧
      dayNumber d ≤
        365 * (d.year - 1) + (d.year - 1) / 4 - (d.year - 1) / 100 + (d.year - 1) / 400 + 365 := by
  have hnonneg := h.dayOfYear_nonneg
  have hlt := h.dayOfYear_lt
  have hlength := Calendar.yearLength_cases d.year
  unfold dayNumber Calendar.daysBeforeYear
  omega

theorem civilToUnixMillis_eq {c : Civil} {offsetMinutes : ℤ} (h : c.Valid)
    (hyear : IsInt32 c.date.year) (hoffset : IsInt32 offsetMinutes) :
    civilToUnixMillis c offsetMinutes =
      if c.Fits offsetMinutes then some (c.millis - offsetMinutes * 60000) else none := by
  obtain ⟨hdate, ⟨hhour, hminute, hsecond, hmillisecond⟩⟩ := h
  have hnumber := dayNumber_bounds hdate
  by_cases hmarch : -2147483249 ≤ c.date.marchYear
  · unfold IsInt32 at hyear hoffset
    have hseconds : c.seconds = (dayNumber c.date - epoch) * 86400 + c.time.hour * 3600
        + c.time.minute * 60 + c.time.second := rfl
    rw [civilToUnixMillis, daysFromCivil_eq hdate hyear hmarch]
    simp only [Option.bind_eq_bind, Option.bind_some]
    unfold epoch at hseconds ⊢
    rw [int64_eq (x := (dayNumber c.date - 719162) * 86400) ⟨by omega, by omega⟩, Option.bind_some,
      int32_eq (x := c.time.hour * 3600) ⟨by omega, by omega⟩, Option.bind_some,
      int64_eq (x := _ + c.time.hour * 3600) ⟨by omega, by omega⟩, Option.bind_some,
      int32_eq (x := c.time.minute * 60) ⟨by omega, by omega⟩, Option.bind_some,
      int64_eq (x := _ + c.time.minute * 60) ⟨by omega, by omega⟩, Option.bind_some, ← hseconds,
      int64_eq (x := c.seconds) ⟨by omega, by omega⟩, Option.bind_some]
    -- what is left to fit: the seconds in milliseconds, the milliseconds, the time stamp
    by_cases hwhole : IsInt64 (c.seconds * 1000)
    · rw [int64_eq hwhole, Option.bind_some]
      by_cases hmillis : IsInt64 c.millis
      · rw [int64_eq (x := c.seconds * 1000 + c.time.millisecond) hmillis, Option.bind_some,
          int64_eq (x := offsetMinutes * 60000) ⟨by omega, by omega⟩, Option.bind_some]
        by_cases hstamp : IsInt64 (c.millis - offsetMinutes * 60000)
        · rw [if_pos (show c.Fits offsetMinutes from ⟨hwhole, hmillis, hstamp⟩)]
          exact int64_eq hstamp
        · rw [if_neg (show ¬c.Fits offsetMinutes from fun hall => hstamp hall.2.2)]
          exact int64_of_not hstamp
      · rw [if_neg (show ¬c.Fits offsetMinutes from fun hall => hmillis hall.2.1),
          int64_of_not (x := c.seconds * 1000 + c.time.millisecond) hmillis]
        rfl
    · rw [if_neg (show ¬c.Fits offsetMinutes from fun hall => hwhole hall.1), int64_of_not hwhole]
      rfl
  · have hlow : c.date.year ≤ -2147483249 := by
      unfold Date.marchYear at hmarch
      split at hmarch <;> omega
    rw [civilToUnixMillis, daysFromCivil_none (by omega), if_neg]
    · rfl
    · rintro ⟨⟨hwhole, -⟩, -⟩
      unfold Civil.seconds epoch at hwhole
      omega

/-! ## `std.datetime` -/

theorem tmod_eq_zero_iff {x n : ℤ} : x.tmod n = 0 ↔ n ∣ x := (Int.dvd_iff_tmod_eq_zero).symm

theorem isLeapYear_iff {year : ℤ} : isLeapYear year = true ↔ Calendar.IsLeap year := by
  unfold isLeapYear Calendar.IsLeap
  simp only [tmod_eq_zero_iff]
  split
  · rename_i hcentury
    exact iff_of_true rfl ⟨by omega, fun _ => hcentury⟩
  · rename_i hcentury
    split
    · rename_i hhundred
      exact iff_of_false Bool.false_ne_true fun hleap => hcentury (hleap.2 hhundred)
    · rename_i hhundred
      rw [decide_eq_true_iff]
      exact ⟨fun hfour => ⟨hfour, fun h => absurd h hhundred⟩, And.left⟩

theorem daysInMonth_eq (year month : ℤ) :
    daysInMonth year month = Calendar.monthLength year month := by
  unfold daysInMonth Calendar.monthLength
  simp only [isLeapYear_iff]

theorem createDate_eq {d : Date} (h : d.Valid) : createDate d.year d.month d.day = .ok d := by
  obtain ⟨hone, htwelve, hday, hlength⟩ := h
  rw [createDate, if_neg (by omega), daysInMonth_eq, if_neg (by omega)]

theorem createTime_eq {t : Time} (h : t.Valid) :
    createTime t.hour t.minute t.second t.millisecond = .ok t := by
  obtain ⟨hhour, hminute, hsecond, hmillisecond⟩ := h
  rw [createTime, if_neg (by omega), if_neg (by omega), if_neg (by omega), if_neg (by omega)]

/-! ## There and back -/

theorem seconds_civilAt (millis : ℤ) : (civilAt millis).seconds = millis / 1000 := by
  dsimp only [Civil.seconds, civilAt]
  rw [(Calendar.ofDayNumber_spec _).2]
  omega

theorem fromUnixMillis_eq {unixMillis offsetMinutes : ℤ} (hoffset : IsInt32 offsetMinutes)
    (hsum : IsInt64 (unixMillis + offsetMinutes * 60000)) (name : String) :
    fromUnixMillis unixMillis ⟨offsetMinutes, name⟩ =
      let c := civilAt (unixMillis + offsetMinutes * 60000)
      some (.ok ⟨c.date, c.time, ⟨offsetMinutes, name⟩⟩) := by
  have hvalid := civilAt_valid (unixMillis + offsetMinutes * 60000)
  rw [fromUnixMillis, civilFromUnixMillis_eq hoffset hsum, Option.bind_eq_bind, Option.bind_some,
    createDate_eq hvalid.date, createTime_eq hvalid.time]
  rfl

/-- A time stamp whose sum with the zone fits has valid fields, which `fromUnixMillis` takes; they
lead back to it where its whole seconds fit in milliseconds. Valid fields that fit lead to a time
stamp with these fields, and to none where they do not. -/
theorem civil_round_trip :
    (∀ unixMillis offsetMinutes : ℤ, IsInt64 unixMillis → IsInt32 offsetMinutes →
      IsInt64 (unixMillis + offsetMinutes * 60000) →
      ∃ c : Civil, civilFromUnixMillis unixMillis offsetMinutes = some c ∧ c.Valid ∧
        (∀ name, fromUnixMillis unixMillis ⟨offsetMinutes, name⟩
          = some (.ok ⟨c.date, c.time, ⟨offsetMinutes, name⟩⟩)) ∧
        civilToUnixMillis c offsetMinutes =
          if -9223372036854775000 ≤ unixMillis + offsetMinutes * 60000 then some unixMillis
          else none) ∧
    (∀ (c : Civil) (offsetMinutes : ℤ), c.Valid → IsInt32 c.date.year → IsInt32 offsetMinutes →
      if c.Fits offsetMinutes then
        ∃ unixMillis, civilToUnixMillis c offsetMinutes = some unixMillis ∧
          civilFromUnixMillis unixMillis offsetMinutes = some c
      else civilToUnixMillis c offsetMinutes = none) := by
  constructor
  · intro unixMillis offsetMinutes hunix hoffset hsum
    have hfrom := civilFromUnixMillis_eq hoffset hsum
    have hvalid := civilAt_valid (unixMillis + offsetMinutes * 60000)
    have hseconds := seconds_civilAt (unixMillis + offsetMinutes * 60000)
    have hmillis := millis_civilAt (unixMillis + offsetMinutes * 60000)
    refine ⟨_, hfrom, hvalid, fromUnixMillis_eq hoffset hsum, ?_⟩
    · have hyear : IsInt32 (civilAt (unixMillis + offsetMinutes * 60000)).date.year := by
        have hnumber := dayNumber_bounds hvalid.date
        obtain ⟨hhour, hminute, hsecond, -⟩ := hvalid.time
        have hday := hseconds
        unfold Civil.seconds epoch at hday
        unfold IsInt64 at hsum
        exact ⟨by omega, by omega⟩
      rw [civilToUnixMillis_eq hvalid hyear hoffset, hmillis, Int.add_sub_cancel]
      refine if_congr ?_ rfl rfl
      unfold Civil.Fits
      rw [hseconds, hmillis, Int.add_sub_cancel]
      unfold IsInt64 at *
      omega
  · intro c offsetMinutes hvalid hyear hoffset
    rw [civilToUnixMillis_eq hvalid hyear hoffset]
    split
    · rename_i hfits
      refine ⟨_, rfl, ?_⟩
      rw [civilFromUnixMillis_eq hoffset (by rw [Int.sub_add_cancel]; exact hfits.2.1),
        Int.sub_add_cancel, civilAt_millis hvalid]
    · rfl

/-- The last millisecond before 1970 in a zone west of Greenwich, and a leap day in one east. -/
theorem civil_round_trip_leap_day :
    (∃ c : Civil, civilFromUnixMillis (-1) (-90) = some c ∧ c.Valid ∧
      (∀ name, fromUnixMillis (-1) ⟨-90, name⟩ = some (.ok ⟨c.date, c.time, ⟨-90, name⟩⟩)) ∧
      civilToUnixMillis c (-90) =
        if -9223372036854775000 ≤ (-1 : ℤ) + -90 * 60000 then some (-1) else none) ∧
    (if (⟨⟨2024, 2, 29⟩, ⟨23, 59, 59, 999⟩⟩ : Civil).Fits 330 then
      ∃ unixMillis, civilToUnixMillis ⟨⟨2024, 2, 29⟩, ⟨23, 59, 59, 999⟩⟩ 330 = some unixMillis ∧
        civilFromUnixMillis unixMillis 330 = some ⟨⟨2024, 2, 29⟩, ⟨23, 59, 59, 999⟩⟩
    else civilToUnixMillis ⟨⟨2024, 2, 29⟩, ⟨23, 59, 59, 999⟩⟩ 330 = none) := by
  have hvalid : (⟨⟨2024, 2, 29⟩, ⟨23, 59, 59, 999⟩⟩ : Civil).Valid :=
    ⟨⟨by decide, by decide, by decide, by decide⟩, ⟨by decide, by decide, by decide, by decide⟩⟩
  exact ⟨civil_round_trip.1 (-1) (-90) (by decide) (by decide) (by decide),
    civil_round_trip.2 ⟨⟨2024, 2, 29⟩, ⟨23, 59, 59, 999⟩⟩ 330 hvalid (by decide) (by decide)⟩

/-- The first time stamp has fields whose whole seconds do not fit in milliseconds; and the year of
the last time stamp has a last day whose milliseconds do not fit. -/
theorem not_civil_round_trip :
    (civilFromUnixMillis (-9223372036854775808) 0
        = some ⟨⟨-292275055, 5, 16⟩, ⟨16, 47, 4, 192⟩⟩ ∧
      civilToUnixMillis ⟨⟨-292275055, 5, 16⟩, ⟨16, 47, 4, 192⟩⟩ 0 = none) ∧
    ((civilFromUnixMillis 9223372036854775807 0).map (fun c => c.date.year) = some 292278994 ∧
      createDate 292278994 12 31 = .ok ⟨292278994, 12, 31⟩ ∧
      civilToUnixMillis ⟨⟨292278994, 12, 31⟩, ⟨0, 0, 0, 0⟩⟩ 0 = none) :=
  ⟨⟨rfl, rfl⟩, rfl, rfl, rfl⟩

end DateTime

end Absolute
