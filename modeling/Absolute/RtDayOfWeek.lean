import Absolute.RtDateTimeRoundTrip

/-!
# The day of the week

`dayOfWeek` and `addDays` of `std/datetime.abs`. Years are counted from March on and divided
towards zero, which is the calendar's count of leap days from the first of March of the year 0 on.
Before it the sum is one too large after a common year, and below zero it has remainders that name
no day.
-/

namespace Absolute

namespace DateTime

open Calendar (Date dayNumber IsLeap monthLength daysOfMarchMonths daysBeforeYearOfEra)

/-! ## The code -/

/-- `t`, what the code adds for a month. -/
def monthShift (m : ℤ) : ℤ :=
  if m = 1 then 0 else if m = 2 then 3 else if m = 3 then 2 else if m = 4 then 5
  else if m = 5 then 0 else if m = 6 then 3 else if m = 7 then 5 else if m = 8 then 1
  else if m = 9 then 4 else if m = 10 then 6 else if m = 11 then 2 else if m = 12 then 4
  else 0

def dayOfWeek (d : Date) : ℤ :=
  let y := if d.month < 3 then toInt32 (d.year - 1) else d.year
  let t := monthShift d.month
  let res := (toInt32 (y + y.tdiv 4 - y.tdiv 100 + y.tdiv 400 + t + d.day)).tmod 7
  if res = 0 then 7 else res

/-- `int64` of the language, which wraps around. -/
def toInt64 (x : ℤ) : ℤ := x.bmod 18446744073709551616

def utcZone : TimeZone := ⟨0, "UTC"⟩

def addDays (d : Date) (days : ℤ) : Option (Except String Date) := do
  let millis ← civilToUnixMillis ⟨d, ⟨0, 0, 0, 0⟩⟩ 0
  let newMillis := toInt64 (millis + days * 86400000)
  return (← fromUnixMillis newMillis utcZone).map (·.date)

/-! ## The next day -/

/-- The time stamp of a date's first millisecond. -/
def midnight (d : Date) : ℤ := (dayNumber d - epoch) * 86400000

theorem seconds_midnight (d : Date) :
    (⟨d, ⟨0, 0, 0, 0⟩⟩ : Civil).seconds = (dayNumber d - epoch) * 86400 := by
  simp [Civil.seconds]

theorem millis_midnight (d : Date) : (⟨d, ⟨0, 0, 0, 0⟩⟩ : Civil).millis = midnight d := by
  rw [Civil.millis, seconds_midnight, midnight]
  dsimp only
  omega

theorem addDays_one {d : Date} (h : d.Valid) (hyear : IsInt32 d.year)
    (hfits : IsInt64 (midnight d)) (hnext : IsInt64 (midnight d + 86400000)) :
    addDays d 1 = some (.ok d.next) := by
  have htime : (⟨0, 0, 0, 0⟩ : Time).Valid := ⟨by decide, by decide, by decide, by decide⟩
  have hvalid : (⟨d, ⟨0, 0, 0, 0⟩⟩ : Civil).Valid := ⟨h, htime⟩
  have hseconds : (⟨d, ⟨0, 0, 0, 0⟩⟩ : Civil).seconds * 1000 = midnight d := by
    rw [seconds_midnight, midnight]
    omega
  have hFits : (⟨d, ⟨0, 0, 0, 0⟩⟩ : Civil).Fits 0 := by
    unfold Civil.Fits
    rw [hseconds, millis_midnight, Int.zero_mul, Int.sub_zero]
    exact ⟨hfits, hfits, hfits⟩
  have hdate : (civilAt (midnight d + 86400000)).date = d.next := by
    have hday : (midnight d + 86400000) / 86400000 + epoch = dayNumber d.next := by
      rw [h.dayNumber_next]
      unfold midnight
      omega
    rw [civilAt, hday, Calendar.ofDayNumber_dayNumber h.next]
  have hwrap : toInt64 (midnight d + 86400000) = midnight d + 86400000 := by
    unfold IsInt64 at hnext
    exact Int.bmod_eq_of_le (by omega) (by omega)
  have hsum : IsInt64 (midnight d + 86400000 + 0 * 60000) := by rwa [Int.zero_mul, Int.add_zero]
  rw [addDays, civilToUnixMillis_eq hvalid hyear (by decide), if_pos hFits, millis_midnight]
  simp only [Option.bind_eq_bind, Option.bind_some, Int.zero_mul, Int.sub_zero, Int.one_mul]
  rw [hwrap, utcZone, fromUnixMillis_eq (by decide) hsum, Int.zero_mul, Int.add_zero, ← hdate]
  rfl

/-! ## Days of the week and numbers of days -/

theorem monthShift_bounds (m : ℤ) : 0 ≤ monthShift m ∧ monthShift m ≤ 6 := by
  unfold monthShift
  omega

theorem monthShift_march {d : Date} (h : d.Valid) :
    (monthShift d.month - daysOfMarchMonths d.marchMonth - 2) % 7 = 0 := by
  obtain ⟨year, month, day⟩ := d
  have hone := h.one_le_month
  have htwelve := h.month_le
  dsimp only at hone htwelve
  interval_cases month <;> rfl

def yearSum (y : ℤ) : ℤ := y + y.tdiv 4 - y.tdiv 100 + y.tdiv 400

/-- The sum that is reduced to the day of the week. -/
def weekSum (d : Date) : ℤ := yearSum d.marchYear + monthShift d.month + d.day

theorem tdiv_eq_or (x : ℤ) {n : ℤ} (h : 0 < n) :
    (0 ≤ x ∨ n ∣ x) ∧ x.tdiv n = x / n ∨ (x < 0 ∧ ¬n ∣ x) ∧ x.tdiv n = x / n + 1 := by
  rw [Int.tdiv_eq_ediv, Int.sign_eq_one_of_pos h]
  by_cases hexact : 0 ≤ x ∨ n ∣ x
  · exact .inl ⟨hexact, by rw [if_pos hexact, Int.add_zero]⟩
  · exact .inr ⟨by rwa [not_or, not_le] at hexact, by rw [if_neg hexact]⟩

theorem yearSum_cases (y : ℤ) :
    (0 ≤ y ∨ IsLeap y) ∧ yearSum y = y + y / 4 - y / 100 + y / 400 ∨
      (y < 0 ∧ ¬IsLeap y) ∧ yearSum y = y + y / 4 - y / 100 + y / 400 + 1 := by
  have h4 := tdiv_eq_or y (n := 4) (by decide)
  have h100 := tdiv_eq_or y (n := 100) (by decide)
  have h400 := tdiv_eq_or y (n := 400) (by decide)
  unfold yearSum IsLeap
  omega

/-- The count of days by years from March on goes through the days of the week. -/
theorem dayNumber_mod {d : Date} (h : d.Valid) :
    (d.marchYear + d.marchYear / 4 - d.marchYear / 100 + d.marchYear / 400 + monthShift d.month
      + d.day - dayNumber d - 1) % 7 = 0 := by
  have hmonth := monthShift_march h
  have hera : d.marchYear + d.marchYear / 4 - d.marchYear / 100 + d.marchYear / 400
      = 497 * (d.marchYear / 400) + d.marchYear % 400 + d.marchYear % 400 / 4
        - d.marchYear % 400 / 100 := by
    omega
  rw [hera, h.dayNumber_eq, daysBeforeYearOfEra]
  omega

/-- From the first of March of the year 0 on, and in a year from March on that is a leap year, the
sum counts the days; elsewhere it is ahead by one. -/
theorem weekSum_mod {d : Date} (h : d.Valid) :
    (0 ≤ d.marchYear ∨ IsLeap d.marchYear) ∧ (weekSum d - dayNumber d - 1) % 7 = 0 ∨
      (d.marchYear < 0 ∧ ¬IsLeap d.marchYear) ∧ (weekSum d - dayNumber d - 2) % 7 = 0 := by
  have hfloor := dayNumber_mod h
  unfold weekSum
  rcases yearSum_cases d.marchYear with ⟨hyear, hsum⟩ | ⟨hyear, hsum⟩
  · exact .inl ⟨hyear, by omega⟩
  · exact .inr ⟨hyear, by omega⟩

theorem dayOfWeek_eq {d : Date} (h : d.Valid) (hyear : -1000000000 ≤ d.year ∧ d.year ≤ 1000000000) :
    dayOfWeek d = if (weekSum d).tmod 7 = 0 then 7 else (weekSum d).tmod 7 := by
  obtain ⟨hmin, hmax⟩ := monthShift_bounds d.month
  have hday := h.one_le_day
  have hlast : d.day ≤ 31 := by
    refine h.day_le.trans ?_
    unfold monthLength
    split
    · split <;> decide
    · split <;> decide
  have hmarch : (if d.month < 3 then toInt32 (d.year - 1) else d.year) = d.marchYear := by
    unfold Date.marchYear
    rw [toInt32_eq ⟨by omega, by omega⟩]
    exact if_congr (by omega) rfl rfl
  have hsum : IsInt32 (weekSum d) := by
    have hbounds : -1000000001 ≤ d.marchYear ∧ d.marchYear ≤ 1000000000 := by
      unfold Date.marchYear
      split <;> omega
    have hyears := yearSum_cases d.marchYear
    unfold weekSum IsInt32
    omega
  have hres : d.marchYear + d.marchYear.tdiv 4 - d.marchYear.tdiv 100 + d.marchYear.tdiv 400
      + monthShift d.month + d.day = weekSum d := rfl
  rw [dayOfWeek, hmarch, hres, toInt32_eq hsum]

theorem weekSum_cases {d : Date} (h : d.Valid)
    (hyear : -1000000000 ≤ d.year ∧ d.year ≤ 1000000000) :
    (0 ≤ weekSum d ∧ dayOfWeek d = (weekSum d - 1) % 7 + 1) ∨
      (weekSum d < 0 ∧ 7 ∣ weekSum d ∧ dayOfWeek d = 7) ∨
      weekSum d < 0 ∧ ¬7 ∣ weekSum d ∧ dayOfWeek d < 0 := by
  rw [dayOfWeek_eq h hyear]
  rcases tmod_cases (weekSum d) (n := 7) (by decide) with ⟨hneg, -, hmod⟩ | ⟨hneg, -, hmod⟩
  · have hsum : weekSum d < 0 := by
      by_contra hnonneg
      exact absurd (Int.tmod_nonneg 7 (not_lt.mp hnonneg)) (not_le.mpr hneg)
    rw [if_neg hneg.ne]
    exact .inr (.inr ⟨hsum, fun h => hneg.ne (tmod_eq_zero_iff.mpr h), hneg⟩)
  · rw [hmod]
    rcases lt_or_ge (weekSum d) 0 with hsum | hsum
    · have hle : (weekSum d).tmod 7 ≤ 0 := by
        have := Int.neg_tmod (-weekSum d) 7
        have := Int.tmod_nonneg 7 (show 0 ≤ -weekSum d by omega)
        rw [neg_neg] at *
        omega
      have hzero : weekSum d % 7 = 0 := by omega
      rw [if_pos hzero]
      exact .inr (.inl ⟨hsum, by omega, rfl⟩)
    · refine .inl ⟨hsum, ?_⟩
      split <;> omega

/-! ## The week goes on -/

/-- A day of the week is named, the next date has the next one, and it is the one of the number of
days, where the first of January 1970 has the day 4. -/
def WeekGoesOn (d : Date) : Prop :=
  (1 ≤ dayOfWeek d ∧ dayOfWeek d ≤ 7) ∧
  (∃ d', addDays d 1 = some (.ok d') ∧
    dayOfWeek d' = if dayOfWeek d = 7 then 1 else dayOfWeek d + 1) ∧
  dayOfWeek d = (dayNumber d - epoch + 3) % 7 + 1

/-- From the first of March of the year 0 on; or in one of the last leap years from March on before
it, on a late enough day of a month. The last day of such a month needs a next month that starts
late enough too, or with the day 7. -/
def CountsRight (d : Date) : Prop :=
  0 ≤ d.marchYear ∨
    ∃ k : ℤ, 0 < k ∧ d.marchYear = -4 * k ∧ 5 * k ≤ monthShift d.month + d.day ∧
      (d.day = monthLength d.year d.month → d.month ≠ 2 ∧
        (5 * k ≤ monthShift (d.month % 12 + 1) + 1 ∨ 7 ∣ 5 * k - monthShift (d.month % 12 + 1) - 1))

/-- The day of the week that the number of days has. -/
theorem right_iff {d : Date} (h : d.Valid) (hyear : -1000000000 ≤ d.year ∧ d.year ≤ 1000000000) :
    dayOfWeek d = (dayNumber d - epoch + 3) % 7 + 1 ↔
      0 ≤ d.marchYear ∨ IsLeap d.marchYear ∧ (0 ≤ weekSum d ∨ 7 ∣ weekSum d) := by
  have hsum : 0 ≤ d.marchYear → 0 ≤ weekSum d := by
    intro hmarch
    have hday := h.one_le_day
    obtain ⟨hmin, -⟩ := monthShift_bounds d.month
    have hyears := yearSum_cases d.marchYear
    unfold weekSum
    omega
  unfold epoch
  rcases weekSum_cases h hyear with ⟨hsign, heq⟩ | ⟨hsign, hseven, heq⟩ | ⟨hsign, hseven, hneg⟩
  · rcases weekSum_mod h with ⟨hleap, hmod⟩ | ⟨⟨hmarch, hleap⟩, hmod⟩
    · exact iff_of_true (by omega) (hleap.imp_right fun hleap => ⟨hleap, .inl hsign⟩)
    · refine iff_of_false (by omega) ?_
      rintro (hnonneg | ⟨hleap', -⟩)
      · omega
      · exact hleap hleap'
  · rcases weekSum_mod h with ⟨hleap, hmod⟩ | ⟨⟨hmarch, hleap⟩, hmod⟩
    · exact iff_of_true (by omega) (hleap.imp_right fun hleap => ⟨hleap, .inr hseven⟩)
    · refine iff_of_false (by omega) ?_
      rintro (hnonneg | ⟨hleap', -⟩)
      · omega
      · exact hleap hleap'
  · refine iff_of_false (by omega) ?_
    rintro (hnonneg | ⟨-, hnonneg | hdvd⟩)
    · have := hsum hnonneg
      omega
    · omega
    · exact hseven hdvd

theorem next_cases {d : Date} (h : d.Valid) :
    (d.day ≠ monthLength d.year d.month ∧ d.next.marchYear = d.marchYear ∧
        d.next.month = d.month ∧ d.next.day = d.day + 1) ∨
      (d.day = monthLength d.year d.month ∧ d.next.day = 1 ∧ d.next.month = d.month % 12 + 1 ∧
        (d.month ≠ 2 ∧ d.next.marchYear = d.marchYear ∨
          d.month = 2 ∧ d.next.marchYear = d.marchYear + 1)) := by
  obtain ⟨hone, htwelve, -, hlast⟩ := h
  unfold Date.next Date.marchYear
  split
  · exact .inl ⟨by omega, rfl, rfl, rfl⟩
  · split
    · refine .inr ⟨by omega, rfl, by dsimp only; omega, ?_⟩
      dsimp only
      omega
    · refine .inr ⟨by omega, rfl, by dsimp only; omega, ?_⟩
      dsimp only
      omega

/-- The leap years before the year 0 whose sums reach zero within a month. -/
theorem late_of_sum {y x : ℤ} (hneg : y < 0) (hx : x ≤ 37) (hleap : IsLeap y)
    (hsum : 0 ≤ yearSum y + x) : ∃ k : ℤ, 0 < k ∧ k ≤ 7 ∧ y = -4 * k := by
  have hyears := yearSum_cases y
  unfold IsLeap at hleap hyears
  exact ⟨-y / 4, by omega, by omega, by omega⟩

theorem yearSum_late {k : ℤ} (hpos : 0 < k) (hle : k ≤ 7) :
    IsLeap (-4 * k) ∧ yearSum (-4 * k) = -(5 * k) := by
  interval_cases k <;> decide

theorem monthLength_ge (year month : ℤ) : 28 ≤ monthLength year month := by
  unfold monthLength
  split_ifs <;> decide

theorem monthLength_le (year month : ℤ) : monthLength year month ≤ 31 := by
  unfold monthLength
  split_ifs <;> decide

/-- Both days are named right. -/
theorem countsRight_iff {d : Date} (h : d.Valid) :
    CountsRight d ↔
      (0 ≤ d.marchYear ∨ IsLeap d.marchYear ∧ (0 ≤ weekSum d ∨ 7 ∣ weekSum d)) ∧
        (0 ≤ d.next.marchYear ∨
          IsLeap d.next.marchYear ∧ (0 ≤ weekSum d.next ∨ 7 ∣ weekSum d.next)) := by
  have hshift := monthShift_bounds d.month
  have hshift' := monthShift_bounds (d.month % 12 + 1)
  have hlast := monthLength_ge d.year d.month
  have hday' := h.day_le.trans (monthLength_le d.year d.month)
  unfold CountsRight weekSum
  rcases next_cases h with ⟨hday, hyear, hmonth, hnext⟩ | ⟨hday, hnext, hmonth, hyear⟩
  · rw [hyear, hmonth, hnext]
    by_cases hnonneg : 0 ≤ d.marchYear
    · exact iff_of_true (.inl hnonneg) ⟨.inl hnonneg, .inl hnonneg⟩
    constructor
    · rintro (hpos | ⟨k, hpos, hk, hle, -⟩)
      · exact absurd hpos hnonneg
      · obtain ⟨hleap, hsum⟩ := yearSum_late hpos (by omega)
        rw [← hk] at hleap hsum
        exact ⟨.inr ⟨hleap, .inl (by omega)⟩, .inr ⟨hleap, .inl (by omega)⟩⟩
    · rintro ⟨hright, hright'⟩
      obtain ⟨hleap, hright⟩ := hright.resolve_left hnonneg
      obtain ⟨-, hright'⟩ := hright'.resolve_left hnonneg
      obtain ⟨k, hpos, hk, hy⟩ := late_of_sum (x := monthShift d.month + d.day) (by omega)
        (by omega) hleap (by omega)
      obtain ⟨-, hsum⟩ := yearSum_late hpos hk
      rw [← hy] at hsum
      exact .inr ⟨k, hpos, hy, by omega, fun hend => absurd hend hday⟩
  · rw [hmonth, hnext]
    rcases hyear with ⟨hfeb, hyear⟩ | ⟨hfeb, hyear⟩
    · rw [hyear]
      by_cases hnonneg : 0 ≤ d.marchYear
      · exact iff_of_true (.inl hnonneg) ⟨.inl hnonneg, .inl hnonneg⟩
      constructor
      · rintro (hpos | ⟨k, hpos, hk, hle, hend⟩)
        · exact absurd hpos hnonneg
        · obtain ⟨-, hend⟩ := hend hday
          obtain ⟨hleap, hsum⟩ := yearSum_late hpos (by omega)
          rw [← hk] at hleap hsum
          exact ⟨.inr ⟨hleap, .inl (by omega)⟩, .inr ⟨hleap, by omega⟩⟩
      · rintro ⟨hright, hright'⟩
        obtain ⟨hleap, hright⟩ := hright.resolve_left hnonneg
        obtain ⟨-, hright'⟩ := hright'.resolve_left hnonneg
        have hmod := (weekSum_mod h).resolve_right fun hnot => hnot.1.2 hleap
        have hmod' := (weekSum_mod h.next).resolve_right fun hnot => hnot.1.2 (hyear ▸ hleap)
        have hnumber := h.dayNumber_next
        unfold weekSum at hmod hmod'
        rw [hmonth, hnext, hyear, hnumber] at hmod'
        have hsum : 0 ≤ yearSum d.marchYear + (monthShift d.month + d.day) := by omega
        obtain ⟨k, hpos, hk, hy⟩ := late_of_sum (by omega) (by omega) hleap hsum
        obtain ⟨-, hyears⟩ := yearSum_late hpos hk
        rw [← hy] at hyears
        exact .inr ⟨k, hpos, hy, by omega, fun _ => ⟨hfeb, by omega⟩⟩
    · rw [hyear]
      constructor
      · rintro (hpos | ⟨k, hpos, hk, hle, hend⟩)
        · exact ⟨.inl hpos, .inl (by omega)⟩
        · exact absurd hfeb (hend hday).1
      · -- a leap year is followed by no leap year
        rintro ⟨hpos | ⟨hleap, -⟩, hright'⟩
        · exact .inl hpos
        · rcases hright' with hpos | ⟨hleap', -⟩
          · unfold IsLeap at hleap
            exact .inl (by omega)
          · unfold IsLeap at hleap hleap'
            omega

theorem valid_of_createDate {year month day : ℤ} {d : Date}
    (h : createDate year month day = .ok d) : d = ⟨year, month, day⟩ ∧ d.Valid := by
  unfold createDate at h
  split at h
  · cases h
  · rename_i hmonth
    rw [daysInMonth_eq] at h
    split at h
    · cases h
    · rename_i hday
      obtain rfl := Except.ok.inj h
      exact ⟨rfl, by dsimp only; omega, by dsimp only; omega, by dsimp only; omega,
        by dsimp only; omega⟩

/-- For a date that `createDate` takes and whose day and next day have time stamps, the week goes on
exactly where the years are counted right. -/
theorem weekGoesOn_iff {year month day : ℤ} {d : Date} (hyear : IsInt32 year)
    (hcreate : createDate year month day = .ok d) (hfits : IsInt64 (midnight d))
    (hnext : IsInt64 (midnight d + 86400000)) : WeekGoesOn d ↔ CountsRight d := by
  obtain ⟨hd, h⟩ := valid_of_createDate hcreate
  have hyear : IsInt32 d.year := by rwa [hd]
  have hbounds : (-1000000000 ≤ d.year ∧ d.year ≤ 1000000000) ∧
      -1000000000 ≤ d.next.year ∧ d.next.year ≤ 1000000000 := by
    have hnumber := dayNumber_bounds h
    have hnumber' := dayNumber_bounds h.next
    rw [h.dayNumber_next] at hnumber'
    unfold midnight epoch IsInt64 at *
    omega
  have hadd := addDays_one h hyear hfits hnext
  rw [countsRight_iff h, ← right_iff h hbounds.1, ← right_iff h.next hbounds.2, h.dayNumber_next]
  unfold WeekGoesOn
  constructor
  · rintro ⟨-, ⟨d', hd', hgoes⟩, hright⟩
    rw [hadd] at hd'
    obtain rfl := Except.ok.inj (Option.some.inj hd')
    rw [hgoes]
    exact ⟨hright, by split <;> omega⟩
  · rintro ⟨hright, hright'⟩
    exact ⟨by omega, ⟨d.next, hadd, by split <;> omega⟩, hright⟩

/-- The last day of the year 1999, a Friday. -/
theorem weekGoesOn_1999 : WeekGoesOn ⟨1999, 12, 31⟩ ↔ CountsRight ⟨1999, 12, 31⟩ :=
  @weekGoesOn_iff 1999 12 31 ⟨1999, 12, 31⟩ (by decide) rfl (by decide) (by decide)

/-- The leap day of the year 0 and the day after it are both a Wednesday, and a day in the year
-100 has no name. -/
theorem not_weekGoesOn :
    (createDate 0 2 29 = .ok ⟨0, 2, 29⟩ ∧ dayOfWeek ⟨0, 2, 29⟩ = 3 ∧
      addDays ⟨0, 2, 29⟩ 1 = some (.ok ⟨0, 3, 1⟩) ∧ dayOfWeek ⟨0, 3, 1⟩ = 3 ∧
      ¬WeekGoesOn ⟨0, 2, 29⟩) ∧
    createDate (-100) 6 15 = .ok ⟨-100, 6, 15⟩ ∧ dayOfWeek ⟨-100, 6, 15⟩ < 1 := by
  have hadd : addDays ⟨0, 2, 29⟩ 1 = some (.ok ⟨0, 3, 1⟩) := rfl
  refine ⟨⟨rfl, rfl, hadd, rfl, ?_⟩, rfl, by decide⟩
  rintro ⟨-, ⟨d', hd', hgoes⟩, -⟩
  rw [hadd] at hd'
  obtain rfl := Except.ok.inj (Option.some.inj hd')
  exact absurd hgoes (by decide)

end DateTime

end Absolute
