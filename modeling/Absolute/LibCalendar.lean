import Mathlib.Data.Int.Basic
import Mathlib.Tactic.Common
import Mathlib.Tactic.IntervalCases

/-!
# The Gregorian calendar

Years of all integers, with the year 0 before the year 1. A day is numbered from the first of
January of the year 1, which has the number 0 (`dayNumber`); every number is that of one valid
date and no two valid dates have the same number.

An era is 400 years from a first of March on, 146097 days, and ends with a leap day. The year of
an era is found from the day of it by the division of `yearOfEra`.
-/

namespace Calendar

structure Date where
  year : ℤ
  month : ℤ
  day : ℤ
deriving DecidableEq, Repr

def IsLeap (year : ℤ) : Prop := 4 ∣ year ∧ (100 ∣ year → 400 ∣ year)

instance (year : ℤ) : Decidable (IsLeap year) := inferInstanceAs (Decidable (_ ∧ _))

def yearLength (year : ℤ) : ℤ := if IsLeap year then 366 else 365

def monthLength (year month : ℤ) : ℤ :=
  if month = 2 then if IsLeap year then 29 else 28
  else if month = 4 ∨ month = 6 ∨ month = 9 ∨ month = 11 then 30
  else 31

structure Date.Valid (d : Date) : Prop where
  one_le_month : 1 ≤ d.month
  month_le : d.month ≤ 12
  one_le_day : 1 ≤ d.day
  day_le : d.day ≤ monthLength d.year d.month

def daysBeforeYear (year : ℤ) : ℤ :=
  365 * (year - 1) + (year - 1) / 4 - (year - 1) / 100 + (year - 1) / 400

/-- The days of the first months of a year. -/
def daysOfMonths (year : ℤ) : ℕ → ℤ
  | 0 => 0
  | n + 1 => daysOfMonths year n + monthLength year (n + 1)

def dayOfYear (d : Date) : ℤ := daysOfMonths d.year (d.month - 1).toNat + d.day - 1

def dayNumber (d : Date) : ℤ := daysBeforeYear d.year + dayOfYear d

variable {d d' : Date}

/-! ## Years -/

theorem yearLength_cases (year : ℤ) :
    IsLeap year ∧ yearLength year = 366 ∨ ¬IsLeap year ∧ yearLength year = 365 := by
  unfold yearLength
  split
  · exact .inl ⟨‹_›, rfl⟩
  · exact .inr ⟨‹_›, rfl⟩

theorem daysBeforeYear_succ (year : ℤ) :
    daysBeforeYear (year + 1) = daysBeforeYear year + yearLength year := by
  unfold daysBeforeYear
  obtain ⟨hleap, hlength⟩ | ⟨hleap, hlength⟩ := yearLength_cases year <;>
    unfold IsLeap at hleap <;> omega

theorem daysBeforeYear_add_nat (year : ℤ) (n : ℕ) :
    daysBeforeYear year + 365 * n ≤ daysBeforeYear (year + n) := by
  induction n with
  | zero => simp
  | succ n ih =>
      have hsucc := daysBeforeYear_succ (year + n)
      have hlength := yearLength_cases (year + n)
      push_cast
      rw [← add_assoc]
      omega

theorem monthLength_pos (year month : ℤ) : 0 < monthLength year month := by
  unfold monthLength
  split
  · split <;> omega
  · split <;> omega

theorem daysOfMonths_le (year : ℤ) {m n : ℕ} (h : m ≤ n) :
    daysOfMonths year m ≤ daysOfMonths year n := by
  induction n, h using Nat.le_induction with
  | base => exact le_refl _
  | succ n _ ih =>
      have hpos := monthLength_pos year (n + 1)
      rw [daysOfMonths]
      omega

theorem daysOfMonths_year (year : ℤ) :
    daysOfMonths year 12 = yearLength year := by
  by_cases h : IsLeap year <;> simp [daysOfMonths, monthLength, yearLength, h]

theorem Date.Valid.dayOfYear_nonneg (h : d.Valid) : 0 ≤ dayOfYear d := by
  have hle := daysOfMonths_le d.year (Nat.zero_le (d.month - 1).toNat)
  have hday := h.one_le_day
  unfold dayOfYear
  rw [daysOfMonths] at hle
  omega

/-- The months before and the day stay below the end of the month. -/
theorem Date.Valid.dayOfYear_lt_month (h : d.Valid) :
    dayOfYear d < daysOfMonths d.year d.month.toNat := by
  obtain ⟨n, hn⟩ : ∃ n : ℕ, d.month = n + 1 :=
    ⟨(d.month - 1).toNat, by have := h.one_le_month; omega⟩
  have hday := h.day_le
  have hbefore : (d.month - 1).toNat = n := by omega
  have hmonth : d.month.toNat = n + 1 := by omega
  rw [hn] at hday
  rw [dayOfYear, hbefore, hmonth, daysOfMonths]
  omega

theorem Date.Valid.dayOfYear_lt (h : d.Valid) :
    dayOfYear d < yearLength d.year := by
  have hmonth := h.month_le
  have hle := daysOfMonths_le d.year (show d.month.toNat ≤ 12 by omega)
  rw [daysOfMonths_year] at hle
  exact lt_of_lt_of_le h.dayOfYear_lt_month hle

/-! ## Numbers of days -/

theorem dayNumber_lt_of_year (h : d.Valid) (h' : d'.Valid) (hyear : d.year < d'.year) :
    dayNumber d < dayNumber d' := by
  obtain ⟨n, hn⟩ : ∃ n : ℕ, d'.year = d.year + 1 + n := ⟨(d'.year - d.year - 1).toNat, by omega⟩
  have hlt := h.dayOfYear_lt
  have hnonneg := h'.dayOfYear_nonneg
  have hyears := daysBeforeYear_add_nat (d.year + 1) n
  rw [daysBeforeYear_succ] at hyears
  unfold dayNumber
  rw [hn]
  omega

theorem dayOfYear_lt_of_month (h : d.Valid) (h' : d'.Valid) (hyear : d.year = d'.year)
    (hmonth : d.month < d'.month) : dayOfYear d < dayOfYear d' := by
  have hlt := h.dayOfYear_lt_month
  have hle := daysOfMonths_le d.year
    (show d.month.toNat ≤ (d'.month - 1).toNat by have := h.one_le_month; omega)
  have hday := h'.one_le_day
  rw [show dayOfYear d' = daysOfMonths d'.year (d'.month - 1).toNat + d'.day - 1 from rfl, ← hyear]
  omega

/-- Two valid dates of one number are the same. -/
theorem dayNumber_inj (h : d.Valid) (h' : d'.Valid) (heq : dayNumber d = dayNumber d') :
    d = d' := by
  have hyear : d.year = d'.year := by
    rcases lt_trichotomy d.year d'.year with hlt | heq' | hlt
    · exact absurd heq (dayNumber_lt_of_year h h' hlt).ne
    · exact heq'
    · exact absurd heq.symm (dayNumber_lt_of_year h' h hlt).ne
  have hdays : dayOfYear d = dayOfYear d' := by
    unfold dayNumber at heq
    rw [hyear] at heq
    omega
  have hmonth : d.month = d'.month := by
    rcases lt_trichotomy d.month d'.month with hlt | heq' | hlt
    · exact absurd hdays (dayOfYear_lt_of_month h h' hyear hlt).ne
    · exact heq'
    · exact absurd hdays.symm (dayOfYear_lt_of_month h' h hyear.symm hlt).ne
  have hday : d.day = d'.day := by
    unfold dayOfYear at hdays
    rw [hyear, hmonth] at hdays
    omega
  cases d
  cases d'
  cases hyear
  cases hmonth
  cases hday
  rfl

/-! ## Eras -/

/-- The days of an era before one of its years. -/
def daysBeforeYearOfEra (yoe : ℤ) : ℤ := 365 * yoe + yoe / 4 - yoe / 100

def yearOfEra (doe : ℤ) : ℤ := (doe - doe / 1460 + doe / 36524 - doe / 146096) / 365

/-- Centuries of an era, their groups of four years, and the years of these. -/
theorem exists_year_of_era {doe : ℤ} (hnonneg : 0 ≤ doe) (hlt : doe < 146097) :
    ∃ a b c r, (0 ≤ a ∧ a < 4) ∧ (0 ≤ b ∧ b < 25) ∧ (0 ≤ c ∧ c < 4) ∧
      (0 ≤ r ∧ (r ≤ 364 ∨ r = 365 ∧ c = 3 ∧ (b ≠ 24 ∨ a = 3))) ∧
      doe = 36524 * a + 1461 * b + 365 * c + r := by
  obtain ⟨a, rest, ha, hrest, hdoe⟩ : ∃ a rest, (0 ≤ a ∧ a < 4) ∧
      (0 ≤ rest ∧ (rest ≤ 36523 ∨ rest = 36524 ∧ a = 3)) ∧ doe = 36524 * a + rest := by
    by_cases hlast : doe = 146096
    · exact ⟨3, 36524, by omega, by omega, by omega⟩
    · exact ⟨doe / 36524, doe % 36524, by omega, by omega, by omega⟩
  obtain ⟨c, r, hc, hr, hyears⟩ : ∃ c r, (0 ≤ c ∧ c < 4) ∧ (0 ≤ r ∧ (r ≤ 364 ∨ r = 365 ∧ c = 3)) ∧
      rest % 1461 = 365 * c + r := by
    by_cases hlast : rest % 1461 = 1460
    · exact ⟨3, 365, by omega, by omega, by omega⟩
    · exact ⟨rest % 1461 / 365, rest % 1461 % 365, by omega, by omega, by omega⟩
  exact ⟨a, rest / 1461, c, r, ha, by omega, hc, by omega, by omega⟩

theorem yearOfEra_eq {a b c r : ℤ} (ha : 0 ≤ a ∧ a < 4) (hb : 0 ≤ b ∧ b < 25) (hc : 0 ≤ c ∧ c < 4)
    (hr : 0 ≤ r ∧ (r ≤ 364 ∨ r = 365 ∧ c = 3 ∧ (b ≠ 24 ∨ a = 3))) {doe : ℤ}
    (hdoe : doe = 36524 * a + 1461 * b + 365 * c + r) :
    yearOfEra doe = 100 * a + 4 * b + c := by
  have hgroups : doe / 1460 = 25 * a + b ∨ doe / 1460 = 25 * a + b + 1 ∧ c = 3 ∧ 1 ≤ r := by
    omega
  have hcenturies : doe / 36524 = a ∧ doe / 146096 = 0 ∨ doe = 146096 := by omega
  unfold yearOfEra
  rcases hcenturies with ⟨hcentury, hlast⟩ | rfl
  · rw [hcentury, hlast]
    omega
  · have hlast : a = 3 ∧ b = 24 ∧ c = 3 := by omega
    omega

/-- A day of an era lies in the year `yearOfEra` says. -/
theorem yearOfEra_spec (doe : ℤ) (hnonneg : 0 ≤ doe) (hlt : doe < 146097) :
    0 ≤ yearOfEra doe ∧ yearOfEra doe < 400 ∧ daysBeforeYearOfEra (yearOfEra doe) ≤ doe ∧
      doe - daysBeforeYearOfEra (yearOfEra doe)
        < yearLength (yearOfEra doe + 1) := by
  obtain ⟨a, b, c, r, ha, hb, hc, hr, hdoe⟩ := exists_year_of_era hnonneg hlt
  have hyear := yearOfEra_eq ha hb hc hr hdoe
  have hbefore : daysBeforeYearOfEra (100 * a + 4 * b + c) = 36524 * a + 1461 * b + 365 * c := by
    unfold daysBeforeYearOfEra
    omega
  rw [hyear, hbefore]
  refine ⟨by omega, by omega, by omega, ?_⟩
  obtain ⟨hleap, hlength⟩ | ⟨hleap, hlength⟩ := yearLength_cases (100 * a + 4 * b + c + 1) <;>
    unfold IsLeap at hleap <;> omega

/-! ## Years from March on -/

/-- The year whose March is the last one up to a date. -/
def Date.marchYear (d : Date) : ℤ := if d.month ≤ 2 then d.year - 1 else d.year

/-- A month's place in the year from March on. -/
def Date.marchMonth (d : Date) : ℤ := if 2 < d.month then d.month - 3 else d.month + 9

def daysOfMarchMonths (mp : ℤ) : ℤ := (153 * mp + 2) / 5

theorem daysBeforeYear_era (year : ℤ) :
    daysBeforeYear (year + 1) = 146097 * (year / 400) + daysBeforeYearOfEra (year % 400) := by
  unfold daysBeforeYear daysBeforeYearOfEra
  omega

theorem daysOfMonths_march (year : ℤ) {month : ℤ} (h : 1 ≤ month) (h' : month ≤ 12) :
    daysOfMonths year (month - 1).toNat =
      if 2 < month then daysOfMarchMonths (month - 3) + if IsLeap year then 60 else 59
      else daysOfMarchMonths (month + 9) - 306 := by
  by_cases hleap : IsLeap year <;> interval_cases month <;>
    simp [daysOfMonths, monthLength, daysOfMarchMonths, hleap]

/-- The number of a date from its place in an era. -/
theorem Date.Valid.dayNumber_eq (h : d.Valid) :
    dayNumber d = 146097 * (d.marchYear / 400) + daysBeforeYearOfEra (d.marchYear % 400)
      + daysOfMarchMonths d.marchMonth + d.day - 307 := by
  have hmonths := daysOfMonths_march d.year h.one_le_month h.month_le
  rw [← daysBeforeYear_era, dayNumber, dayOfYear, hmonths, Date.marchYear, Date.marchMonth]
  by_cases hjan : d.month ≤ 2
  · have hmarch : ¬2 < d.month := by omega
    simp only [if_pos hjan, if_neg hmarch, Int.sub_add_cancel]
    omega
  · have hmarch : 2 < d.month := by omega
    simp only [if_neg hjan, if_pos hmarch, daysBeforeYear_succ, yearLength]
    split <;> omega

def ofMarch (year mp day : ℤ) : Date :=
  if mp < 10 then ⟨year, mp + 3, day⟩ else ⟨year + 1, mp - 9, day⟩

theorem ofMarch_march (year day : ℤ) {mp : ℤ} (h : 0 ≤ mp) (h' : mp ≤ 11) :
    (ofMarch year mp day).marchYear = year ∧ (ofMarch year mp day).marchMonth = mp ∧
      (ofMarch year mp day).day = day := by
  unfold ofMarch Date.marchYear Date.marchMonth
  by_cases hspring : mp < 10
  · have hmonth : ¬mp + 3 ≤ 2 := by omega
    have hmonth' : 2 < mp + 3 := by omega
    simp only [if_pos hspring, if_neg hmonth, if_pos hmonth']
    exact ⟨trivial, by omega, trivial⟩
  · have hmonth : mp - 9 ≤ 2 := by omega
    have hmonth' : ¬2 < mp - 9 := by omega
    simp only [if_neg hspring, if_pos hmonth, if_neg hmonth']
    exact ⟨by omega, by omega, trivial⟩

theorem ofMarch_valid {year mp day : ℤ} (h : 0 ≤ mp) (h' : mp ≤ 11) (hday : 1 ≤ day)
    (hle : day ≤ if mp < 10 then monthLength year (mp + 3) else monthLength (year + 1) (mp - 9)) :
    (ofMarch year mp day).Valid := by
  unfold ofMarch
  by_cases hspring : mp < 10
  · rw [if_pos hspring] at hle ⊢
    exact ⟨by dsimp only; omega, by dsimp only; omega, hday, hle⟩
  · rw [if_neg hspring] at hle ⊢
    exact ⟨by dsimp only; omega, by dsimp only; omega, hday, hle⟩

/-- The date of a number: its era, its year there, its month from March on. -/
def ofDayNumber (n : ℤ) : Date :=
  let doe := (n + 306) % 146097
  let yoe := yearOfEra doe
  let doy := doe - daysBeforeYearOfEra yoe
  let mp := (5 * doy + 2) / 153
  ofMarch (400 * ((n + 306) / 146097) + yoe) mp (doy - daysOfMarchMonths mp + 1)

/-- A day of a year from March on lies in the month found by division. -/
theorem month_of_march {year doy mp : ℤ} (hnonneg : 0 ≤ doy)
    (hlt : doy < yearLength (year + 1)) (hmp : mp = (5 * doy + 2) / 153) :
    (0 ≤ mp ∧ mp ≤ 11) ∧ daysOfMarchMonths mp ≤ doy ∧
      doy - daysOfMarchMonths mp + 1 ≤
        if mp < 10 then monthLength year (mp + 3) else monthLength (year + 1) (mp - 9) := by
  have hlength := yearLength_cases (year + 1)
  have hbound : 0 ≤ mp ∧ mp ≤ 11 := by omega
  have hdays : daysOfMarchMonths mp ≤ doy := by
    unfold daysOfMarchMonths
    omega
  refine ⟨hbound, hdays, ?_⟩
  obtain ⟨hzero, hlast⟩ := hbound
  unfold daysOfMarchMonths
  -- February is the last month, and its length the only one that depends on the year
  by_cases hfeb : mp = 11
  · subst hfeb
    obtain ⟨hleap, hlength⟩ | ⟨hleap, hlength⟩ := hlength <;> simp [monthLength, hleap] <;> omega
  · interval_cases mp <;> simp [monthLength] at hfeb ⊢ <;> omega

theorem yearLength_add_era (year era : ℤ) : yearLength (400 * era + year) = yearLength year := by
  have hleap : IsLeap (400 * era + year) ↔ IsLeap year := by
    unfold IsLeap
    omega
  simp only [yearLength, hleap]

theorem ofDayNumber_spec (n : ℤ) : (ofDayNumber n).Valid ∧ dayNumber (ofDayNumber n) = n := by
  obtain ⟨doe, hdoe⟩ : ∃ doe, doe = (n + 306) % 146097 := ⟨_, rfl⟩
  obtain ⟨era, hera⟩ : ∃ era, era = (n + 306) / 146097 := ⟨_, rfl⟩
  obtain ⟨yoe, hyoe⟩ : ∃ yoe, yoe = yearOfEra doe := ⟨_, rfl⟩
  obtain ⟨doy, hdoy⟩ : ∃ doy, doy = doe - daysBeforeYearOfEra yoe := ⟨_, rfl⟩
  obtain ⟨mp, hmp⟩ : ∃ mp, mp = (5 * doy + 2) / 153 := ⟨_, rfl⟩
  have hdate : ofDayNumber n
      = ofMarch (400 * era + yoe) mp (doy - daysOfMarchMonths mp + 1) := by
    rw [hmp, hdoy, hyoe, hera, hdoe]
    rfl
  have hyear := yearOfEra_spec doe (by omega) (by omega)
  rw [← hyoe, ← hdoy] at hyear
  obtain ⟨hzero, hlt, hle, hlength⟩ := hyear
  rw [← yearLength_add_era (yoe + 1) era, ← add_assoc] at hlength
  obtain ⟨⟨hfirst, hlast⟩, hdays, hday⟩ := month_of_march (by omega) hlength hmp
  have hvalid : (ofDayNumber n).Valid := hdate ▸ ofMarch_valid hfirst hlast (by omega) hday
  obtain ⟨hmarchYear, hmarchMonth, hmarchDay⟩ :=
    ofMarch_march (400 * era + yoe) (doy - daysOfMarchMonths mp + 1) hfirst hlast
  have hdiv : (400 * era + yoe) / 400 = era := by omega
  have hmod : (400 * era + yoe) % 400 = yoe := by omega
  refine ⟨hvalid, ?_⟩
  rw [hvalid.dayNumber_eq, hdate, hmarchYear, hmarchMonth, hmarchDay, hdiv, hmod]
  omega

theorem ofDayNumber_dayNumber (h : d.Valid) : ofDayNumber (dayNumber d) = d :=
  dayNumber_inj (ofDayNumber_spec _).1 h (ofDayNumber_spec _).2

/-! ## The next day -/

def Date.next (d : Date) : Date :=
  if d.day < monthLength d.year d.month then ⟨d.year, d.month, d.day + 1⟩
  else if d.month < 12 then ⟨d.year, d.month + 1, 1⟩
  else ⟨d.year + 1, 1, 1⟩

theorem Date.Valid.next (h : d.Valid) : d.next.Valid := by
  obtain ⟨hone, htwelve, hday, hle⟩ := h
  unfold Date.next
  split
  · exact ⟨hone, htwelve, by dsimp only; omega, by dsimp only; omega⟩
  · split
    · exact ⟨by dsimp only; omega, by dsimp only; omega, le_refl _, monthLength_pos _ _⟩
    · exact ⟨le_refl _, Int.le_of_lt_add_one (by norm_num), le_refl _, monthLength_pos _ _⟩

theorem Date.Valid.dayNumber_next (h : d.Valid) : dayNumber d.next = dayNumber d + 1 := by
  have hlast := h.day_le
  have hone := h.one_le_month
  unfold Date.next
  split
  · simp only [dayNumber, dayOfYear]
    omega
  · split
    · obtain ⟨n, hn⟩ : ∃ n : ℕ, d.month = n + 1 := ⟨(d.month - 1).toNat, by omega⟩
      have hmonths : daysOfMonths d.year (d.month + 1 - 1).toNat
          = daysOfMonths d.year (d.month - 1).toNat + monthLength d.year d.month := by
        rw [show (d.month + 1 - 1).toNat = n + 1 by omega, show (d.month - 1).toNat = n by omega,
          daysOfMonths, hn]
      simp only [dayNumber, dayOfYear, hmonths]
      omega
    · have hdecember : d.month = 12 := by
        have := h.month_le
        omega
      have hyear := daysOfMonths_year d.year
      have hmonths : daysOfMonths d.year 12
          = daysOfMonths d.year 11 + monthLength d.year d.month := by
        rw [daysOfMonths, hdecember]
        rfl
      have hbefore : (d.month - 1).toNat = 11 := by omega
      simp only [dayNumber, dayOfYear, hbefore, daysBeforeYear_succ, Int.sub_self, Int.toNat_zero,
        daysOfMonths]
      simp only [daysOfMonths] at hmonths hyear
      omega

end Calendar
