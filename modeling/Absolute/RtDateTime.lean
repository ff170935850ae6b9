import Absolute.LibCalendar

/-!
# Civil time

`Absolute-Runtime/src/datetime.cpp` between milliseconds since 1970 and the fields of a date and a
time, and the checks that `std/datetime.abs` makes of such fields. A signed sum or product that
leaves its type is not defined, and the computation `none`; a sum of `uint32_t` is reduced once,
at its end.
-/

namespace Absolute

namespace DateTime

open Calendar (Date)

/-! ## Machine integers -/

def IsInt32 (x : ℤ) : Prop := -2147483648 ≤ x ∧ x ≤ 2147483647

def IsInt64 (x : ℤ) : Prop := -9223372036854775808 ≤ x ∧ x ≤ 9223372036854775807

instance (x : ℤ) : Decidable (IsInt32 x) := inferInstanceAs (Decidable (_ ∧ _))
instance (x : ℤ) : Decidable (IsInt64 x) := inferInstanceAs (Decidable (_ ∧ _))

def int32 (x : ℤ) : Option ℤ := if IsInt32 x then some x else none

def int64 (x : ℤ) : Option ℤ := if IsInt64 x then some x else none

def uint32 (x : ℤ) : ℤ := x % 4294967296

/-- `static_cast<int32_t>` -/
def toInt32 (x : ℤ) : ℤ := x.bmod 4294967296

structure Time where
  hour : ℤ
  minute : ℤ
  second : ℤ
  millisecond : ℤ
deriving DecidableEq, Repr

structure Civil where
  date : Date
  time : Time
deriving DecidableEq, Repr

/-! ## Days -/

def civilFromDays (days : ℤ) : Option Date := do
  let days ← int64 (days + 719468)
  let shifted ← (if days ≥ 0 then some days else int64 (days - 146096) : Option ℤ)
  let era := shifted.tdiv 146097
  let doe := uint32 (← int64 (days - (← int64 (era * 146097))))
  let yoe := uint32 (doe - doe / 1460 + doe / 36524 - doe / 146096) / 365
  let y ← int64 (yoe + (← int64 (era * 400)))
  let doy := uint32 (doe - (365 * yoe + yoe / 4 - yoe / 100))
  let mp := uint32 (5 * doy + 2) / 153
  let day := toInt32 (uint32 (doy - uint32 (153 * mp + 2) / 5 + 1))
  let month := toInt32 (uint32 (if mp < 10 then mp + 3 else mp - 9))
  let year := toInt32 (← int64 (y + if month ≤ 2 then 1 else 0))
  return ⟨year, month, day⟩

def daysFromCivil (d : Date) : Option ℤ := do
  let year ← (if d.month ≤ 2 then int32 (d.year - 1) else some d.year : Option ℤ)
  let shifted ← (if year ≥ 0 then some year else int32 (year - 399) : Option ℤ)
  let era := shifted.tdiv 400
  let yoe := uint32 (← int64 (year - (← int64 (era * 400))))
  let mp ← int32 (if d.month > 2 then d.month - 3 else d.month + 9)
  let days ← int32 ((← int32 (153 * mp)) + 2)
  let doy := uint32 (days.tdiv 5 + d.day - 1)
  let doe := uint32 (yoe * 365 + yoe / 4 - yoe / 100 + doy)
  int64 ((← int64 ((← int64 (era * 146097)) + doe)) - 719468)

/-! ## Milliseconds -/

/-- The remainder that is left after whole units, made positive; and the units. -/
def carry (remainder units unit : ℤ) : Option (ℤ × ℤ) :=
  if remainder < 0 then do return (← int32 (remainder + unit), ← int64 (units - 1))
  else some (remainder, units)

/-- `absolute_datetime_civil_from_unix_millis` -/
def civilFromUnixMillis (unixMillis offsetMinutes : ℤ) : Option Civil := do
  let adjustedMillis ← int64 (unixMillis + (← int64 (offsetMinutes * 60000)))
  let (millis, seconds) ←
    carry (toInt32 (adjustedMillis.tmod 1000)) (adjustedMillis.tdiv 1000) 1000
  let (secsOfDay, days) ← carry (toInt32 (seconds.tmod 86400)) (seconds.tdiv 86400) 86400
  let date ← civilFromDays days
  return ⟨date, secsOfDay.tdiv 3600, (secsOfDay.tmod 3600).tdiv 60, secsOfDay.tmod 60, millis⟩

/-- `absolute_datetime_civil_to_unix_millis` -/
def civilToUnixMillis (c : Civil) (offsetMinutes : ℤ) : Option ℤ := do
  let days ← daysFromCivil c.date
  let seconds ← int64 (days * 86400)
  let seconds ← int64 (seconds + (← int32 (c.time.hour * 3600)))
  let seconds ← int64 (seconds + (← int32 (c.time.minute * 60)))
  let seconds ← int64 (seconds + c.time.second)
  let unixMillis ← int64 ((← int64 (seconds * 1000)) + c.time.millisecond)
  int64 (unixMillis - (← int64 (offsetMinutes * 60000)))

/-! ## `std.datetime` -/

def isLeapYear (year : ℤ) : Bool :=
  if year.tmod 400 = 0 then true else if year.tmod 100 = 0 then false else year.tmod 4 = 0

def daysInMonth (year month : ℤ) : ℤ :=
  if month = 2 then if isLeapYear year then 29 else 28
  else if month = 4 ∨ month = 6 ∨ month = 9 ∨ month = 11 then 30
  else 31

def createDate (year month day : ℤ) : Except String Date :=
  if month < 1 ∨ month > 12 then .error s!"invalid month: {month}"
  else if day < 1 ∨ day > daysInMonth year month then
    .error s!"invalid day {day} for month {month}"
  else .ok ⟨year, month, day⟩

def createTime (hour minute second millisecond : ℤ) : Except String Time :=
  if hour < 0 ∨ hour > 23 then .error s!"invalid hour: {hour}"
  else if minute < 0 ∨ minute > 59 then .error s!"invalid minute: {minute}"
  else if second < 0 ∨ second > 59 then .error s!"invalid second: {second}"
  else if millisecond < 0 ∨ millisecond > 999 then .error s!"invalid millisecond: {millisecond}"
  else .ok ⟨hour, minute, second, millisecond⟩

structure TimeZone where
  offsetMinutes : ℤ
  name : String
deriving DecidableEq, Repr

structure ZonedDateTime where
  date : Date
  time : Time
  timeZone : TimeZone
deriving DecidableEq, Repr

/-- A call that is defined, and what it returns or throws. -/
def fromUnixMillis (unixMillis : ℤ) (tz : TimeZone) : Option (Except String ZonedDateTime) := do
  let c ← civilFromUnixMillis unixMillis tz.offsetMinutes
  return do
    let date ← createDate c.date.year c.date.month c.date.day
    let time ← createTime c.time.hour c.time.minute c.time.second c.time.millisecond
    return ⟨date, time, tz⟩

def toUnixMillis (dt : ZonedDateTime) : Option ℤ :=
  civilToUnixMillis ⟨dt.date, dt.time⟩ dt.timeZone.offsetMinutes

end DateTime

end Absolute
