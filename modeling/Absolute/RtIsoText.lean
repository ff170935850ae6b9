import Absolute.RtDateTime

/-!
# ISO-8601 texts of civil times

`absolute_datetime_format_iso` and `absolute_datetime_parse_iso` of
`Absolute-Runtime/src/datetime.cpp`. A C string is its characters before the terminator, and what
is left of it is the cursor.
-/

namespace Absolute

namespace DateTime

open Calendar (Date)

abbrev Text := List Char

/-! ## Writing -/

def padded (width n : ℕ) : Text :=
  List.replicate (width - (Nat.toDigits 10 n).length) '0' ++ Nat.toDigits 10 n

/-- `%0wd`, a sign being one of the characters of the width. -/
def formatInt (width : ℕ) (x : ℤ) : Text :=
  if x < 0 then '-' :: padded (width - 1) x.natAbs else padded width x.natAbs

/-- What fits in a buffer of `size` with the terminator. -/
def snprintf (size : ℕ) (text : Text) : Text := text.take (size - 1)

def formatYear (year : ℤ) : Text :=
  snprintf 16 (if year < 0 then '-' :: formatInt 4 (-year) else formatInt 4 year)

def formatZone (offsetMinutes : ℤ) : Option Text :=
  if offsetMinutes = 0 then some (snprintf 16 ['Z'])
  else do
    let absOff ←
      (if offsetMinutes ≥ 0 then some offsetMinutes else int32 (-offsetMinutes) : Option ℤ)
    return snprintf 16 ((if offsetMinutes ≥ 0 then '+' else '-') ::
      (formatInt 2 (absOff.tdiv 60) ++ ':' :: formatInt 2 (absOff.tmod 60)))

/-- `absolute_datetime_format_iso` -/
def formatIso (c : Civil) (offsetMinutes : ℤ) : Option Text := do
  let zone ← formatZone offsetMinutes
  let clock := formatInt 2 c.time.hour ++ ':' :: (formatInt 2 c.time.minute ++
    ':' :: formatInt 2 c.time.second)
  let fraction := if c.time.millisecond > 0 then '.' :: formatInt 3 c.time.millisecond else []
  return snprintf 64 (formatYear c.date.year ++ '-' :: (formatInt 2 c.date.month ++
    '-' :: (formatInt 2 c.date.day ++ 'T' :: (clock ++ (fraction ++ zone)))))

/-! ## Reading -/

def digit (c : Char) : ℤ := (c.toNat - '0'.toNat : ℕ)

/-- The loop of `ReadYearDigits`, with the number of digits it has read. -/
def readYearDigitsGo : Text → ℤ → ℕ → Option (ℤ × ℕ × Text)
  | [], result, digits => some (result, digits, [])
  | c :: cursor, result, digits =>
      if c.isDigit then
        if result > 100000000 then none
        else readYearDigitsGo cursor (result * 10 + digit c) (digits + 1)
      else some (result, digits, c :: cursor)

def readYearDigits (cursor : Text) : Option (ℤ × Text) := do
  let (result, digits, cursor) ← readYearDigitsGo cursor 0 0
  if digits < 4 then none else some (toInt32 result, cursor)

def readFixedDigitsGo : ℕ → Text → ℤ → Option (ℤ × Text)
  | 0, cursor, result => some (result, cursor)
  | _ + 1, [], _ => none
  | count + 1, c :: cursor, result =>
      if c.isDigit then readFixedDigitsGo count cursor (result * 10 + digit c) else none

def readFixedDigits (count : ℕ) (cursor : Text) : Option (ℤ × Text) :=
  readFixedDigitsGo count cursor 0

def expect (c : Char) (cursor : Text) : Option Text :=
  if cursor.head? = some c then some cursor.tail else none

/-- Year, month and day, the year without its sign. -/
def readDate (cursor : Text) : Option (Date × Text) := do
  let (year, cursor) ← readYearDigits cursor
  let cursor ← expect '-' cursor
  let (month, cursor) ← readFixedDigits 2 cursor
  let cursor ← expect '-' cursor
  let (day, cursor) ← readFixedDigits 2 cursor
  return (⟨year, month, day⟩, cursor)

/-- The hour and the minute, and the second if there is one. -/
def readClock (cursor : Text) : Option (ℤ × ℤ × ℤ × Text) := do
  let (hour, cursor) ← readFixedDigits 2 cursor
  let cursor ← expect ':' cursor
  let (minute, cursor) ← readFixedDigits 2 cursor
  match expect ':' cursor with
  | none => return (hour, minute, 0, cursor)
  | some cursor =>
      let (second, cursor) ← readFixedDigits 2 cursor
      return (hour, minute, second, cursor)

/-- The loops over the digits of a fraction: three count, and zeros fill up to three. -/
def readMillis : Text → ℤ → ℕ → ℤ × Text
  | [], millis, digits => (millis * 10 ^ (3 - digits), [])
  | c :: cursor, millis, digits =>
      if c.isDigit then
        readMillis cursor (if digits < 3 then millis * 10 + digit c else millis) (digits + 1)
      else (millis * 10 ^ (3 - digits), c :: cursor)

def readFraction (cursor : Text) : Except String (ℤ × Text) :=
  match cursor with
  | c :: rest =>
      if c = '.' ∨ c = ',' then
        if rest.head?.any Char.isDigit then .ok (readMillis rest 0 0)
        else .error "Invalid ISO-8601 fractional second"
      else .ok (0, cursor)
  | [] => .ok (0, cursor)

/-- The digits of an offset: hours, and minutes if there are more digits. -/
def readOffset (cursor : Text) : Option (ℤ × ℤ × Text) := do
  let (offsetHours, cursor) ← readFixedDigits 2 cursor
  let cursor := (expect ':' cursor).getD cursor
  if cursor.head?.any Char.isDigit then do
    let (offsetMins, cursor) ← readFixedDigits 2 cursor
    return (offsetHours, offsetMins, cursor)
  else return (offsetHours, 0, cursor)

def readZone (cursor : Text) : Except String (ℤ × Text) :=
  match cursor with
  | c :: rest =>
      if c = 'Z' ∨ c = 'z' then .ok (0, rest)
      else if c = '+' ∨ c = '-' then
        match readOffset rest with
        | none => .error "Invalid ISO-8601 zone offset"
        | some (offsetHours, offsetMins, rest) =>
            if offsetHours > 23 ∨ offsetMins > 59 then .error "Zone offset out of range"
            else .ok ((if c = '-' then -1 else 1) * (offsetHours * 60 + offsetMins), rest)
      else .ok (0, cursor)
  | [] => .ok (0, cursor)

/-- What follows the date: a time with a zone, or nothing. -/
def readTime (cursor : Text) : Except String (Time × ℤ × Text) :=
  match cursor with
  | c :: rest =>
      if c = 'T' ∨ c = 't' ∨ c = ' ' then
        match readClock rest with
        | none => .error "Invalid ISO-8601 time"
        | some (hour, minute, second, rest) => do
            let (millis, rest) ← readFraction rest
            let (offsetMinutes, rest) ← readZone rest
            return (⟨hour, minute, second, millis⟩, offsetMinutes, rest)
      else .ok (⟨0, 0, 0, 0⟩, 0, cursor)
  | [] => .ok (⟨0, 0, 0, 0⟩, 0, cursor)

/-- `absolute_datetime_parse_iso` -/
def parseIso (text : Text) : Except String (Civil × ℤ) :=
  if text = [] then .error "Empty ISO-8601 text"
  else
    let signed := text.head? = some '-' ∨ text.head? = some '+'
    let yearSign : ℤ := if text.head? = some '-' then -1 else 1
    match readDate (if signed then text.tail else text) with
    | none => .error "Invalid ISO-8601 format"
    | some (date, cursor) => do
        let (time, offsetMinutes, cursor) ← readTime cursor
        if cursor.dropWhile (fun c => c ∈ [' ', '\t', '\r', '\n']) = [] then
          .ok (⟨{ date with year := date.year * yearSign }, time⟩, offsetMinutes)
        else .error "Trailing text after ISO-8601 value"

end DateTime

end Absolute
