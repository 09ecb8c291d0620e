/-! Points in time and lengths of time, with their texts. -/

namespace DocPatch

/-- A point in time: seconds since 1970 and nanoseconds, which fill two seconds in a leap second. -/
structure Timestamp where
  seconds : Int
  nanoseconds : Nat
  deriving DecidableEq, Repr

namespace Timestamp

/-- The first second of the calendar. -/
def firstSecond : Int := -8334601228800

/-- The last second of the calendar. -/
def lastSecond : Int := 8210266876799

/-- Nanoseconds of one second. -/
def nanosecondsPerSecond : Nat := 1000000000

/-- A point in time inside the calendar. Only the last second of a minute may be followed by a leap
    second. -/
def ofUnix? (seconds : Int) (nanoseconds : Nat) : Option Timestamp :=
  let bound := if seconds % 60 = 59 then 2 * nanosecondsPerSecond else nanosecondsPerSecond
  if firstSecond ≤ seconds && seconds ≤ lastSecond && nanoseconds < bound then
    some ⟨seconds, nanoseconds⟩
  else none

/-- A number of seconds later; a leap second is left by the first of them. -/
def after (time : Timestamp) (count : Nat) : Timestamp :=
  if count = 0 then time
  else ⟨time.seconds + count, time.nanoseconds % nanosecondsPerSecond⟩

/-- Year, month and day of a day counted from 1970-01-01, in the Gregorian calendar. -/
def civil (day : Int) : Int × Nat × Nat :=
  -- Eras of 400 years start on the first of March of a year divisible by 400.
  let shifted := day + 719468
  let era := shifted / 146097
  let dayOfEra := (shifted % 146097).toNat
  let yearOfEra := (dayOfEra - dayOfEra / 1460 + dayOfEra / 36524 - dayOfEra / 146096) / 365
  let dayOfYear := dayOfEra - (365 * yearOfEra + yearOfEra / 4 - yearOfEra / 100)
  let march := (5 * dayOfYear + 2) / 153
  let month := if march < 10 then march + 3 else march - 9
  let year := (yearOfEra : Int) + era * 400 + (if month ≤ 2 then 1 else 0)
  (year, month, dayOfYear - (153 * march + 2) / 5 + 1)

/-- A number with leading zeros. -/
def padded (width n : Nat) : String :=
  let digits := Nat.toDigits 10 n
  String.ofList (List.replicate (width - digits.length) '0' ++ digits)

/-- A year in four digits; outside those it carries a sign. -/
def yearText (year : Int) : String :=
  if 0 ≤ year && year ≤ 9999 then padded 4 year.toNat
  else (if year < 0 then "-" else "+") ++ padded 4 year.natAbs

/-- Date and time in UTC, cut to milliseconds. -/
def text (time : Timestamp) : String :=
  let (year, month, day) := civil (time.seconds / 86400)
  let second := (time.seconds % 86400).toNat
  let leap := if nanosecondsPerSecond ≤ time.nanoseconds then 1 else 0
  let millisecond := time.nanoseconds % nanosecondsPerSecond / 1000000
  yearText year ++ "-" ++ padded 2 month ++ "-" ++ padded 2 day ++ "T" ++ padded 2 (second / 3600)
    ++ ":" ++ padded 2 (second / 60 % 60) ++ ":" ++ padded 2 (second % 60 + leap) ++ "."
    ++ padded 3 millisecond ++ "Z"

end Timestamp

/-- A length of time. -/
structure Span where
  nanoseconds : Nat
  deriving DecidableEq, Repr

namespace Span

/-- So many microseconds. -/
def ofMicroseconds (count : Nat) : Span := ⟨count * 1000⟩

/-- So many milliseconds. -/
def ofMilliseconds (count : Nat) : Span := ⟨count * 1000000⟩

/-- A count in units of `10 ^ places`, with the decimals it needs. -/
def inUnit (places count : Nat) (unit : String) : String :=
  let decimals := (Timestamp.padded places (count % Nat.pow 10 places)).toList
  let needed := (decimals.reverse.dropWhile (· = '0')).reverse
  let fraction := if needed.isEmpty || places = 0 then "" else "." ++ String.ofList needed
  toString (count / Nat.pow 10 places) ++ fraction ++ unit

/-- The length in the largest unit that it fills once. -/
def text (span : Span) : String :=
  if Nat.pow 10 9 ≤ span.nanoseconds then inUnit 9 span.nanoseconds "s"
  else if Nat.pow 10 6 ≤ span.nanoseconds then inUnit 6 span.nanoseconds "ms"
  else if Nat.pow 10 3 ≤ span.nanoseconds then inUnit 3 span.nanoseconds "µs"
  else inUnit 0 span.nanoseconds "ns"

end Span

end DocPatch
