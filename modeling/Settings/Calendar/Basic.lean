/-!
# Dates and times

Dates of the Gregorian calendar, carried back before its time, times of day, and instants in UTC. A time of
day may be a leap second: its second is 59 and its nanoseconds go on to two thousand million.
-/
namespace Settings.Calendar

/-! ### Dates -/

/-- Every fourth year is a leap year, but of the full centuries only every fourth. -/
def isLeap (year : Int) : Bool := year % 4 == 0 && (year % 100 != 0 || year % 400 == 0)

/-- The number of days of a month. -/
def monthLength (year : Int) (month : Nat) : Nat :=
  if month = 2 then (if isLeap year then 29 else 28)
  else if month = 4 ∨ month = 6 ∨ month = 9 ∨ month = 11 then 30
  else 31

/-- The first and the last year that a date can have. -/
def firstYear : Int := -262143

def lastYear : Int := 262142

/-- The days that there are. -/
def IsDay (year : Int) (month day : Nat) : Prop :=
  firstYear ≤ year ∧ year ≤ lastYear ∧ 1 ≤ month ∧ month ≤ 12 ∧ 1 ≤ day ∧ day ≤ monthLength year month

instance (year : Int) (month day : Nat) : Decidable (IsDay year month day) := by unfold IsDay; infer_instance

/-- A day of the calendar. -/
structure Date where
  year : Int
  month : Nat
  day : Nat
  isDay : IsDay year month day

namespace Date

/-- The date of a year, a month and a day, if there is such a day. -/
def of? (year : Int) (month day : Nat) : Option Date := if h : IsDay year month day then some ⟨year, month, day, h⟩ else none

/-- The days of a year before a month. -/
def daysBefore (year : Int) (month : Nat) : Nat :=
  (List.range (month - 1)).foldl (fun days m => days + monthLength year (m + 1)) 0

/-- The days from the first of January of year one, which is day zero. -/
def number (d : Date) : Int :=
  let y := d.year - 1
  365 * y + y / 4 - y / 100 + y / 400 + daysBefore d.year d.month + (d.day - 1 : Nat)

/-- The month and the day of a day of a year, which the months from `month` on make up. -/
def inYear (year : Int) (month : Nat) (day : Nat) : Nat → Nat × Nat
  | 0 => (month, day + 1)
  | count + 1 =>
    if day < monthLength year month then (month, day + 1)
    else inYear year (month + 1) (day - monthLength year month) count

/-- The date of a day number. Years come in cycles of four hundred, of centuries and of four; the last
    century and the last year of a cycle are longer by a day. -/
def ofNumber? (n : Int) : Option Date :=
  let cycle := (n % 146097).toNat
  let century := min 3 (cycle / 36524)
  let inCentury := cycle - century * 36524
  let four := inCentury / 1461
  let inFour := inCentury % 1461
  let one := min 3 (inFour / 365)
  let year : Int := 400 * (n / 146097) + 100 * century + 4 * four + one + 1
  let (month, day) := inYear year 1 (inFour - one * 365) 12
  of? year month day

end Date

/-! ### Times -/

/-- The times of day that there are. -/
def IsTime (hour minute second nano : Nat) : Prop :=
  hour < 24 ∧ minute < 60 ∧ second < 60 ∧ (nano < 1000000000 ∨ nano < 2000000000 ∧ second = 59)

instance (hour minute second nano : Nat) : Decidable (IsTime hour minute second nano) := by
  unfold IsTime; infer_instance

/-- A time of day. In a leap second the nanoseconds have passed one thousand million. -/
structure TimeOfDay where
  hour : Nat
  minute : Nat
  second : Nat
  nano : Nat
  isTime : IsTime hour minute second nano

namespace TimeOfDay

/-- The time of day of its parts; second 60 is the leap second behind second 59. -/
def of? (hour minute second nano : Nat) : Option TimeOfDay :=
  if second = 60 then
    if h : IsTime hour minute 59 (1000000000 + nano) then some ⟨hour, minute, 59, 1000000000 + nano, h⟩ else none
  else if h : IsTime hour minute second nano then some ⟨hour, minute, second, nano, h⟩ else none

def midnight : TimeOfDay := ⟨0, 0, 0, 0, by decide⟩

/-- The second as it is written: 60 for a leap second. -/
def writtenSecond (t : TimeOfDay) : Nat := t.second + t.nano / 1000000000

/-- The nanoseconds behind the written second. -/
def writtenNano (t : TimeOfDay) : Nat := t.nano % 1000000000

/-- The seconds since midnight; a leap second does not count. -/
def secondOfDay (t : TimeOfDay) : Nat := 3600 * t.hour + 60 * t.minute + t.second

end TimeOfDay

/-- A date and a time of day, in no particular zone. -/
structure DateTime where
  date : Date
  time : TimeOfDay

/-- An instant, as its date and time in UTC. -/
structure Instant where
  utc : DateTime

namespace Instant

/-- The day number of the first of January 1970. -/
def epochDay : Int := 719162

/-- The instant so many seconds after the start of 1970, and nanoseconds more. A leap second keeps its
    place in the minute only if the seconds end one. -/
def ofSeconds? (seconds : Int) (nano : Nat) : Option Instant := do
  let date ← Date.ofNumber? (epochDay + seconds / 86400)
  let inDay := (seconds % 86400).toNat
  let hour := inDay / 3600
  let minute := inDay / 60 % 60
  let second := inDay % 60
  if h : IsTime hour minute second nano then some ⟨⟨date, ⟨hour, minute, second, nano, h⟩⟩⟩ else none

/-- The instant so many milliseconds after the start of 1970, if its year can be written. -/
def ofMillis? (millis : Int) : Option Instant := ofSeconds? (millis / 1000) ((millis % 1000).toNat * 1000000)

/-- The seconds from the start of 1970. -/
def seconds (t : Instant) : Int := 86400 * (t.utc.date.number - epochDay) + t.utc.time.secondOfDay

/-- The whole milliseconds from the start of 1970. -/
def millis (t : Instant) : Int := 1000 * t.seconds + t.utc.time.nano / 1000000

/-- The instant of a date and time in a zone that is so many seconds ahead of UTC. -/
def ofLocal? (t : DateTime) (offset : Int) : Option Instant := ofSeconds? ((⟨t⟩ : Instant).seconds - offset) t.time.nano

end Instant

end Settings.Calendar
