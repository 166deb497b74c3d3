import Settings.Calendar.Basic

/-!
# The text of dates and times

Settings write dates with slashes and times to the second; an instant is written to the millisecond in UTC.
The full form has hyphens and as many decimals as the nanoseconds need, in steps of three.
-/
namespace Settings.Calendar

/-- A number in at least so many digits. -/
def padded (width n : Nat) : List Char :=
  let ds := Nat.toDigits 10 n
  List.replicate (width - ds.length) '0' ++ ds

/-- A year in four digits; outside of these it has a sign. -/
def yearText (year : Int) : List Char :=
  if 0 ≤ year ∧ year ≤ 9999 then padded 4 year.toNat
  else (if year < 0 then '-' else '+') :: padded 4 year.natAbs

/-- A date with a mark between its parts. -/
def Date.text (mark : Char) (d : Date) : List Char :=
  yearText d.year ++ mark :: padded 2 d.month ++ mark :: padded 2 d.day

/-- A time of day to the second. -/
def TimeOfDay.text (t : TimeOfDay) : List Char :=
  padded 2 t.hour ++ ':' :: padded 2 t.minute ++ ':' :: padded 2 t.writtenSecond

/-- The decimals of a second: none, three, six or nine. -/
def decimals (nano : Nat) : List Char :=
  if nano = 0 then []
  else if nano % 1000000 = 0 then '.' :: padded 3 (nano / 1000000)
  else if nano % 1000 = 0 then '.' :: padded 6 (nano / 1000)
  else '.' :: padded 9 nano

/-- A time of day with its decimals. -/
def TimeOfDay.full (t : TimeOfDay) : List Char := t.text ++ decimals t.writtenNano

/-- A date and a time as settings write them. -/
def DateTime.text (t : DateTime) : List Char := t.date.text '/' ++ ' ' :: t.time.text

/-- A date and a time with decimals. -/
def DateTime.full (t : DateTime) : List Char := t.date.text '-' ++ 'T' :: t.time.full

/-- An instant to the millisecond. -/
def Instant.text (t : Instant) : List Char :=
  t.utc.date.text '-' ++ 'T' :: t.utc.time.text ++ '.' :: padded 3 (t.utc.time.writtenNano / 1000000) ++ ['Z']

/-- An instant with its decimals. -/
def Instant.full (t : Instant) : List Char := t.utc.full ++ ['Z']

end Settings.Calendar
