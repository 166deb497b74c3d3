import Settings.Calendar.Basic
import Settings.Number.Integer
import Settings.Text.Blank

/-!
# Reading dates and times

A text is read by the first of a list of patterns that it fits from end to end. Numbers may be short and
have white space before them; a year may have a sign, and then any number of digits. Instants also have the
form of RFC 3339 with its offset from UTC, and may be given in milliseconds.
-/
namespace Settings.Calendar

/-- One part of a pattern. -/
inductive Piece where
  | year
  | month
  | day
  | hour
  | minute
  | second
  /-- A point and decimals of a second, or nothing. -/
  | fraction
  /-- Any white space, also none. -/
  | blank
  | mark (c : Char)
  deriving DecidableEq, Repr

/-- The numbers that have been read. -/
structure Fields where
  year : Int := 0
  month : Nat := 0
  day : Nat := 0
  hour : Nat := 0
  minute : Nat := 0
  second : Nat := 0
  nano : Nat := 0

namespace Fields

def date? (f : Fields) : Option Date := Date.of? f.year f.month f.day

def time? (f : Fields) : Option TimeOfDay := TimeOfDay.of? f.hour f.minute f.second f.nano

def dateTime? (f : Fields) : Option DateTime := do return ⟨← f.date?, ← f.time?⟩

end Fields

/-- The number that digits denote. -/
def digitsNumber (ds : List Char) : Nat := ds.foldl (fun n c => 10 * n + (c.toNat - 48)) 0

/-- At least one digit and at most `most` of them. -/
def number? (most : Nat) (cs : List Char) : Option (Nat × List Char) :=
  let ds := (cs.take most).takeWhile Char.isDigit
  if ds = [] then none else some (digitsNumber ds, cs.drop ds.length)

/-- Exactly so many digits. -/
def exactly? (count : Nat) (cs : List Char) : Option (Nat × List Char) :=
  let ds := cs.take count
  if ds.length = count ∧ ds.all Char.isDigit then some (digitsNumber ds, cs.drop count) else none

/-- The decimals of a second, in nanoseconds; digits behind the ninth do not count. -/
def decimals? (cs : List Char) : Option (Nat × List Char) :=
  let ds := (cs.take 9).takeWhile Char.isDigit
  if ds = [] then none
  else some (digitsNumber ds * Number.tenTo (9 - ds.length), (cs.drop ds.length).dropWhile Char.isDigit)

/-- A year: with a sign any number of digits, else at most four. -/
def year? (cs : List Char) : Option (Int × List Char) :=
  match cs with
  | '-' :: ds => (number? ds.length ds).map fun (n, rest) => (-(n : Int), rest)
  | '+' :: ds => (number? ds.length ds).map fun (n, rest) => ((n : Int), rest)
  | ds => (number? 4 ds).map fun (n, rest) => ((n : Int), rest)

/-- Reads one part of a pattern. -/
def Piece.read? (f : Fields) (cs : List Char) : Piece → Option (Fields × List Char)
  | year => (year? (Text.trimStart cs)).map fun (n, rest) => ({ f with year := n }, rest)
  | month => (number? 2 (Text.trimStart cs)).map fun (n, rest) => ({ f with month := n }, rest)
  | day => (number? 2 (Text.trimStart cs)).map fun (n, rest) => ({ f with day := n }, rest)
  | hour => (number? 2 (Text.trimStart cs)).map fun (n, rest) => ({ f with hour := n }, rest)
  | minute => (number? 2 (Text.trimStart cs)).map fun (n, rest) => ({ f with minute := n }, rest)
  | second => (number? 2 (Text.trimStart cs)).map fun (n, rest) => ({ f with second := n }, rest)
  | fraction =>
    match cs with
    | '.' :: ds => (decimals? ds).map fun (n, rest) => ({ f with nano := n }, rest)
    | _ => some (f, cs)
  | blank => some (f, Text.trimStart cs)
  | mark c => if cs.head? = some c then some (f, cs.tail) else none

/-- Reads a whole text by a pattern. -/
def fields? (f : Fields) : List Piece → List Char → Option Fields
  | [], cs => if cs = [] then some f else none
  | p :: ps, cs =>
    match p.read? f cs with
    | some (f, rest) => fields? f ps rest
    | none => none

/-- What the first pattern that a text fits makes of it. -/
def firstMatch? {α : Type} (patterns : List (List Piece)) (make : Fields → Option α) (cs : List Char) : Option α :=
  patterns.findSome? fun pattern => (fields? {} pattern cs).bind make

/-! ### The patterns -/

/-- Year, month and day with a mark between them. -/
def dateBy (c : Char) : List Piece := [.year, .mark c, .month, .mark c, .day]

/-- Hour and minute. -/
def toMinute : List Piece := [.hour, .mark ':', .minute]

/-- Hour, minute and second. -/
def toSecond : List Piece := toMinute ++ [.mark ':', .second]

def datePatterns : List (List Piece) := [dateBy '/', dateBy '-']

def timePatterns : List (List Piece) := [toSecond, toMinute, toSecond ++ [.fraction]]

def dateTimePatterns : List (List Piece) :=
  [dateBy '/' ++ .blank :: toSecond, dateBy '/' ++ .blank :: toMinute,
   dateBy '-' ++ .mark 'T' :: toSecond ++ [.fraction], dateBy '-' ++ .mark 'T' :: toSecond,
   dateBy '-' ++ .mark 'T' :: toMinute, dateBy '-' ++ .blank :: toSecond, dateBy '-' ++ .blank :: toMinute]

/-! ### Offsets -/

/-- The offset from UTC at the end of an instant, in seconds. -/
def offset? : List Char → Option Int
  | [c] => if c = 'Z' ∨ c = 'z' then some 0 else none
  | sign :: ds => do
    let (hours, rest) ← exactly? 2 ds
    let rest ← if rest.head? = some ':' then some rest.tail else none
    let (minutes, rest) ← exactly? 2 rest
    let seconds : Int := 3600 * hours + 60 * minutes
    if rest ≠ [] ∨ 59 < minutes ∨ 23 < hours then none
    else if sign = '+' then some seconds
    else if sign = '-' ∨ sign = '−' then some (-seconds)
    else none
  | [] => none

/-- An instant in the form of RFC 3339: all numbers in full, and an offset. -/
def rfc3339? (cs : List Char) : Option Instant := do
  let eat (c : Char) (cs : List Char) : Option (List Char) := if cs.head? = some c then some cs.tail else none
  let (year, cs) ← exactly? 4 cs
  let (month, cs) ← exactly? 2 (← eat '-' cs)
  let (day, cs) ← exactly? 2 (← eat '-' cs)
  let cs ← if cs.head?.any fun c => c == 'T' || c == 't' || c == ' ' then some cs.tail else none
  let (hour, cs) ← exactly? 2 cs
  let (minute, cs) ← exactly? 2 (← eat ':' cs)
  let (second, cs) ← exactly? 2 (← eat ':' cs)
  let (nano, cs) ← match cs with
    | '.' :: ds => decimals? ds
    | cs => some (0, cs)
  let offset ← offset? cs
  let local? : Fields := ⟨year, month, day, hour, minute, second, nano⟩
  Instant.ofLocal? (← local?.dateTime?) offset

/-! ### Reading -/

/-- A text that is no date or time. -/
structure Unrecognized where
  text : String
  deriving DecidableEq, Repr

def Unrecognized.message (e : Unrecognized) : String := "'" ++ e.text ++ "' is not a recognized date or time"

/-- Reads a trimmed text. -/
def readBy {α : Type} (make : List Char → Option α) (raw : String) : Except Unrecognized α :=
  let text := Text.trim raw.toList
  match make text with
  | some a => .ok a
  | none => .error ⟨String.ofList text⟩

def Date.read (raw : String) : Except Unrecognized Date := readBy (firstMatch? datePatterns Fields.date?) raw

def TimeOfDay.read (raw : String) : Except Unrecognized TimeOfDay :=
  readBy (firstMatch? timePatterns Fields.time?) raw

def DateTime.read (raw : String) : Except Unrecognized DateTime :=
  readBy (firstMatch? dateTimePatterns Fields.dateTime?) raw

/-- An instant: its milliseconds, or the form of RFC 3339, or a date and time or a date in UTC. -/
def Instant.of? (cs : List Char) : Option Instant :=
  match Number.readInt .word cs with
  | .ok millis => Instant.ofMillis? millis
  | .error _ =>
    match rfc3339? cs with
    | some t => some t
    | none =>
      match firstMatch? dateTimePatterns Fields.dateTime? cs with
      | some t => some ⟨t⟩
      | none => (firstMatch? datePatterns Fields.date? cs).map fun d => ⟨⟨d, .midnight⟩⟩

def Instant.read (raw : String) : Except Unrecognized Instant := readBy Instant.of? raw

end Settings.Calendar
