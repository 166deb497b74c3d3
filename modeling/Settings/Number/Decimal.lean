import Settings.Number.Binary64

/-!
# Decimal text of floating point numbers

Reading takes digits with an optional point and exponent, or a word for infinity or for no number.
Writing takes the fewest significant digits that read back as the same number, of two such texts the one
nearer to it and of two equally near ones the one of larger magnitude, and always writes them out by place,
never with an exponent.
-/
namespace Settings.Number

/-- Why a text is no number. -/
inductive DecimalFault where
  | empty
  | malformed
  deriving DecidableEq, Repr

def DecimalFault.message : DecimalFault → String
  | .empty => "cannot parse float from empty string"
  | .malformed => "invalid float literal"

/-- The number that decimal digits denote, in front of the rest. -/
def digitsValue (cs : List Char) : Nat := cs.foldl (fun n c => 10 * n + (c.toNat - 48)) 0

/-- The exponent behind its mark: digits behind an optional sign. -/
def readExponent? (cs : List Char) : Option Int :=
  let signed (negative : Bool) (ds : List Char) : Option Int :=
    if ds = [] ∨ !ds.all Char.isDigit then none
    else some (if negative then -(digitsValue ds : Int) else digitsValue ds)
  match cs with
  | '+' :: ds => signed false ds
  | '-' :: ds => signed true ds
  | ds => signed false ds

/-- The number of a text without sign: digits, perhaps a point with digits on at least one side of it,
    perhaps an exponent. -/
def readUnsigned? (negative : Bool) (cs : List Char) : Option Binary64 :=
  let whole := cs.takeWhile Char.isDigit
  let rest := cs.dropWhile Char.isDigit
  let (places, rest) :=
    match rest with
    | '.' :: r => (r.takeWhile Char.isDigit, r.dropWhile Char.isDigit)
    | r => ([], r)
  if whole = [] ∧ places = [] then none
  else
    let number (e : Int) := Binary64.ofDecimal negative (digitsValue (whole ++ places)) (e - places.length)
    match rest with
    | [] => some (number 0)
    | c :: ds => if c = 'e' ∨ c = 'E' then (readExponent? ds).map number else none

/-- The number a text denotes. -/
def readDecimal (cs : List Char) : Except DecimalFault Binary64 :=
  let body (negative : Bool) (ds : List Char) : Except DecimalFault Binary64 :=
    let word := ds.map Char.toLower
    if word = ['i', 'n', 'f'] ∨ word = ['i', 'n', 'f', 'i', 'n', 'i', 't', 'y'] then .ok (.infinity negative)
    else if word = ['n', 'a', 'n'] then .ok .nan
    else
      match readUnsigned? negative ds with
      | some x => .ok x
      | none => .error .malformed
  match cs with
  | [] => .error .empty
  | '+' :: ds => body false ds
  | '-' :: ds => body true ds
  | ds => body false ds

namespace Binary64

/-! ### The fewest digits -/

/-- The place of the first significant digit of a positive ratio. No number of the format is below
    `10 ^ -324`. -/
def leadingPlace (num den : Nat) : Int := ((Nat.toDigits 10 (num * tenTo 324 / den)).length : Int) - 325

/-- The multiples of `10 ^ place` below and above a ratio: the lower factor, and whether the upper
    one is to be preferred, as the nearer one or as the upper one of two that are equally near. -/
def grid (num den : Nat) (place : Int) : Nat × Bool :=
  let (n, d) := if 0 ≤ place then (num, den * tenTo place.toNat) else (num * tenTo (-place).toNat, den)
  (n / d, d ≤ 2 * (n % d))

/-- Of the two neighbours of a number on a decimal grid the preferred one if it reads back, else the other
    one if that does. -/
def onGrid? (x : Binary64) (place : Int) : Option (Nat × Int) :=
  let (low, upper) := grid x.ratio.1 x.ratio.2 place
  let candidates := if upper then [low + 1, low] else [low, low + 1]
  (candidates.find? fun d => ofDecimal x.negative d place == x).map fun d => (d, place)

/-- The first grid of `count` grids from `place` down on which a number has a neighbour that reads back. -/
def firstGrid? (x : Binary64) (place : Int) : Nat → Option (Nat × Int)
  | 0 => none
  | count + 1 =>
    match onGrid? x place with
    | some found => some found
    | none => firstGrid? x (place - 1) count

/-- Every finite number is an integer times a power of ten: multiply a power of two below one by as many
    fives. -/
def exactDecimal (x : Binary64) : Nat × Int :=
  if 0 ≤ x.exponent then (x.significand * twoTo x.exponent.toNat, 0)
  else (x.significand * Nat.pow 5 (-x.exponent).toNat, x.exponent)

/-- The fewest significant digits of a finite number that read back, as an integer times ten to an
    exponent. On the first grid the upper neighbour may be ten, which is one on the grid above. -/
def shortest (x : Binary64) : Nat × Int :=
  if x.isZero then (0, 0)
  else
    let (digits, place) := (firstGrid? x (leadingPlace x.ratio.1 x.ratio.2) 17).getD (exactDecimal x)
    if digits = 10 then (1, place + 1) else (digits, place)

/-! ### Places -/

/-- `digits` times ten to `exponent`, written out by place. -/
def byPlace (digits : Nat) (exponent : Int) : List Char :=
  let ds := Nat.toDigits 10 digits
  if digits = 0 then ['0']
  else if 0 ≤ exponent then ds ++ List.replicate exponent.toNat '0'
  else
    let places := (-exponent).toNat
    let padded := List.replicate (places + 1 - ds.length) '0' ++ ds
    padded.take (padded.length - places) ++ '.' :: padded.drop (padded.length - places)

/-- A number as text: by place for a finite number, with no point if it is integral. -/
def plain (x : Binary64) : List Char :=
  let sign : List Char := if x.negative then ['-'] else []
  if x.isNaN then ['N', 'a', 'N']
  else if !x.isFinite then sign ++ ['i', 'n', 'f']
  else
    let (digits, exponent) := x.shortest
    sign ++ byPlace digits exponent

/-- A number as text that shows it is no integer: a finite number has a point. -/
def pointed (x : Binary64) : List Char :=
  let text := x.plain
  if x.isFinite && !text.contains '.' then text ++ ['.', '0'] else text

end Binary64

end Settings.Number
