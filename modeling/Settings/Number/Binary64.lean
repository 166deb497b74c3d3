import Settings.Number.Integer

/-!
# Binary floating point in exact arithmetic

A number of the IEEE 754 format binary64 is its word of 64 bits. Everything here is integer arithmetic on
the significand and the exponent of the word: rounding of a ratio to the nearest number (ties to even),
the reading of decimal text, and the fewest digits that read back.
-/
namespace Settings.Number

/-- A number of the format binary64, as its word. -/
structure Binary64 where
  bits : UInt64
  deriving DecidableEq, Repr, Inhabited

/-- What rounding needs to know of a binary format: the digits of a significand, the exponent of the
    last digit of the smallest numbers, and the first exponent that is too large for it. -/
structure Precision where
  digits : Nat
  least : Int
  beyond : Int

/-- The format binary64. -/
def Precision.double : Precision := ⟨53, -1074, 972⟩

/-- The format binary32. -/
def Precision.single : Precision := ⟨24, -149, 105⟩

/-- The quotient rounded to the nearest integer, a tie to the even one. -/
def roundDiv (num den : Nat) : Nat :=
  let q := num / den
  let r := num % den
  if 2 * r < den then q
  else if den < 2 * r then q + 1
  else if q % 2 = 0 then q else q + 1

/-- `⌊log₂ (num / den)⌋` for positive numbers. -/
def log2Ratio (num den : Nat) : Int :=
  let e : Int := (Nat.log2 num : Int) - Nat.log2 den
  let below := if 0 ≤ e then num < den * twoTo e.toNat else num * twoTo (-e).toNat < den
  if below then e - 1 else e

/-- The significand and exponent nearest to a positive ratio; none if that is too large for the format. -/
def roundRatio (p : Precision) (num den : Nat) : Option (Nat × Int) :=
  let e := max p.least (log2Ratio num den - (p.digits - 1))
  let m := if 0 ≤ e then roundDiv num (den * twoTo e.toNat) else roundDiv (num * twoTo (-e).toNat) den
  let (m, e) := if m = twoTo p.digits then (twoTo (p.digits - 1), e + 1) else (m, e)
  if p.beyond ≤ e then none else some (m, e)

namespace Binary64

/-! ### The parts of a word -/

def negative (x : Binary64) : Bool := twoTo 63 ≤ x.bits.toNat

/-- The word without its sign. -/
def unsignedBits (x : Binary64) : Nat := x.bits.toNat % twoTo 63

def exponentField (x : Binary64) : Nat := x.unsignedBits / twoTo 52

def fraction (x : Binary64) : Nat := x.unsignedBits % twoTo 52

def isFinite (x : Binary64) : Bool := x.exponentField != 2047

def isNaN (x : Binary64) : Bool := x.exponentField == 2047 && x.fraction != 0

def isZero (x : Binary64) : Bool := x.unsignedBits == 0

/-- A finite number is its significand times two to its exponent, up to the sign. -/
def significand (x : Binary64) : Nat := if x.exponentField = 0 then x.fraction else twoTo 52 + x.fraction

def exponent (x : Binary64) : Int := if x.exponentField = 0 then -1074 else (x.exponentField : Int) - 1075

/-- The magnitude of a finite number as a ratio. -/
def ratio (x : Binary64) : Nat × Nat :=
  if 0 ≤ x.exponent then (x.significand * twoTo x.exponent.toNat, 1)
  else (x.significand, twoTo (-x.exponent).toNat)

/-! ### Making a word -/

/-- The word of a sign and the bits below it. -/
def ofParts (negative : Bool) (unsignedBits : Nat) : Binary64 :=
  ⟨UInt64.ofNat ((if negative then twoTo 63 else 0) + unsignedBits)⟩

def infinity (negative : Bool) : Binary64 := ofParts negative (2047 * twoTo 52)

def nan : Binary64 := ofParts false (2047 * twoTo 52 + twoTo 51)

def zero : Binary64 := ofParts false 0

/-- The word of a significand below `2 ^ 53` and its exponent; a full significand carries into the
    exponent field. -/
def ofScaled (negative : Bool) : Option (Nat × Int) → Binary64
  | none => infinity negative
  | some (m, e) => ofParts negative ((e + 1074).toNat * twoTo 52 + m)

/-- The number nearest to a ratio, ties to even. -/
def ofRatio (negative : Bool) (num den : Nat) : Binary64 :=
  if num = 0 then ofParts negative 0 else ofScaled negative (roundRatio .double num den)

/-- The number nearest to an integer. -/
def ofInt (n : Int) : Binary64 := ofRatio (n < 0) n.natAbs 1

/-- The number nearest to `digits` times ten to `exponent`. Far outside the range of the format no power
    of ten is computed. -/
def ofDecimal (negative : Bool) (digits : Nat) (exponent : Int) : Binary64 :=
  let places : Int := (Nat.toDigits 10 digits).length
  if digits = 0 then ofParts negative 0
  else if 310 < places + exponent then infinity negative
  else if places + exponent < -330 then ofParts negative 0
  else if 0 ≤ exponent then ofRatio negative (digits * tenTo exponent.toNat) 1
  else ofRatio negative digits (tenTo (-exponent).toNat)

/-! ### Other formats -/

/-- The number of the format binary32 nearest to `x`, as a number of the wider format. -/
def toSingle (x : Binary64) : Binary64 :=
  if !x.isFinite || x.isZero then x
  else
    match roundRatio .single x.ratio.1 x.ratio.2 with
    | none => infinity x.negative
    | some (m, e) =>
      if 0 ≤ e then ofRatio x.negative (m * twoTo e.toNat) 1 else ofRatio x.negative m (twoTo (-e).toNat)

/-- The number of a word of the format binary32. -/
def ofSingleBits (w : UInt32) : Binary64 :=
  let sign := twoTo 31 ≤ w.toNat
  let field := w.toNat / twoTo 23 % twoTo 8
  let fraction := w.toNat % twoTo 23
  if field = 255 then (if fraction = 0 then infinity sign else nan)
  else if field = 0 then ofRatio sign fraction (twoTo 149)
  else ofRatio sign ((twoTo 23 + fraction) * twoTo field) (twoTo 150)

/-- The integer part of a finite number. -/
def truncate (x : Binary64) : Int :=
  let n : Int := (x.ratio.1 / x.ratio.2 : Nat)
  if x.negative then -n else n

/-- A finite number without a part behind the point. -/
def isIntegral (x : Binary64) : Bool := x.isFinite && x.ratio.1 % x.ratio.2 == 0

/-- The integer part, brought into the range of a signed word; zero for a number that is none. -/
def toWord (x : Binary64) : Int :=
  if x.isNaN then 0
  else if !x.isFinite then (if x.negative then -(twoTo 63) else twoTo 63 - 1)
  else max (-(twoTo 63)) (min (twoTo 63 - 1) x.truncate)

/-- Equality of values: no number that is none equals anything, and the zeros are equal. -/
def sameValue (x y : Binary64) : Bool :=
  !x.isNaN && !y.isNaN && (x.bits == y.bits || (x.isZero && y.isZero))

end Binary64

end Settings.Number
