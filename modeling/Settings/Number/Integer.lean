/-!
# Integers of fixed width

The integer targets a setting can be read as, and the reading of their decimal text. Reading looks at one
character after the other, so the first of a wrong character and an overflow decides the fault.
-/
namespace Settings.Number

/-- A power of two. -/
def twoTo (k : Nat) : Nat := Nat.pow 2 k

/-- A power of ten. -/
def tenTo (k : Nat) : Nat := Nat.pow 10 k

/-- A two's-complement or unsigned integer of a number of bits. -/
structure IntKind where
  signed : Bool
  bits : Nat
  deriving DecidableEq, Repr

namespace IntKind

/-- The greatest integer of a kind. -/
def max (k : IntKind) : Nat := (if k.signed then twoTo (k.bits - 1) else twoTo k.bits) - 1

/-- How far below zero a kind reaches. -/
def depth (k : IntKind) : Nat := if k.signed then twoTo (k.bits - 1) else 0

/-- The integers of a kind. -/
def holds (k : IntKind) (n : Int) : Bool := -(k.depth : Int) ≤ n && n ≤ k.max

/-- The short name of a kind in messages. -/
def name (k : IntKind) : String := (if k.signed then "i" else "u") ++ toString k.bits

end IntKind

/-- The word of a setting's tree: 64 bits, signed. -/
def IntKind.word : IntKind := ⟨true, 64⟩

/-- An integer in decimal digits, behind a minus if it is negative. -/
def intText (n : Int) : List Char :=
  if n < 0 then '-' :: Nat.toDigits 10 n.natAbs else Nat.toDigits 10 n.natAbs

/-- Why a text is no integer of a kind. -/
inductive IntFault where
  | empty
  | wrongDigit
  | tooLarge
  | tooSmall
  deriving DecidableEq, Repr

def IntFault.message : IntFault → String
  | .empty => "cannot parse integer from empty string"
  | .wrongDigit => "invalid digit found in string"
  | .tooLarge => "number too large to fit in target type"
  | .tooSmall => "number too small to fit in target type"

/-- The value of a decimal digit. -/
def digit? (c : Char) : Option Nat := if '0' ≤ c ∧ c ≤ '9' then some (c.toNat - 48) else none

/-- The digits `cs` behind those of `acc`, as long as the number stays within `limit`. -/
def readDigits (limit : Nat) (excess : IntFault) (acc : Nat) : List Char → Except IntFault Nat
  | [] => .ok acc
  | c :: cs =>
    match digit? c with
    | none => .error .wrongDigit
    | some d => if 10 * acc + d ≤ limit then readDigits limit excess (10 * acc + d) cs else .error excess

/-- The integer a text denotes: digits behind an optional sign. Only a signed kind takes a minus. -/
def readInt (k : IntKind) : List Char → Except IntFault Int
  | [] => .error .empty
  | [c] => if c = '+' ∨ c = '-' then .error .wrongDigit else (readDigits k.max .tooLarge 0 [c]).map Int.ofNat
  | c :: cs =>
    if c = '+' then (readDigits k.max .tooLarge 0 cs).map Int.ofNat
    else if c = '-' ∧ k.signed then (readDigits k.depth .tooSmall 0 cs).map fun n => -(n : Int)
    else (readDigits k.max .tooLarge 0 (c :: cs)).map Int.ofNat

theorem readDigits_le {limit : Nat} {excess : IntFault} {cs : List Char} {acc n : Nat} (hacc : acc ≤ limit)
    (h : readDigits limit excess acc cs = .ok n) : n ≤ limit := by
  induction cs generalizing acc with
  | nil => simp only [readDigits, Except.ok.injEq] at h; omega
  | cons c cs ih =>
    simp only [readDigits] at h
    split at h
    · cases h
    · split at h
      · next hle => exact ih hle h
      · cases h

/-! ### Hexadecimal -/

/-- The value of a hexadecimal digit of either case. -/
def hexDigit? (c : Char) : Option Nat :=
  if '0' ≤ c ∧ c ≤ '9' then some (c.toNat - 48)
  else if 'a' ≤ c ∧ c ≤ 'f' then some (c.toNat - 87)
  else if 'A' ≤ c ∧ c ≤ 'F' then some (c.toNat - 55)
  else none

/-- The number that hexadecimal digits denote behind those of `acc`. -/
def readHex? (acc : Nat) : List Char → Option Nat
  | [] => some acc
  | c :: cs => (hexDigit? c).bind fun d => readHex? (16 * acc + d) cs

/-- The character of a number, if it is a Unicode scalar value. -/
def scalar? (n : Nat) : Option Char := if n.isValidChar then some (Char.ofNat n) else none

/-- The character named by the four characters behind an escape. A plus in the first place of the four
    counts as a sign. -/
def escapedChar? (four : List Char) : Option Char :=
  if four.length = 4 then
    (match four with
     | '+' :: digits => readHex? 0 digits
     | digits => readHex? 0 digits).bind scalar?
  else none

end Settings.Number
