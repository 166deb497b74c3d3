import Settings.Fault
import Settings.Number.Integer
import Settings.Text.Printable

/-!
# UTF-8

Bytes to text and back. Each character has one encoding: a byte that starts no character, an encoding that
is longer than it need be and a surrogate are faults, which say where they are.
-/
namespace Settings.Text

/-- What a first byte promises: its share of the character, the range of the second byte, and how many
    bytes follow. -/
def leadByte? (b : Nat) : Option (Nat × Nat × Nat × Nat) :=
  if 0xC2 ≤ b ∧ b ≤ 0xDF then some (b - 0xC0, 0x80, 0xBF, 1)
  else if b = 0xE0 then some (0, 0xA0, 0xBF, 2)
  else if b = 0xED then some (0xD, 0x80, 0x9F, 2)
  else if 0xE1 ≤ b ∧ b ≤ 0xEF then some (b - 0xE0, 0x80, 0xBF, 2)
  else if b = 0xF0 then some (0, 0x90, 0xBF, 3)
  else if 0xF1 ≤ b ∧ b ≤ 0xF3 then some (b - 0xF0, 0x80, 0xBF, 3)
  else if b = 0xF4 then some (4, 0x80, 0x8F, 3)
  else none

/-- Why there is no character at the front of some bytes: the bytes end, or so many of them begin none. -/
inductive BadChar where
  | ends
  | begins (length : Nat)
  deriving DecidableEq, Repr

/-- Reads `count` more bytes of a character, the next of them between `lo` and `hi`; `seen` have been
    read. -/
def decodeTail (acc lo hi seen : Nat) : Nat → List UInt8 → Except BadChar (Nat × List UInt8)
  | 0, rest => .ok (acc, rest)
  | _ + 1, [] => .error .ends
  | count + 1, b :: rest =>
    if lo ≤ b.toNat ∧ b.toNat ≤ hi then decodeTail (64 * acc + (b.toNat - 0x80)) 0x80 0xBF (seen + 1) count rest
    else .error (.begins seen)

/-- The character at the front of bytes, and the bytes behind it. -/
def decodeChar (b : UInt8) (rest : List UInt8) : Except BadChar (Char × List UInt8) :=
  if b < 0x80 then .ok (Char.ofNat b.toNat, rest)
  else
    match leadByte? b.toNat with
    | none => .error (.begins 1)
    | some (share, lo, hi, count) => (decodeTail share lo hi 1 count rest).map fun (n, rest) => (Char.ofNat n, rest)

theorem length_decodeTail_le {acc lo hi seen count n : Nat} {bs rest : List UInt8}
    (h : decodeTail acc lo hi seen count bs = .ok (n, rest)) : rest.length ≤ bs.length := by
  induction count generalizing acc lo hi seen bs with
  | zero => simp only [decodeTail, Except.ok.injEq, Prod.mk.injEq] at h; simp [h.2]
  | succ count ih =>
    cases bs with
    | nil => cases h
    | cons b bs =>
      simp only [decodeTail] at h
      split at h
      · have := ih h; simp; omega
      · cases h

theorem length_decodeChar_le {b : UInt8} {c : Char} {bs rest : List UInt8}
    (h : decodeChar b bs = .ok (c, rest)) : rest.length ≤ bs.length := by
  unfold decodeChar at h
  split at h
  · simp only [Except.ok.injEq, Prod.mk.injEq] at h; simp [h.2]
  · split at h
    · cases h
    · next share lo hi count _ =>
      cases ht : decodeTail share lo hi 1 count bs with
      | error e => rw [ht] at h; cases h
      | ok p =>
        rw [ht] at h
        simp only [Except.map, Except.ok.injEq, Prod.mk.injEq] at h
        rw [← h.2]
        exact length_decodeTail_le ht

/-- The text of bytes that follow `index` others. -/
def decodeFrom (index : Nat) (bytes : List UInt8) : Except Utf8Cause (List Char) :=
  match bytes with
  | [] => .ok []
  | b :: bs =>
    match _h : decodeChar b bs with
    | .error .ends => .error (.incomplete index)
    | .error (.begins length) => .error (.invalid length index)
    | .ok (c, rest) => (decodeFrom (index + 1 + (bs.length - rest.length)) rest).map (c :: ·)
termination_by bytes.length
decreasing_by have := length_decodeChar_le _h; simp; omega

/-- The text of bytes. -/
def decode (bytes : List UInt8) : Except Utf8Cause String := (decodeFrom 0 bytes).map String.ofList

/-- The bytes of a text. -/
def encode (s : String) : List UInt8 := s.toList.flatMap String.utf8EncodeChar

/-! ### Bytes for looking at -/

/-- A byte that belongs to no character. -/
def shownByte (b : UInt8) : List Char :=
  let digit (n : Nat) := (Nat.digitChar n).toUpper
  ['\\', 'x', digit (b.toNat / 16), digit (b.toNat % 16)]

/-- Bytes as text with escapes, each byte that belongs to no character by its number. -/
def shownBytesFrom (bytes : List UInt8) : List Char :=
  match bytes with
  | [] => []
  | b :: bs =>
    match _h : decodeChar b bs with
    | .error _ => shownByte b ++ shownBytesFrom bs
    | .ok (c, rest) => (if c = '\'' then ['\\', c] else shownChar c) ++ shownBytesFrom rest
termination_by bytes.length
decreasing_by
  · simp
  · have := length_decodeChar_le _h; simp; omega

/-- Bytes between double quotes, with escapes. -/
def shownBytes (bytes : List UInt8) : String := String.ofList ('"' :: shownBytesFrom bytes ++ ['"'])

/-! ### Percent escapes -/

/-- The bytes of a text in which `%` and two hexadecimal digits stand for a byte. -/
def percentDecode : List Char → List UInt8
  | '%' :: h :: l :: rest =>
    match Number.hexDigit? h, Number.hexDigit? l with
    | some h, some l => UInt8.ofNat (16 * h + l) :: percentDecode rest
    | _, _ => String.utf8EncodeChar '%' ++ percentDecode (h :: l :: rest)
  | c :: rest => String.utf8EncodeChar c ++ percentDecode rest
  | [] => []

end Settings.Text
