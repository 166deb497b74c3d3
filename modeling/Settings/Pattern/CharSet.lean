/-!
# Sets of characters

A set of characters is kept as ranges of code points, in order and with a gap between neighbours, so that a
set has one form only. What the other case of a set is depends on this form: a range gives the other case of
its small letters, or of its capital letters if it has no small ones, and never of both.
-/
namespace Settings.Pattern

/-! ### Ranges -/

/-- The code points from `first` to `last`. -/
structure CharRange where
  first : Nat
  last : Nat
  ordered : first ≤ last
  deriving DecidableEq, Repr

namespace CharRange

/-- The range between two characters, if they stand in this order. -/
def between? (first last : Char) : Option CharRange :=
  if h : first.toNat ≤ last.toNat then some ⟨first.toNat, last.toNat, h⟩ else none

def single (c : Char) : CharRange := ⟨c.toNat, c.toNat, Nat.le_refl _⟩

/-- The characters of a range. -/
def has (c : Char) (r : CharRange) : Bool := r.first ≤ c.toNat && c.toNat ≤ r.last

theorem has_iff {c : Char} {r : CharRange} : r.has c = true ↔ r.first ≤ c.toNat ∧ c.toNat ≤ r.last := by
  simp [has]

/-- All of `r` stands before all of `s`, and a code point lies between them. -/
def Before (r s : CharRange) : Prop := r.last + 1 < s.first

instance (r s : CharRange) : Decidable (r.Before s) := inferInstanceAs (Decidable (_ < _))

/-- The least range around two. -/
def join (r s : CharRange) : CharRange :=
  ⟨min r.first s.first, max r.last s.last, by have := r.ordered; have := s.ordered; omega⟩

/-- The code points that two ranges share, if there are any. -/
def meet? (r s : CharRange) : Option CharRange :=
  if h : max r.first s.first ≤ min r.last s.last then some ⟨_, _, h⟩ else none

def smallLetters : CharRange := ⟨'a'.toNat, 'z'.toNat, by decide⟩

def capitalLetters : CharRange := ⟨'A'.toNat, 'Z'.toNat, by decide⟩

/-- The other case of the small letters of a range, or of its capital letters if it has no small ones. The
    two cases of a letter lie 32 code points apart. -/
def otherCase? (r : CharRange) : Option CharRange :=
  match r.meet? smallLetters with
  | some s => some ⟨s.first - 32, s.last - 32, Nat.sub_le_sub_right s.ordered 32⟩
  | none =>
    (r.meet? capitalLetters).map fun s => ⟨s.first + 32, s.last + 32, Nat.add_le_add_right s.ordered 32⟩

/-! ### Ranges that stand apart -/

/-- Puts a range among others; those that it meets or touches become one with it. -/
def addTo (r : CharRange) : List CharRange → List CharRange
  | [] => [r]
  | s :: rest =>
    if r.Before s then r :: s :: rest
    else if s.Before r then s :: addTo r rest
    else addTo (r.join s) rest

theorem before_of_mem_addTo {q r : CharRange} {rs : List CharRange} (hr : q.Before r)
    (hrs : ∀ s ∈ rs, q.Before s) : ∀ s ∈ addTo r rs, q.Before s := by
  induction rs generalizing r with
  | nil => simpa [addTo] using hr
  | cons s rest ih =>
    simp only [List.forall_mem_cons] at hrs
    simp only [addTo]
    split
    · simpa using ⟨hr, hrs⟩
    · split
      · simpa using ⟨hrs.1, ih hr hrs.2⟩
      · refine ih ?_ hrs.2
        have := hrs.1
        simp only [Before, join] at hr this ⊢
        omega

theorem pairwise_addTo {r : CharRange} {rs : List CharRange} (h : rs.Pairwise Before) :
    (addTo r rs).Pairwise Before := by
  induction rs generalizing r with
  | nil => simp [addTo]
  | cons s rest ih =>
    obtain ⟨hs, hrest⟩ := List.pairwise_cons.1 h
    simp only [addTo]
    split
    · next hr =>
      refine List.pairwise_cons.2 ⟨fun t ht => ?_, h⟩
      rcases List.mem_cons.1 ht with rfl | ht
      · exact hr
      · have := hs t ht
        have := s.ordered
        simp only [Before] at *
        omega
    · split
      · next hr => exact List.pairwise_cons.2 ⟨before_of_mem_addTo hr hs, ih hrest⟩
      · exact ih hrest

theorem any_has_addTo (c : Char) (r : CharRange) (rs : List CharRange) :
    (addTo r rs).any (has c) = (r.has c || rs.any (has c)) := by
  induction rs generalizing r with
  | nil => simp [addTo]
  | cons s rest ih =>
    simp only [addTo]
    split
    · simp
    · split
      · simp [ih, Bool.or_left_comm]
      · next hr hs =>
        have hj : (r.join s).has c = (r.has c || s.has c) := by
          have := r.ordered
          have := s.ordered
          rw [Bool.eq_iff_iff, Bool.or_eq_true]
          simp only [has_iff, join, Before] at *
          omega
        simp [ih, hj, Bool.or_assoc]

/-! ### Gaps -/

/-- The last code point. -/
def lastCode : Nat := 0x10FFFF

/-- The gaps between ranges, from a code point on. -/
def gaps (start : Nat) : List CharRange → List CharRange
  | [] => if h : start ≤ lastCode then [⟨start, lastCode, h⟩] else []
  | r :: rest =>
    if h : start < r.first then ⟨start, r.first - 1, Nat.le_sub_one_of_lt h⟩ :: gaps (r.last + 1) rest
    else gaps (r.last + 1) rest

theorem toNat_le_lastCode (c : Char) : c.toNat ≤ lastCode := by
  have := c.valid
  simp only [UInt32.isValidChar, Nat.isValidChar] at this
  simp only [lastCode, Char.toNat]
  omega

theorem any_has_gaps {c : Char} {start : Nat} {rs : List CharRange} (h : rs.Pairwise Before)
    (hs : ∀ r ∈ rs, start ≤ r.first) :
    (gaps start rs).any (has c) = (decide (start ≤ c.toNat) && !rs.any (has c)) := by
  induction rs generalizing start with
  | nil =>
    have := toNat_le_lastCode c
    simp only [gaps]
    split <;> simp [has] <;> omega
  | cons r rest ih =>
    obtain ⟨hr, hrest⟩ := List.pairwise_cons.1 h
    have hstart := hs r List.mem_cons_self
    have hbefore : ∀ s ∈ rest, r.last + 1 ≤ s.first := fun s hs => Nat.le_of_lt (hr s hs)
    have hfar : c.toNat ≤ r.last → rest.any (has c) = false := fun hc => by
      rw [List.any_eq_false]
      intro s hs
      have := hbefore s hs
      rw [has_iff]
      omega
    have := r.ordered
    simp only [gaps]
    split <;> simp only [List.any_cons, ih hrest hbefore] <;> cases hb : rest.any (has c) <;>
      rw [Bool.eq_iff_iff] <;> simp [has, hb] at hfar ⊢ <;> omega

end CharRange

/-! ### Sets -/

/-- A set of characters. -/
structure CharSet where
  ranges : List CharRange
  apart : ranges.Pairwise CharRange.Before
  deriving DecidableEq, Repr

namespace CharSet

/-- The members of a set. -/
def has (c : Char) (set : CharSet) : Bool := set.ranges.any (CharRange.has c)

def none : CharSet := ⟨[], .nil⟩

/-- Adds the characters of a range. -/
def insert (set : CharSet) (r : CharRange) : CharSet :=
  ⟨r.addTo set.ranges, CharRange.pairwise_addTo set.apart⟩

/-- Adds the characters of ranges in any order, which may share some. -/
def insertAll (set : CharSet) (rs : List CharRange) : CharSet := rs.foldl insert set

def union (a b : CharSet) : CharSet := a.insertAll b.ranges

def single (c : Char) : CharSet := none.insert (.single c)

/-- The characters between the two of each pair. -/
def ofPairs (ps : List (Char × Char)) : CharSet :=
  none.insertAll (ps.filterMap fun (a, b) => CharRange.between? a b)

/-- All characters that are not in a set. -/
def except (set : CharSet) : CharSet := none.insertAll (CharRange.gaps 0 set.ranges)

/-- A set and the other case of each of its ranges. -/
def anyCase (set : CharSet) : CharSet := set.insertAll (set.ranges.filterMap CharRange.otherCase?)

@[simp] theorem has_none (c : Char) : none.has c = false := rfl

@[simp] theorem has_insert (c : Char) (set : CharSet) (r : CharRange) :
    (set.insert r).has c = (r.has c || set.has c) :=
  CharRange.any_has_addTo c r set.ranges

@[simp] theorem has_insertAll (c : Char) (set : CharSet) (rs : List CharRange) :
    (set.insertAll rs).has c = (set.has c || rs.any (CharRange.has c)) := by
  induction rs generalizing set with
  | nil => simp [insertAll]
  | cons r rs ih =>
    have : set.insertAll (r :: rs) = (set.insert r).insertAll rs := rfl
    simp [this, ih, Bool.or_assoc, Bool.or_left_comm]

@[simp] theorem has_union (c : Char) (a b : CharSet) : (a.union b).has c = (a.has c || b.has c) :=
  has_insertAll c a b.ranges

@[simp] theorem has_except (c : Char) (set : CharSet) : set.except.has c = !set.has c := by
  simp only [except, has_insertAll, has_none, Bool.false_or]
  rw [CharRange.any_has_gaps set.apart fun _ _ => Nat.zero_le _]
  simp [has]

/-! ### Sets with a name -/

def digits : CharSet := ofPairs [('0', '9')]

def letters : CharSet := ofPairs [('A', 'Z'), ('a', 'z')]

def space : CharSet := ofPairs [('\t', '\r'), (' ', ' ')]

def word : CharSet := ofPairs [('0', '9'), ('A', 'Z'), ('_', '_'), ('a', 'z')]

/-- The sets that have a name between brackets and colons. -/
def named? (name : String) : Option CharSet :=
  match name with
  | "alnum" => some (digits.union letters)
  | "alpha" => some letters
  | "ascii" => some (ofPairs [('\x00', '\x7f')])
  | "blank" => some (ofPairs [('\t', '\t'), (' ', ' ')])
  | "cntrl" => some (ofPairs [('\x00', '\x1f'), ('\x7f', '\x7f')])
  | "digit" => some digits
  | "graph" => some (ofPairs [('!', '~')])
  | "lower" => some (ofPairs [('a', 'z')])
  | "print" => some (ofPairs [(' ', '~')])
  | "punct" => some (ofPairs [('!', '/'), (':', '@'), ('[', '\x60'), ('\x7b', '~')])
  | "space" => some space
  | "upper" => some (ofPairs [('A', 'Z')])
  | "word" => some word
  | "xdigit" => some (ofPairs [('0', '9'), ('A', 'F'), ('a', 'f')])
  | _ => Option.none

end CharSet

end Settings.Pattern
