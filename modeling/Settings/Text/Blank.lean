/-!
# White space, control characters and lines

The classes of characters that every dialect agrees on, and the functions on lists of characters that
only look at them: trimming, cutting at a character and cutting into lines. All of them are plain list
functions, so that what they keep and what they drop can be said with `++`.
-/
namespace Settings.Text

/-- The characters with the Unicode property White_Space. -/
def isWhite (c : Char) : Bool :=
  let n := c.toNat
  (9 ≤ n && n ≤ 13) || n == 0x20 || n == 0x85 || n == 0xA0 || n == 0x1680 || (0x2000 ≤ n && n ≤ 0x200A) ||
    n == 0x2028 || n == 0x2029 || n == 0x202F || n == 0x205F || n == 0x3000

/-- A space or a tab: the characters that separate words inside a line. -/
def isBlank (c : Char) : Bool := c == ' ' || c == '\t'

/-- A line feed or a carriage return. -/
def isLineEnd (c : Char) : Bool := c == '\n' || c == '\r'

/-- The characters of the Unicode category Cc. -/
def isControl (c : Char) : Bool :=
  let n := c.toNat
  n < 0x20 || (0x7F ≤ n && n ≤ 0x9F)

theorem isWhite_of_isBlank {c : Char} (h : isBlank c = true) : isWhite c = true := by
  simp only [isBlank, Bool.or_eq_true, beq_iff_eq] at h
  rcases h with h | h <;> subst h <;> decide

/-! ### Trimming -/

/-- The text without the white space it starts with. -/
def trimStart (cs : List Char) : List Char := cs.dropWhile isWhite

/-- The text without the white space it ends with. -/
def trimEnd (cs : List Char) : List Char := (cs.reverse.dropWhile isWhite).reverse

/-- The text without the white space at both ends. -/
def trim (cs : List Char) : List Char := trimEnd (trimStart cs)

/-- `trim` of a string. -/
def trimmed (s : String) : String := String.ofList (trim s.toList)

/-! ### Cutting -/

/-- The text before and after the first `sep`, if there is one. -/
def cut? (sep : Char) : List Char → Option (List Char × List Char)
  | [] => none
  | c :: cs => if c = sep then some ([], cs) else (cut? sep cs).map fun (a, b) => (c :: a, b)

/-- The text before and after the last `sep`, if there is one. -/
def cutLast? (sep : Char) : List Char → Option (List Char × List Char)
  | [] => none
  | c :: cs =>
    match cutLast? sep cs with
    | some (a, b) => some (c :: a, b)
    | none => if c = sep then some ([], cs) else none

/-- The pieces between the occurrences of `sep`; there is always at least one. -/
def pieces (sep : Char) : List Char → List (List Char)
  | [] => [[]]
  | c :: cs =>
    if c = sep then [] :: pieces sep cs
    else
      match pieces sep cs with
      | [] => [[c]]
      | p :: ps => (c :: p) :: ps

/-- The text after `lead`, if it starts with it. -/
def after? (lead cs : List Char) : Option (List Char) :=
  match lead, cs with
  | [], cs => some cs
  | _ :: _, [] => none
  | l :: ls, c :: cs => if l = c then after? ls cs else none

/-- The text before its last character, if that is `c`. -/
def beforeLast? (c : Char) (cs : List Char) : Option (List Char) :=
  if cs.getLast? = some c then some cs.dropLast else none

theorem cut?_eq {sep : Char} {cs a b : List Char} (h : cut? sep cs = some (a, b)) : cs = a ++ sep :: b := by
  induction cs generalizing a b with
  | nil => simp [cut?] at h
  | cons c cs ih =>
    simp only [cut?] at h
    split at h
    · next hc => simp only [Option.some.injEq, Prod.mk.injEq] at h; simp [← h.1, ← h.2, hc]
    · simp only [Option.map_eq_some_iff, Prod.exists, Prod.mk.injEq] at h
      obtain ⟨a', b', h', rfl, rfl⟩ := h
      simp [ih h']

theorem after?_eq {lead cs rest : List Char} (h : after? lead cs = some rest) : cs = lead ++ rest := by
  induction lead generalizing cs with
  | nil => simpa [after?] using h
  | cons l ls ih =>
    cases cs with
    | nil => simp [after?] at h
    | cons c cs =>
      simp only [after?] at h
      split at h
      · next hc => simp [hc, ih h]
      · simp at h

/-! ### Lines -/

/-- One line without the carriage return that stood before its line feed. -/
def withoutReturn (cs : List Char) : List Char := (beforeLast? '\r' cs).getD cs

/-- The lines of a text. A line feed ends a line, together with a carriage return before it; the last
    line needs no end, and there is no empty line after a final line feed. -/
def lines (cs : List Char) : List (List Char) :=
  match _h : cut? '\n' cs with
  | none => if cs = [] then [] else [cs]
  | some (a, b) => withoutReturn a :: lines b
termination_by cs.length
decreasing_by have := congrArg List.length (cut?_eq _h); simp at this; omega

end Settings.Text
