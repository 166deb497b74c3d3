import Settings.Lexeme.Basic

/-!
# Looking ahead

A cursor reads lexemes one by one and may look at later ones first. The lexemes looked at wait in a
list; reading takes them from there before the scan goes on.
-/
namespace Settings

/-- A scan and the lexemes it has read ahead. -/
structure Cursor where
  scanner : Scanner
  ahead : List Lexeme
  deriving DecidableEq, Repr

namespace Cursor

/-- The cursor at the start of a text. -/
def start (text : String) : Cursor := ⟨Scanner.start text, []⟩

/-- Reads `count` more lexemes ahead, or as many as there are before a fault. -/
def fill (r : LexRules) (c : Cursor) : Nat → Except Fault Unit × Cursor
  | 0 => (.ok (), c)
  | count + 1 =>
    match c.scanner.next r with
    | (.ok l, s) => fill r ⟨s, c.ahead ++ [l]⟩ count
    | (.error e, s) => (.error e, { c with scanner := s })

/-- The lexeme `n` places behind the next one. Nothing is taken. -/
def peekNth (r : LexRules) (c : Cursor) (n : Nat) : Except Fault Lexeme × Cursor :=
  match c.fill r (n + 1 - c.ahead.length) with
  | (.ok (), c) => (.ok (c.ahead.getD n ⟨c.scanner.line, .eof⟩), c)
  | (.error e, c) => (.error e, c)

/-- The next lexeme. Nothing is taken. -/
def peek (r : LexRules) (c : Cursor) : Except Fault Lexeme × Cursor := c.peekNth r 0

/-- Takes the next lexeme. -/
def next (r : LexRules) (c : Cursor) : Except Fault Lexeme × Cursor :=
  match c.ahead with
  | l :: ls => (.ok l, { c with ahead := ls })
  | [] =>
    let (l, s) := c.scanner.next r
    (l, { c with scanner := s })

theorem length_ahead_fill {r : LexRules} {c c' : Cursor} {count : Nat} (h : c.fill r count = (.ok (), c')) :
    c'.ahead.length = c.ahead.length + count := by
  induction count generalizing c with
  | zero => simp only [fill, Prod.mk.injEq] at h; simp [← h.2]
  | succ n ih =>
    simp only [fill] at h
    split at h
    · have := ih h; simp at this; omega
    · cases h

end Cursor

end Settings
