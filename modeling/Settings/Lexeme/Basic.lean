import Settings.Fault
import Settings.Text.Alphanumeric
import Settings.Text.Blank
import Settings.Number.Integer

/-!
# Lexemes

The lexemes of the dialects with scopes in braces and of the text of trees: words, quoted texts, single
characters, blank runs and line ends. What belongs to a word, whether blank runs are reported and which
comments there are is given by `LexRules`. A scanner reads one lexeme at a time; a tape is all it reads
from a text.
-/
namespace Settings

/-- What the lexemes of one kind of document are. -/
structure LexRules where
  /-- The characters of words besides letters and digits. -/
  wordChars : List Char
  /-- Each run of spaces and tabs is a lexeme. -/
  blanks : Bool
  /-- A hash starts a comment at the start of a line or behind a blank. -/
  hashComments : Bool
  /-- Two slashes start a comment at the start of a line or behind a blank. -/
  slashComments : Bool
  deriving DecidableEq, Repr

namespace LexRules

/-- The lexemes of the HOCON dialect. -/
def hocon : LexRules := ⟨['_'], true, true, true⟩

/-- The lexemes of the flat JSON dialect. -/
def json : LexRules := ⟨['_'], false, true, true⟩

/-- The lexemes of the text of trees: a number is one word with its sign, point and exponent. -/
def tree : LexRules := ⟨['_', '-', '+', '.'], false, false, false⟩

/-- A letter, a number or one of the further characters of words. -/
def isWordChar (r : LexRules) (c : Char) : Bool := Text.isAlphanumeric c || r.wordChars.contains c

/-- A comment starts here, if it may start here at all. -/
def startsComment (r : LexRules) : List Char → Bool
  | '#' :: _ => r.hashComments
  | '/' :: '/' :: _ => r.slashComments
  | _ => false

end LexRules

/-- The kinds of lexemes. -/
inductive Token where
  | word (text : String)
  | quoted (quote : Char) (text : String)
  | char (c : Char)
  | blank
  | eol
  | eof
  deriving DecidableEq, Repr

/-- A token and the line it stands on, counted from one. -/
structure Lexeme where
  line : Nat
  token : Token
  deriving DecidableEq, Repr

/-! ### Quoted text -/

/-- What a backslash and a character stand for inside quotes. -/
def escaped (c : Char) : Char :=
  if c = 'n' then '\n' else if c = 't' then '\t' else if c = 'r' then '\r' else c

/-- What `\u` and the characters behind it stand for: the character they name, or else themselves. -/
def escapedFour (four : List Char) : List Char :=
  match Number.escapedChar? four with
  | some c => [c]
  | none => 'u' :: four

/-- Reads behind an opening quote up to the closing one: the text, if the line does not end first, and
    what is left. -/
def readQuoted (quote : Char) : List Char → Option (List Char) × List Char
  | [] => (none, [])
  | c :: cs =>
    if Text.isLineEnd c then (none, cs)
    else if c = quote then (some [], cs)
    else if c = '\\' then
      match cs with
      | [] => (none, [])
      | e :: ds =>
        if e = 'u' then
          let (text, rest) := readQuoted quote (ds.drop 4)
          (text.map (escapedFour (ds.take 4) ++ ·), rest)
        else
          let (text, rest) := readQuoted quote ds
          (text.map (escaped e :: ·), rest)
    else
      let (text, rest) := readQuoted quote cs
      (text.map (c :: ·), rest)
termination_by cs => cs.length

theorem length_readQuoted_le (quote : Char) (cs : List Char) : (readQuoted quote cs).2.length ≤ cs.length := by
  fun_induction readQuoted quote cs with
  | case1 | case4 => exact Nat.zero_le _
  | case2 | case3 => exact Nat.le_succ _
  | case5 cs text rest hread _ _ ih =>
    rw [hread] at ih
    have hdrop := (List.drop_sublist 4 cs).length_le
    exact Nat.le_succ_of_le (Nat.le_succ_of_le (Nat.le_trans ih hdrop))
  | case6 e cs _ text rest hread _ _ ih =>
    rw [hread] at ih
    exact Nat.le_succ_of_le (Nat.le_succ_of_le ih)
  | case7 c cs _ _ _ text rest hread ih =>
    rw [hread] at ih
    exact Nat.le_succ_of_le ih

/-! ### The scanner -/

/-- Where a scan stands: the text that is left, the line, and whether a comment may start. -/
structure Scanner where
  rest : List Char
  line : Nat
  boundary : Bool
  deriving DecidableEq, Repr

namespace Scanner

/-- The scan of a text from its start. -/
def start (text : String) : Scanner := ⟨text.toList, 1, true⟩

/-- Leaves out what is no lexeme: blanks that are not reported, and a comment up to the end of its
    line. -/
def skip (r : LexRules) (s : Scanner) : Scanner :=
  let s : Scanner :=
    if !r.blanks && s.rest.head?.any Text.isBlank then ⟨s.rest.dropWhile Text.isBlank, s.line, true⟩ else s
  if s.boundary && r.startsComment s.rest then { s with rest := s.rest.dropWhile (!Text.isLineEnd ·) } else s

/-- Reads the lexeme that `skip` has brought to the front. Behind the end of the text there is no other
    lexeme than the end. A control character is not passed. -/
def read (r : LexRules) (s : Scanner) : Except Fault Lexeme × Scanner :=
  match s.rest with
  | [] => (.ok ⟨s.line, .eof⟩, s)
  | c :: cs =>
    if c = '\n' then (.ok ⟨s.line, .eol⟩, ⟨cs, s.line + 1, true⟩)
    else if c = '\r' then
      (.ok ⟨s.line, .eol⟩, ⟨if cs.head? = some '\n' then cs.tail else cs, s.line + 1, true⟩)
    else if Text.isBlank c then (.ok ⟨s.line, .blank⟩, ⟨cs.dropWhile Text.isBlank, s.line, true⟩)
    else if Text.isControl c then (.error (.lexical s.line (.controlChar c)), s)
    else if c = '"' ∨ c = '\'' then
      match readQuoted c cs with
      | (some text, rest) => (.ok ⟨s.line, .quoted c (String.ofList text)⟩, ⟨rest, s.line, false⟩)
      | (none, rest) => (.error (.lexical s.line (.openQuote c)), ⟨rest, s.line, false⟩)
    else if r.isWordChar c then
      (.ok ⟨s.line, .word (String.ofList (c :: cs.takeWhile r.isWordChar))⟩,
        ⟨cs.dropWhile r.isWordChar, s.line, false⟩)
    else (.ok ⟨s.line, .char c⟩, ⟨cs, s.line, false⟩)

/-- The next lexeme, and the scan behind it. -/
def next (r : LexRules) (s : Scanner) : Except Fault Lexeme × Scanner := (s.skip r).read r

theorem length_skip_le (r : LexRules) (s : Scanner) : (s.skip r).rest.length ≤ s.rest.length := by
  -- First the comment, which comes last, from wherever the blanks end.
  have hcomment : ∀ t : Scanner, (if t.boundary && r.startsComment t.rest then
      { t with rest := t.rest.dropWhile (!Text.isLineEnd ·) } else t).rest.length ≤ t.rest.length := by
    intro t
    split
    case isTrue => exact (List.dropWhile_sublist _).length_le
    case isFalse => exact Nat.le_refl _
  refine Nat.le_trans (hcomment _) ?_
  split
  case isTrue => exact (List.dropWhile_sublist _).length_le
  case isFalse => exact Nat.le_refl _

theorem length_read_lt {r : LexRules} {s s' : Scanner} {l : Lexeme} (h : s.read r = (.ok l, s'))
    (hl : l.token ≠ .eof) : s'.rest.length < s.rest.length := by
  revert h
  fun_cases read r s with
  | case1 =>
    rintro ⟨⟩
    exact absurd rfl hl
  | case5 | case7 => exact nofun
  | case2 cs hrest | case9 c cs hrest =>
    rintro ⟨⟩
    rw [hrest]
    exact Nat.lt_succ_self _
  | case3 cs hrest =>
    rintro ⟨⟩
    rw [hrest]
    refine Nat.lt_succ_of_le ?_
    split
    case isTrue => exact (List.tail_sublist cs).length_le
    case isFalse => exact Nat.le_refl _
  | case4 c cs hrest | case8 c cs hrest =>
    rintro ⟨⟩
    rw [hrest]
    exact Nat.lt_succ_of_le (List.dropWhile_sublist _).length_le
  | case6 c cs hrest _ _ _ _ _ text rest hquoted =>
    have hlength := length_readQuoted_le c cs
    rw [hquoted] at hlength
    rintro ⟨⟩
    rw [hrest]
    exact Nat.lt_succ_of_le hlength

theorem length_next_lt {r : LexRules} {s s' : Scanner} {l : Lexeme} (h : s.next r = (.ok l, s'))
    (hl : l.token ≠ .eof) : s'.rest.length < s.rest.length :=
  Nat.lt_of_lt_of_le (length_read_lt h hl) (length_skip_le r s)

end Scanner

/-! ### Tapes -/

/-- All that a scan reads: lexemes, and then the end of the text or the first fault. -/
inductive Tape where
  | ended (line : Nat)
  | torn (fault : Fault)
  | cons (lexeme : Lexeme) (rest : Tape)

namespace Tape

/-- The lexemes of a tape, the end of the text included. -/
def lexemes : Tape → List Lexeme
  | ended line => [⟨line, .eof⟩]
  | torn _ => []
  | cons l rest => l :: rest.lexemes

/-- The fault a tape ends with. -/
def fault? : Tape → Option Fault
  | ended _ => none
  | torn e => some e
  | cons _ rest => rest.fault?

end Tape

/-- The tape of the text that a scan has left. -/
def Scanner.tape (r : LexRules) (s : Scanner) : Tape :=
  match _h : s.next r with
  | (.error e, _) => .torn e
  | (.ok l, s') => if _hl : l.token = .eof then .ended l.line else .cons l (s'.tape r)
termination_by s.rest.length
decreasing_by exact Scanner.length_next_lt _h _hl

/-- The tape of a text. -/
def Tape.ofText (r : LexRules) (text : String) : Tape := (Scanner.start text).tape r

/-! ### A readable form -/

/-- A token between tags that name its kind, on a line of its own. -/
def Token.dump : Token → String
  | .eof => ""
  | .eol => "<EOL/>\n"
  | .blank => "<blank/>\n"
  | .word text => "<word>" ++ text ++ "</word>\n"
  | .quoted '\'' text => "<char>" ++ text ++ "</char>\n"
  | .quoted _ text => "<string>" ++ text ++ "</string>\n"
  | .char c => "<token>" ++ c.toString ++ "</token>\n"

/-- The lexemes of a text, one on a line, for looking at. -/
def Tape.dump (t : Tape) : Except Fault String :=
  match t.fault? with
  | some e => .error e
  | none => .ok (String.join (t.lexemes.map fun l => l.token.dump))

end Settings
