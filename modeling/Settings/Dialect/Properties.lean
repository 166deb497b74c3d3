import Settings.Notice
import Settings.Number.Integer
import Settings.Store

/-!
# The properties dialect

Flat lines of a key and a value. The key ends at the first `=`, `:` or blank that is not escaped; a key
alone on its line has an empty value. A line that starts with `#` or `!` is a comment, an odd number of
backslashes at its end joins the next line, and a backslash escapes one character.

`escape` is the other direction: what it writes for a key or a value reads back unchanged.
-/
namespace Settings.Properties

/-! ### Logical lines -/

/-- A line goes on if it ends in an odd number of backslashes. -/
def continues (text : List Char) : Bool := (text.reverse.takeWhile (· = '\\')).length % 2 == 1

/-- Joins a line with those that it goes on in; the rest of the lines is left. -/
def join (text : List Char) : List (Nat × List Char) → List Char × List (Nat × List Char)
  | [] => (if continues text then text.dropLast else text, [])
  | (n, next) :: rest =>
    if continues text then join (text.dropLast ++ Text.trimStart next) rest else (text, (n, next) :: rest)

theorem length_join_le (text : List Char) (rest : List (Nat × List Char)) :
    (join text rest).2.length ≤ rest.length := by
  induction rest generalizing text with
  | nil => simp [join]
  | cons p rest ih =>
    simp only [join]
    split
    · exact Nat.le_succ_of_le (ih _)
    · simp

/-- A line that holds no pair: nothing, or a comment. -/
def isSkipped (text : List Char) : Bool :=
  match text with
  | [] => true
  | c :: _ => c == '#' || c == '!'

/-- The logical lines, each with the number of its first line. -/
def logicalLines : List (Nat × List Char) → List (Nat × List Char)
  | [] => []
  | (n, raw) :: rest =>
    if isSkipped (Text.trimStart raw) then logicalLines rest
    else
      let joined := join (Text.trimStart raw) rest
      (n, joined.1) :: logicalLines joined.2
termination_by ls => ls.length
decreasing_by
  · simp
  · have := length_join_le (Text.trimStart raw) rest; simp; omega

/-! ### Pairs -/

/-- The value behind a key that ended at a blank: one separator may still stand before it. -/
def afterBlank (rest : List Char) : List Char :=
  match Text.trimStart rest with
  | '=' :: value | ':' :: value => value
  | value => value

/-- Cuts a logical line into its key and its value, both still escaped. -/
def splitPair : List Char → List Char × List Char
  | [] => ([], [])
  | '\\' :: c :: cs => let (k, v) := splitPair cs; ('\\' :: c :: k, v)
  | c :: cs =>
    if c = '=' ∨ c = ':' then ([], cs)
    else if Text.isBlank c then ([], afterBlank cs)
    else let (k, v) := splitPair cs; (c :: k, v)

/-- What a backslash and a character other than `u` stand for. -/
def escaped (c : Char) : Char :=
  if c = 't' then '\t' else if c = 'n' then '\n' else if c = 'r' then '\r' else if c = 'f' then '\x0c' else c

/-- Replaces the escapes of a key or a value; a lone backslash at the end is dropped. -/
def unescape (line : Nat) : List Char → Except Fault (List Char)
  | [] => .ok []
  | c :: cs =>
    if c ≠ '\\' then (unescape line cs).map (c :: ·)
    else
      match cs with
      | [] => .ok []
      | e :: ds =>
        if e = 'u' then
          match Number.escapedChar? (ds.take 4) with
          | some c => (unescape line (ds.drop 4)).map (c :: ·)
          | none => .error (.lexical line (.badEscape (String.ofList (ds.take 4))))
        else (unescape line ds).map (escaped e :: ·)
termination_by cs => cs.length

/-- The key and the value of a logical line. -/
def pair (line : Nat) (text : List Char) : Except Fault (String × String) := do
  let (key, value) := splitPair text
  let key ← unescape line key
  let value ← unescape line value
  return (String.ofList (Text.trim key), String.ofList (Text.trim value))

/-- The store of a properties document. -/
def parse (text : String) : Watched Store :=
  let numbered := (Text.lines text.toList).mapIdx fun i l => (i + 1, l)
  (logicalLines numbered).foldlM (fun store (line, text) => do
    let (key, value) ← Noted.of (pair line text)
    store.enter key value) Store.empty

/-! ### Writing -/

/-- One character of a key or a value, escaped where reading would take it for something else; `first`
    says whether it comes first. -/
def escapeChar (isKey first : Bool) (c : Char) : List Char :=
  if c = '\\' then ['\\', '\\']
  else if c = '\n' then ['\\', 'n']
  else if c = '\r' then ['\\', 'r']
  else if c = '\t' then ['\\', 't']
  else if c = '\x0c' then ['\\', 'f']
  else if (c = '=' ∨ c = ':' ∨ c = ' ') ∧ isKey then ['\\', c]
  else if (c = '#' ∨ c = '!') ∧ first then ['\\', c]
  else [c]

/-- A key or a value as it is written. -/
def escape (isKey : Bool) (text : List Char) : List Char :=
  match text with
  | [] => []
  | c :: cs => escapeChar isKey true c ++ cs.flatMap (escapeChar isKey false)

end Settings.Properties
