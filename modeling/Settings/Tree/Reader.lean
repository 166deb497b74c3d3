import Settings.Lexeme.Basic
import Settings.Number.Decimal
import Settings.Tree.Basic

/-!
# Reading a tree

A tree's text is JSON in a relaxed form: a comma may stand before a closing bracket, a key may be a bare
word, and so may any scalar. The reader takes one lexeme at a time; the lists and maps that are open wait
on a stack, of which the depth is limited. Line ends do not count.
-/
namespace Settings

open Number (Binary64 IntKind readInt readDecimal)

namespace Tree

/-- The most lists and maps that may be open at once. -/
def depthLimit : Nat := 128

/-- A list or a map that is open, with what it holds so far. A map waits for the value of a key. -/
inductive Frame where
  | list (items : List Tree)
  | map (members : List (String × Tree)) (key : String)

/-- What may come next. -/
inductive Want where
  /-- A value, or the end of a text that holds nothing. -/
  | anything
  | value
  /-- A value or the end of the innermost list. -/
  | item
  /-- A key or the end of the innermost map. -/
  | key
  | colon (key : String)
  /-- A comma or the end of the innermost list or map. -/
  | comma
  /-- The end of the text. -/
  | nothing (root : Tree)

/-- The open lists and maps, the innermost first, and what may come next. -/
structure Reading where
  stack : List Frame
  want : Want

/-- The start of a number: a digit, perhaps behind a sign. -/
def looksNumeric : List Char → Bool
  | c :: cs => c.isDigit || ((c == '-' || c == '+') && cs.head?.any Char.isDigit)
  | [] => false

/-- What a bare word stands for. A word that is no number although it starts like one is a text. -/
def ofWord (word : String) : Tree :=
  if word = "true" then bool true
  else if word = "false" then bool false
  else if word = "null" then null
  else if looksNumeric word.toList then
    match readInt .word word.toList, readDecimal word.toList with
    | .ok n, _ => int (Int64.ofInt n)
    | .error _, .ok x => float x
    | .error _, .error _ => text word
  else text word

/-- A token as messages name it. -/
def describe : Token → String
  | .word w => "'" ++ w ++ "'"
  | .quoted _ s => "\"" ++ s ++ "\""
  | .char c => "'" ++ c.toString ++ "'"
  | .blank => "whitespace"
  | .eol => "end of line"
  | .eof => "end of input"

namespace Reading

/-- Puts a finished value where it belongs. -/
def put (stack : List Frame) (t : Tree) : Reading :=
  match stack with
  | [] => ⟨[], .nothing t⟩
  | .list items :: rest => ⟨.list (items ++ [t]) :: rest, .comma⟩
  | .map members key :: rest => ⟨.map (Assoc.insert key t members) "" :: rest, .comma⟩

/-- Closes the innermost list or map. -/
def close : List Frame → Reading
  | [] => ⟨[], .anything⟩
  | .list items :: rest => put rest (list items)
  | .map members _ :: rest => put rest (map members)

/-- The bracket that closes the innermost list or map. -/
def closing : List Frame → Char
  | .list _ :: _ => ']'
  | _ => '}'

/-- Opens a list or a map. -/
def openFrame (r : Reading) (line : Nat) (frame : Frame) (want : Want) : Except Fault Reading :=
  if depthLimit ≤ r.stack.length then .error (.structural line (.tooDeep depthLimit))
  else .ok ⟨frame :: r.stack, want⟩

/-- Takes a lexeme where a value must start. -/
def value (r : Reading) (l : Lexeme) : Except Fault Reading :=
  match l.token with
  | .char c =>
    if c = '{' then r.openFrame l.line (.map [] "") .key
    else if c = '[' then r.openFrame l.line (.list []) .item
    else .error (.structural l.line (.unexpected "a value" (describe l.token)))
  | .quoted _ s => .ok (put r.stack (text s))
  | .word w => .ok (put r.stack (ofWord w))
  | .eof => .error (.structural l.line .endOfValue)
  | .eol | .blank => .error (.structural l.line (.unexpected "a value" (describe l.token)))

/-- Takes a lexeme where a key or the end of a map stands. -/
def key (r : Reading) (l : Lexeme) : Except Fault Reading :=
  match l.token with
  | .quoted _ k | .word k => .ok { r with want := .colon k }
  | t =>
    if t = .char '}' then .ok (close r.stack)
    else .error (.structural l.line (.unexpected "an object key" (describe t)))

/-- Takes the colon behind a key. -/
def colon (r : Reading) (key : String) (l : Lexeme) : Except Fault Reading :=
  match l.token, r.stack with
  | .char ':', .map members _ :: rest => .ok ⟨.map members key :: rest, .value⟩
  | _, _ => .error (.structural l.line (.missingColonAfter key))

/-- Takes a comma or a closing bracket behind an entry. -/
def comma (r : Reading) (l : Lexeme) : Except Fault Reading :=
  if l.token = .char ',' then .ok { r with want := if closing r.stack = ']' then .item else .key }
  else if l.token = .char (closing r.stack) then .ok (close r.stack)
  else .error (.structural l.line
    (.unexpected ("',' or '" ++ (closing r.stack).toString ++ "'") (describe l.token)))

/-- Takes one lexeme. Line ends are left out. -/
def step (r : Reading) (l : Lexeme) : Except Fault Reading :=
  if l.token = .eol then .ok r
  else
    match r.want with
    | .anything => if l.token = .eof then .ok ⟨[], .nothing null⟩ else r.value l
    | .value => r.value l
    | .item => if l.token = .char ']' then .ok (close r.stack) else r.value l
    | .key => r.key l
    | .colon k => r.colon k l
    | .comma => r.comma l
    | .nothing _ => if l.token = .eof then .ok r else .error (.structural l.line .trailingContent)

/-- Takes all lexemes up to the end of the text, where a whole value must have been read. -/
def run (r : Reading) : Tape → Except Fault Tree
  | .torn e => .error e
  | .ended line =>
    match r.step ⟨line, .eof⟩ with
    | .ok ⟨_, .nothing t⟩ => .ok t
    | .ok _ => .error (.structural line .endOfValue)
    | .error e => .error e
  | .cons l rest =>
    match r.step l with
    | .ok r => run r rest
    | .error e => .error e

end Reading

/-- The tree that a text holds; an empty text holds null. -/
def read (text : String) : Except Fault Tree := Reading.run ⟨[], .anything⟩ (Tape.ofText .tree text)

end Tree

end Settings
