import Settings.Lexeme.Basic
import Settings.Notice
import Settings.Store

/-!
# The flat JSON dialect

Documents in the shape of JSON, read into dotted keys. A key is ended by `:` or `=`, `key : {` opens a
scope and `}` closes it, and braces without a key open an anonymous scope. A value goes on to the end of
its line and loses one comma at its end. Blanks outside quotes do not count, and a bracketed list is
copied as it is.
-/
namespace Settings.FlatJson

/-- What has been read of a document. -/
structure Reader where
  store : Store
  /-- The keys of the open scopes, outermost first. -/
  scopes : List String
  key : String
  value : String
  /-- A separator has been read: lexemes now belong to the value. -/
  separated : Bool
  /-- The lexeme before belongs to the value and was a dollar sign. -/
  dollar : Bool
  /-- The open braces of references in the value. -/
  depth : Nat

/-- The text of a value: trimmed, and without one comma at its end. -/
def trimValue (raw : String) : String :=
  let trimmed := Text.trim raw.toList
  String.ofList ((Text.beforeLast? ',' trimmed).getD trimmed)

namespace Reader

def start : Reader := ⟨.empty, [], "", "", false, false, 0⟩

/-- A value has begun. -/
def hasValue (r : Reader) : Bool := r.separated && r.value != ""

/-- Stores the value under the key. -/
def storeValue (r : Reader) : Watched Reader := do
  let store ← r.store.enter (dottedKey (r.scopes ++ [r.key])) (trimValue r.value)
  return { r with store, key := "", value := "", separated := false, depth := 0 }

/-- Lengthens the value. -/
def more (r : Reader) (text : String) : Reader := { r with value := r.value ++ text }

/-- Lengthens the key. -/
def moreKey (r : Reader) (text : String) : Reader := { r with key := r.key ++ text }

end Reader

/-- Ends a line. A value that has not begun may stand on a later line. -/
def endLine (r : Reader) (line : Nat) : Watched Reader :=
  if r.hasValue then r.storeValue
  else if !r.separated && r.key != "" then .fault (.structural line (.missingSeparator ':' r.key))
  else pure r

/-- Opens a scope named by the key. -/
def openScope (r : Reader) (line : Nat) : Except Fault Reader :=
  if r.hasValue then .error (.structural line .braceAfterValue)
  else .ok { r with scopes := r.scopes ++ [r.key], key := "", separated := false }

/-- Stores the value before a closing brace and closes the innermost scope. -/
def closeScope (r : Reader) (line : Nat) : Watched Reader := do
  let r ← if r.hasValue then r.storeValue
    else if r.key != "" then .fault (.structural line (.missingValue r.key))
    else pure { r with value := "", separated := false }
  if r.scopes = [] then .fault (.structural line .strayBrace)
  else return { r with scopes := r.scopes.dropLast }

/-- Takes a character that is no brace where a key stands. -/
def keyChar (r : Reader) (line : Nat) (c : Char) : Except Fault Reader :=
  if (c = '.' ∨ c = '-') ∧ r.key ≠ "" then .ok (r.moreKey c.toString)
  else if c = ':' ∨ c = '=' then
    if r.key = "" then .error (.structural line (.missingKey "':'")) else .ok { r with separated := true }
  else if c = ',' ∧ r.key = "" then .ok r
  else .error (.structural line (.unexpectedInKey c))

/-- Takes one lexeme of a document; `dollar` says whether the lexeme before was a dollar sign of the
    value. -/
def take (dollar : Bool) (r : Reader) (l : Lexeme) : Watched Reader :=
  match l.token with
  | .eol | .eof => endLine r l.line
  | .blank => pure r
  | .word w => pure (if r.separated then r.more w else r.moreKey w)
  | .quoted _ text => pure (if r.separated then r.more text else r.moreKey text)
  | .char c =>
    if c = '{' then
      if dollar ∨ 0 < r.depth then pure { r.more "\x7b" with depth := r.depth + 1 } else .of (openScope r l.line)
    else if c = '}' then
      if 0 < r.depth then pure { r.more "\x7d" with depth := r.depth - 1 } else closeScope r l.line
    else if r.separated then pure { r.more c.toString with dollar := c = '$' }
    else .of (keyChar r l.line c)

/-- Takes one lexeme of a document. -/
def step (r : Reader) (l : Lexeme) : Watched Reader := take r.dollar { r with dollar := false } l

/-- At the end of the text no value may be missing and no scope be open. -/
def finish (r : Reader) (line : Nat) : Except Fault Store :=
  if r.separated then .error (.structural line (.missingValue r.key))
  else if r.scopes ≠ [] then .error (.structural line (.openScopes r.scopes.length))
  else .ok r.store

/-- Takes all lexemes up to the end of the text. -/
def run (r : Reader) : Tape → Watched Store
  | .torn e => .fault e
  | .ended line => do
    let r ← step r ⟨line, .eof⟩
    .of (finish r line)
  | .cons l rest => do
    let r ← step r l
    run r rest

/-- The store of a document of the flat JSON dialect. -/
def parse (text : String) : Watched Store := run Reader.start (Tape.ofText .json text)

end Settings.FlatJson
