import Settings.Lexeme.Basic
import Settings.Notice
import Settings.Store

/-!
# The HOCON dialect

A line is a key, `=` or `:`, and a value up to the end of the line. `key {` opens a scope and `}`
closes it. Bare words of a value are joined with single spaces, quoted texts are taken as they are, and a
reference is copied with its braces. `include` and the name of a resource, on a line of their own, merge
another document at that place.

The reader takes one lexeme at a time and keeps all it knows in a `Reader`. What an included document
reads as is a parameter, so that the reader itself touches no file.
-/
namespace Settings.Hocon

/-- What the next lexeme belongs to. -/
inductive Mode where
  /-- A key. -/
  | key
  /-- A key, which so far is the bare word `include`: a word behind it starts a directive. -/
  | include
  /-- A directive, which began on that line. -/
  | directive (line : Nat) (raw : String)
  /-- A value; whether the lexeme before was a dollar sign. -/
  | value (dollar : Bool)
  deriving DecidableEq, Repr

/-- What has been read of a document. -/
structure Reader where
  store : Store
  /-- The keys of the open scopes, outermost first. -/
  scopes : List String
  key : String
  value : String
  /-- The open braces of references in the value. -/
  depth : Nat
  mode : Mode

namespace Reader

def start : Reader := ⟨.empty, [], "", "", 0, .key⟩

/-- The key that a local key has in the whole document. -/
def path (r : Reader) (key : String) : String := dottedKey (r.scopes ++ [key])

/-- Opens a scope named by the key. -/
def openScope (r : Reader) : Reader :=
  { r with scopes := r.scopes ++ [r.key], key := "", value := "", mode := .key }

/-- Closes the innermost scope. -/
def closeScope (r : Reader) (line : Nat) : Except Fault Reader :=
  if r.scopes = [] then .error (.structural line .strayBrace) else .ok { r with scopes := r.scopes.dropLast }

/-- Stores the value under the key. -/
def storeValue (r : Reader) : Watched Reader := do
  let store ← r.store.enter (r.path r.key) (Text.trimmed r.value)
  return { r with store, key := "", value := "", depth := 0, mode := .key }

end Reader

/-- Takes a lexeme where a key stands. -/
def keyToken (r : Reader) (l : Lexeme) : Except Fault Reader :=
  match l.token with
  | .word w =>
    if r.key = "" ∧ w = "include" then .ok { r with key := w, mode := .include }
    else .ok { r with key := r.key ++ w, mode := .key }
  | .quoted _ text => .ok { r with key := r.key ++ text, mode := .key }
  | .blank => .ok r
  | .char c =>
    if c = '.' ∨ c = '-' then .ok { r with key := r.key.push c, mode := .key }
    else if c = ',' ∧ r.key = "" then .ok r
    else if c = '=' ∨ c = ':' then
      if r.key = "" then .error (.structural l.line (.missingKey "separator"))
      else .ok { r with mode := .value false }
    else if c = '{' then .ok r.openScope
    else if c = '}' then
      if r.key ≠ "" then .error (.structural l.line (.missingValue r.key)) else r.closeScope l.line
    else .error (.structural l.line (.unexpectedInKey c))
  | .eol | .eof => .ok r

/-- Takes a lexeme where a value stands. -/
def valueToken (r : Reader) (dollar : Bool) (l : Lexeme) : Watched Reader :=
  let more (text : String) (depth : Nat) (dollar : Bool) : Reader :=
    { r with value := r.value ++ text, depth := depth, mode := .value dollar }
  match l.token with
  | .word w => pure (more w r.depth false)
  | .quoted _ text => pure (more text r.depth false)
  | .blank => pure (more (if r.value = "" then "" else " ") r.depth false)
  | .char c =>
    if c = '{' then
      if dollar ∨ 0 < r.depth then pure (more "\x7b" (r.depth + 1) false)
      else if Text.trim r.value.toList ≠ [] then .fault (.structural l.line .braceAfterValue)
      else pure r.openScope
    else if c = '}' then
      if 0 < r.depth then pure (more "\x7d" (r.depth - 1) false)
      else do
        let r ← r.storeValue
        .of (r.closeScope l.line)
    else pure (more c.toString r.depth (c = '$'))
  | .eol | .eof => pure r

/-- Ends a line: a value is stored, and a key must not stand alone. -/
def endLine (r : Reader) (line : Nat) : Watched Reader :=
  match r.mode with
  | .value _ => r.storeValue
  | _ => if r.key = "" then pure r else .fault (.structural line (.missingSeparator '=' r.key))

/-- Merges an included document: at once at the top, key by key inside a scope. -/
def merge (r : Reader) (included : Store) : Watched Reader :=
  if r.scopes.all (· = "") then do
    let store ← r.store.enterAll included.pairs
    return { r with store }
  else do
    let store ← r.store.enterEach (included.pairs.map fun (key, value) => (r.path key, value))
    return { r with store }

/-- Takes one lexeme of a document. `load` gives the store of an included document for the text of its
    directive. -/
def step (load : Nat → String → Watched Store) (r : Reader) (l : Lexeme) : Watched Reader :=
  match r.mode with
  | .directive line raw =>
    match l.token with
    | .word w => pure { r with mode := .directive line (raw ++ w) }
    | .quoted _ text => pure { r with mode := .directive line (raw ++ text) }
    | .char c => pure { r with mode := .directive line (raw.push c) }
    | .blank => pure r
    | .eol | .eof => do
      let included ← load line raw
      merge { r with mode := .key } included
  | .include =>
    match l.token with
    | .word w => pure { r with key := "", mode := .directive l.line w }
    | .eol | .eof => endLine { r with mode := .key } l.line
    | _ => .of (keyToken r l)
  | .key =>
    match l.token with
    | .eol | .eof => endLine r l.line
    | _ => .of (keyToken r l)
  | .value dollar =>
    match l.token with
    | .eol | .eof => endLine r l.line
    | _ => valueToken r dollar l

/-- Takes all lexemes up to the end of the text, where no scope may be open. -/
def run (load : Nat → String → Watched Store) (r : Reader) : Tape → Watched Store
  | .torn e => .fault e
  | .ended line => do
    let r ← step load r ⟨line, .eof⟩
    if r.scopes = [] then return r.store else .fault (.structural line (.openScopes r.scopes.length))
  | .cons l rest => do
    let r ← step load r l
    run load r rest

/-- The store of a HOCON document. -/
def parse (load : Nat → String → Watched Store) (text : String) : Watched Store :=
  run load Reader.start (Tape.ofText .hocon text)

end Settings.Hocon
