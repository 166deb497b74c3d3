import Settings.Notice
import Settings.Store

/-!
# The YAML dialect

A line is `key: value` or an item `- text`. Scopes are told by indentation in steps of two spaces: a key
without a value opens a scope one step deeper, and a shallower line closes scopes down to its own level.
Values are kept as written, with their quotes.

A run of items below a key without a value becomes the one value of that key: the items, each in double
quotes unless it is made of references, joined with commas.
-/
namespace Settings.Yaml

/-- The spaces of one step of indentation. -/
def indentStep : Nat := 2

/-- The line up to a comment: a hash at its start or behind a blank, outside quotes. -/
def withoutComment (quote : Option Char) (blankBefore : Bool) : List Char → List Char
  | [] => []
  | c :: cs =>
    match quote with
    | some q => c :: withoutComment (if c = q then none else quote) (Text.isBlank c) cs
    | none =>
      if c = '"' ∨ c = '\'' then c :: withoutComment (some c) false cs
      else if c = '#' ∧ blankBefore then []
      else c :: withoutComment none (Text.isBlank c) cs

/-- The spaces a line starts with, and the line behind them. A tab must not follow them. -/
def indentation (line : Nat) (content : List Char) : Except Fault (Nat × List Char) :=
  let body := content.dropWhile (· = ' ')
  if body.head? = some '\t' then .error (.lexical line .tabIndent) else .ok (content.length - body.length, body)

/-- The characters of references. -/
def isReferenceChar (c : Char) : Bool := c.isAlphanum || c == '.' || c == '$' || c == '{' || c == '}'

/-- An item of references only: it begins and ends as one, and every character between may stand in
    one. -/
def isReferenceItem (item : List Char) : Bool :=
  match item with
  | '$' :: '{' :: inner => 2 ≤ inner.length && inner.all isReferenceChar && inner.getLast? == some '}'
  | _ => false

/-- An item as it stands in the value of its list. -/
def listedItem (item : List Char) : List Char := if isReferenceItem item then item else '"' :: item ++ ['"']

/-- The text of an item line behind its hyphen. -/
def item? (body : List Char) : Option (List Char) :=
  match body with
  | '-' :: rest => if rest = [] ∨ rest.head? = some ' ' then some (Text.trim rest) else none
  | _ => none

/-- What has been read of a document. -/
structure Reader where
  store : Store
  /-- The keys of the open scopes, outermost first. -/
  scopes : List String
  /-- The innermost scope was opened by the line before, so a list may take its place. -/
  opened : Bool
  /-- A list that is not stored yet: its key and its items. -/
  list : Option (String × List String)

namespace Reader

def start : Reader := ⟨.empty, [], false, none⟩

/-- Sets a key of the store. -/
def set (r : Reader) (key value : String) : Watched Reader := do
  let store ← r.store.enter key value
  return { r with store }

/-- Stores the list that has ended, if there is one. -/
def endList (r : Reader) : Watched Reader :=
  match r.list with
  | none => pure r
  | some (key, items) => ({ r with list := none } : Reader).set key (",".intercalate items)

end Reader

/-- Takes an item line. -/
def itemLine (r : Reader) (line : Nat) (item : List Char) : Except Fault Reader :=
  let item := String.ofList (listedItem item)
  match r.list with
  | some (key, items) => .ok { r with list := some (key, items ++ [item]) }
  | none =>
    if r.opened then
      .ok { r with scopes := r.scopes.dropLast, opened := false, list := some (dottedKey r.scopes, [item]) }
    else .error (.structural line .orphanItem)

/-- Takes a key line of the given indentation. -/
def keyLine (r : Reader) (line indent : Nat) (body : List Char) : Watched Reader :=
  match Text.cut? ':' body with
  | none => .fault (.structural line (.missingColon (String.ofList (Text.trim body))))
  | some (key, value) =>
    if indent % indentStep ≠ 0 then .fault (.structural line (.oddIndent indent indentStep))
    else if r.scopes.length < indent / indentStep then .fault (.structural line .deepIndent)
    else
      let r := { r with scopes := r.scopes.take (indent / indentStep) }
      let key := String.ofList (Text.trim key)
      let value := String.ofList (Text.trim value)
      if key = "" then .fault (.structural line (.missingKey "':'"))
      else if value = "" then pure { r with scopes := r.scopes ++ [key], opened := true }
      else ({ r with opened := false } : Reader).set (dottedKey (r.scopes ++ [key])) value

/-- Takes one line of a document. -/
def step (r : Reader) (line : Nat) (raw : List Char) : Watched Reader := do
  let content := withoutComment none true raw
  if Text.trim content = [] then return r
  let (indent, body) ← Noted.of (indentation line content)
  match item? body with
  | some item => .of (itemLine r line item)
  | none => do
    let r ← r.endList
    keyLine r line indent body

/-- Takes all lines, the first of them numbered. -/
def run (r : Reader) (line : Nat) : List (List Char) → Watched Store
  | [] => return (← r.endList).store
  | raw :: rest => do
    let r ← step r line raw
    run r (line + 1) rest

/-- The store of a YAML document. -/
def parse (text : String) : Watched Store := run Reader.start 1 (Text.lines text.toList)

end Settings.Yaml
