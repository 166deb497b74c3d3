import Settings.Dialect.Properties
import Settings.Text.Alphanumeric

/-!
# Writing a store in a dialect

The dialects with scopes regroup dotted keys: a scope is opened when its first key comes and closed when
a key outside it does, so it opens again if its keys are not next to each other. How a line looks is given
by a `Style`; the properties dialect writes one line for each pair.
-/
namespace Settings

/-- Quotes and the characters that would end a quoted text early, escaped. -/
def quotedChar (c : Char) : List Char :=
  if c = '"' ∨ c = '\\' then ['\\', c]
  else if c = '\n' then ['\\', 'n']
  else if c = '\r' then ['\\', 'r']
  else if c = '\t' then ['\\', 't']
  else [c]

/-- A text in double quotes. -/
def quoted (text : List Char) : List Char := '"' :: text.flatMap quotedChar ++ ['"']

/-- How the lines of a dialect with scopes look. -/
structure Style where
  /-- The line that opens a scope. -/
  openLine : List Char → List Char
  /-- The line that closes one, if there is such a line. -/
  closeLine : Option (List Char)
  /-- The line of a key and its value. -/
  leafLine : List Char → List Char → List Char
  /-- The document stands in braces of its own. -/
  wrapped : Bool

/-- A key of the HOCON dialect, in quotes if it is no plain word. -/
def hoconKey (key : List Char) : List Char :=
  if key ≠ [] ∧ key.all (fun c => Text.isAlphanumeric c || c == '_' || c == '-') then key else quoted key

namespace Style

def hocon : Style where
  openLine key := hoconKey key ++ [' ', '{']
  closeLine := some ['}']
  leafLine key value := hoconKey key ++ [' ', '=', ' '] ++ quoted value
  wrapped := false

def json : Style where
  openLine key := quoted key ++ [' ', ':', ' ', '{']
  closeLine := some ['}']
  leafLine key value := quoted key ++ [' ', ':', ' '] ++ quoted value ++ [',']
  wrapped := true

def yaml : Style where
  openLine key := key ++ [':']
  closeLine := none
  leafLine key value := key ++ [':', ' '] ++ value
  wrapped := false

/-- A line at a depth of scopes: two spaces for each, and the line end. -/
def line (s : Style) (depth : Nat) (text : List Char) : List Char :=
  List.replicate (2 * ((if s.wrapped then 1 else 0) + depth)) ' ' ++ text ++ ['\n']

/-- Closes `count` scopes, of which the innermost stands at `depth`. -/
def close (s : Style) (depth : Nat) : Nat → List Char
  | 0 => []
  | count + 1 =>
    match s.closeLine with
    | none => []
    | some text => s.line (depth - 1) text ++ s.close (depth - 1) count

/-- Opens scopes one in the other, the first at `depth`. -/
def openAll (s : Style) (depth : Nat) : List (List Char) → List Char
  | [] => []
  | scope :: rest => s.line depth (s.openLine scope) ++ s.openAll (depth + 1) rest

/-- The length of the longest common start. -/
def shared : List (List Char) → List (List Char) → Nat
  | a :: as, b :: bs => if a = b then shared as bs + 1 else 0
  | _, _ => 0

/-- The lines of the pairs that follow where `scopes` are open. -/
def pairs (s : Style) (scopes : List (List Char)) : List (String × String) → List Char
  | [] => s.close scopes.length scopes.length
  | (key, value) :: rest =>
    let segments := Text.pieces '.' key.toList
    let path := segments.dropLast
    let leaf := segments.getLast?.getD []
    let kept := shared scopes path
    s.close scopes.length (scopes.length - kept) ++ s.openAll kept (path.drop kept) ++
      s.line path.length (s.leafLine leaf value.toList) ++ s.pairs path rest

/-- A document of a dialect with scopes. -/
def document (s : Style) (pairs : List (String × String)) : List Char :=
  if s.wrapped then ['{', '\n'] ++ s.pairs [] pairs ++ ['}', '\n'] else s.pairs [] pairs

end Style

/-- A document of the properties dialect. -/
def Properties.document (pairs : List (String × String)) : List Char :=
  pairs.flatMap fun (key, value) =>
    Properties.escape true key.toList ++ '=' :: Properties.escape false value.toList ++ ['\n']

/-- The store as a document of a dialect. -/
def Store.render (store : Store) (dialect : Dialect) : String :=
  String.ofList <|
    match dialect with
    | .hocon => Style.hocon.document store.pairs
    | .json => Style.json.document store.pairs
    | .yaml => Style.yaml.document store.pairs
    | .properties => Properties.document store.pairs

end Settings
