import Settings.Text.Blank

/-!
# Quotes and lists in the text of a setting

The text of a setting may stand in a pair of quotes, and may hold a list: elements between commas, perhaps
in brackets. Commas inside brackets of either kind, or inside an element that starts with a quote, separate
nothing.
-/
namespace Settings.Text

/-- The text inside one pair of equal quotes, white space around them aside; any other text as it is. -/
def unquote (cs : List Char) : List Char :=
  let inner := trim cs
  match inner with
  | q :: rest => if (q = '"' ∨ q = '\'') ∧ rest.getLast? = some q then rest.dropLast else cs
  | [] => cs

/-- `unquote` of a string. -/
def unquoted (s : String) : String := String.ofList (unquote s.toList)

/-- The words for true and false, in letters of either case. -/
def bool? (cs : List Char) : Option Bool :=
  match String.ofList ((trim cs).map Char.toLower) with
  | "true" | "yes" | "1" => some true
  | "false" | "no" | "0" => some false
  | _ => none

/-! ### Lists -/

/-- The bracket that closes the outermost of `depth` open brackets is the last character. -/
def closesAtEnd (depth : Nat) : List Char → Bool
  | [] => false
  | c :: cs =>
    if c = '[' then closesAtEnd (depth + 1) cs
    else if c = ']' then (if depth = 1 then cs.isEmpty else closesAtEnd (depth - 1) cs)
    else closesAtEnd depth cs

/-- A bracket at the front is closed by the last character. -/
def encloses (cs : List Char) : Bool :=
  match cs with
  | '[' :: rest => closesAtEnd 1 rest
  | _ => false

/-- An element as it comes out of a list. -/
def element (cs : List Char) : List Char := trim (unquote cs)

/-- The elements of the text behind `item`, which belongs to the first of them: `depth` brackets are open,
    a quote may be open, and `fresh` says that the element has held white space only. -/
def elements (depth : Nat) (quote : Option Char) (fresh : Bool) (item : List Char) : List Char → List (List Char)
  | [] => [element item]
  | c :: cs =>
    match quote with
    | some q => elements depth (if c = q then none else some q) fresh (item ++ [c]) cs
    | none =>
      if c = ',' ∧ depth = 0 then element item :: elements 0 none true [] cs
      else if (c = '"' ∨ c = '\'') ∧ fresh then elements depth (some c) false (item ++ [c]) cs
      else
        let depth := if c = '[' ∨ c = '{' then depth + 1 else if c = ']' ∨ c = '}' then depth - 1 else depth
        elements depth none (fresh && isWhite c) (item ++ [c]) cs

/-- The elements of a list that is written as text. -/
def splitList (raw : String) : List String :=
  let text := trim raw.toList
  let body := if encloses text then text.tail.dropLast else text
  if trim body = [] then [] else (elements 0 none true [] body).map String.ofList

end Settings.Text
