import Settings.Number.Decimal
import Settings.Tree.Basic

/-!
# The text of a tree

A tree is written as strict JSON, either without any white space or with each entry on a line of its own.
A finite float always shows that it is one below `10 ^ 16`; a float that is no number has no JSON form and
is written as `null`.
-/
namespace Settings

open Number (Binary64 intText tenTo)

/-- The two layouts of a tree's text. -/
inductive Layout where
  /-- No white space at all. -/
  | compact
  /-- One entry on a line, two spaces for each level. -/
  | pretty
  deriving DecidableEq, Repr

namespace Layout

/-- What stands before an entry, and before the bracket that closes a level. -/
def newline (layout : Layout) (level : Nat) : List Char :=
  match layout with
  | compact => []
  | pretty => '\n' :: List.replicate (2 * level) ' '

/-- What stands between a key and its value. -/
def colon : Layout → List Char
  | compact => [':']
  | pretty => [':', ' ']

end Layout

namespace Tree

/-- One character between the quotes of a text. -/
def escape (c : Char) : List Char :=
  if c = '"' ∨ c = '\\' then ['\\', c]
  else if c = '\n' then ['\\', 'n']
  else if c = '\r' then ['\\', 'r']
  else if c = '\t' then ['\\', 't']
  else if c.toNat < 0x20 then ['\\', 'u', '0', '0', Nat.digitChar (c.toNat / 16), Nat.digitChar (c.toNat % 16)]
  else [c]

/-- A text in double quotes. -/
def quote (s : String) : List Char := '"' :: s.toList.flatMap escape ++ ['"']

/-- A float as a JSON number: with a point below `10 ^ 16`, `null` if it is none. -/
def floatText (x : Binary64) : List Char :=
  if !x.isFinite then ['n', 'u', 'l', 'l']
  else if x.isIntegral && x.truncate.natAbs < tenTo 16 then x.plain ++ ['.', '0']
  else x.plain

mutual

/-- The text of a tree whose first line stands at a level. -/
def write (layout : Layout) (level : Nat) : Tree → List Char
  | null => ['n', 'u', 'l', 'l']
  | bool true => ['t', 'r', 'u', 'e']
  | bool false => ['f', 'a', 'l', 's', 'e']
  | int n => intText n.toInt
  | float x => floatText x
  | text s => quote s
  | list [] => ['[', ']']
  | list (t :: ts) =>
    '[' :: layout.newline (level + 1) ++ write layout (level + 1) t ++ writeItems layout (level + 1) ts ++
      layout.newline level ++ [']']
  | map [] => ['{', '}']
  | map ((k, t) :: ms) =>
    '{' :: layout.newline (level + 1) ++ quote k ++ layout.colon ++ write layout (level + 1) t ++
      writeMembers layout (level + 1) ms ++ layout.newline level ++ ['}']

/-- The items behind the first one. -/
def writeItems (layout : Layout) (level : Nat) : List Tree → List Char
  | [] => []
  | t :: ts => ',' :: layout.newline level ++ write layout level t ++ writeItems layout level ts

/-- The members behind the first one. -/
def writeMembers (layout : Layout) (level : Nat) : List (String × Tree) → List Char
  | [] => []
  | (k, t) :: ms =>
    ',' :: layout.newline level ++ quote k ++ layout.colon ++ write layout level t ++ writeMembers layout level ms

end

/-- The text of a tree. -/
def print (layout : Layout) (t : Tree) : String := String.ofList (t.write layout 0)

/-- The text a tree is stored under as a setting: a text as it is, all else as compact JSON. -/
def property : Tree → String
  | text s => s
  | t => t.print .compact

end Tree

end Settings
