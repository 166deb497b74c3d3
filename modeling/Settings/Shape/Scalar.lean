import Settings.Shape.Offer
import Settings.Tree.Reader

/-!
# Nodes as scalars, lists and maps

How far a node of a tree bends to what is asked of it. Text bends furthest: it is read as a number, a
boolean, a list or a map if one of these is asked for. A single scalar is a list of one, and nothing is an
empty list or map.
-/
namespace Settings.Tree

open Number (Binary64 IntKind readInt readDecimal)

/-- A node as messages about mismatches name it. -/
def shownFound : Tree → String
  | text s => "'" ++ s ++ "'"
  | t => t.kindName

/-- The mismatch of a node with what was asked for. -/
def mismatch (t : Tree) (expected : String) : MisfitCause := .mismatch expected t.shownFound

def asBool : Tree → Except MisfitCause Bool
  | bool b => .ok b
  | text s =>
    match Text.bool? (Text.unquote s.toList) with
    | some b => .ok b
    | none => .error (.notBoolean s)
  | t => if t.int? = some 0 then .ok false else if t.int? = some 1 then .ok true else .error (t.mismatch "a boolean")

/-- An integer that a kind must hold. -/
def inRange (kind : IntKind) (n : Int) : Except MisfitCause Int :=
  if kind.holds n then .ok n else .error (.outOfRange n kind.name)

/-- A float loses its fraction; one beyond all words is brought into their range first. -/
def asInt (kind : IntKind) : Tree → Except MisfitCause Int
  | int n => inRange kind n.toInt
  | text s =>
    match readInt kind (Text.element s.toList) with
    | .ok n => .ok n
    | .error why => .error (.notInteger s kind.name why)
  | float x => if x.isFinite then inRange kind x.toWord else .error ((float x).mismatch kind.name)
  | t => .error (t.mismatch kind.name)

def asFloat : Tree → Except MisfitCause Binary64
  | float x => .ok x
  | int n => .ok (Binary64.ofInt n.toInt)
  | text s =>
    match readDecimal (Text.element s.toList) with
    | .ok x => .ok x
    | .error why => .error (.notNumber s why)
  | t => .error (t.mismatch "a number")

/-- Text of exactly one character. -/
def asChar (t : Tree) : Except MisfitCause Char :=
  match t with
  | text s =>
    match Text.unquote s.toList with
    | [c] => .ok c
    | _ => .error (t.mismatch "a single character")
  | _ => .error (t.mismatch "a single character")

/-- Text loses its quotes; other scalars are written out. -/
def asText (t : Tree) : Except MisfitCause String :=
  match t with
  | text s => .ok (Text.unquoted s)
  | bool _ | int _ | float _ => .ok t.property
  | _ => .error (t.mismatch "a string")

/-- The items of a node. -/
def asItems (t : Tree) : Except MisfitCause (List Tree) :=
  match t with
  | list items => .ok items
  | text s => .ok ((Text.splitList s).map text)
  | null => .ok []
  | map _ => .error (t.mismatch "a list")
  | scalar => .ok [scalar]

/-- The members of a node. Text that starts with a brace is read as a tree. -/
def asMembers (t : Tree) : Except MisfitCause (List (String × Tree)) :=
  match t with
  | map members => .ok members
  | null => .ok []
  | text s =>
    if (Text.trimStart s.toList).head? = some '{' then
      match read s with
      | .ok (map members) => .ok members
      | .ok other => .error (other.mismatch "a map")
      | .error fault => .error (.unreadable fault)
    else .error (t.mismatch "a map")
  | _ => .error (t.mismatch "a map")

/-- There is nothing: null, or the word for it. -/
def isAbsent : Tree → Bool
  | null => true
  | text s => Text.trim s.toList == ['n', 'u', 'l', 'l']
  | _ => false

mutual

/-- The tree with each key taken out of its quotes, of equal keys the last. -/
def unquoteKeys : Tree → Tree
  | list items => list (unquoteItemKeys items)
  | map members => map (unquoteMemberKeys [] members)
  | t => t

def unquoteItemKeys : List Tree → List Tree
  | [] => []
  | t :: ts => unquoteKeys t :: unquoteItemKeys ts

def unquoteMemberKeys (done : List (String × Tree)) : List (String × Tree) → List (String × Tree)
  | [] => done
  | (k, t) :: ms => unquoteMemberKeys (Assoc.insert (Text.unquoted k) (unquoteKeys t) done) ms

end

end Settings.Tree
