import Settings.Calendar.Printer
import Settings.Text.Utf8
import Settings.Tree.Printer

/-!
# Typed values

A datum is a value of some type, described by how it is put together: numbers of a width, optional values,
records, variants and so on. Writing it as a tree forgets the types: absent fields of a record are left
out, a variant with content becomes a map of one member, and the keys of a map become text.
-/
namespace Settings

open Number (Binary64 IntKind intText)

/-- A typed value. -/
inductive Datum where
  | bool (b : Bool)
  | int (kind : IntKind) (n : Int)
  | float (x : Binary64)
  | text (s : String)
  | bytes (bs : List UInt8)
  | unit
  | none
  | some (value : Datum)
  | tree (t : Tree)
  | instant (t : Calendar.Instant)
  | date (d : Calendar.Date)
  | time (t : Calendar.TimeOfDay)
  | dateTime (t : Calendar.DateTime)
  /-- A value in a type of its own. -/
  | newtype (value : Datum)
  | list (items : List Datum)
  | map (entries : List (Datum × Datum))
  | record (fields : List (String × Datum))
  | unitVariant (variant : String)
  | newtypeVariant (variant : String) (value : Datum)
  | listVariant (variant : String) (items : List Datum)
  | recordVariant (variant : String) (fields : List (String × Datum))
  /-- A map that hands over a value before its key. -/
  | keyless (value : Datum)
  /-- A value that refuses to be written, and its reason. -/
  | refusing (reason : String)

/-- Why a typed value cannot be written as a tree. -/
inductive MarshalCause where
  | wideInteger
  | badKey
  | keyless
  | refused (reason : String)
  deriving DecidableEq, Repr

def MarshalCause.message : MarshalCause → String
  | wideInteger => "i128 is not supported"
  | badKey => "map keys must be strings, numbers or booleans"
  | keyless => "map value serialized before its key"
  | refused reason => reason

namespace Datum

/-- An integer of a tree: a float if it is beyond the signed words. -/
def intTree (n : Int) : Tree :=
  if IntKind.word.holds n then .int (Int64.ofInt n) else .float (Binary64.ofInt n)

/-- A value as the key of a map. -/
def keyText : Datum → Except MarshalCause String
  | bool b => .ok (if b then "true" else "false")
  | int kind n => if kind.bits = 128 then .error .wideInteger else .ok (String.ofList (intText n))
  | text s => .ok s
  | unitVariant variant => .ok variant
  | newtype value => keyText value
  | date d => .ok (String.ofList (d.text '/'))
  | time t => .ok (String.ofList t.text)
  | dateTime t => .ok (String.ofList t.text)
  | instant t => .ok (String.ofList (intText t.millis))
  | refusing reason => .error (.refused reason)
  | tree (.bool b) => .ok (if b then "true" else "false")
  | tree (.int n) => .ok (String.ofList (intText n.toInt))
  | tree (.text s) => .ok s
  | tree _ | float _ | bytes _ | unit | none | some _ | list _ | map _ | record _ | newtypeVariant .. | listVariant ..
  | recordVariant .. | keyless _ => .error .badKey

mutual

/-- A typed value as a tree. -/
def toTree : Datum → Except MarshalCause Tree
  | bool b => .ok (.bool b)
  | int kind n => if kind.bits = 128 then .error .wideInteger else .ok (intTree n)
  | float x => .ok (.float x)
  | text s => .ok (.text s)
  | bytes bs => .ok (.list (bs.map fun b => intTree b.toNat))
  | unit | none => .ok .null
  | some value => toTree value
  | tree t => .ok t
  | instant t => .ok (intTree t.millis)
  | date d => .ok (.text (String.ofList (d.text '/')))
  | time t => .ok (.text (String.ofList t.text))
  | dateTime t => .ok (.text (String.ofList t.text))
  | newtype value => toTree value
  | list items => (itemTrees items).map .list
  | map entries => (entryTrees [] entries).map .map
  | record fields => (fieldTrees [] fields).map .map
  | unitVariant variant => .ok (.text variant)
  | newtypeVariant variant value => (toTree value).map (Tree.single variant)
  | listVariant variant items => (itemTrees items).map fun ts => Tree.single variant (.list ts)
  | recordVariant variant fields => (fieldTrees [] fields).map fun ms => Tree.single variant (.map ms)
  | keyless _ => .error .keyless
  | refusing reason => .error (.refused reason)

def itemTrees : List Datum → Except MarshalCause (List Tree)
  | [] => .ok []
  | d :: ds =>
    match toTree d with
    | .error e => .error e
    | .ok t => (itemTrees ds).map (t :: ·)

/-- The members that the entries of a map become, behind those that are there already. -/
def entryTrees (members : List (String × Tree)) : List (Datum × Datum) → Except MarshalCause (List (String × Tree))
  | [] => .ok members
  | (k, d) :: rest =>
    match keyText k, toTree d with
    | .error e, _ => .error e
    | .ok _, .error e => .error e
    | .ok key, .ok t => entryTrees (Assoc.insert key t members) rest

/-- The members that the fields of a record become; one that is null is left out. -/
def fieldTrees (members : List (String × Tree)) : List (String × Datum) → Except MarshalCause (List (String × Tree))
  | [] => .ok members
  | (name, d) :: rest =>
    match toTree d with
    | .error e => .error e
    | .ok t => fieldTrees (if t.isNull then members else Assoc.insert name t members) rest

end

/-- The text of a typed value. -/
def marshal (layout : Layout) (d : Datum) : Except Fault String :=
  match d.toTree with
  | .ok t => .ok (t.print layout)
  | .error e => .error (.marshal e.message)

end Datum

end Settings
