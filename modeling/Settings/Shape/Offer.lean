import Settings.Calendar.Reader
import Settings.Shape.Misfit
import Settings.Text.Quotes

/-!
# Offers

A type that reads itself is offered one value after the other and takes what it can: a tree takes nearly
anything, a date or a time takes text. What it does not take is a misfit that names both sides.
-/
namespace Settings

open Number (Binary64 IntKind intText)

/-- A value as it is offered to a type. -/
inductive Offer where
  | bool (b : Bool)
  | signed (n : Int)
  | unsigned (n : Nat)
  /-- An integer of 128 bits. -/
  | wide (n : Int)
  | float (x : Binary64)
  | text (s : String)
  | bytes (bs : List UInt8)
  | none
  | some (content : Offer)
  | unit
  | list (items : List Offer)
  | map (entries : List (Offer × Offer))

namespace Offer

/-- How messages name what was offered. -/
def found : Offer → String
  | bool b => "boolean `" ++ (if b then "true" else "false") ++ "`"
  | signed n => "integer `" ++ String.ofList (intText n) ++ "`"
  | unsigned n => "integer `" ++ String.ofList (intText n) ++ "`"
  | wide n => "integer `" ++ String.ofList (intText n) ++ "` as i128"
  | float x => "floating point `" ++ String.ofList x.pointed ++ "`"
  | text s => "string " ++ Text.shown s
  | bytes _ => "byte array"
  | none | some _ => "Option value"
  | unit => "unit value"
  | list _ => "sequence"
  | map _ => "map"

/-- What the node of a tree is offered as. Of a list or a map only the kind counts. -/
def ofTree : Tree → Offer
  | .null => unit
  | .bool b => bool b
  | .int n => signed n.toInt
  | .float x => float x
  | .text s => text s
  | .list _ => list []
  | .map _ => map []

/-! ### Dates and times -/

/-- A date, a time or a date and time takes text in its own form, perhaps in quotes. -/
def asText {α : Type} (read : String → Except Calendar.Unrecognized α) (expected : String) (o : Offer) :
    Except MisfitCause α :=
  match o with
  | text s =>
    match read (Text.unquoted s) with
    | .ok a => .ok a
    | .error _ => .error (.invalidValue o.found expected)
  | o => .error (.invalidType o.found expected)

def date (o : Offer) : Except MisfitCause Calendar.Date :=
  o.asText Calendar.Date.read "a date such as 2016/09/16"

def time (o : Offer) : Except MisfitCause Calendar.TimeOfDay :=
  o.asText Calendar.TimeOfDay.read "a time such as 09:15"

def dateTime (o : Offer) : Except MisfitCause Calendar.DateTime :=
  o.asText Calendar.DateTime.read "a date-time such as 2016/09/16 09:15"

/-- An instant takes milliseconds, of which a fraction is dropped, or text. -/
def instant (o : Offer) : Except MisfitCause Calendar.Instant :=
  let expected := "epoch milliseconds or an ISO-8601 date-time"
  let ofMillis (shown : Offer) (n : Int) : Except MisfitCause Calendar.Instant :=
    match Calendar.Instant.ofMillis? n with
    | Option.some t => .ok t
    | Option.none => .error (.invalidValue shown.found expected)
  match o with
  | signed n => ofMillis o n
  | unsigned n => ofMillis o n
  | float x => ofMillis (signed x.toWord) x.toWord
  | o => o.asText Calendar.Instant.read expected

/-! ### Texts and trees -/

/-- A text takes text, and bytes that are text. -/
def key (o : Offer) : Except MisfitCause String :=
  match o with
  | text s => .ok s
  | bytes bs =>
    match Text.decode bs with
    | .ok s => .ok s
    | .error _ => .error (.invalidValue o.found "a string")
  | o => .error (.invalidType o.found "a string")

mutual

/-- A tree takes all but wide integers and bytes. -/
def toTree : Offer → Except MisfitCause Tree
  | bool b => .ok (.bool b)
  | signed n => .ok (.int (Int64.ofInt n))
  | unsigned n => .ok (if IntKind.word.holds n then .int (Int64.ofInt n) else .float (Binary64.ofInt n))
  | float x => .ok (.float x)
  | text s => .ok (.text s)
  | none | unit => .ok .null
  | some content => toTree content
  | list items => (itemTrees items).map .list
  | map entries => (entryTrees [] entries).map .map
  | wide n => .error (.invalidType (found (wide n)) "any configuration value")
  | bytes bs => .error (.invalidType (found (bytes bs)) "any configuration value")

def itemTrees : List Offer → Except MisfitCause (List Tree)
  | [] => .ok []
  | o :: os =>
    match toTree o with
    | .error e => .error e
    | .ok t => (itemTrees os).map (t :: ·)

def entryTrees (members : List (String × Tree)) : List (Offer × Offer) → Except MisfitCause (List (String × Tree))
  | [] => .ok members
  | (k, o) :: rest =>
    match key k, toTree o with
    | .error e, _ => .error e
    | .ok _, .error e => .error e
    | .ok k, .ok t => entryTrees (Assoc.insert k t members) rest

end

end Offer

end Settings
