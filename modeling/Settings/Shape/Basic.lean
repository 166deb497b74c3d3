import Settings.Datum.Basic

/-!
# Shapes

A shape is the type that a setting is to be read as: a scalar, a collection, a record with named fields, or
a choice between variants. A record says what becomes of fields that are missing and of keys it does not
know.
-/
namespace Settings

open Number (Binary64 IntKind)

mutual

/-- The type of a typed value. -/
inductive Shape where
  | bool
  | int (kind : IntKind)
  | float
  /-- A float of the narrower format. -/
  | single
  | char
  | text
  | bytes
  | unit
  /-- Any tree, as it is. -/
  | tree
  | instant
  | date
  | time
  | dateTime
  | option (content : Shape)
  | list (item : Shape)
  /-- A set of texts, in order. -/
  | sortedTexts
  /-- A set of texts, in the order in which they come first. -/
  | distinctTexts
  | array (count : Nat) (item : Shape)
  | tuple (items : List Shape)
  | map (key value : Shape)
  | newtype (name : String) (content : Shape)
  | tupleRecord (name : String) (items : List Shape)
  | unitRecord (name : String)
  | record (name : String) (strict : Bool) (closed : Bool) (fields : List (String × Shape))
  | choice (name : String) (variants : List (String × Payload))

/-- What a variant of a choice holds. -/
inductive Payload where
  | nothing
  | content (shape : Shape)
  | items (shapes : List Shape)
  | fields (shapes : List (String × Shape))

end

namespace Shape

/-- The name of a shape in messages. -/
def typeName : Shape → String
  | bool => "bool"
  | int kind => kind.name
  | float => "f64"
  | single => "f32"
  | char => "char"
  | text => "String"
  | bytes => "Bytes"
  | unit => "()"
  | tree => "Value"
  | instant => "Timestamp"
  | date => "Date"
  | time => "Time"
  | dateTime => "DateTime"
  | option content => "Option<" ++ typeName content ++ ">"
  | list item => "Vec<" ++ typeName item ++ ">"
  | sortedTexts => "BTreeSet<String>"
  | distinctTexts => "IndexSet<String>"
  | array count item => "[" ++ typeName item ++ "; " ++ toString count ++ "]"
  | tuple items => "(" ++ typeNames items ++ ")"
  | map key value => "IndexMap<" ++ typeName key ++ ", " ++ typeName value ++ ">"
  | newtype name _ | tupleRecord name _ | unitRecord name | record name .. | choice name _ => name
where
  typeNames : List Shape → String
    | [] => ""
    | [s] => typeName s
    | s :: ss => typeName s ++ ", " ++ typeNames ss

mutual

/-- The value of a field that is missing: empty, zero or absent. A choice has no such value of its own. -/
def default : Shape → Datum
  | bool => .bool false
  | int kind => .int kind 0
  | float | single => .float .zero
  | char => .text "\x00"
  | text => .text ""
  | bytes => .bytes []
  | unit | unitRecord _ | choice .. | instant | date | time | dateTime => .unit
  | tree => .tree .null
  | option _ => .none
  | list _ | sortedTexts | distinctTexts => .list []
  | array count item => .list (List.replicate count (default item))
  | tuple items | tupleRecord _ items => .list (defaults items)
  | map .. => .map []
  | newtype _ content => .newtype (default content)
  | record _ _ _ fields => .record (defaultFields fields)

def defaults : List Shape → List Datum
  | [] => []
  | s :: ss => default s :: defaults ss

def defaultFields : List (String × Shape) → List (String × Datum)
  | [] => []
  | (name, s) :: rest => (name, default s) :: defaultFields rest

end

end Shape

end Settings
