import Settings.Shape.Basic
import Settings.Shape.Scalar

/-!
# Reading a tree as a shape

Every shape asks the tree for what it needs and passes the nodes below on to its parts. The nodes are
visited in the order of the tree, so the first node that does not fit is the one reported. Keys of a record
that name no field are passed over, unless the record is closed.
-/
namespace Settings.Shape

open Number (Binary64)

/-! ### Lists -/

/-- Reads all items of a list, of which the first has an index. -/
def each {α : Type} (read : Tree → Fit α) (i : Nat) : List Tree → Fit (List α)
  | [] => .of []
  | t :: ts => ((read t).below (.index i) (toString i)).andThen fun a => (each read (i + 1) ts).map (a :: ·)

/-- Puts a text in its place in an ordered set. -/
def insertText (s : String) : List String → List String
  | [] => [s]
  | t :: ts => if s = t then t :: ts else if s < t then s :: t :: ts else t :: insertText s ts

/-- Puts a text behind a set, if it is not in it. -/
def appendText (s : String) (texts : List String) : List String := if s ∈ texts then texts else texts ++ [s]

/-! ### Maps and records -/

/-- Sets the entry of a key: in its place, or else behind all entries. -/
def putEntry (key value : Datum) : List (Datum × Datum) → List (Datum × Datum)
  | [] => [(key, value)]
  | (k, v) :: rest =>
    if k.keyText.toOption = key.keyText.toOption then (k, value) :: rest else (k, v) :: putEntry key value rest

/-- Reads the members of a map behind the entries that are there. -/
def entries (key value : Tree → Fit Datum) (done : List (Datum × Datum)) :
    List (String × Tree) → Fit (List (Datum × Datum))
  | [] => .of done
  | (k, t) :: ms =>
    ((key (.text k)).below (.key k) k).andThen fun k' =>
      ((value t).below (.key k) (k'.keyText.toOption.getD k)).andThen fun v => entries key value (putEntry k' v done) ms

/-- Reads the members of a map that name fields, behind the fields that are there. -/
def members (closed : Bool) (names : List String) (field? : String → Option (Tree → Fit Datum))
    (done : List (String × Datum)) : List (String × Tree) → Fit (List (String × Datum))
  | [] => .of done
  | (k, t) :: ms =>
    match field? k with
    | some read =>
      ((read t).below (.key k) k).andThen fun d => members closed names field? (Assoc.insert k d done) ms
    | none =>
      if closed then (Fit.fail (.unknownField k names)).below (.key k) k
      else (Fit.passOver k).andThen fun _ => members closed names field? done ms

/-- All fields in their order: those that were found, and else what a missing field is. -/
def complete (strict : Bool) (found : List (String × Datum)) : List (String × Shape) → Fit (List (String × Datum))
  | [] => .of []
  | (name, s) :: rest =>
    let field : Fit Datum :=
      match Assoc.get? name found, s with
      | some d, _ => .of d
      | none, .option _ => .of .none
      | none, s => if strict then .fail (.missingField name) else .of s.default
    field.andThen fun d => (complete strict found rest).map ((name, d) :: ·)

/-- A plain outcome as a fit. -/
def plain {α : Type} (x : Except MisfitCause α) : Fit α :=
  match x with
  | .ok a => .of a
  | .error cause => .fail cause

/-- The name of a variant that text stands for. -/
def variantName (s : String) : String := String.ofList (Text.element s.toList)

/-- A variant that is only named. -/
def bareVariant (variant : String) : Payload → Except MisfitCause Datum
  | .nothing => .ok (.unitVariant variant)
  | .content _ => .error (.invalidType "unit variant" "newtype variant")
  | .items _ => .error (.invalidType "unit variant" "tuple variant")
  | .fields _ => .error (.invalidType "unit variant" "struct variant")

mutual

/-- The value of a shape that a tree holds. -/
def read : Shape → Tree → Fit Datum
  | bool, t => plain (t.asBool.map .bool)
  | int kind, t => if kind.bits = 128 then .fail .wideInteger else plain ((t.asInt kind).map (.int kind))
  | float, t => plain (t.asFloat.map .float)
  | single, t => plain (t.asFloat.map fun x => .float x.toSingle)
  | char, t => plain (t.asChar.map fun c => .text c.toString)
  | text, t => plain (t.asText.map .text)
  | bytes, t =>
    match t with
    | .text s => .of (.bytes (Text.encode (Text.unquoted s)))
    | t => (plain t.asItems).andThen fun ts =>
      (each (fun t => plain (t.asInt ⟨false, 8⟩)) 0 ts).map fun ns => .bytes (ns.map fun n => UInt8.ofNat n.toNat)
  | unit, t | unitRecord _, t => if t.isNull then .of .unit else .fail (t.mismatch "null")
  | tree, t => .of (.tree t.unquoteKeys)
  | instant, t => plain ((Offer.ofTree t).instant.map .instant)
  | date, t => plain (t.asText.bind fun s => (Offer.text s).date.map .date)
  | time, t => plain (t.asText.bind fun s => (Offer.text s).time.map .time)
  | dateTime, t => plain (t.asText.bind fun s => (Offer.text s).dateTime.map .dateTime)
  | option content, t => if t.isAbsent then .of .none else (read content t).within.map .some
  | list item, t => (plain t.asItems).andThen fun ts => (each (read item) 0 ts).map .list
  | sortedTexts, t =>
    (plain t.asItems).andThen fun ts =>
      (each (fun t => plain t.asText) 0 ts).map fun ss => .list ((ss.foldl (fun set s => insertText s set) []).map .text)
  | distinctTexts, t =>
    (plain t.asItems).andThen fun ts =>
      (each (fun t => plain t.asText) 0 ts).map fun ss => .list ((ss.foldl (fun set s => appendText s set) []).map .text)
  | array count item, t =>
    (plain t.asItems).andThen fun ts =>
      if ts.length < count then
        ((each (read item) 0 ts).andThen fun _ =>
          .fail (.invalidLength ts.length ("an array of length " ++ toString count)))
      else (each (read item) 0 (ts.take count)).map .list
  | tuple items, t =>
    (plain t.asItems).andThen fun ts =>
      (readItems ("a tuple of size " ++ toString items.length) 0 items ts).map .list
  | map key value, t => (plain t.asMembers).andThen fun ms => (entries (read key) (read value) [] ms).map .map
  | newtype _ content, t => (read content t).within.map .newtype
  | tupleRecord name items, t =>
    (plain t.asItems).andThen fun ts =>
      (readItems ("tuple struct " ++ name ++ " with " ++ toString items.length ++ " elements") 0 items ts).map .list
  | record _ strict closed fields, t =>
    (plain t.asMembers).andThen fun ms =>
      (members closed (fields.map Prod.fst) (fun k => field? k fields) [] ms).andThen fun found =>
        (complete strict found fields).map .record
  | choice name variants, t =>
    match t with
    | .text s =>
      let variant := variantName s
      match Assoc.get? variant variants with
      | some payload => plain (bareVariant variant payload)
      | none => .fail (.unknownVariant variant (variants.map Prod.fst))
    | .map [(variant, t)] =>
      match variant? name variant variants with
      | some read => read t
      | none => .fail (.unknownVariant variant (variants.map Prod.fst))
    | .map _ => .fail (.notOneVariant name)
    | t => .fail (t.mismatch name)

/-- Reads as many items as there are shapes, the first of which has an index; further items do not
    count. -/
def readItems (expected : String) (i : Nat) : List Shape → List Tree → Fit (List Datum)
  | [], _ => .of []
  | _ :: _, [] => .fail (.invalidLength i expected)
  | s :: ss, t :: ts =>
    ((read s t).below (.index i) (toString i)).andThen fun d => (readItems expected (i + 1) ss ts).map (d :: ·)

/-- How the field of a name is read. -/
def field? (name : String) : List (String × Shape) → Option (Tree → Fit Datum)
  | [] => none
  | (n, s) :: rest => if n = name then some (read s) else field? name rest

/-- How the content of a variant is read. -/
def variant? (type name : String) : List (String × Payload) → Option (Tree → Fit Datum)
  | [] => none
  | (n, p) :: rest => if n = name then some (content type n p) else variant? type name rest

/-- What a variant makes of its content. -/
def content (type variant : String) : Payload → Tree → Fit Datum
  | .nothing, _ => .of (.unitVariant variant)
  | .content s, t => ((read s t).within.map (.newtypeVariant variant)).inVariant variant
  | .items ss, t =>
    ((plain t.asItems).andThen fun ts =>
      (readItems ("tuple variant " ++ type ++ "::" ++ variant ++ " with " ++ toString ss.length ++ " elements") 0 ss
        ts).map (.listVariant variant)).inVariant variant
  | .fields fs, t =>
    ((plain t.asMembers).andThen fun ms =>
      (members false (fs.map Prod.fst) (fun k => field? k fs) [] ms).andThen fun found =>
        (complete true found fs).map (.recordVariant variant)).inVariant variant

end

end Settings.Shape
