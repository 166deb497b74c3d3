import Settings.Tree.Flat
import Settings.Shape.Basic

/-!
# Services

A service is what an application has been bound to by its platform: its type, its name and the
credentials that lead to it. All but the type are the fields of a record, of which every one may be
missing.
-/
namespace Settings

/-- A bound service. -/
structure Service where
  /-- The type that a catalog lists the service under. -/
  type : String
  name : String
  label : String
  plan : Option String
  provider : Option String
  tags : List String
  credentials : List (String × Tree)

namespace Service

/-- The record that a service is written as. -/
def shape : Shape :=
  .record "VcapService" false false
    [("name", .text), ("label", .text), ("plan", .option .text), ("provider", .option .text), ("tags", .list .text),
     ("credentials", .map .text .tree)]

/-- The text of a field. -/
def textOf : Datum → Option String
  | .text s => some s
  | .some (.text s) => some s
  | _ => none

/-- The texts of a field that holds a list. -/
def textsOf : Datum → List String
  | .list items => items.filterMap textOf
  | _ => []

/-- The members of a field that holds a map. -/
def membersOf : Datum → List (String × Tree)
  | .map entries =>
    entries.filterMap fun
      | (.text key, .tree t) => some (key, t)
      | _ => none
  | _ => []

/-- The service of a type that a record of its shape describes. -/
def ofDatum (type : String) (d : Datum) : Service :=
  let field (name : String) : Datum :=
    match d with
    | .record fields => (Assoc.get? name fields).getD .none
    | _ => .none
  { type
    name := (textOf (field "name")).getD ""
    label := (textOf (field "label")).getD ""
    plan := textOf (field "plan")
    provider := textOf (field "provider")
    tags := textsOf (field "tags")
    credentials := membersOf (field "credentials") }

/-- The record of a service. -/
def toDatum (s : Service) : Datum :=
  let optional (o : Option String) : Datum := match o with
    | some t => .some (.text t)
    | none => .none
  .record
    [("name", .text s.name), ("label", .text s.label), ("plan", optional s.plan), ("provider", optional s.provider),
     ("tags", .list (s.tags.map .text)), ("credentials", .map (s.credentials.map fun (k, t) => (.text k, .tree t)))]

/-- A credential as the text of a setting. -/
def credential? (s : Service) (key : String) : Option String := (Assoc.get? key s.credentials).map Tree.property

/-- The credentials as pairs with dotted keys. -/
def flatCredentials (s : Service) : List (String × String) := Tree.flatten (.map s.credentials)

/-- The credentials as settings below the service's name. -/
def settings (s : Service) : List (String × String) :=
  s.flatCredentials.map fun (key, value) => ("vcap.services." ++ s.name ++ ".credentials." ++ key, value)

end Service

end Settings
