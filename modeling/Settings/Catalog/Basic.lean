import Settings.Binding
import Settings.Catalog.Service
import Settings.Pattern.Basic

/-!
# Catalogs

A catalog lists the services that an application has been bound to, type by type. Services are numbered
in the order of the catalog; two indexes lead to them, by name, where the last service with a name
counts, and by type.
-/
namespace Settings

/-- The services of an application. -/
structure Catalog where
  services : List Service
  /-- The number of the last service with each name. -/
  byName : List (String × Nat)
  /-- The numbers of the services of each type. -/
  byType : List (String × List Nat)

namespace Catalog

def empty : Catalog := ⟨[], [], []⟩

/-- The variable of the environment that holds a catalog. -/
def variableName : String := "VCAP_SERVICES"

/-- Adds a service behind the others. -/
def add (c : Catalog) (s : Service) : Catalog :=
  let number := c.services.length
  { services := c.services ++ [s]
    byName := Assoc.insert s.name number c.byName
    byType := Assoc.insert s.type ((Assoc.get? s.type c.byType).getD [] ++ [number]) c.byType }

/-! ### Reading -/

/-- Adds a service, which takes the name of an earlier one if need be. -/
def addNoted (c : Catalog) (s : Service) : Watched Catalog :=
  match Assoc.get? s.name c.byName with
  | some previous => do
    .note (.shadowed s.name previous)
    return c.add s
  | none => return c.add s

/-- Adds the services of a type, which are entries from the given index on. -/
def addEntries (type : String) (c : Catalog) (index : Nat) : List Tree → Watched Catalog
  | [] => return c
  | entry :: entries => do
    let d ← (Service.shape.bind entry).mapFault fun e => .invalidCatalog (.badService type index e.message)
    let c ← c.addNoted (.ofDatum type d)
    addEntries type c (index + 1) entries

/-- Adds the services of all types. -/
def addTypes (c : Catalog) : List (String × Tree) → Watched Catalog
  | [] => return c
  | (type, .list entries) :: types => do
    let c ← addEntries type c 0 entries
    addTypes c types
  | (type, t) :: _ => .fault (.invalidCatalog (.notServices type t.kindName))

/-- Reads the text of a catalog. -/
def read (text : String) : Watched Catalog :=
  if (Text.trim text.toList).isEmpty then .fault (.invalidCatalog .empty)
  else
    match Tree.read text with
    | .error e => .fault (.invalidCatalog (.unreadable e.message))
    | .ok (.map []) => .fault (.invalidCatalog .noTypes)
    | .ok (.map types) => addTypes empty types
    | .ok t => .fault (.invalidCatalog (.notTypes t.kindName))

/-- Reads the catalog in the environment, if there is one. -/
def ofHost (host : Host) : Watched (Option Catalog) :=
  match Assoc.get? variableName host.env with
  | none => return none
  | some bytes =>
    match Text.decode bytes with
    | .ok text => some <$> read text
    | .error _ => .fault (.invalidCatalog (.notUnicode variableName (Text.shownBytes bytes)))

/-! ### Looking up -/

/-- The services with the given numbers. -/
def atNumbers (c : Catalog) (numbers : List Nat) : List Service := numbers.filterMap (c.services[·]?)

/-- The number of names. -/
def size (c : Catalog) : Nat := c.byName.length

def isEmpty (c : Catalog) : Bool := c.byName.isEmpty

/-- The types that have a service. -/
def types (c : Catalog) : List String := Assoc.keys c.byType

/-- The last service with a name. -/
def service? (c : Catalog) (name : String) : Option Service :=
  (Assoc.get? name c.byName).bind (c.services[·]?)

/-- The services of a type. -/
def ofType (c : Catalog) (type : String) : List Service := c.atNumbers ((Assoc.get? type c.byType).getD [])

/-- The services of all types that a pattern picks, type by type. -/
def matching (c : Catalog) (p : Pattern) : List Service :=
  (c.byType.filter fun (type, _) => p.picks type).flatMap fun (_, numbers) => c.atNumbers numbers

/-- The credentials of each name's last service, as settings. -/
def settings (c : Catalog) : List (String × String) :=
  (c.atNumbers (c.byName.map Prod.snd)).flatMap Service.settings

end Catalog

end Settings
