import Settings.Binding
import Settings.Reference
import Settings.Store
import Settings.Tree.Flat

/-!
# Views

A view is a store of settings below some key of a document. References in its values are resolved against
the whole document, of which each view has a copy of its own. Reading a setting crosses its key off the
list of keys that have not been read; views of the same document share that list.
-/
namespace Settings

/-- A store, and whether listeners are told what is written into it. -/
structure Sheet where
  store : Store
  told : Bool

/-- Sets pairs one by one. -/
def Sheet.write (s : Sheet) (pairs : List (String × String)) : Sheet := { s with store := s.store.setAll pairs }

/-- What listeners are told when pairs are set. -/
def Sheet.notices (s : Sheet) (pairs : List (String × String)) : List Notice :=
  if s.told then pairs.map fun (k, v) => .set k v else []

/-- The settings below a key. -/
structure View where
  /-- The settings, by their keys in the view. -/
  own : Sheet
  /-- The document, by full keys. -/
  document : Sheet
  /-- The key that the view is below; empty at the top. -/
  scope : String
  /-- The views that have been opened from here and are kept, by their numbers. -/
  kept : List (String × Nat)

/-- Work that reads settings, with the full keys that have not been read before and after it. -/
abbrev Reads (α : Type) : Type := ExceptT Fault (StateM (List String)) α

namespace Reads

def of {α : Type} (result : Except Fault α) : Reads α := ExceptT.mk (pure result)

/-- Crosses a key off. -/
def crossOff (key : String) : Reads Unit := ExceptT.lift (modify (·.filter (· != key)))

end Reads

namespace View

/-- A view of nothing. -/
def empty : View := ⟨⟨.empty, false⟩, ⟨.empty, false⟩, "", []⟩

/-- The view of a whole document. -/
def ofStore (store : Store) : View := ⟨⟨store, true⟩, ⟨store, true⟩, "", []⟩

/-- The key in the document of a key in the view. -/
def fullKey (v : View) (key : String) : String := dottedKey [v.scope, key]

/-! ### Reading settings -/

/-- The text of a setting, with references resolved. -/
def value? (v : View) (key : String) : Reads (Option String) := do
  if v.own.store.contains key then
    let value ← .of (Reference.resolveKey v.document.store.pairs .fail (v.fullKey key))
    Reads.crossOff (v.fullKey key)
    return value
  else return none

/-- The text of a setting that has to be there. -/
def string (v : View) (key : String) : Reads String := do
  match ← v.value? key with
  | some value => return value
  | none => throw (.keyNotFound (v.fullKey key))

/-- A setting as a typed value. -/
def get (v : View) (s : Shape) (key : String) : Reads Datum := do
  let value ← v.string key
  .of (s.convert value)

/-- A setting as a typed value, if there is one. -/
def get? (v : View) (s : Shape) (key : String) : Reads (Option Datum) := do
  match ← v.value? key with
  | some value => some <$> .of (s.convert value)
  | none => return none

/-- A setting as a typed value, or another value if there is none. -/
def getD (v : View) (s : Shape) (key : String) (default : Datum) : Reads Datum := do
  return (← v.get? s key).getD default

/-- The settings of some keys below a key, by their keys there. -/
def valuesBelow (v : View) (key : String) : List String → Reads (List (String × String))
  | [] => return []
  | name :: names => do
    let value ← v.value? (dottedKey [key, name])
    let rest ← v.valuesBelow key names
    return (value.map fun text => (name, text)).toList ++ rest

/-- The keys below a key; all keys if it is empty. -/
def namesBelow (v : View) (key : String) : List String :=
  if key = "" then v.own.store.keys else Assoc.keys (v.own.store.under key)

/-- What is bound at a key: the tree of the settings below it, or its own text if there are none. -/
def tree (v : View) (key : String) : Reads Tree :=
  let names := v.namesBelow key
  if names.isEmpty then Tree.text <$> v.string key else Tree.unflatten <$> v.valuesBelow key names

/-! ### Views of views -/

/-- The view below a key. -/
def below (v : View) (key : String) : View :=
  ⟨⟨.ofPairs (v.own.store.under key), false⟩, v.document, v.fullKey key, []⟩

/-- The full keys of pairs that the view does not have yet. -/
def addedKeys (v : View) (pairs : List (String × String)) : List String :=
  (pairs.filter fun (k, _) => !v.own.store.contains k).map fun (k, _) => v.fullKey k

/-- Lays pairs over the view and its document. The views kept so far are let go. -/
def append (v : View) (pairs : List (String × String)) : View :=
  let own := v.own.write pairs
  let document := if v.scope = "" then own else v.document.write (pairs.map fun (k, x) => (v.fullKey k, x))
  ⟨own, document, v.scope, []⟩

/-- What listeners are told when pairs are laid over the view. -/
def appendNotices (v : View) (pairs : List (String × String)) : List Notice :=
  let full := pairs.map fun (k, x) => (v.fullKey k, x)
  v.own.notices pairs ++ (if v.scope = "" then [] else v.document.notices full) ++
    full.map fun (k, x) => .cached k x false

/-! ### Showing views -/

/-- A line for each setting. -/
def lines (v : View) : String := String.join (v.own.store.pairs.map fun (k, x) => k ++ " = " ++ x ++ "\n")

/-- A view with its scope and settings in double quotes. -/
def shown (v : View) : String :=
  "Configuration \x7b prefix: " ++ Text.shown v.scope ++ ", properties: " ++ v.own.store.shown ++ " \x7d"

end View

end Settings
