import Settings.Catalog.Basic
import Settings.Configuration.View

/-!
# Configurations

A configuration is a document together with all views that have been opened on it. Views have numbers; the
view of the whole document is the first. Opening a view for a key that has one already gives the same view,
until pairs are laid over the view from which it was opened: then later views see the new pairs, while
those that are already open stay as they are.
-/
namespace Settings

/-- A document's views and the full keys that have not been read. -/
structure Configuration where
  views : List View
  unread : List String

namespace Configuration

/-- The configuration of a store. -/
def ofStore (store : Store) : Configuration := ⟨[.ofStore store], store.keys⟩

/-- The view with a number; one that has not been opened is empty. -/
def view (c : Configuration) (i : Nat) : View := (c.views[i]?).getD .empty

/-- Reads settings through a view. -/
def reading {α : Type} (c : Configuration) (i : Nat) (work : View → Reads α) : Except Fault α × Configuration :=
  let (result, unread) := (work (c.view i)).run.run c.unread
  (result, { c with unread })

/-- Binds what stands at a key of a view to a shape. -/
def bind (c : Configuration) (i : Nat) (s : Shape) (key : String) : Watched Datum × Configuration :=
  let (source, c) := c.reading i (View.tree · key)
  let bound : Watched Datum := do
    let d ← s.bind (← .of source)
    .note (.created ((c.view i).fullKey key) s.typeName)
    return d
  (bound, c)

/-- The keys of a view that have not been read. -/
def remains (c : Configuration) (i : Nat) : List String :=
  (c.view i).own.store.keys.filter fun key => c.unread.contains ((c.view i).fullKey key)

/-- Opens the view below a key of a view: its number, and what listeners are told. -/
def openView (c : Configuration) (i : Nat) (key : String) : Nat × List Notice × Configuration :=
  match Assoc.get? key (c.view i).kept with
  | some number => (number, [], c)
  | none =>
    let number := c.views.length
    let opened := (c.view i).below key
    let views := c.views.modify i fun v => { v with kept := Assoc.insert key number v.kept }
    (number, [.cached opened.scope opened.lines true], { c with views := views ++ [opened] })

/-- Some view keeps the view with a number. -/
def isKept (c : Configuration) (i : Nat) : Bool := c.views.any fun v => v.kept.any fun (_, number) => number == i

/-- Lays pairs over a view. No pairs at all change nothing. -/
def append (c : Configuration) (i : Nat) (pairs : List (String × String)) : Configuration :=
  if pairs.isEmpty then c
  else ⟨c.views.modify i (View.append · pairs), c.unread ++ (c.view i).addedKeys pairs⟩

/-- What listeners are told when pairs are laid over a view. -/
def appendNotices (c : Configuration) (i : Nat) (pairs : List (String × String)) : List Notice :=
  if pairs.isEmpty then [] else (c.view i).appendNotices pairs

/-- Lays the credentials of a catalog over the whole document. -/
def overlay (c : Configuration) (catalog : Catalog) : Configuration := c.append 0 catalog.settings

end Configuration

end Settings
