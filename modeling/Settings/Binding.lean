import Settings.Notice
import Settings.Shape.Reading

/-!
# Binding

Binding a tree to a shape goes on where reading stops at the first misfit: the field around the node that
does not fit is taken out of the tree, and the tree is read again, so that the field has the value of a
missing one. Each round makes the tree smaller. Only a misfit outside of all named fields ends the binding.
-/
namespace Settings

/-- Binds a tree by a reader of a type, leaving out fields that do not fit. -/
def bindWith {α : Type} (type : String) (read : Tree → Fit α) (t : Tree) : Watched α :=
  match read t with
  | .ok (a, ignored) => ⟨ignored.map fun path => .ignored type (".".intercalate path), .ok a⟩
  | .error m =>
    match m.field? with
    | none => .fault (.binding type m.message)
    | some path =>
      match _h : t.remove? path with
      | none => .fault (.binding type m.message)
      | some rest => do
        Noted.note (.skipped type (PathStep.display path) m.cause.message)
        bindWith type read rest
termination_by t.size
decreasing_by exact Tree.size_remove?_lt _h

namespace Shape

/-- Binds a tree to a shape. -/
def bind (s : Shape) (t : Tree) : Watched Datum := bindWith s.typeName s.read t

/-- The value of a shape that the text of a setting holds. -/
def convert (s : Shape) (raw : String) : Except Fault Datum :=
  match (s.read (.text raw)).value? with
  | .ok d => .ok d
  | .error m => .error (.conversion raw s.typeName m.message)

/-- Reads a tree's text and binds it. -/
def unmarshal (s : Shape) (text : String) : Watched Datum := do
  let t ← .of (Tree.read text)
  s.bind t

/-- Reads a tree's text and binds each of its items; a tree that is no list is a list of one. -/
def unmarshalList (s : Shape) (text : String) : Watched Datum := do
  let t ← .of (Tree.read text)
  (Shape.list s).bind
    (match t with
      | .null => .list []
      | .list items => .list items
      | t => .list [t])

end Shape

end Settings
