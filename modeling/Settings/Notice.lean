import Settings.Dialect
import Settings.Noted
import Settings.Store

/-!
# Notices

What happens on the way from a document to a typed setting is written down as a list of notices, in
order. An audit shows those that a listener asked for; the settings themselves never depend on them.
-/
namespace Settings

/-- One thing that happened. -/
inductive Notice where
  /-- A key of a store was set. -/
  | set (key value : String)
  /-- So many pairs were merged into a store at once. -/
  | merged (count : Nat)
  /-- A document was read into so many keys. -/
  | parsed (source : String) (dialect : Dialect) (count : Nat)
  /-- A value was laid over the document, or a whole view was kept for later. -/
  | cached (key value : String) (view : Bool)
  /-- A typed value was bound. -/
  | created (key type : String)
  /-- A field whose value does not fit was left out. -/
  | skipped (type field reason : String)
  /-- A key matches no field. -/
  | ignored (type key : String)
  /-- A service took the name of an earlier one, at that index. -/
  | shadowed (name : String) (previous : Nat)
  deriving DecidableEq, Repr

namespace Notice

/-- The line a listener that records everything keeps; binding and catalogs do not speak to listeners. -/
def record? : Notice → Option String
  | set key value => some ("set " ++ key ++ "=" ++ value)
  | merged count => some ("insert_all " ++ toString count)
  | parsed source dialect count => some ("parsed " ++ source ++ " " ++ dialect.name ++ " " ++ toString count)
  | cached key value view => some ("cached " ++ key ++ "=" ++ value ++ (if view then " true" else " false"))
  | created key type => some ("created " ++ key ++ " " ++ type)
  | skipped .. | ignored .. | shadowed .. => none

/-- The line the monitor reports, without its level. -/
def report? : Notice → Option String
  | set key value => some ("[BOOT] properties.set('" ++ key ++ "','" ++ value ++ "')")
  | merged count => some ("[BOOT] properties.insert_all('" ++ toString count ++ "')")
  | parsed source dialect count =>
    some ("[BOOT] parsed " ++ toString count ++ " properties from '" ++ source ++ "' as " ++ dialect.name)
  | cached key _ true => some ("[BOOT] cached configuration '" ++ key ++ "'")
  | cached key value false => some ("[BOOT] cached '" ++ key ++ "' = '" ++ value ++ "'")
  | created key type => some ("[BOOT] created " ++ type ++ " from '" ++ key ++ "'")
  | skipped .. | ignored .. | shadowed .. => none

/-- The log line that is written with or without a listener. -/
def log? : Notice → Option String
  | skipped type field reason =>
    some ("WARN skipping field that failed to bind ty=" ++ type ++ " field=" ++ field ++ " error=" ++ reason)
  | ignored type key => some ("DEBUG ignoring key with no matching field ty=" ++ type ++ " key=" ++ key)
  | shadowed name previous =>
    some ("WARN duplicate service name, later entry wins name=" ++ name ++ " previous=" ++ toString previous)
  | _ => none

/-- The log line of a notice under a monitor of the given level, if there is one. -/
def logUnder? (level : Option String) (n : Notice) : Option String :=
  match n.log?, level with
  | some line, _ => some line
  | none, some level => n.report?.map fun line => level ++ " " ++ line
  | none, none => none

end Notice

/-- Work that listeners are told of. -/
abbrev Watched := Noted Notice

/-! ### Stores that listeners watch -/

namespace Store

/-- Sets a key. -/
def enter (s : Store) (key value : String) : Watched Store := do
  Noted.note (.set key value)
  return s.set key value

/-- Sets one pair after the other, each with a notice of its own. -/
def enterEach (s : Store) (pairs : List (String × String)) : Watched Store :=
  pairs.foldlM (fun s (key, value) => s.enter key value) s

/-- Sets one pair after the other, with one notice for all of them. -/
def enterAll (s : Store) (pairs : List (String × String)) : Watched Store := do
  Noted.note (.merged pairs.length)
  return s.setAll pairs

theorem enterEach_eq (s : Store) (pairs : List (String × String)) :
    s.enterEach pairs = ⟨pairs.map fun (key, value) => .set key value, .ok (s.setAll pairs)⟩ := by
  induction pairs generalizing s with
  | nil => rfl
  | cons p pairs ih =>
    have hstep : (p :: pairs).foldlM (fun s (key, value) => s.enter key value) s =
        s.enter p.1 p.2 >>= fun s => s.enterEach pairs := List.foldlM_cons
    rw [enterEach, hstep, funext ih]
    rfl

end Store

end Settings
