import Settings.Assoc
import Settings.Text.Blank
import Settings.Text.Printable

/-!
# Stores

A store holds the settings of a document as pairs of a dotted key and a text, in the order in which the
keys first came, each key once. Values are kept as written; references in them are resolved on reading.
-/
namespace Settings

/-- Dotted keys and their texts, each key once. -/
structure Store where
  pairs : List (String × String)
  nodup : (Assoc.keys pairs).Nodup

namespace Store

def empty : Store := ⟨[], by simp⟩

/-- Sets a key, in its place if it has one. -/
def set (s : Store) (key value : String) : Store := ⟨Assoc.insert key value s.pairs, Assoc.nodup_insert s.nodup⟩

/-- Sets one pair after the other. -/
def setAll (s : Store) (pairs : List (String × String)) : Store :=
  ⟨Assoc.insertAll s.pairs pairs, Assoc.nodup_insertAll s.nodup⟩

/-- The store that the pairs make up, each key with its last value. -/
def ofPairs (pairs : List (String × String)) : Store := empty.setAll pairs

def get? (s : Store) (key : String) : Option String := Assoc.get? key s.pairs

def contains (s : Store) (key : String) : Bool := (s.get? key).isSome

def keys (s : Store) : List String := Assoc.keys s.pairs

def size (s : Store) : Nat := s.pairs.length

def isEmpty (s : Store) : Bool := s.pairs.isEmpty

/-- The pairs whose key starts with `scope` and a dot, without that start. -/
def under (s : Store) (scope : String) : List (String × String) :=
  s.pairs.filterMap fun (k, v) =>
    (Text.after? (scope.toList ++ ['.']) k.toList).map fun rest => (String.ofList rest, v)

/-- The same keys with the same values, in whatever order. -/
def sameAs (s t : Store) : Bool := s.size == t.size && s.pairs.all fun (k, v) => t.get? k == some v

/-- The pairs in braces, keys and values in double quotes. -/
def shown (s : Store) : String :=
  "\x7b" ++ ", ".intercalate (s.pairs.map fun (k, v) => Text.shown k ++ ": " ++ Text.shown v) ++ "\x7d"

@[simp] theorem get?_set_self (s : Store) (k v : String) : (s.set k v).get? k = some v :=
  Assoc.get?_insert_self k v s.pairs

theorem contains_iff {s : Store} {k : String} : s.contains k = true ↔ k ∈ s.keys := Assoc.get?_isSome_iff

theorem ext' {s t : Store} (h : s.pairs = t.pairs) : s = t := by cases s; cases t; simp_all

end Store

/-! ### Dotted keys -/

/-- Keys joined with dots. An anonymous scope has an empty key and leaves no trace. -/
def dottedKey (segments : List String) : String :=
  ".".intercalate (segments.filter (· != ""))

end Settings
