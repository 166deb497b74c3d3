import Settings.Text.Blank
import Settings.Tree.Printer

/-!
# Trees and dotted keys

Pairs of a dotted key and a text regroup into a tree of nested maps, and a tree flattens into such pairs
again. Where a key is a leaf and also leads to other keys, the other keys win.
-/
namespace Settings.Tree

/-- The parts of a dotted key: those before the last dot, and the last one. -/
def splitKey (key : String) : List String × String :=
  match Text.cutLast? '.' key.toList with
  | none => ([], key)
  | some (parents, leaf) => ((Text.pieces '.' parents).map String.ofList, String.ofList leaf)

/-- Sets a text below the maps that a path leads through. A leaf on the path becomes a map; a map at the
    end of it stays. -/
def setNested (value : String) (leaf : String) : List String → List (String × Tree) → List (String × Tree)
  | [], members =>
    match Assoc.get? leaf members with
    | some (map _) => members
    | _ => Assoc.insert leaf (text value) members
  | segment :: path, members =>
    let inner := match Assoc.get? segment members with
      | some (map inner) => inner
      | _ => []
    Assoc.insert segment (map (setNested value leaf path inner)) members

/-- The tree of pairs with dotted keys. -/
def unflatten (pairs : List (String × String)) : Tree :=
  map (pairs.foldl (fun members (key, value) => setNested value (splitKey key).2 (splitKey key).1 members) [])

/-- The key of a member below a dotted key. -/
def memberKey (above key : String) : String := if above = "" then key else above ++ "." ++ key

mutual

/-- The pairs of a tree that stands at a dotted key. A leaf at the empty key is left out. -/
def flattenAt (above : String) : Tree → List (String × String)
  | map members => flattenMembers above members
  | t => if above = "" then [] else [(above, t.property)]

def flattenMembers (above : String) : List (String × Tree) → List (String × String)
  | [] => []
  | (k, t) :: ms => flattenAt (memberKey above k) t ++ flattenMembers above ms

end

/-- The pairs of a tree, depth first. -/
def flatten (t : Tree) : List (String × String) := flattenAt "" t

end Settings.Tree
