import Settings.Datum.Basic
import Settings.Proofs.Tree.RoundTrip

/-! # Marshalling trees

A tree is a typed value too, which hands itself to the writer node by node. Nothing is lost on that way, so
the text it is written as reads back as the tree. -/

namespace Settings.Datum

mutual

/-- A tree as it hands itself over: each list with its items, each map with its keys and values. -/
def ofTree : Tree → Datum
  | .null => unit
  | .bool b => bool b
  | .int n => int .word n.toInt
  | .float x => float x
  | .text s => text s
  | .list ts => list (ofItems ts)
  | .map ms => map (ofMembers ms)

def ofItems : List Tree → List Datum
  | [] => []
  | t :: ts => ofTree t :: ofItems ts

def ofMembers : List (String × Tree) → List (Datum × Datum)
  | [] => []
  | (k, t) :: ms => (text k, ofTree t) :: ofMembers ms

end

theorem intTree_word (n : Int64) : intTree n.toInt = .int n := by
  rw [intTree, if_pos (Number.word_holds n), Int64.ofInt_toInt]

mutual

/-- A tree that is handed over node by node is the same tree again. -/
theorem toTree_ofTree (t : Tree) (h : t.Distinct) : (ofTree t).toTree = .ok t := by
  cases t with
  | int n =>
    rw [ofTree, toTree, if_neg (by decide), intTree_word]
  | list ts =>
    rw [ofTree, toTree, itemTrees_ofItems ts h.2]
    rfl
  | map ms =>
    rw [ofTree, toTree, entryTrees_ofMembers ms [] (h.1 ms rfl) h.2]
    rfl
  | _ => rfl

theorem itemTrees_ofItems (ts : List Tree) (h : Tree.EverywhereItems Tree.KeysDiffer ts) :
    itemTrees (ofItems ts) = .ok ts := by
  cases ts with
  | nil => rfl
  | cons t ts =>
    rw [ofItems, itemTrees, toTree_ofTree t h.1, itemTrees_ofItems ts h.2]
    rfl

theorem entryTrees_ofMembers (ms done : List (String × Tree)) (hkeys : (Assoc.keys (done ++ ms)).Nodup)
    (h : Tree.EverywhereMembers Tree.KeysDiffer ms) : entryTrees done (ofMembers ms) = .ok (done ++ ms) := by
  cases ms with
  | nil => rw [ofMembers, entryTrees, List.append_nil]
  | cons m ms =>
    obtain ⟨k, t⟩ := m
    have hfresh : k ∉ Assoc.keys done := Assoc.not_mem_of_nodup hkeys
    rw [List.append_cons] at hkeys ⊢
    rw [ofMembers, entryTrees, keyText, toTree_ofTree t h.1]
    exact Assoc.insert_of_not_mem hfresh ▸ entryTrees_ofMembers ms (done ++ [(k, t)]) hkeys h.2

end

/-- The text that a tree is marshalled to, in either layout, reads back as the tree, with its maps in their
    order. -/
theorem read_marshal {t : Tree} (layout : Layout) (hdist : t.Distinct) (hfree : t.FloatFree) (hdepth : t.depth ≤ 128) :
    ∃ text, (ofTree t).marshal layout = .ok text ∧ (tree t).marshal layout = .ok text ∧ Tree.read text = .ok t := by
  refine ⟨t.print layout, ?_, rfl, Tree.read_print layout hdist hfree hdepth⟩
  rw [marshal, toTree_ofTree t hdist]

theorem read_marshal_nested :
    ∃ text, (ofTree (.map [("a\"\n", .list [.int (-3), .list [], .map []]), ("", .null)])).marshal .pretty = .ok text ∧
      (tree (.map [("a\"\n", .list [.int (-3), .list [], .map []]), ("", .null)])).marshal .pretty = .ok text ∧
      Tree.read text = .ok (.map [("a\"\n", .list [.int (-3), .list [], .map []]), ("", .null)]) := by
  refine read_marshal .pretty ?_ ?_ ?_
  · simp [Tree.Distinct, Tree.Everywhere, Tree.EverywhereMembers, Tree.EverywhereItems, Tree.KeysDiffer]
  · simp [Tree.FloatFree, Tree.Everywhere, Tree.EverywhereMembers, Tree.EverywhereItems, Tree.NoFloat]
  · simp [Tree.depth, Tree.depthMembers, Tree.depthItems]

end Settings.Datum
