import Settings.Binding
import Settings.Proofs.Store.Overlay
import Settings.Proofs.Text.Elements
import Settings.Proofs.Tree.Form

/-! # Binding to a tree of any kind

A tree that is asked for as a tree is handed over node by node. Its scalars and lists stay as they are; the keys of its
maps pass as texts and come out of their quotes. So a tree comes back as it was just where no key of it is in quotes. -/

namespace Settings

namespace Tree

variable {t : Tree} {ms : List (String × Tree)}

/-! ### Keys -/

mutual

/-- The tree with another name for each key. -/
def mapKeys (f : String → String) : Tree → Tree
  | list items => list (mapItemKeys f items)
  | map members => map (mapMemberKeys f members)
  | t => t

def mapItemKeys (f : String → String) : List Tree → List Tree
  | [] => []
  | t :: ts => mapKeys f t :: mapItemKeys f ts

def mapMemberKeys (f : String → String) : List (String × Tree) → List (String × Tree)
  | [] => []
  | (k, t) :: ms => (f k, mapKeys f t) :: mapMemberKeys f ms

end

/-- No key of a map is in quotes. -/
def BareKeys (t : Tree) : Prop := ∀ ms, t = map ms → ∀ k ∈ Assoc.keys ms, ¬ Text.Quoted k.toList

/-- No two keys of a map are the same out of their quotes. -/
def KeysStayApart (t : Tree) : Prop := ∀ ms, t = map ms → ((Assoc.keys ms).map Text.unquoted).Nodup

theorem keys_mapMemberKeys (f : String → String) (ms : List (String × Tree)) :
    Assoc.keys (mapMemberKeys f ms) = (Assoc.keys ms).map f := by
  induction ms with
  | nil => rfl
  | cons m ms ih => rw [mapMemberKeys, Assoc.keys_cons, Assoc.keys_cons, List.map_cons, ih]

/-- A map comes out with each key in its first place and with its last value. -/
theorem unquoteKeys_map (ms : List (String × Tree)) :
    (map ms).unquoteKeys = map (Assoc.ofList (ms.map fun m => (Text.unquoted m.1, m.2.unquoteKeys))) := by
  have hlaid : ∀ done, unquoteMemberKeys done ms =
      Assoc.insertAll done (ms.map fun m => (Text.unquoted m.1, m.2.unquoteKeys)) := by
    induction ms with
    | nil => exact fun done => rfl
    | cons m ms ih => exact fun done => ih _
  exact congrArg map (hlaid [])

mutual

/-- As long as keys stay apart, no entry is lost. -/
theorem unquoteKeys_of_apart (t : Tree) (h : t.Everywhere KeysStayApart) : t.unquoteKeys = t.mapKeys Text.unquoted := by
  cases t with
  | list ts =>
    rw [unquoteKeys, mapKeys, unquoteItemKeys_of_apart ts h.2]
  | map ms =>
    have hnodup : (Assoc.keys ([] ++ mapMemberKeys Text.unquoted ms)).Nodup := by
      rw [List.nil_append, keys_mapMemberKeys]
      exact h.1 ms rfl
    rw [unquoteKeys_map, mapKeys, unquoteMemberKeys_of_apart ms h.2, Assoc.ofList, Assoc.insertAll_of_nodup hnodup,
      List.nil_append]
  | _ => rfl

theorem unquoteItemKeys_of_apart (ts : List Tree) (h : EverywhereItems KeysStayApart ts) :
    unquoteItemKeys ts = mapItemKeys Text.unquoted ts := by
  cases ts with
  | nil => rfl
  | cons t ts => rw [unquoteItemKeys, mapItemKeys, unquoteKeys_of_apart t h.1, unquoteItemKeys_of_apart ts h.2]

theorem unquoteMemberKeys_of_apart (ms : List (String × Tree)) (h : EverywhereMembers KeysStayApart ms) :
    (ms.map fun m => (Text.unquoted m.1, m.2.unquoteKeys)) = mapMemberKeys Text.unquoted ms := by
  cases ms with
  | nil => rfl
  | cons m ms => rw [List.map_cons, mapMemberKeys, unquoteKeys_of_apart m.2 h.1, unquoteMemberKeys_of_apart ms h.2]

end

mutual

/-- Keys that are in no quotes are kept, and so is the tree. -/
theorem unquoteKeys_of_bare (t : Tree) (hd : t.Everywhere KeysDiffer) (h : t.Everywhere BareKeys) :
    t.unquoteKeys = t := by
  cases t with
  | list ts =>
    rw [unquoteKeys, unquoteItemKeys_of_bare ts hd.2 h.2]
  | map ms =>
    have hnodup : (Assoc.keys ([] ++ ms)).Nodup := hd.1 ms rfl
    rw [unquoteKeys_map, unquoteMemberKeys_of_bare ms hd.2 h.2 (h.1 ms rfl), Assoc.ofList,
      Assoc.insertAll_of_nodup hnodup, List.nil_append]
  | _ => rfl

theorem unquoteItemKeys_of_bare (ts : List Tree) (hd : EverywhereItems KeysDiffer ts)
    (h : EverywhereItems BareKeys ts) : unquoteItemKeys ts = ts := by
  cases ts with
  | nil => rfl
  | cons t ts => rw [unquoteItemKeys, unquoteKeys_of_bare t hd.1 h.1, unquoteItemKeys_of_bare ts hd.2 h.2]

theorem unquoteMemberKeys_of_bare (ms : List (String × Tree)) (hd : EverywhereMembers KeysDiffer ms)
    (h : EverywhereMembers BareKeys ms) (hkeys : ∀ k ∈ Assoc.keys ms, ¬ Text.Quoted k.toList) :
    (ms.map fun m => (Text.unquoted m.1, m.2.unquoteKeys)) = ms := by
  cases ms with
  | nil => rfl
  | cons m ms =>
    obtain ⟨hk, hkeys⟩ := List.forall_mem_cons.mp hkeys
    rw [List.map_cons, unquoteMemberKeys_of_bare ms hd.2 h.2 hkeys, unquoteKeys_of_bare m.2 hd.1 h.1,
      Text.unquoted_eq_iff.mpr hk]

end

mutual

/-- A key that is in quotes does not come back, and no other entry can stand in its place: the entries would have to
    be fewer, or its key shorter. -/
theorem bare_of_unquoteKeys (t : Tree) (h : t.unquoteKeys = t) : t.Everywhere BareKeys := by
  cases t with
  | list ts =>
    exact ⟨nofun, bare_of_unquoteItemKeys ts (list.inj h)⟩
  | map ms =>
    rw [unquoteKeys_map, map.injEq, Assoc.ofList] at h
    have hlength : (Assoc.insertAll [] (ms.map fun m => (Text.unquoted m.1, m.2.unquoteKeys))).length =
        ([] : List (String × Tree)).length + (ms.map fun m => (Text.unquoted m.1, m.2.unquoteKeys)).length := by
      rw [h, List.length_map, List.length_nil, Nat.zero_add]
    rw [Assoc.insertAll_of_length hlength, List.nil_append] at h
    obtain ⟨hkeys, hms⟩ := bare_of_unquoteMemberKeys ms h
    exact ⟨fun _ hmap => map.inj hmap ▸ hkeys, hms⟩
  | _ => exact nofun

theorem bare_of_unquoteItemKeys (ts : List Tree) (h : unquoteItemKeys ts = ts) : EverywhereItems BareKeys ts := by
  cases ts with
  | nil => trivial
  | cons t ts =>
    obtain ⟨ht, hts⟩ := List.cons.inj h
    exact ⟨bare_of_unquoteKeys t ht, bare_of_unquoteItemKeys ts hts⟩

theorem bare_of_unquoteMemberKeys (ms : List (String × Tree))
    (h : (ms.map fun m => (Text.unquoted m.1, m.2.unquoteKeys)) = ms) :
    (∀ k ∈ Assoc.keys ms, ¬ Text.Quoted k.toList) ∧ EverywhereMembers BareKeys ms := by
  cases ms with
  | nil => exact ⟨nofun, trivial⟩
  | cons m ms =>
    obtain ⟨hm, hms⟩ := List.cons.inj h
    obtain ⟨hk, ht⟩ := Prod.mk.inj hm
    obtain ⟨hkeys, hrest⟩ := bare_of_unquoteMemberKeys ms hms
    exact ⟨List.forall_mem_cons.mpr ⟨Text.unquoted_eq_iff.mp hk, hkeys⟩, bare_of_unquoteKeys m.2 ht, hrest⟩

end

end Tree

namespace Shape

theorem bind_tree_eq (t : Tree) : Shape.tree.bind t = ⟨[], .ok (.tree t.unquoteKeys)⟩ := by
  rw [bind, bindWith]
  rfl

/-- A tree that is bound as a tree always comes back, and nothing of it is passed over. It comes back as it was just
    where no key is in quotes; where keys are, they lose them, and no entry is lost as long as the keys of each map
    stay apart. -/
theorem bind_tree {t : Tree} (h : t.Distinct) :
    Shape.tree.bind t = ⟨[], .ok (.tree t.unquoteKeys)⟩ ∧
    ((Shape.tree.bind t).result = .ok (.tree t) ↔ t.Everywhere Tree.BareKeys) ∧
    (t.Everywhere Tree.KeysStayApart → (Shape.tree.bind t).result = .ok (.tree (t.mapKeys Text.unquoted))) := by
  refine ⟨bind_tree_eq t, ?_, ?_⟩
  · rw [bind_tree_eq, Except.ok.injEq, Datum.tree.injEq]
    exact ⟨Tree.bare_of_unquoteKeys t, Tree.unquoteKeys_of_bare t h⟩
  · intro hapart
    rw [bind_tree_eq, Tree.unquoteKeys_of_apart t hapart]

/-- A quote at the start of a key alone is kept, and so is a text in quotes. -/
theorem bind_tree_openQuote :
    (Shape.tree.bind (.map [("\"a", .list [.text "\"x\"", .map []]), ("a", .null)])).result =
      .ok (.tree (.map [("\"a", .list [.text "\"x\"", .map []]), ("a", .null)])) := by
  have hd : (Tree.map [("\"a", .list [.text "\"x\"", .map []]), ("a", .null)]).Distinct := by
    simp [Tree.Distinct, Tree.Everywhere, Tree.EverywhereMembers, Tree.EverywhereItems, Tree.KeysDiffer]
  have hopen : ¬ Text.Quoted "\"a".toList := Text.unquoted_eq_iff.mp (by decide)
  have hplain : ¬ Text.Quoted "a".toList := Text.unquoted_eq_iff.mp (by decide)
  have hkeys : ∀ k ∈ ["\"a", "a"], ¬ Text.Quoted k.toList :=
    List.forall_mem_cons.mpr ⟨hopen, List.forall_mem_cons.mpr ⟨hplain, List.forall_mem_nil _⟩⟩
  have hnone : ∀ ms, Tree.map [] = .map ms → ∀ k ∈ Assoc.keys ms, ¬ Text.Quoted k.toList := by
    rintro _ ⟨rfl⟩
    exact List.forall_mem_nil _
  have hleaf : ∀ t : Tree, (∀ ms, t ≠ .map ms) → t.BareKeys := fun t ht ms h => absurd h (ht ms)
  refine (bind_tree hd).2.1.mpr ⟨?_, ⟨hleaf _ (by simp), hleaf _ (by simp), ⟨hnone, trivial⟩, trivial⟩,
    hleaf _ (by simp), trivial⟩
  rintro _ ⟨rfl⟩
  exact hkeys

/-- A key in quotes is taken for the key inside them, and so one of two entries is lost. -/
theorem bind_tree_merges :
    (Shape.tree.bind (.map [("a", .int 1), ("\"a\"", .int 2)])).result = .ok (.tree (.map [("a", .int 2)])) ∧
    (Shape.tree.bind (.map [("a", .int 1), ("\"a\"", .int 2)])).result ≠
      .ok (.tree (.map [("a", .int 1), ("\"a\"", .int 2)])) := by
  have hkeys : Text.unquoted "a" = "a" ∧ Text.unquoted "\"a\"" = "a" := by decide
  have hbind : (Shape.tree.bind (.map [("a", .int 1), ("\"a\"", .int 2)])).result =
      .ok (.tree (.map [("a", .int 2)])) := by
    rw [bind_tree_eq, Tree.unquoteKeys_map, List.map_cons, List.map_cons, hkeys.1, hkeys.2]
    rfl
  refine ⟨hbind, ?_⟩
  rw [hbind]
  simp

end Shape

end Settings
