import Mathlib.Data.List.Nodup
import Settings.Proofs.Tree.Form
import Settings.Tree.Flat

/-! # The leaves of a tree

A leaf is a node that is no map; lists are leaves. A tree that is flattened has a pair for each leaf, whose key is the
path to the leaf, joined by dots. Where no map has a key twice, each path leads to one leaf. -/

namespace Settings.Tree

mutual

/-- The nodes of a tree that are no maps, depth first, each with the path of keys that leads to it. -/
def leaves : Tree → List (List String × Tree)
  | map members => leavesMembers members
  | t => [([], t)]

def leavesMembers : List (String × Tree) → List (List String × Tree)
  | [] => []
  | (k, t) :: ms => t.leaves.map (fun leaf => (k :: leaf.1, leaf.2)) ++ leavesMembers ms

end

variable {t leaf : Tree} {ms : List (String × Tree)} {k : String} {path : List String}

/-! ### Paths to leaves -/

theorem mem_leavesMembers : (path, leaf) ∈ leavesMembers ms ↔
    ∃ k t rest, path = k :: rest ∧ (k, t) ∈ ms ∧ (rest, leaf) ∈ t.leaves := by
  induction ms with
  | nil => simp [leavesMembers]
  | cons p ms ih =>
    obtain ⟨a, s⟩ := p
    rw [leavesMembers, List.mem_append, ih, List.mem_map]
    constructor
    · rintro (⟨⟨rest, leaf⟩, hmem, heq⟩ | ⟨k, t, rest, hpath, hmem, hleaf⟩)
      · cases heq
        exact ⟨a, s, rest, rfl, List.mem_cons_self, hmem⟩
      · exact ⟨k, t, rest, hpath, List.mem_cons_of_mem _ hmem, hleaf⟩
    · rintro ⟨k, t, rest, rfl, hmem, hleaf⟩
      rcases List.mem_cons.mp hmem with heq | hmem
      · cases heq
        exact .inl ⟨_, hleaf, rfl⟩
      · exact .inr ⟨k, t, rest, rfl, hmem, hleaf⟩

/-- A path leads to a leaf if it leads to a node that is no map. -/
theorem mem_leaves_iff (h : t.Distinct) :
    (path, leaf) ∈ t.leaves ↔ t.part? path = some leaf ∧ ∀ ms, leaf ≠ map ms := by
  induction path generalizing t with
  | nil =>
    -- The empty path leads to the tree itself, which is a leaf unless it is a map.
    rw [part?, Option.some.injEq]
    cases t with
    | map ms =>
      have hnone : ([], leaf) ∉ leavesMembers ms := fun hmem => by
        obtain ⟨k, t, rest, hpath, -⟩ := mem_leavesMembers.mp hmem
        cases hpath
      refine ⟨fun hmem => absurd hmem hnone, ?_⟩
      rintro ⟨rfl, hleaf⟩
      exact absurd rfl (hleaf ms)
    | _ =>
      refine ⟨fun hmem => ?_, fun hleaf => ?_⟩
      · cases List.mem_singleton.mp hmem
        exact ⟨rfl, nofun⟩
      · rw [← hleaf.1]
        exact List.mem_singleton.mpr rfl
  | cons k path ih =>
    cases t with
    | map ms =>
      obtain ⟨hkeys, hmembers⟩ := h
      have hdistinct : ∀ p ∈ ms, p.2.Distinct := everywhereMembers_iff.mp hmembers
      rw [leaves, mem_leavesMembers, part?]
      constructor
      · rintro ⟨a, t, rest, hpath, hmem, hleaf⟩
        cases hpath
        have hget : (map ms).get? k = some t := Assoc.get?_of_mem (hkeys ms rfl) hmem
        rw [hget, Option.bind_some]
        exact (ih (hdistinct _ hmem)).mp hleaf
      · rintro ⟨hpart, hleaf⟩
        obtain ⟨t, hget, hpart⟩ := Option.bind_eq_some_iff.mp hpart
        have hmem : (k, t) ∈ ms := Assoc.mem_of_get? hget
        exact ⟨k, t, path, rfl, hmem, (ih (hdistinct _ hmem)).mpr ⟨hpart, hleaf⟩⟩
    | _ =>
      refine ⟨fun hmem => ?_, fun hleaf => ?_⟩
      · cases List.mem_singleton.mp hmem
      · cases hleaf.1

mutual

/-- No path leads to two leaves. -/
theorem nodup_leaves : ∀ {t : Tree}, t.Distinct → (t.leaves.map Prod.fst).Nodup
  | map ms, h => nodup_leavesMembers (h.1 ms rfl) h.2
  | null, _ | bool _, _ | int _, _ | float _, _ | text _, _ | list _, _ => List.nodup_singleton _

theorem nodup_leavesMembers : ∀ {ms : List (String × Tree)}, (Assoc.keys ms).Nodup → EverywhereMembers KeysDiffer ms →
    ((leavesMembers ms).map Prod.fst).Nodup
  | [], _, _ => List.nodup_nil
  | (k, t) :: ms, hkeys, h => by
    obtain ⟨hk, hkeys⟩ := List.nodup_cons.mp hkeys
    have hhead := nodup_leaves h.1
    have htail := nodup_leavesMembers hkeys h.2
    rw [leavesMembers, List.map_append, List.map_map]
    refine List.nodup_append.mpr ⟨?_, htail, ?_⟩
    · have hmap : t.leaves.map (Prod.fst ∘ fun leaf => (k :: leaf.1, leaf.2)) =
          (t.leaves.map Prod.fst).map (k :: ·) := by
        rw [List.map_map]
        rfl
      rw [hmap]
      exact hhead.map fun _ _ heq => (List.cons.inj heq).2
    · -- the paths into the first member start with its key, which no other member has
      intro p hp q hq heq
      obtain ⟨leaf, -, rfl⟩ := List.mem_map.mp hp
      obtain ⟨⟨q, leaf'⟩, hmem, rfl⟩ := List.mem_map.mp hq
      obtain ⟨k', t', rest, rfl, hmem, -⟩ := mem_leavesMembers.mp hmem
      obtain rfl : k = k' := (List.cons.inj heq).1
      have hkey : k ∈ Assoc.keys ms := List.mem_map_of_mem hmem
      exact hk hkey

end

/-! ### Flattening -/

mutual

theorem flattenAt_eq {above : String} (h : above ≠ "") : ∀ t : Tree,
    flattenAt above t = t.leaves.map fun leaf => (".".intercalate (above :: leaf.1), leaf.2.property)
  | map ms => flattenMembers_eq h ms
  | null | bool _ | int _ | float _ | text _ | list _ => by simp [flattenAt, leaves, h]

theorem flattenMembers_eq {above : String} (h : above ≠ "") : ∀ ms : List (String × Tree),
    flattenMembers above ms =
      (leavesMembers ms).map fun leaf => (".".intercalate (above :: leaf.1), leaf.2.property)
  | [] => rfl
  | (k, t) :: ms => by
    have hkey : memberKey above k = above ++ "." ++ k := if_neg h
    have hne : above ++ "." ++ k ≠ "" := by simp
    rw [flattenMembers, hkey, flattenAt_eq hne t, flattenMembers_eq h ms, leavesMembers, List.map_append, List.map_map]
    simp only [Function.comp_def, String.intercalate_cons_append, String.intercalate_cons_cons]

end

/-- A map without an empty key is flattened into its leaves. -/
theorem flatten_map (h : ∀ k ∈ Assoc.keys ms, k ≠ "") :
    flatten (map ms) = (map ms).leaves.map fun leaf => (".".intercalate leaf.1, leaf.2.property) := by
  show flattenMembers "" ms = (leavesMembers ms).map _
  induction ms with
  | nil => rfl
  | cons p ms ih =>
    obtain ⟨k, t⟩ := p
    obtain ⟨hk, hkeys⟩ := List.forall_mem_cons.mp h
    have hkey : memberKey "" k = k := if_pos rfl
    rw [flattenMembers, hkey, flattenAt_eq hk t, ih hkeys, leavesMembers, List.map_append, List.map_map]
    rfl

end Settings.Tree
