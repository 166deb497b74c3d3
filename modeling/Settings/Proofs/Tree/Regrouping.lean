import Mathlib.Data.List.Induction
import Settings.Proofs.Store.Keys
import Settings.Proofs.Store.Overlay
import Settings.Proofs.Tree.Leaves

/-! # Regrouping and flattening

Setting a text below the maps that a path leads through changes what stands on that path and nothing else. So what
stands at a path in a tree of pairs does not depend on their order: a map if some key goes on behind the path, or else
the last value of the key with the path. -/

namespace Settings.Tree

variable {ms : List (String × Tree)} {k leaf value : String} {path q : List String}

/-! ### Paths of dotted keys -/

theorem splitKey_eq (key : String) : (splitKey key).1 ++ [(splitKey key).2] = segments key := by
  unfold splitKey segments
  cases h : Text.cutLast? '.' key.toList with
  | none =>
    rw [Text.pieces_of_not_mem (Text.cutLast?_eq_none_iff.mp h), List.map_singleton, String.ofList_toList]
    rfl
  | some p =>
    obtain ⟨hkey, hleaf⟩ := Text.cutLast?_eq h
    rw [hkey, Text.pieces_append, Text.pieces_of_not_mem hleaf, List.map_append]
    rfl

/-- A key that is not empty and does not start with a dot has a first segment. -/
theorem head_segments (hne : k ≠ "") (hdot : ∀ rest, k ≠ "." ++ rest) : (segments k).head? ≠ some "" := by
  cases hk : k.toList with
  | nil => exact absurd (String.toList_eq_nil_iff.mp hk) hne
  | cons c cs =>
    have hc : c ≠ '.' := by
      rintro rfl
      refine hdot (String.ofList cs) ?_
      rw [← String.toList_inj, hk, String.toList_append, String.toList_ofList]
      simp
    obtain ⟨p, ps, hp⟩ := List.exists_cons_of_ne_nil (Text.pieces_ne_nil : Text.pieces '.' cs ≠ [])
    have hhead : (segments k).head? = some (String.ofList (c :: p)) := by
      rw [segments, hk, Text.pieces, if_neg hc, hp]
      rfl
    rw [hhead]
    simp

/-! ### What stands at a path -/

theorem part?_map_cons : (map ms).part? (k :: q) = (Assoc.get? k ms).bind (part? q) := rfl

/-- The members of a member, if it is a map. -/
def membersAt (k : String) (ms : List (String × Tree)) : List (String × Tree) :=
  match Assoc.get? k ms with
  | some (map inner) => inner
  | _ => []

theorem setNested_map {inner : List (String × Tree)} (h : Assoc.get? leaf ms = some (map inner)) :
    setNested value leaf [] ms = ms := by
  rw [setNested, h]

theorem setNested_text (h : ∀ inner, Assoc.get? leaf ms ≠ some (map inner)) :
    setNested value leaf [] ms = Assoc.insert leaf (text value) ms := by
  unfold setNested
  split
  · next inner hget => exact absurd hget (h inner)
  · rfl

theorem setNested_cons (value leaf segment : String) (path : List String) (ms : List (String × Tree)) :
    setNested value leaf (segment :: path) ms =
      Assoc.insert segment (map (setNested value leaf path (membersAt segment ms))) ms := rfl

theorem part?_membersAt (k : String) (hq : q ≠ []) : (map (membersAt k ms)).part? q = (map ms).part? (k :: q) := by
  obtain ⟨a, q, rfl⟩ := List.exists_cons_of_ne_nil hq
  rw [part?_map_cons (k := k), membersAt]
  rcases Assoc.get? k ms with _ | t
  · rfl
  · cases t with
    | _ => rfl

theorem part?_insert_self (t : Tree) : (map (Assoc.insert k t ms)).part? (k :: q) = t.part? q := by
  rw [part?_map_cons, Assoc.get?_insert_self, Option.bind_some]

theorem part?_insert_of_ne {a : String} (h : a ≠ k) (t : Tree) :
    (map (Assoc.insert k t ms)).part? (a :: q) = (map ms).part? (a :: q) := by
  rw [part?_map_cons, part?_map_cons, Assoc.get?_insert_of_ne h]

/-- Off the path, all stays as it is. -/
theorem part?_setNested_off (h : ¬q <+: path ++ [leaf]) :
    (map (setNested value leaf path ms)).part? q = (map ms).part? q := by
  induction path generalizing ms q with
  | nil =>
    obtain ⟨a, q, rfl⟩ : ∃ a as, q = a :: as :=
      List.exists_cons_of_ne_nil fun hq => h (hq ▸ List.nil_prefix)
    rw [List.nil_append, List.cons_prefix_cons, not_and] at h
    unfold setNested
    split
    · rfl
    · next hleaf =>
      by_cases ha : a = leaf
      · subst ha
        have hq : q ≠ [] := fun hq => h rfl (hq ▸ List.nil_prefix)
        obtain ⟨b, q, rfl⟩ := List.exists_cons_of_ne_nil hq
        rw [part?_insert_self, part?_map_cons (k := a)]
        rcases hget : Assoc.get? a ms with _ | t
        · rfl
        · cases t with
          | map inner => exact absurd hget (hleaf inner)
          | _ => rfl
      · exact part?_insert_of_ne ha _
  | cons segment path ih =>
    obtain ⟨a, q, rfl⟩ : ∃ a as, q = a :: as :=
      List.exists_cons_of_ne_nil fun hq => h (hq ▸ List.nil_prefix)
    rw [List.cons_append, List.cons_prefix_cons, not_and] at h
    rw [setNested_cons]
    by_cases ha : a = segment
    · subst ha
      have hq : q ≠ [] := fun hq => h rfl (hq ▸ List.nil_prefix)
      rw [part?_insert_self, ih (h rfl), part?_membersAt a hq]
    · exact part?_insert_of_ne ha _

/-- On the way to the end of the path there are maps. -/
theorem part?_setNested_on (h : q <+: path) :
    ∃ inner, (map (setNested value leaf path ms)).part? q = some (map inner) := by
  induction path generalizing ms q with
  | nil =>
    rw [List.prefix_nil.mp h]
    exact ⟨_, rfl⟩
  | cons segment path ih =>
    cases q with
    | nil => exact ⟨_, rfl⟩
    | cons a q =>
      obtain ⟨rfl, hq⟩ := List.cons_prefix_cons.mp h
      rw [setNested_cons, part?_insert_self]
      exact ih hq

/-- At the end of the path a map stays. -/
theorem part?_setNested_map {inner : List (String × Tree)}
    (h : (map ms).part? (path ++ [leaf]) = some (map inner)) :
    (map (setNested value leaf path ms)).part? (path ++ [leaf]) = some (map inner) := by
  induction path generalizing ms with
  | nil =>
    obtain ⟨t, hget, ht⟩ := Option.bind_eq_some_iff.mp h
    cases ht
    rwa [setNested_map hget]
  | cons segment path ih =>
    rw [List.cons_append, setNested_cons, part?_insert_self]
    exact ih (by rwa [part?_membersAt segment (by simp)])

/-- At the end of the path all but a map becomes the text. -/
theorem part?_setNested_text (h : ∀ inner, (map ms).part? (path ++ [leaf]) ≠ some (map inner)) :
    (map (setNested value leaf path ms)).part? (path ++ [leaf]) = some (text value) := by
  induction path generalizing ms with
  | nil =>
    have hget : ∀ inner, Assoc.get? leaf ms ≠ some (map inner) := fun inner hget =>
      h inner (by rw [List.nil_append, part?_map_cons, hget]; rfl)
    rw [setNested_text hget, List.nil_append, part?_insert_self]
    rfl
  | cons segment path ih =>
    rw [List.cons_append, setNested_cons, part?_insert_self]
    exact ih fun inner => by rw [part?_membersAt segment (by simp)]; exact h inner

theorem Distinct.insert {t : Tree} (h : (map ms).Distinct) (ht : t.Distinct) :
    (map (Assoc.insert k t ms)).Distinct := by
  obtain ⟨hkeys, hmembers⟩ := h
  refine ⟨?_, everywhereMembers_iff.mpr fun p hp => ?_⟩
  · intro ms' heq
    cases heq
    exact Assoc.nodup_insert (hkeys ms rfl)
  · rcases Assoc.mem_insert hp with rfl | hp
    · exact ht
    · exact everywhereMembers_iff.mp hmembers p hp

theorem Distinct.setNested (h : (map ms).Distinct) (value leaf : String) (path : List String) :
    (map (setNested value leaf path ms)).Distinct := by
  induction path generalizing ms with
  | nil =>
    unfold Tree.setNested
    split
    · exact h
    · exact h.insert nofun
  | cons segment path ih =>
    rw [setNested_cons]
    refine h.insert (ih ?_)
    unfold membersAt
    split
    · next inner hget => exact everywhereMembers_iff.mp h.2 _ (Assoc.mem_of_get? hget)
    · exact ⟨by rintro ms' heq; cases heq; exact List.nodup_nil, trivial⟩

/-! ### The tree of pairs -/

/-- A key occurs in pairs, and this is the last of its values. -/
def IsLast (pairs : List (String × String)) (k v : String) : Prop :=
  ∃ before behind, pairs = before ++ (k, v) :: behind ∧ k ∉ Assoc.keys behind

variable {pairs : List (String × String)} {key v : String}

theorem mem_keys_concat : k ∈ Assoc.keys (pairs ++ [(key, value)]) ↔ k ∈ Assoc.keys pairs ∨ k = key := by
  simp [Assoc.keys]

theorem isLast_concat : IsLast (pairs ++ [(key, value)]) k v ↔ k = key ∧ v = value ∨ k ≠ key ∧ IsLast pairs k v := by
  constructor
  · rintro ⟨before, behind, hpairs, hk⟩
    rcases List.eq_nil_or_concat behind with rfl | ⟨front, last, rfl⟩
    · obtain ⟨-, hlast⟩ := List.append_inj' hpairs rfl
      cases hlast
      exact .inl ⟨rfl, rfl⟩
    · rw [List.concat_eq_append, ← List.cons_append, ← List.append_assoc] at hpairs
      obtain ⟨hfront, hlast⟩ := List.append_inj' hpairs rfl
      cases hlast
      rw [List.concat_eq_append, mem_keys_concat, not_or] at hk
      exact .inr ⟨hk.2, before, front, hfront, hk.1⟩
  · rintro (⟨rfl, rfl⟩ | ⟨hne, before, behind, rfl, hk⟩)
    · exact ⟨pairs, [], rfl, List.not_mem_nil⟩
    · refine ⟨before, behind ++ [(key, value)], by simp, ?_⟩
      rw [mem_keys_concat, not_or]
      exact ⟨hk, hne⟩

theorem mem_keys_of_isLast (h : IsLast pairs k v) : k ∈ Assoc.keys pairs := by
  obtain ⟨before, behind, rfl, -⟩ := h
  simp [Assoc.keys]

/-- What stands at the paths of a tree of pairs: a map where a key goes on, else the last value of the key with the
    path. -/
structure Regroups (pairs : List (String × String)) (t : Tree) : Prop where
  root : ∃ ms, t = map ms
  distinct : t.Distinct
  inner : ∀ k ∈ Assoc.keys pairs, ∀ q, q <+: segments k → q ≠ segments k → ∃ ms, t.part? q = some (map ms)
  leaf : ∀ q, q ≠ [] → (∀ k ∈ Assoc.keys pairs, q <+: segments k → q = segments k) →
    ∀ u, t.part? q = some u ↔ ∃ k v, q = segments k ∧ IsLast pairs k v ∧ u = text v

theorem regroups_nil : Regroups [] (map []) where
  root := ⟨[], rfl⟩
  distinct := ⟨by rintro ms heq; cases heq; exact List.nodup_nil, trivial⟩
  inner := nofun
  leaf q hq _ u := by
    obtain ⟨a, q, rfl⟩ := List.exists_cons_of_ne_nil hq
    refine ⟨nofun, ?_⟩
    rintro ⟨k, v, -, hlast, -⟩
    cases mem_keys_of_isLast hlast

theorem Regroups.concat (h : Regroups pairs (map ms)) (key value : String) :
    Regroups (pairs ++ [(key, value)]) (map (Tree.setNested value (splitKey key).2 (splitKey key).1 ms)) := by
  have hsplit := splitKey_eq key
  generalize (splitKey key).1 = path, (splitKey key).2 = leaf at hsplit ⊢
  refine ⟨⟨_, rfl⟩, h.distinct.setNested value leaf path, fun k hk q hq hne => ?_, fun q hne hends u => ?_⟩
  · by_cases hon : q <+: path
    · exact part?_setNested_on hon
    · have hoff : q <+: path ++ [leaf] → q = path ++ [leaf] := fun hq =>
        (List.prefix_concat_iff.mp hq).resolve_right hon
      rcases mem_keys_concat.mp hk with hk | rfl
      · obtain ⟨inner, hinner⟩ := h.inner k hk q hq hne
        refine ⟨inner, ?_⟩
        by_cases hend : q = path ++ [leaf]
        · rw [hend] at hinner ⊢
          exact part?_setNested_map hinner
        · rw [part?_setNested_off (mt hoff hend), hinner]
      · rw [← hsplit] at hq hne
        exact absurd (hoff hq) hne
  · have hold := h.leaf q hne fun k hk => hends k (mem_keys_concat.mpr (.inl hk))
    by_cases hend : q = path ++ [leaf]
    · have hmap : ∀ inner, (map ms).part? q ≠ some (map inner) := fun inner hinner => by
        obtain ⟨k, v, -, -, hu⟩ := (hold _).mp hinner
        cases hu
      rw [hend] at hmap
      rw [hend, part?_setNested_text hmap, Option.some.injEq, hsplit]
      constructor
      · rintro rfl
        exact ⟨key, value, rfl, isLast_concat.mpr (.inl ⟨rfl, rfl⟩), rfl⟩
      · rintro ⟨k, v, hk, hlast, rfl⟩
        obtain rfl := segments_inj.mp hk
        rcases isLast_concat.mp hlast with ⟨-, rfl⟩ | ⟨hne, -⟩
        · rfl
        · exact absurd rfl hne
    · have hoff : ¬q <+: path ++ [leaf] := fun hq =>
        hend ((hends key (mem_keys_concat.mpr (.inr rfl)) (hsplit ▸ hq)).trans hsplit.symm)
      rw [part?_setNested_off hoff, hold]
      -- the last value of another key stays its last value
      refine exists_congr fun k => exists_congr fun v => and_congr_right fun hk => and_congr_left fun _ => ?_
      have hne : k ≠ key := fun heq => hend (by rw [hk, heq, hsplit])
      simp [isLast_concat, hne]

theorem regroups_unflatten (pairs : List (String × String)) : Regroups pairs (unflatten pairs) := by
  induction pairs using List.reverseRecOn with
  | nil => exact regroups_nil
  | append_singleton pairs p ih =>
    rw [unflatten, List.foldl_append]
    exact ih.concat p.1 p.2

/-- A leaf of a tree of pairs is the last value of a key that no other key goes on behind. -/
theorem Regroups.mem_leaves_iff {t u : Tree} (h : Regroups pairs t) :
    (q, u) ∈ t.leaves ↔
      ∃ k v, q = segments k ∧ u = text v ∧ IsLast pairs k v ∧ ∀ rest, k ++ "." ++ rest ∉ Assoc.keys pairs := by
  rw [Tree.mem_leaves_iff h.distinct]
  constructor
  · rintro ⟨hpart, hleaf⟩
    have hne : q ≠ [] := by
      rintro rfl
      obtain ⟨ms, rfl⟩ := h.root
      exact hleaf ms (Option.some.inj hpart).symm
    have hends : ∀ k ∈ Assoc.keys pairs, q <+: segments k → q = segments k := fun k hk hq => by
      by_contra hne
      obtain ⟨ms, hms⟩ := h.inner k hk q hq hne
      exact hleaf ms (Option.some.inj (hpart.symm.trans hms))
    obtain ⟨k, v, rfl, hlast, rfl⟩ := (h.leaf q hne hends u).mp hpart
    refine ⟨k, v, rfl, rfl, hlast, fun rest hmem => ?_⟩
    obtain ⟨hpre, hne⟩ := exists_join_iff.mp ⟨rest, rfl⟩
    exact hne (hends _ hmem hpre)
  · rintro ⟨k, v, rfl, rfl, hlast, hnone⟩
    refine ⟨(h.leaf _ segments_ne_nil (fun l hl hpre => ?_) _).mpr ⟨k, v, rfl, hlast, rfl⟩, nofun⟩
    by_contra hne
    obtain ⟨rest, rfl⟩ := exists_join_iff.mpr ⟨hpre, hne⟩
    exact hnone rest hl

/-- The members of a tree of pairs are the first segments of keys. -/
theorem Regroups.exists_head (h : Regroups pairs (map ms)) (hk : k ∈ Assoc.keys ms) :
    ∃ l ∈ Assoc.keys pairs, (segments l).head? = some k := by
  obtain ⟨t, ht⟩ := Option.isSome_iff_exists.mp (Assoc.get?_isSome_iff.mpr hk)
  have hpart : (map ms).part? [k] = some t := by rw [part?_map_cons, ht]; rfl
  have hstart : ∃ l ∈ Assoc.keys pairs, [k] <+: segments l := by
    by_contra hnone
    obtain ⟨l, v, hl, hlast, -⟩ := (h.leaf [k] (List.cons_ne_nil _ _)
      (fun l hl hpre => absurd ⟨l, hl, hpre⟩ hnone) t).mp hpart
    exact hnone ⟨l, mem_keys_of_isLast hlast, hl ▸ List.prefix_refl _⟩
  obtain ⟨l, hl, rest, hrest⟩ := hstart
  exact ⟨l, hl, by rw [← hrest]; rfl⟩

theorem Regroups.nodup_paths {t : Tree} (h : Regroups pairs t) :
    ((t.leaves.map Prod.fst).map (".".intercalate ·)).Nodup := by
  refine (nodup_leaves h.distinct).map_on fun p hp q hq heq => ?_
  obtain ⟨⟨p, u⟩, hu, rfl⟩ := List.mem_map.mp hp
  obtain ⟨⟨q, w⟩, hw, rfl⟩ := List.mem_map.mp hq
  obtain ⟨k, v, rfl, -⟩ := h.mem_leaves_iff.mp hu
  obtain ⟨l, x, rfl, -⟩ := h.mem_leaves_iff.mp hw
  rw [intercalate_segments, intercalate_segments] at heq
  exact congrArg segments heq

/-- Where no key is empty or starts with a dot, the pairs that are regrouped and flattened again are the keys that no
    other key goes on behind, each once and with its last value. -/
theorem flatten_unflatten (pairs : List (String × String))
    (h : ∀ k ∈ Assoc.keys pairs, k ≠ "" ∧ ∀ rest, k ≠ "." ++ rest) :
    (Assoc.keys (flatten (unflatten pairs))).Nodup ∧
      ∀ k v, (k, v) ∈ flatten (unflatten pairs) ↔
        IsLast pairs k v ∧ ∀ rest, k ++ "." ++ rest ∉ Assoc.keys pairs := by
  have hr := regroups_unflatten pairs
  obtain ⟨ms, hms⟩ := hr.root
  rw [hms] at hr ⊢
  have hheads : ∀ k ∈ Assoc.keys ms, k ≠ "" := by
    rintro k hk rfl
    obtain ⟨l, hl, hhead⟩ := hr.exists_head hk
    exact head_segments (h l hl).1 (h l hl).2 hhead
  rw [flatten_map hheads]
  refine ⟨?_, fun k v => ?_⟩
  · have hpaths := hr.nodup_paths
    rw [List.map_map] at hpaths
    rw [Assoc.keys, List.map_map]
    exact hpaths
  · rw [List.mem_map]
    constructor
    · rintro ⟨⟨q, u⟩, hmem, heq⟩
      obtain ⟨l, x, rfl, rfl, hlast, hnone⟩ := hr.mem_leaves_iff.mp hmem
      rw [intercalate_segments] at heq
      cases heq
      exact ⟨hlast, hnone⟩
    · rintro ⟨hlast, hnone⟩
      refine ⟨(segments k, text v), hr.mem_leaves_iff.mpr ⟨k, v, rfl, rfl, hlast, hnone⟩, ?_⟩
      rw [intercalate_segments]
      rfl

/-- Keys that are leaves and lead to others, before and behind them, and a segment that is empty. -/
def conflicting : List (String × String) :=
  [("a", "1"), ("a.b", "2"), ("c.d", "3"), ("c", "4"), ("a.b", "5"), ("e.", "6"), ("e..", "7")]

theorem flatten_conflicting :
    (∀ k ∈ Assoc.keys conflicting, k ≠ "" ∧ ∀ rest, k ≠ "." ++ rest) ∧
      (Assoc.keys (flatten (unflatten conflicting))).Nodup ∧
      ("a.b", "5") ∈ flatten (unflatten conflicting) ∧ ("c", "4") ∉ flatten (unflatten conflicting) ∧
      ("e.", "6") ∉ flatten (unflatten conflicting) := by
  have hkeys : ∀ k ∈ Assoc.keys conflicting, k ≠ "" ∧ ∀ rest, k ≠ "." ++ rest := by
    intro k hk
    have hhead : k.toList.head? ≠ none ∧ k.toList.head? ≠ some '.' := by
      revert k
      decide
    constructor
    · rintro rfl
      exact hhead.1 rfl
    · rintro rest rfl
      exact hhead.2 (by simp)
  obtain ⟨hnodup, hmem⟩ := flatten_unflatten conflicting hkeys
  refine ⟨hkeys, hnodup, (hmem _ _).mpr ⟨?_, fun rest hrest => ?_⟩, fun h => ?_, fun h => ?_⟩
  · exact ⟨[("a", "1"), ("a.b", "2"), ("c.d", "3"), ("c", "4")], [("e.", "6"), ("e..", "7")], rfl, by decide⟩
  · have hlong : ∀ k ∈ Assoc.keys conflicting, ¬"a.b.".toList <+: k.toList := by decide
    exact hlong _ hrest (by simp)
  · exact ((hmem _ _).mp h).2 "d" (by decide)
  · exact ((hmem _ _).mp h).2 "" (by decide)

end Settings.Tree
