import Settings.Proofs.Text.Cutting
import Settings.Store

/-! # The pairs below a scope

The pairs below a scope are those of the store whose keys start with the scope and a dot, in their order. No key
comes twice among them, and what is below a scope of a scope is below the joined one. -/

namespace Settings.Store

variable {s : Store} {scope a b k key rest x : String}

/-! ### Keys behind a scope -/

/-- What stands behind a scope and a dot. -/
def behind? (scope key : String) : Option String :=
  (Text.after? (scope.toList ++ ['.']) key.toList).map String.ofList

theorem behind?_eq_some_iff : behind? scope key = some rest ↔ key = scope ++ "." ++ rest := by
  have hlists : key = scope ++ "." ++ rest ↔ key.toList = (scope.toList ++ ['.']) ++ rest.toList := by
    rw [← String.toList_inj, String.toList_append, String.toList_append]
    rfl
  rw [hlists, ← Text.after?_eq_some_iff, behind?, Option.map_eq_some_iff]
  constructor
  · rintro ⟨cs, hcs, rfl⟩
    rwa [String.toList_ofList]
  · intro h
    exact ⟨_, h, String.ofList_toList⟩

theorem behind?_join (scope k : String) : behind? scope (scope ++ "." ++ k) = some k := behind?_eq_some_iff.mpr rfl

theorem behind?_scope (a b key : String) : behind? (a ++ "." ++ b) key = (behind? a key).bind (behind? b) := by
  ext rest
  simp only [Option.bind_eq_some_iff, behind?_eq_some_iff, exists_eq_right, String.append_assoc]

/-! ### Pairs below a scope -/

theorem under_eq (s : Store) (scope : String) :
    s.under scope = s.pairs.filterMap fun p => (behind? scope p.1).map (·, p.2) := by
  unfold under behind?
  congr 1
  funext p
  rw [Option.map_map]
  rfl

theorem mem_under_iff : (k, x) ∈ s.under scope ↔ (scope ++ "." ++ k, x) ∈ s.pairs := by
  rw [under_eq, List.mem_filterMap]
  constructor
  · rintro ⟨⟨key, y⟩, hmem, hkey⟩
    obtain ⟨rest, hrest, heq⟩ := Option.map_eq_some_iff.mp hkey
    cases heq
    exact behind?_eq_some_iff.mp hrest ▸ hmem
  · intro hmem
    exact ⟨_, hmem, by rw [behind?_join, Option.map_some]⟩

theorem mem_keys_under_iff : k ∈ Assoc.keys (s.under scope) ↔ scope ++ "." ++ k ∈ s.keys := by
  simp only [keys, Assoc.keys, List.mem_map, Prod.exists, exists_and_right, exists_eq_right, mem_under_iff]

/-- With the scope in front again, the pairs below it are those that start with it. -/
theorem map_under (s : Store) (scope : String) :
    (s.under scope).map (fun p => (scope ++ "." ++ p.1, p.2)) =
      s.pairs.filter fun p => (scope ++ ".").toList.isPrefixOf p.1.toList := by
  rw [under_eq]
  induction s.pairs with
  | nil => rfl
  | cons p pairs ih =>
    cases hb : behind? scope p.1 with
    | some rest =>
      have hkey : p.1 = scope ++ "." ++ rest := behind?_eq_some_iff.mp hb
      have hstart : (scope ++ ".").toList.isPrefixOf p.1.toList = true := by
        rw [List.isPrefixOf_iff_prefix, hkey, String.toList_append (s := scope ++ ".")]
        exact List.prefix_append _ _
      rw [List.filterMap_cons_some (by rw [hb, Option.map_some]), List.map_cons, ih, List.filter_cons, if_pos hstart,
        ← hkey]
    | none =>
      have hstart : ¬(scope ++ ".").toList.isPrefixOf p.1.toList = true := by
        rw [List.isPrefixOf_iff_prefix]
        rintro ⟨rest, hrest⟩
        have hkey : p.1 = scope ++ "." ++ String.ofList rest := by
          rw [← String.toList_inj, ← hrest, String.toList_append (s := scope ++ "."), String.toList_ofList]
        rw [behind?_eq_some_iff.mpr hkey] at hb
        cases hb
      rw [List.filterMap_cons_none (by rw [hb, Option.map_none]), ih, List.filter_cons, if_neg hstart]

theorem nodup_under (s : Store) (scope : String) : (Assoc.keys (s.under scope)).Nodup := by
  have hkeys : (Assoc.keys (s.under scope)).map (scope ++ "." ++ ·) =
      (s.pairs.filter fun p => (scope ++ ".").toList.isPrefixOf p.1.toList).map Prod.fst := by
    rw [← map_under, Assoc.keys, List.map_map, List.map_map]
    rfl
  have hnodup : ((Assoc.keys (s.under scope)).map (scope ++ "." ++ ·)).Nodup := by
    rw [hkeys]
    exact s.nodup.sublist (List.filter_sublist.map Prod.fst)
  exact (List.pairwise_map.mp hnodup).imp fun {k l} hne he => hne (congrArg (scope ++ "." ++ ·) he)

theorem pairs_ofPairs {pairs : List (String × String)} (h : (Assoc.keys pairs).Nodup) :
    (ofPairs pairs).pairs = pairs := Assoc.insertAll_of_nodup h

theorem get?_under (s : Store) (scope k : String) : Assoc.get? k (s.under scope) = s.get? (scope ++ "." ++ k) := by
  have hiff : ∀ {l : List (String × String)} {k x : String}, (Assoc.keys l).Nodup →
      (Assoc.get? k l = some x ↔ (k, x) ∈ l) := fun hl => ⟨Assoc.mem_of_get?, Assoc.get?_of_mem hl⟩
  ext x
  rw [hiff (s.nodup_under scope), mem_under_iff, get?, hiff s.nodup]

/-- What is below a scope of a scope is below the joined one. -/
theorem under_under (s : Store) (a b : String) : (ofPairs (s.under a)).under b = s.under (a ++ "." ++ b) := by
  have hpairs : (ofPairs (s.under a)).pairs = s.under a := pairs_ofPairs (s.nodup_under a)
  rw [under_eq, hpairs, under_eq, under_eq, List.filterMap_filterMap]
  congr 1
  funext p
  rw [behind?_scope]
  cases behind? a p.1 with
  | none => rfl
  | some rest => rfl

end Settings.Store
