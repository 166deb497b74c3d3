import Settings.Proofs.Catalog.Indexes
import Settings.Proofs.Configuration.Run
import Settings.Proofs.Tree.Leaves

/-! # Credentials as settings

The last service of each name lays the leaves of its credentials over the configuration. What is laid over it can be
told from these services alone, so that nothing of a service whose name a later one takes gets into the
configuration, and a map without leaves adds nothing to it. -/

namespace Settings

namespace Service

variable {s : Service}

/-- The leaves of a service's credentials. -/
def leaves (s : Service) : List (List String × Tree) := (Tree.map s.credentials).leaves

/-- The key of the setting that a path in the credentials of a service leads to. -/
def credentialKey (name : String) (path : List String) : String :=
  "vcap.services." ++ name ++ ".credentials." ++ ".".intercalate path

/-- Leaves of the credentials of a name, each under its key as the text of a setting. -/
def pairsOf : String × List (List String × Tree) → List (String × String)
  | (name, leaves) => leaves.map fun leaf => (credentialKey name leaf.1, leaf.2.property)

/-- The leaves of a service's credentials as settings. -/
def credentialPairs (s : Service) : List (String × String) := pairsOf (s.name, s.leaves)

/-- Services of the same name whose credentials have the same leaves stand for the same settings. -/
theorem credentialPairs_congr {ss ts : List Service}
    (h : ss.map (fun s => (s.name, s.leaves)) = ts.map fun s => (s.name, s.leaves)) :
    ss.flatMap credentialPairs = ts.flatMap credentialPairs := by
  have hpairs (us : List Service) :
      us.flatMap credentialPairs = (us.map fun s => (s.name, s.leaves)).flatMap pairsOf := by
    rw [List.flatMap_map]
    rfl
  rw [hpairs, h, ← hpairs]

theorem settings_eq (h : ∀ k ∈ Assoc.keys s.credentials, k ≠ "") : s.settings = s.credentialPairs := by
  rw [settings, flatCredentials, Tree.flatten_map h, List.map_map]
  rfl

end Service

namespace Catalog

/-- The last service of each name, in the order in which the names first come. -/
def winners (services : List Service) : List Service :=
  (services.map Service.name).eraseDups.filterMap fun name => (services.filter (·.name = name)).getLast?

variable {c : Catalog} {ss : List Service}

/-! ### The names of a catalog -/

theorem keys_byName (ss : List Service) :
    Assoc.keys (ss.foldl add empty).byName = (ss.map Service.name).eraseDups := by
  induction ss using List.reverseRecOn with
  | nil => rfl
  | append_singleton ss s ih =>
    rw [List.foldl_append, List.map_append]
    exact Assoc.keys_insert_eraseDups ih s.name (ss.foldl add empty).services.length

theorem Indexed.service?_of_mem (h : Indexed c) {p : String × Nat} (hp : p ∈ c.byName) :
    c.service? p.1 = c.services[p.2]? := by
  rw [Catalog.service?, Assoc.get?_of_mem h.nodup_names hp, Option.bind_some]

/-- The index by name leads to the last service of each name. -/
theorem atNumbers_byName (ss : List Service) :
    (ss.foldl add empty).atNumbers ((ss.foldl add empty).byName.map Prod.snd) = winners ss := by
  have h := indexed_empty.addAll ss
  have hservices : (ss.foldl add empty).services = ss := services_addAll empty ss
  have hkeys := keys_byName ss
  generalize ss.foldl add empty = c at h hservices hkeys
  calc c.atNumbers (c.byName.map Prod.snd)
    _ = c.byName.filterMap (c.services[·.2]?) := List.filterMap_map
    _ = c.byName.filterMap (c.service? ·.1) := List.filterMap_congr fun p hp => (h.service?_of_mem hp).symm
    _ = (Assoc.keys c.byName).filterMap c.service? := by
      rw [Assoc.keys, List.filterMap_map]
      rfl
    _ = winners ss := by
      rw [hkeys, winners]
      exact List.filterMap_congr fun name _ => by rw [h.service?, hservices]

/-- The settings of a catalog that is read from a text are the leaves of the last service of each name. -/
theorem settings_of_read {text : String} (h : (read text).result = .ok c)
    (hkeys : ∀ s ∈ winners c.services, ∀ k ∈ Assoc.keys s.credentials, k ≠ "") :
    c.settings = (winners c.services).flatMap Service.credentialPairs := by
  obtain ⟨types, groups, -, -, rfl⟩ := result_read h
  rw [services_addAll] at hkeys ⊢
  rw [settings, atNumbers_byName]
  exact List.flatMap_congr fun s hs => Service.settings_eq (hkeys s hs)

end Catalog

namespace Configuration

/-- Pairs that are laid over the whole document are set in it. -/
theorem store_append {c : Configuration} (hc : c.views ≠ []) (pairs : List (String × String)) :
    ((c.append 0 pairs).view 0).own.store = (c.view 0).own.store.setAll pairs := by
  by_cases hne : pairs = []
  · rw [hne, append_nil]
    rfl
  · obtain ⟨v, views, hviews⟩ := List.exists_cons_of_ne_nil hc
    rw [view, view, getElem?_append c hne, if_pos rfl, hviews]
    rfl

/-- The credentials of a catalog that is read from a text are laid over a configuration as the leaves of the last
    service of each name. Each of them is there afterwards under its key, no other key has come, and the settings of
    all other keys are as they were, in their order. Another catalog whose last services have the same names and leaves
    gives the same configuration, whatever services of theirs names it lists before, and whatever maps without
    leaves. -/
theorem overlay_credentials {text : String} {catalog : Catalog} (hread : (Catalog.read text).result = .ok catalog)
    (hkeys : ∀ s ∈ Catalog.winners catalog.services, ∀ k ∈ Assoc.keys s.credentials, k ≠ "")
    (hdiffer : (Assoc.keys ((Catalog.winners catalog.services).flatMap Service.credentialPairs)).Nodup)
    {c : Configuration} (hc : c.views ≠ []) :
    let services := Catalog.winners catalog.services
    let pairs := services.flatMap Service.credentialPairs
    let before := (c.view 0).own.store
    let after := ((c.overlay catalog).view 0).own.store
    (∀ s ∈ services, ∀ leaf ∈ s.leaves, after.get? (Service.credentialKey s.name leaf.1) = some leaf.2.property) ∧
      (∀ k, k ∈ after.keys ↔
        k ∈ before.keys ∨ ∃ s ∈ services, ∃ leaf ∈ s.leaves, k = Service.credentialKey s.name leaf.1) ∧
      after.pairs.filter (fun p => p.1 ∉ Assoc.keys pairs) = before.pairs.filter (fun p => p.1 ∉ Assoc.keys pairs) ∧
      ∀ other otherText, (Catalog.read otherText).result = .ok other →
        (∀ s ∈ Catalog.winners other.services, ∀ k ∈ Assoc.keys s.credentials, k ≠ "") →
        (Catalog.winners other.services).map (fun s => (s.name, s.leaves)) =
          services.map (fun s => (s.name, s.leaves)) →
        c.overlay other = c.overlay catalog := by
  intro services pairs before after
  have hover : c.overlay catalog = c.append 0 pairs := by
    rw [overlay, Catalog.settings_of_read hread hkeys]
  have hafter : after = before.setAll pairs := by
    show ((c.overlay catalog).view 0).own.store = _
    rw [hover, store_append hc]
  have hmem : ∀ {k x}, (k, x) ∈ pairs ↔
      ∃ s ∈ services, ∃ leaf ∈ s.leaves, k = Service.credentialKey s.name leaf.1 ∧ x = leaf.2.property := by
    intro k x
    simp only [pairs, Service.credentialPairs, Service.pairsOf, List.mem_flatMap, List.mem_map, Prod.mk.injEq, eq_comm]
  refine ⟨fun s hs leaf hleaf => ?_, fun k => ?_, ?_, fun other otherText hother hotherKeys hsame => ?_⟩
  · rw [hafter]
    exact Assoc.get?_insertAll_of_mem hdiffer (hmem.mpr ⟨s, hs, leaf, hleaf, rfl, rfl⟩) _
  · have hkey : k ∈ Assoc.keys pairs ↔ ∃ s ∈ services, ∃ leaf ∈ s.leaves, k = Service.credentialKey s.name leaf.1 := by
      simp [Assoc.keys, hmem]
    rw [hafter, ← hkey]
    exact Assoc.mem_keys_insertAll
  · rw [hafter]
    exact Assoc.filter_insertAll (P := fun k => k ∉ Assoc.keys pairs) (fun k hk => by simp [hk]) _
  · rw [hover, overlay, Catalog.settings_of_read hother hotherKeys, Service.credentialPairs_congr hsame]

/-- A service whose name a later one takes, with a map without leaves, a list and a name that has dots. -/
def renewed : String :=
  "\x7b\"db\": [\x7b\"name\": \"a\", \"credentials\": \x7b\"old\": \"x\"\x7d\x7d], " ++
    "\"mq\": [\x7b\"name\": \"a\", \"credentials\": \x7b\"uri\": \"u\", " ++
    "\"tls\": \x7b\"on\": true, \"by\": \x7b\x7d\x7d\x7d\x7d, " ++
    "\x7b\"name\": \"b.c\", \"credentials\": \x7b\"ports\": [1, 2]\x7d\x7d]\x7d"

/-- A document that refers to a credential and has one of its own. -/
def referring : Store where
  pairs := [("vcap.services.a.credentials.uri", "mine"), ("url", "$\x7bvcap.services.a.credentials.tls.on\x7d")]
  nodup := by decide

theorem overlay_renewed :
    ∃ catalog, (Catalog.read renewed).result = .ok catalog ∧
      (Catalog.winners catalog.services).flatMap Service.credentialPairs =
        [("vcap.services.a.credentials.uri", "u"), ("vcap.services.a.credentials.tls.on", "true"),
          ("vcap.services.b.c.credentials.ports", "[1,2]")] ∧
      let before := ((ofStore referring).view 0).own.store
      let after := (((ofStore referring).overlay catalog).view 0).own.store
      (∀ s ∈ Catalog.winners catalog.services, ∀ leaf ∈ s.leaves,
        after.get? (Service.credentialKey s.name leaf.1) = some leaf.2.property) ∧
      ∀ k, k ∈ after.keys ↔ k ∈ before.keys ∨
        ∃ s ∈ Catalog.winners catalog.services, ∃ leaf ∈ s.leaves, k = Service.credentialKey s.name leaf.1 := by
  have hlisted : ((Catalog.read renewed).result.toOption.map fun c =>
      ((Catalog.winners c.services).map fun s => Assoc.keys s.credentials,
        (Catalog.winners c.services).flatMap Service.credentialPairs)) =
      some ([["uri", "tls"], ["ports"]],
        [("vcap.services.a.credentials.uri", "u"), ("vcap.services.a.credentials.tls.on", "true"),
          ("vcap.services.b.c.credentials.ports", "[1,2]")]) := by decide +kernel
  obtain ⟨catalog, hread, hlisted⟩ := Option.map_eq_some_iff.mp hlisted
  have hread : (Catalog.read renewed).result = .ok catalog := eq_ok_of_toOption hread
  obtain ⟨hkeys, hpairs⟩ := Prod.mk.inj hlisted
  have hne : ∀ s ∈ Catalog.winners catalog.services, ∀ k ∈ Assoc.keys s.credentials, k ≠ "" := by
    intro s hs k hk
    have hmem : Assoc.keys s.credentials ∈ [["uri", "tls"], ["ports"]] := hkeys ▸ List.mem_map_of_mem hs
    rintro rfl
    rcases List.mem_cons.mp hmem with heq | hmem
    · simp [heq] at hk
    · simp [List.mem_singleton.mp hmem] at hk
  have hdiffer : (Assoc.keys ((Catalog.winners catalog.services).flatMap Service.credentialPairs)).Nodup := by
    rw [hpairs]
    decide
  obtain ⟨hleaves, hafter, -⟩ := overlay_credentials hread hne hdiffer (c := ofStore referring) (List.cons_ne_nil _ _)
  exact ⟨catalog, hread, hpairs, hleaves, hafter⟩

end Configuration

end Settings
