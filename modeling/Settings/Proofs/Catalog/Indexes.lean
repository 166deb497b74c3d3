import Mathlib.Data.Finset.Card
import Settings.Catalog.Basic
import Settings.Proofs.Tree.Grammar

/-! # The indexes of a catalog

Each service that is added to a catalog goes into a list and two indexes: by name, where it takes the place of an
earlier service with that name, and by type, where it stands behind the others. What the indexes lead to (`Indexed`)
is kept by each addition, so it holds of every catalog that is read from a text. -/

namespace Settings

theorem Assoc.flatMap_insert {κ β : Type} [DecidableEq κ] (k : κ) (x : β) (l : List (κ × List β)) :
    ((Assoc.insert k ((Assoc.get? k l).getD [] ++ [x]) l).flatMap Prod.snd).Perm (l.flatMap Prod.snd ++ [x]) := by
  induction l with
  | nil => exact List.Perm.refl _
  | cons p l ih =>
    obtain ⟨a, xs⟩ := p
    rw [Assoc.insert, Assoc.get?]
    split
    · have hmove : ([x] ++ l.flatMap Prod.snd).Perm (l.flatMap Prod.snd ++ [x]) := List.perm_append_comm
      simpa [List.append_assoc] using hmove.append_left xs
    · rw [List.flatMap_cons, List.flatMap_cons, List.append_assoc]
      exact ih.append_left xs

namespace Catalog

variable {c c' : Catalog} {s : Service} {ss : List Service} {type name : String}

/-! ### What the indexes lead to -/

/-- Each name leads to the last service that has it, each type to its services in their order, and each service is
    numbered under one type. -/
structure Indexed (c : Catalog) : Prop where
  nodup_names : (Assoc.keys c.byName).Nodup
  nodup_types : (Assoc.keys c.byType).Nodup
  mem_names : ∀ name, name ∈ Assoc.keys c.byName ↔ name ∈ c.services.map Service.name
  name_lt : ∀ p ∈ c.byName, p.2 < c.services.length
  numbers : (c.byType.flatMap Prod.snd).Perm (List.range c.services.length)
  service? : ∀ name, c.service? name = (c.services.filter (·.name = name)).getLast?
  ofType : ∀ type, c.ofType type = c.services.filter (·.type = type)

theorem indexed_empty : Indexed empty where
  nodup_names := List.nodup_nil
  nodup_types := List.nodup_nil
  mem_names _ := Iff.rfl
  name_lt _ hp := nomatch hp
  numbers := List.Perm.refl _
  service? _ := rfl
  ofType _ := rfl

theorem Indexed.type_lt (h : Indexed c) {p : String × List Nat} (hp : p ∈ c.byType) {i : Nat} (hi : i ∈ p.2) :
    i < c.services.length :=
  List.mem_range.mp (h.numbers.mem_iff.mp (List.mem_flatMap.mpr ⟨p, hp, hi⟩))

theorem Indexed.numbers_lt (h : Indexed c) {i : Nat} (hi : i ∈ (Assoc.get? type c.byType).getD []) :
    i < c.services.length := by
  cases hget : Assoc.get? type c.byType with
  | none => simp [hget] at hi
  | some numbers => exact h.type_lt (Assoc.mem_of_get? hget) (by simpa [hget] using hi)

/-! ### Adding a service -/

theorem atNumbers_add {numbers : List Nat} (h : ∀ i ∈ numbers, i < c.services.length) :
    (c.add s).atNumbers numbers = c.atNumbers numbers :=
  List.filterMap_congr fun i hi => List.getElem?_append_left (h i hi)

theorem atNumbers_add_concat {numbers : List Nat} (h : ∀ i ∈ numbers, i < c.services.length) :
    (c.add s).atNumbers (numbers ++ [c.services.length]) = c.atNumbers numbers ++ [s] := by
  have hlast : (c.add s).atNumbers [c.services.length] = [s] := by simp [atNumbers, add]
  have hsplit : (c.add s).atNumbers (numbers ++ [c.services.length]) =
      (c.add s).atNumbers numbers ++ (c.add s).atNumbers [c.services.length] := List.filterMap_append
  rw [hsplit, atNumbers_add h, hlast]

theorem service?_add (h : ∀ p ∈ c.byName, p.2 < c.services.length) (s : Service) (name : String) :
    (c.add s).service? name = if s.name = name then some s else c.service? name := by
  split
  · next hname =>
    rw [service?, add, hname, Assoc.get?_insert_self]
    exact List.getElem?_concat_length
  · next hname =>
    rw [service?, add, Assoc.get?_insert_of_ne (Ne.symm hname), service?]
    cases hget : Assoc.get? name c.byName with
    | none => rfl
    | some i => exact List.getElem?_append_left (h _ (Assoc.mem_of_get? hget))

theorem Indexed.ofType_add (h : Indexed c) (s : Service) (type : String) :
    (c.add s).ofType type = if s.type = type then c.ofType type ++ [s] else c.ofType type := by
  have hlt : ∀ i ∈ (Assoc.get? type c.byType).getD [], i < c.services.length := fun _ hi => h.numbers_lt hi
  have hby : (c.add s).byType =
      Assoc.insert s.type ((Assoc.get? s.type c.byType).getD [] ++ [c.services.length]) c.byType := rfl
  rw [Catalog.ofType, Catalog.ofType, hby]
  split
  · next htype =>
    rw [htype, Assoc.get?_insert_self, Option.getD_some, atNumbers_add_concat hlt]
  · next htype => rw [Assoc.get?_insert_of_ne (Ne.symm htype), atNumbers_add hlt]

theorem Indexed.add (h : Indexed c) (s : Service) : Indexed (c.add s) where
  nodup_names := Assoc.nodup_insert h.nodup_names
  nodup_types := Assoc.nodup_insert h.nodup_types
  mem_names name := by
    have hservices : (c.add s).services.map Service.name = c.services.map Service.name ++ [s.name] := List.map_append
    rw [hservices, List.mem_append, List.mem_singleton, ← h.mem_names, or_comm]
    exact Assoc.mem_keys_insert
  name_lt p hp := by
    have hlength : (c.add s).services.length = c.services.length + 1 := List.length_append
    rw [hlength]
    rcases Assoc.mem_insert hp with rfl | hp
    · exact Nat.lt_succ_self _
    · exact Nat.lt_succ_of_lt (h.name_lt p hp)
  numbers := by
    have hlength : (c.add s).services.length = c.services.length + 1 := List.length_append
    rw [hlength, List.range_succ]
    exact (Assoc.flatMap_insert _ _ _).trans (h.numbers.append_right _)
  service? name := by
    have hservices : (c.add s).services = c.services ++ [s] := rfl
    rw [service?_add h.name_lt, h.service?, hservices, List.filter_append]
    by_cases hname : s.name = name <;> simp [hname]
  ofType type := by
    have hservices : (c.add s).services = c.services ++ [s] := rfl
    rw [h.ofType_add, h.ofType, hservices, List.filter_append]
    by_cases htype : s.type = type <;> simp [htype]

theorem Indexed.addAll (h : Indexed c) (ss : List Service) : Indexed (ss.foldl Catalog.add c) := by
  induction ss generalizing c with
  | nil => exact h
  | cons s ss ih => exact ih (h.add s)

theorem services_addAll (c : Catalog) (ss : List Service) : (ss.foldl add c).services = c.services ++ ss := by
  induction ss generalizing c with
  | nil => exact (List.append_nil _).symm
  | cons s ss ih =>
    rw [List.foldl_cons, ih]
    exact (List.append_cons _ _ _).symm

/-! ### Names and types -/

theorem Indexed.size_eq (h : Indexed c) : c.size = (c.services.map Service.name).toFinset.card := by
  have hnames : (Assoc.keys c.byName).toFinset = (c.services.map Service.name).toFinset := by
    ext name
    rw [List.mem_toFinset, List.mem_toFinset, h.mem_names]
  rw [← hnames, List.toFinset_card_of_nodup h.nodup_names, size, Assoc.keys, List.length_map]

theorem Indexed.atNumbers_eq (h : Indexed c) {numbers : List Nat} (hmem : (type, numbers) ∈ c.byType) :
    c.atNumbers numbers = c.services.filter (·.type = type) := by
  have hget : Assoc.get? type c.byType = some numbers := Assoc.get?_of_mem h.nodup_types hmem
  rw [← h.ofType, Catalog.ofType, hget, Option.getD_some]

theorem Indexed.type_eq (h : Indexed c) {numbers : List Nat} (hmem : (type, numbers) ∈ c.byType) {i : Nat}
    (hi : i ∈ numbers) (hlt : i < c.services.length) : c.services[i].type = type := by
  have hs : c.services[i] ∈ c.atNumbers numbers :=
    List.mem_filterMap.mpr ⟨i, hi, List.getElem?_eq_getElem hlt⟩
  rw [h.atNumbers_eq hmem] at hs
  simpa using (List.mem_filter.mp hs).2

/-- A service is numbered under its own type only. -/
theorem Indexed.existsUnique_type (h : Indexed c) {i : Nat} (hlt : i < c.services.length) :
    ∃! p, p ∈ c.byType ∧ i ∈ p.2 := by
  obtain ⟨p, hp, hi⟩ := List.mem_flatMap.mp (h.numbers.mem_iff.mpr (List.mem_range.mpr hlt))
  refine ⟨p, ⟨hp, hi⟩, ?_⟩
  rintro q ⟨hq, hiq⟩
  have htype : q.1 = p.1 := (h.type_eq hq hiq hlt).symm.trans (h.type_eq hp hi hlt)
  exact List.inj_on_of_nodup_map h.nodup_types hq hp htype

/-! ### Patterns -/

theorem Indexed.picks_of_mem_matching (h : Indexed c) {p : Pattern} (hs : s ∈ c.matching p) : p.picks s.type = true := by
  obtain ⟨⟨type, numbers⟩, hmem, hs⟩ := List.mem_flatMap.mp hs
  obtain ⟨hmem, hpicks⟩ := List.mem_filter.mp hmem
  have hs : s ∈ c.services.filter (·.type = type) := h.atNumbers_eq hmem ▸ hs
  have htype : s.type = type := by simpa using (List.mem_filter.mp hs).2
  rw [htype]
  exact hpicks

theorem Indexed.matching_disjoint (h : Indexed c) (p : Pattern) : (c.matching p).Disjoint (c.matching p.negate) := by
  intro s hs hs'
  have hpicks := h.picks_of_mem_matching hs
  have hleft := h.picks_of_mem_matching hs'
  rw [Pattern.picks_negate, hpicks] at hleft
  cases hleft

theorem atNumbers_range (c : Catalog) : c.atNumbers (List.range c.services.length) = c.services := by
  have hget : (List.range c.services.length).map (c.services[·]?) = c.services.map some := by
    refine List.ext_getElem (by simp) fun i hi _ => ?_
    simp
  have hmap : c.atNumbers (List.range c.services.length) =
      ((List.range c.services.length).map (c.services[·]?)).filterMap id := by
    rw [List.filterMap_map]
    rfl
  rw [hmap, hget, List.filterMap_map]
  exact List.filterMap_some

theorem Indexed.matching_perm (h : Indexed c) (p : Pattern) :
    (c.matching p ++ c.matching p.negate).Perm c.services := by
  have hnegate : c.matching p.negate =
      (c.byType.filter fun q => !p.picks q.1).flatMap fun q => c.atNumbers q.2 := by
    simp only [matching, Pattern.picks_negate]
  have hall : (c.byType.flatMap fun q => c.atNumbers q.2) = c.atNumbers (c.byType.flatMap Prod.snd) :=
    List.filterMap_flatMap.symm
  rw [hnegate, matching, ← List.flatMap_append]
  refine ((List.filter_append_perm _ _).flatMap_right _).trans ?_
  rw [hall, ← c.atNumbers_range]
  exact h.numbers.filterMap _

/-! ### Reading -/

/-- A service is listed under a type by an entry that binds to its record. -/
def Describes (type : String) (entry : Tree) (s : Service) : Prop :=
  ∃ d, (Service.shape.bind entry).result = .ok d ∧ s = .ofDatum type d

/-- A member of a catalog's tree is a type with the entries of its services. -/
def Lists (member : String × Tree) (group : String × List Service) : Prop :=
  ∃ entries, member = (group.1, .list entries) ∧ List.Forall₂ (Describes group.1) entries group.2

theorem result_addNoted (c : Catalog) (s : Service) : (c.addNoted s).result = .ok (c.add s) := by
  unfold addNoted
  split <;> rfl

theorem type_of_describes {entries : List Tree} (h : List.Forall₂ (Describes type) entries ss) :
    ∀ s ∈ ss, s.type = type := by
  induction h with
  | nil => exact nofun
  | cons hs _ ih =>
    obtain ⟨d, -, rfl⟩ := hs
    exact List.forall_mem_cons.mpr ⟨rfl, ih⟩

theorem result_addEntries {entries : List Tree} {index : Nat}
    (h : (addEntries type c index entries).result = .ok c') :
    ∃ ss, List.Forall₂ (Describes type) entries ss ∧ c' = ss.foldl add c := by
  induction entries generalizing c index with
  | nil => exact ⟨[], .nil, (Except.ok.inj h).symm⟩
  | cons entry entries ih =>
    rw [addEntries] at h
    obtain ⟨d, hd, h⟩ := Noted.result_bind_eq_ok.mp h
    obtain ⟨c₁, hadd, h⟩ := Noted.result_bind_eq_ok.mp h
    obtain rfl : c.add (.ofDatum type d) = c₁ := Except.ok.inj ((result_addNoted _ _).symm.trans hadd)
    obtain ⟨ss, hss, rfl⟩ := ih h
    have hbind : (Service.shape.bind entry).result = .ok d := by
      unfold Noted.mapFault at hd
      cases hresult : (Service.shape.bind entry).result with
      | error e => simp [hresult] at hd
      | ok d' => simpa [hresult] using hd
    exact ⟨.ofDatum type d :: ss, .cons ⟨d, hbind, rfl⟩ hss, rfl⟩

theorem result_addTypes {types : List (String × Tree)} (h : (addTypes c types).result = .ok c') :
    ∃ groups, List.Forall₂ Lists types groups ∧ c' = (groups.flatMap Prod.snd).foldl add c := by
  induction types generalizing c with
  | nil => exact ⟨[], .nil, (Except.ok.inj h).symm⟩
  | cons member types ih =>
    obtain ⟨type, t⟩ := member
    cases t with
    | list entries =>
      rw [addTypes] at h
      obtain ⟨c₁, hentries, h⟩ := Noted.result_bind_eq_ok.mp h
      obtain ⟨ss, hss, rfl⟩ := result_addEntries hentries
      obtain ⟨groups, hgroups, rfl⟩ := ih h
      refine ⟨(type, ss) :: groups, .cons ⟨entries, rfl, hss⟩ hgroups, ?_⟩
      rw [List.flatMap_cons, List.foldl_append]
    | _ => cases h

theorem result_read {text : String} (h : (read text).result = .ok c) :
    ∃ types groups, Tree.read text = .ok (.map types) ∧ List.Forall₂ Lists types groups ∧
      c = (groups.flatMap Prod.snd).foldl add empty := by
  unfold read at h
  split at h
  · cases h
  · split at h
    · cases h
    · cases h
    · next types _ htree =>
      obtain ⟨groups, hgroups, hc⟩ := result_addTypes h
      exact ⟨types, groups, htree, hgroups, hc⟩
    · cases h

theorem keys_of_lists {types : List (String × Tree)} {groups : List (String × List Service)}
    (h : List.Forall₂ Lists types groups) : Assoc.keys groups = Assoc.keys types := by
  induction h with
  | nil => rfl
  | cons hg _ ih =>
    obtain ⟨entries, rfl, -⟩ := hg
    rw [Assoc.keys_cons, Assoc.keys_cons, ih]

theorem type_of_lists {types : List (String × Tree)} {groups : List (String × List Service)}
    (h : List.Forall₂ Lists types groups) : ∀ g ∈ groups, ∀ s ∈ g.2, s.type = g.1 := by
  induction h with
  | nil => exact nofun
  | cons hg _ ih =>
    obtain ⟨entries, -, hentries⟩ := hg
    exact List.forall_mem_cons.mpr ⟨type_of_describes hentries, ih⟩

/-- Where no type comes twice, the services of a type are those of its group. -/
theorem filter_type {groups : List (String × List Service)} (hnodup : (Assoc.keys groups).Nodup)
    (h : ∀ g ∈ groups, ∀ s ∈ g.2, s.type = g.1) (type : String) :
    (groups.flatMap Prod.snd).filter (·.type = type) = (Assoc.get? type groups).getD [] := by
  induction groups with
  | nil => rfl
  | cons g groups ih =>
    obtain ⟨hfresh, hnodup⟩ := List.nodup_cons.mp hnodup
    obtain ⟨hg, hgroups⟩ := List.forall_mem_cons.mp h
    have hrest := ih hnodup hgroups
    rw [List.flatMap_cons, List.filter_append, hrest, Assoc.get?]
    split
    · next htype =>
      have hown : g.2.filter (·.type = type) = g.2 :=
        List.filter_eq_self.mpr fun s hs => by simpa using (hg s hs).trans htype
      rw [hown, Assoc.get?_eq_none_iff.mpr (htype ▸ hfresh)]
      exact List.append_nil _
    · next htype =>
      have hother : g.2.filter (·.type = type) = [] :=
        List.filter_eq_nil_iff.mpr fun s hs => by simpa [hg s hs] using htype
      rw [hother, List.nil_append]

/-- The services of a catalog that is read from a text are those that the text lists, type by type. A name leads to the
    last of them that has it, and a type to just those listed under it. The numbers in both indexes are numbers of
    services, and each service is numbered under one type. A pattern and its opposite share the services between
    them. -/
theorem read_indexed {text : String} (h : (read text).result = .ok c) :
    ∃ types groups, Tree.read text = .ok (.map types) ∧ List.Forall₂ Lists types groups ∧
      c.services = groups.flatMap Prod.snd ∧
      (∀ name, c.service? name = (c.services.filter (·.name = name)).getLast?) ∧
      c.size = (c.services.map Service.name).toFinset.card ∧
      (∀ type, c.ofType type = (Assoc.get? type groups).getD []) ∧
      (∀ p ∈ c.byName, p.2 < c.services.length) ∧ (∀ p ∈ c.byType, ∀ i ∈ p.2, i < c.services.length) ∧
      (∀ i < c.services.length, ∃! p, p ∈ c.byType ∧ i ∈ p.2) ∧
      ∀ p : Pattern, (c.matching p).Disjoint (c.matching p.negate) ∧
        (c.matching p ++ c.matching p.negate).Perm c.services := by
  obtain ⟨types, groups, htree, hgroups, rfl⟩ := result_read h
  have hi := indexed_empty.addAll (groups.flatMap Prod.snd)
  have hservices := services_addAll empty (groups.flatMap Prod.snd)
  have hnodup : (Assoc.keys groups).Nodup := keys_of_lists hgroups ▸ (Tree.distinct_of_read htree).1 types rfl
  refine ⟨types, groups, htree, hgroups, hservices, hi.service?, hi.size_eq, fun type => ?_, hi.name_lt,
    fun p hp i => hi.type_lt hp, fun i => hi.existsUnique_type, fun p => ⟨hi.matching_disjoint p, hi.matching_perm p⟩⟩
  rw [hi.ofType, hservices]
  exact filter_type hnodup (type_of_lists hgroups) type

/-- A name that comes twice within a type and once more in another one. -/
def crowded : String :=
  "\x7b\"db\": [\x7b\"name\": \"a\"\x7d, \x7b\"name\": \"b\"\x7d, \x7b\"name\": \"a\"\x7d], " ++
    "\"mq\": [\x7b\"name\": \"b\", \"label\": \"last\"\x7d]\x7d"

theorem read_crowded :
    ∃ c, (read crowded).result = .ok c ∧
      c.services.map (fun s => (s.type, s.name)) = [("db", "a"), ("db", "b"), ("db", "a"), ("mq", "b")] ∧
      c.size = 2 ∧ c.service? "b" = (c.services.filter (·.name = "b")).getLast? ∧
      ∀ p : Pattern, (c.matching p ++ c.matching p.negate).Perm c.services := by
  have hlisted : ((read crowded).result.toOption.map fun c => c.services.map fun s => (s.type, s.name)) =
      some [("db", "a"), ("db", "b"), ("db", "a"), ("mq", "b")] := by decide +kernel
  obtain ⟨c, hread, hservices⟩ := Option.map_eq_some_iff.mp hlisted
  have hread : (read crowded).result = .ok c := eq_ok_of_toOption hread
  obtain ⟨types, groups, -, -, -, hlast, hsize, -, -, -, -, hpatterns⟩ := read_indexed hread
  have hnames : c.services.map Service.name = ["a", "b", "a", "b"] := by
    simpa [Function.comp_def] using congrArg (List.map Prod.snd) hservices
  refine ⟨c, hread, hservices, ?_, hlast "b", fun p => (hpatterns p).2⟩
  rw [hsize, hnames]
  decide

end Catalog

end Settings
