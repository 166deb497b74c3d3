import Settings.Proofs.Configuration.Run
import Settings.Proofs.Store.Keys
import Settings.Proofs.Store.Scope

/-! # Views and the whole document

A view that is opened by keys, one below the other, shows the pairs of the document below the joined scope. Its own
copy of them, its document and its scope stay in step, so that asking through the view for a key is asking the
document for the key behind the scope. -/

namespace Settings

namespace View

/-- A view shows what a document has below a scope. -/
structure Shows (document : Store) (scope : String) (v : View) : Prop where
  own : v.own.store = .ofPairs (document.under scope)
  document : v.document.store = document
  scope : v.scope = scope

variable {document : Store} {scope key : String} {v w : View} {k l : String}

theorem shows_top (document : Store) (key : String) : ((ofStore document).below key).Shows document key where
  own := rfl
  document := rfl
  scope := dottedKey_empty_left key

theorem Shows.fullKey (h : v.Shows document scope) (hs : scope ≠ "") (hk : key ≠ "") :
    v.fullKey key = scope ++ "." ++ key := by
  rw [View.fullKey, h.scope, dottedKey_pair hs hk]

theorem fullKey_top (document : Store) (key : String) : (ofStore document).fullKey key = key :=
  dottedKey_empty_left key

theorem Shows.below (h : v.Shows document scope) (hs : scope ≠ "") (hk : key ≠ "") :
    (v.below key).Shows document (scope ++ "." ++ key) where
  own := by
    show Store.ofPairs (v.own.store.under key) = _
    rw [h.own, Store.under_under]
  document := h.document
  scope := h.fullKey hs hk

/-- A chain of views shows what the document has below the keys, joined by dots. -/
theorem Shows.foldl_below {keys : List String} (h : v.Shows document scope) (hs : scope ≠ "")
    (hkeys : ∀ k ∈ keys, k ≠ "") : (keys.foldl View.below v).Shows document (".".intercalate (scope :: keys)) := by
  induction keys generalizing v scope with
  | nil =>
    rw [String.intercalate_singleton]
    exact h
  | cons key keys ih =>
    obtain ⟨hk, hkeys⟩ := List.forall_mem_cons.mp hkeys
    have hne : scope ++ "." ++ key ≠ "" := by simp [hk]
    have hjoin : ".".intercalate ((scope ++ "." ++ key) :: keys) = ".".intercalate (scope :: key :: keys) := by
      rw [String.intercalate_cons_append, String.intercalate_cons_cons]
    rw [← hjoin]
    exact ih (h.below hs hk) hne hkeys

/-! ### Reading through views -/

theorem string_congr (hvalue : v.value? k = w.value? l) (hkey : v.fullKey k = w.fullKey l) :
    v.string k = w.string l := by
  unfold string
  rw [hvalue, hkey]

theorem valuesBelow_congr {names : List String}
    (h : ∀ name ∈ names, v.value? (dottedKey [k, name]) = w.value? (dottedKey [l, name])) :
    v.valuesBelow k names = w.valuesBelow l names := by
  induction names with
  | nil => rfl
  | cons name names ih =>
    obtain ⟨hname, hnames⟩ := List.forall_mem_cons.mp h
    rw [valuesBelow, valuesBelow, hname, ih hnames]

theorem Shows.get? (h : v.Shows document scope) (key : String) :
    v.own.store.get? key = document.get? (scope ++ "." ++ key) := by
  rw [Store.get?, h.own, Store.pairs_ofPairs (document.nodup_under scope), Store.get?_under]

theorem Shows.value? (h : v.Shows document scope) (hs : scope ≠ "") (hk : key ≠ "") :
    v.value? key = (ofStore document).value? (scope ++ "." ++ key) := by
  unfold View.value? Store.contains
  rw [h.get?, h.document, h.fullKey hs hk, fullKey_top]
  rfl

/-- Where no key of the document has an empty segment, no key is empty behind a scope. -/
theorem ne_empty_of_mem_under (hseg : ∀ k ∈ document.keys, Segmented k) (h : key ∈ Assoc.keys (document.under scope)) :
    key ≠ "" := by
  rintro rfl
  exact not_segmented_empty (segmented_join.mp (hseg _ (Store.mem_keys_under_iff.mp h))).2

theorem Shows.namesBelow (h : v.Shows document scope) (hk : key ≠ "") :
    v.namesBelow key = (ofStore document).namesBelow (scope ++ "." ++ key) := by
  have hne : scope ++ "." ++ key ≠ "" := by simp [hk]
  rw [View.namesBelow, if_neg hk, h.own, Store.under_under, View.namesBelow, if_neg hne]
  rfl

/-- What is bound at a key of a view is what is bound at the key behind its scope. -/
theorem Shows.tree (h : v.Shows document scope) (hseg : ∀ k ∈ document.keys, Segmented k) (hs : scope ≠ "")
    (hk : key ≠ "") : v.tree key = (ofStore document).tree (scope ++ "." ++ key) := by
  have hne : scope ++ "." ++ key ≠ "" := by simp [hk]
  have hstring : v.string key = (ofStore document).string (scope ++ "." ++ key) :=
    string_congr (h.value? hs hk) (by rw [h.fullKey hs hk, fullKey_top])
  have hvalues : v.valuesBelow key (v.namesBelow key) =
      (ofStore document).valuesBelow (scope ++ "." ++ key) (v.namesBelow key) := by
    refine valuesBelow_congr fun name hname => ?_
    rw [h.namesBelow hk, View.namesBelow, if_neg hne] at hname
    have hn : name ≠ "" := ne_empty_of_mem_under hseg hname
    have hjoin : key ++ "." ++ name ≠ "" := by simp [hn]
    rw [dottedKey_pair hk hn, dottedKey_pair hne hn, h.value? hs hjoin]
    simp only [String.append_assoc]
  rw [tree_eq, tree_eq, hstring, hvalues, h.namesBelow hk]

/-- What is bound at a view as a whole is what is bound at its scope, if there is anything below it. -/
theorem Shows.tree_whole (h : v.Shows document scope) (hseg : ∀ k ∈ document.keys, Segmented k) (hs : scope ≠ "")
    (hsome : ∃ key, scope ++ "." ++ key ∈ document.keys) : v.tree "" = (ofStore document).tree scope := by
  have hwhole : v.namesBelow "" = Assoc.keys (document.under scope) := by
    rw [View.namesBelow, if_pos rfl, h.own, Store.keys, Store.pairs_ofPairs (document.nodup_under scope)]
  have hnames : (ofStore document).namesBelow scope = Assoc.keys (document.under scope) := if_neg hs
  have hmore : (Assoc.keys (document.under scope)).isEmpty = false := by
    obtain ⟨key, hkey⟩ := hsome
    rw [List.isEmpty_eq_false_iff]
    exact List.ne_nil_of_mem (Store.mem_keys_under_iff.mpr hkey)
  have hvalues : v.valuesBelow "" (Assoc.keys (document.under scope)) =
      (ofStore document).valuesBelow scope (Assoc.keys (document.under scope)) := by
    refine valuesBelow_congr fun name hname => ?_
    have hn : name ≠ "" := ne_empty_of_mem_under hseg hname
    rw [dottedKey_empty_left, dottedKey_pair hs hn, h.value? hs hn]
  rw [tree_eq, tree_eq, hwhole, hnames, hmore, hvalues]
  rfl

end View

namespace Configuration

variable {c : Configuration} {i j : Nat} {k l : String}

theorem reading_congr {α : Type} (f g : View → Reads α) (h : f (c.view i) = g (c.view j)) :
    c.reading i f = c.reading j g := by
  unfold reading
  rw [h]

theorem bind_congr (htree : (c.view i).tree k = (c.view j).tree l) (hkey : (c.view i).fullKey k = (c.view j).fullKey l)
    (s : Shape) : c.bind i s k = c.bind j s l := by
  rw [bind_eq, bind_eq, reading_congr (View.tree · k) (View.tree · l) htree, hkey]

/-- Two places at which the same text stands, the same text is read and the same tree is bound answer alike. -/
theorem ask_congr (hraw : (c.view i).own.store.get? k = (c.view j).own.store.get? l)
    (hvalue : (c.view i).value? k = (c.view j).value? l) (hkey : (c.view i).fullKey k = (c.view j).fullKey l)
    (htree : (c.view i).tree k = (c.view j).tree l) (q : Query) : c.ask i k q = c.ask j l q := by
  have hstring : (c.view i).string k = (c.view j).string l := View.string_congr hvalue hkey
  have hget? : ∀ s, (c.view i).get? s k = (c.view j).get? s l := fun s => by
    unfold View.get?
    rw [hvalue]
  cases q with
  | raw => exact congrArg (·, c) hraw
  | contains => exact congrArg (fun found => (Option.isSome found, c)) hraw
  | string => exact reading_congr (View.string · k) (View.string · l) hstring
  | get s =>
    refine reading_congr (View.get · s k) (View.get · s l) ?_
    unfold View.get
    rw [hstring]
  | get? s => exact reading_congr (View.get? · s k) (View.get? · s l) (hget? s)
  | getD s default =>
    refine reading_congr (View.getD · s k default) (View.getD · s l default) ?_
    unfold View.getD
    rw [hget?]
  | bind s => exact bind_congr htree hkey s

/-- A chain of views shows the pairs of the document below its keys, and asking through it is asking the document for
    the key behind its keys. -/
theorem ask_scope (store : Store) (acts : List Act) (keys : List String) (hkeys : keys ≠ []) (hne : ∀ k ∈ keys, k ≠ "")
    (hseg : ∀ k ∈ (store.setAll (appended acts)).keys, Segmented k) :
    let document := store.setAll (appended acts)
    let scope := ".".intercalate keys
    let i := (((ofStore store).after acts).openAll 0 keys).1
    let c := (((ofStore store).after acts).openAll 0 keys).2
    (c.view i).own.store.pairs.map (fun p => (scope ++ "." ++ p.1, p.2)) =
        document.pairs.filter (fun p => (scope ++ ".").toList.isPrefixOf p.1.toList) ∧
      (∀ key, key ≠ "" → ∀ q, c.ask i key q = c.ask 0 (scope ++ "." ++ key) q) ∧
      ((∃ key, scope ++ "." ++ key ∈ document.keys) → ∀ s, c.ask i "" (.bind s) = c.ask 0 scope (.bind s)) := by
  intro document scope i c
  have hsound := ((sound_ofStore store).after acts).1
  obtain ⟨hsound', hbare⟩ := hsound.openAll 0 keys
  have htop : (c.view 0).bare = View.ofStore document := hsound'.view_bare
  have hs : scope ≠ "" := intercalate_ne_empty hkeys hne
  have hshows : (c.view i).bare.Shows document scope := by
    obtain ⟨key, keys, rfl⟩ := List.exists_cons_of_ne_nil hkeys
    obtain ⟨hk, hks⟩ := List.forall_mem_cons.mp hne
    rw [hbare, hsound.view_bare]
    exact (View.shows_top document key).foldl_below hk hks
  have hfull : ∀ key, (c.view 0).fullKey key = key := fun key => by
    show (c.view 0).bare.fullKey key = key
    rw [htop, View.fullKey_top]
  have htree : ∀ key, (c.view 0).tree key = (View.ofStore document).tree key := fun key => by
    rw [View.tree_bare, htop]
  refine ⟨?_, fun key hk q => ?_, fun hsome s => ?_⟩
  · have hpairs : (c.view i).own.store.pairs = document.under scope :=
      (congrArg Store.pairs hshows.own).trans (Store.pairs_ofPairs (document.nodup_under scope))
    rw [hpairs, Store.map_under]
  · refine ask_congr ?_ ?_ ?_ ?_ q
    · show (c.view i).bare.own.store.get? key = (c.view 0).bare.own.store.get? _
      rw [hshows.get?, htop]
      rfl
    · show (c.view i).bare.value? key = (c.view 0).bare.value? _
      rw [hshows.value? hs hk, htop]
    · exact (hshows.fullKey hs hk).trans (hfull _).symm
    · rw [View.tree_bare, hshows.tree hseg hs hk, htree]
  · refine bind_congr ?_ ?_ s
    · rw [View.tree_bare, hshows.tree_whole hseg hs hsome, htree]
    · rw [hfull]
      show (c.view i).bare.fullKey "" = scope
      rw [View.fullKey, hshows.scope, dottedKey_empty_right]

/-- A document of which one scope lies in another. -/
def levels : Store where
  pairs :=
    [("logging.level.root", "Info"), ("logging.level.net", "$\x7blogging.level.root\x7d"), ("logging.levels", "3")]
  nodup := by decide

/-- Through a view of a view that was opened once before, with a pair laid over the document in between. -/
theorem ask_levels :
    let acts : List Act := [.openView 0 "logging", .openView 1 "level", .append [("logging.level.db", "Warn")]]
    let i := (((ofStore levels).after acts).openAll 0 ["logging", "level"]).1
    let c := (((ofStore levels).after acts).openAll 0 ["logging", "level"]).2
    c.ask i "net" .string = c.ask 0 "logging.level.net" .string ∧
      ∀ s, c.ask i "" (.bind s) = c.ask 0 "logging.level" (.bind s) := by
  intro acts i c
  have h := ask_scope levels acts ["logging", "level"] (by decide) (by decide) (by unfold Segmented; decide)
  exact ⟨h.2.1 "net" (by decide) .string, h.2.2 ⟨"db", by decide⟩⟩

end Configuration

end Settings
