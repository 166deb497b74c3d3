import Mathlib.Data.List.Induction
import Settings.Proofs.Configuration.Run
import Settings.Proofs.Reference.Resolution
import Settings.Proofs.Store.Keys
import Settings.Proofs.Store.Scope

/-! # Keys that have not been read

A question asks for the texts of keys one after the other, and goes no further than the first that does not resolve.
What it resolves is crossed off, whatever becomes of the texts afterwards. The list of unread keys is shared by all
views, so the views that were opened before pairs were laid over the document cross off the same keys. -/

namespace Settings

namespace View

/-- The keys whose texts a question asks for, in order. -/
def asked (v : View) (key : String) : Query → List String
  | .raw | .contains => []
  | .string | .get _ | .get? _ | .getD .. => [key]
  | .bind _ =>
    if (v.namesBelow key).isEmpty then [key] else (v.namesBelow key).map fun name => dottedKey [key, name]

/-- The view has the key, and the references in its text can be resolved. -/
def resolves (v : View) (key : String) : Bool :=
  v.own.store.contains key &&
    match Reference.resolveKey v.document.store.pairs .fail (v.fullKey key) with
    | .ok (some _) => true
    | _ => false

/-- The keys of the document that a question resolves. -/
def resolved (v : View) (key : String) (q : Query) : List String :=
  ((v.asked key q).takeWhile v.resolves).map v.fullKey

end View

/-- The questions that ask for the text of one key. -/
def Query.ofOne : Query → Bool
  | string | get _ | get? _ | getD .. => true
  | raw | contains | bind _ => false

/-! ### Crossing off -/

namespace Reads

variable {α β : Type} {x : Reads α} {f : α → Reads β} {keys : List String}

/-- Just these keys are crossed off, whatever the result. -/
def Crosses (x : Reads α) (keys : List String) : Prop :=
  ∀ unread, (x.run.run unread).2 = unread.removeAll keys

theorem crosses_of (result : Except Fault α) : (Reads.of result).Crosses [] := fun _ => List.removeAll_nil.symm

theorem crosses_pure (a : α) : (pure a : Reads α).Crosses [] := crosses_of (.ok a)

theorem Crosses.bind (hx : x.Crosses keys) (hf : ∀ a, (f a).Crosses []) : (x >>= f).Crosses keys := by
  intro unread
  have hleft := hx unread
  rw [run_bind]
  rcases hrun : x.run.run unread with ⟨result, left⟩
  rw [hrun] at hleft
  obtain rfl : left = _ := hleft
  cases result with
  | error e => rfl
  | ok a =>
    exact (hf a _).trans List.removeAll_nil

theorem Crosses.map (hx : x.Crosses keys) (f : α → β) : (f <$> x).Crosses keys := by
  rw [map_eq_pure_bind]
  exact hx.bind fun a => crosses_pure (f a)

end Reads

namespace View

variable {v : View} {key k : String}

/-- The keys of the view are keys of its document, and none of these has an empty segment. -/
structure Placed (v : View) : Prop where
  mem : ∀ k ∈ v.own.store.keys, v.fullKey k ∈ v.document.store.keys
  segmented : ∀ k ∈ v.document.store.keys, Segmented k

theorem Placed.ne_empty (h : v.Placed) (hk : key ++ "." ++ k ∈ v.own.store.keys) : key ≠ "" ∧ k ≠ "" := by
  have hparts : Segmented key ∧ Segmented k := by
    have hfull := h.segmented _ (h.mem _ hk)
    by_cases hs : v.scope = ""
    · rw [fullKey, hs, dottedKey_empty_left] at hfull
      exact segmented_join.mp hfull
    · rw [fullKey, dottedKey_pair hs (by simp)] at hfull
      exact segmented_join.mp (segmented_join.mp hfull).2
  constructor
  · rintro rfl
    exact not_segmented_empty hparts.1
  · rintro rfl
    exact not_segmented_empty hparts.2

/-- The keys of a view below another one are behind the scope of both. -/
theorem Placed.below (h : v.Placed) (key : String) : (v.below key).Placed where
  mem := by
    intro k hk
    have hunder : k ∈ Assoc.keys (v.own.store.under key) := by
      have hpairs : (v.below key).own.store.pairs = v.own.store.under key :=
        Store.pairs_ofPairs (v.own.store.nodup_under key)
      rwa [Store.keys, hpairs] at hk
    have hmem : key ++ "." ++ k ∈ v.own.store.keys := Store.mem_keys_under_iff.mp hunder
    obtain ⟨hkey, hk⟩ := h.ne_empty hmem
    have hfull : (v.below key).fullKey k = v.fullKey (key ++ "." ++ k) := by
      have happend := dottedKey_append [v.scope, key] [k]
      have hcons := dottedKey_append [v.scope] [key, k]
      rw [dottedKey_singleton] at happend hcons
      rw [dottedKey_pair hkey hk] at hcons
      exact happend.symm.trans hcons
    rw [hfull]
    exact h.mem _ hmem
  segmented := h.segmented

theorem Placed.mem_namesBelow (h : v.Placed) {name : String} (hname : name ∈ v.namesBelow key) :
    dottedKey [key, name] ∈ v.own.store.keys := by
  unfold namesBelow at hname
  split at hname
  · next hkey => rwa [hkey, dottedKey_empty_left]
  · next hkey =>
    have hmem := Store.mem_keys_under_iff.mp hname
    rwa [dottedKey_pair hkey (h.ne_empty hmem).2]

/-! ### Asking for texts -/

/-- Asking for a text does one of three things. -/
theorem Placed.run_value? (h : v.Placed) (key : String) (unread : List String) :
    (key ∉ v.own.store.keys ∧ v.resolves key = false ∧ (v.value? key).run.run unread = (.ok none, unread)) ∨
      (∃ e, v.resolves key = false ∧ (v.value? key).run.run unread = (.error e, unread)) ∨
      ∃ text, v.resolves key = true ∧
        (v.value? key).run.run unread = (.ok (some text), unread.removeAll [v.fullKey key]) := by
  by_cases hk : v.own.store.contains key = true
  · have hsome : (Assoc.get? (v.fullKey key) v.document.store.pairs).isSome :=
      Assoc.get?_isSome_iff.mpr (h.mem key (Store.contains_iff.mp hk))
    cases hr : Reference.resolveKey v.document.store.pairs .fail (v.fullKey key) with
    | error e =>
      refine .inr (.inl ⟨e, by simp [resolves, hr], ?_⟩)
      rw [value?, if_pos hk, hr]
      rfl
    | ok value =>
      cases value with
      | none =>
        obtain ⟨raw, hraw⟩ := Option.isSome_iff_exists.mp hsome
        rw [Reference.resolveKey_stored hraw] at hr
        cases he : Reference.expand v.document.store.pairs .fail [v.fullKey key] [] raw.toList with
        | error e =>
          rw [he] at hr
          cases hr
        | ok result =>
          rw [he] at hr
          cases hr
      | some text =>
        refine .inr (.inr ⟨text, by simp [resolves, hr, hk], ?_⟩)
        rw [value?, if_pos hk, hr, List.removeAll_cons, List.removeAll_nil]
        rfl
  · refine .inl ⟨fun hmem => hk (Store.contains_iff.mpr hmem), by simp [resolves, hk], ?_⟩
    rw [value?, if_neg hk]
    rfl

theorem Placed.crosses_value? (h : v.Placed) (key : String) :
    (v.value? key).Crosses (([key].takeWhile v.resolves).map v.fullKey) := by
  intro unread
  rcases h.run_value? key unread with ⟨-, hr, hrun⟩ | ⟨e, hr, hrun⟩ | ⟨text, hr, hrun⟩
  · simp [hrun, hr]
  · simp [hrun, hr]
  · simp [hrun, hr]

theorem Placed.crosses_string (h : v.Placed) (key : String) :
    (v.string key).Crosses (([key].takeWhile v.resolves).map v.fullKey) := by
  refine (h.crosses_value? key).bind fun value => ?_
  cases value with
  | some text => exact Reads.crosses_pure text
  | none => exact Reads.crosses_of _

theorem Placed.crosses_get? (h : v.Placed) (s : Shape) (key : String) :
    (v.get? s key).Crosses (([key].takeWhile v.resolves).map v.fullKey) := by
  refine (h.crosses_value? key).bind fun value => ?_
  cases value with
  | some text => exact (Reads.crosses_of _).map some
  | none => exact Reads.crosses_pure none

/-- Texts are asked for until one does not resolve. -/
theorem Placed.crosses_valuesBelow (h : v.Placed) {names : List String}
    (hnames : ∀ name ∈ names, dottedKey [key, name] ∈ v.own.store.keys) :
    (v.valuesBelow key names).Crosses
      (((names.map fun name => dottedKey [key, name]).takeWhile v.resolves).map v.fullKey) := by
  induction names with
  | nil => exact Reads.crosses_pure []
  | cons name names ih =>
    obtain ⟨hname, hnames⟩ := List.forall_mem_cons.mp hnames
    intro unread
    rw [valuesBelow, Reads.run_bind]
    rcases h.run_value? (dottedKey [key, name]) unread with ⟨hno, -⟩ | ⟨e, hr, hrun⟩ | ⟨text, hr, hrun⟩
    · exact absurd hname hno
    · simp [hrun, hr]
    · rw [hrun, List.map_cons, List.takeWhile_cons_of_pos hr, List.map_cons, List.removeAll_cons]
      refine ((ih hnames).bind fun rest => Reads.crosses_pure _) _ |>.trans ?_
      rw [List.removeAll_cons, List.removeAll_nil]

theorem Placed.crosses_tree (h : v.Placed) (s : Shape) (key : String) :
    (v.tree key).Crosses (v.resolved key (.bind s)) := by
  rw [tree_eq, resolved, asked]
  split
  · exact (h.crosses_string key).map _
  · exact (h.crosses_valuesBelow fun name hname => h.mem_namesBelow hname).map _

end View

namespace View

variable {v w : View} {key : String}

theorem Placed.of_bare (h : v.Placed) (hbare : w.bare = v.bare) : w.Placed where
  mem := by
    show ∀ k ∈ w.bare.own.store.keys, w.bare.fullKey k ∈ w.bare.document.store.keys
    rw [hbare]
    exact h.mem
  segmented := by
    show ∀ k ∈ w.bare.document.store.keys, Segmented k
    rw [hbare]
    exact h.segmented

theorem placed_empty : empty.Placed where
  mem k hk := by cases hk
  segmented k hk := by cases hk

theorem placed_ofStore {document : Store} (hseg : ∀ k ∈ document.keys, Segmented k) : (ofStore document).Placed where
  mem k hk := by
    have hfull : (ofStore document).fullKey k = k := dottedKey_empty_left k
    rwa [hfull]
  segmented := hseg

/-- The text of a key is there just where the key resolves. -/
theorem Placed.string_ok_iff (h : v.Placed) (key : String) (unread : List String) :
    (∃ text, ((v.string key).run.run unread).1 = .ok text) ↔ v.resolves key = true := by
  unfold string
  rw [Reads.run_bind]
  rcases h.run_value? key unread with ⟨-, hr, hrun⟩ | ⟨e, hr, hrun⟩ | ⟨text, hr, hrun⟩
  · rw [hr, hrun]
    refine ⟨?_, fun h => by cases h⟩
    rintro ⟨text, htext⟩
    cases htext
  · rw [hr, hrun]
    refine ⟨?_, fun h => by cases h⟩
    rintro ⟨text, htext⟩
    cases htext
  · rw [hr, hrun]
    exact ⟨fun _ => rfl, fun _ => ⟨text, rfl⟩⟩

end View

namespace Configuration

variable {c : Configuration} {document : Store} {read : String → Prop} {i : Nat} {key k : String}

/-! ### What an act resolves -/

/-- The keys of the document that an act resolves. -/
def Act.resolved (c : Configuration) : Act → List String
  | .ask i key q => (c.view i).resolved key q
  | .openView .. | .append _ => []

/-- Some act has resolved a key of the document, since it came. -/
def Read (store : Store) (acts : List Act) (k : String) : Prop :=
  ∃ before a behind, acts = before ++ a :: behind ∧ k ∈ (store.setAll (appended before)).keys ∧
    k ∈ a.resolved ((ofStore store).after before)

theorem not_read_nil (store : Store) (k : String) : ¬Read store [] k := by
  rintro ⟨before, a, behind, hacts, -⟩
  cases before with
  | nil => cases hacts
  | cons b before => cases hacts

theorem read_concat {store : Store} {acts : List Act} {a : Act} :
    Read store (acts ++ [a]) k ↔
      Read store acts k ∨
        k ∈ (store.setAll (appended acts)).keys ∧ k ∈ a.resolved ((ofStore store).after acts) := by
  constructor
  · rintro ⟨before, b, behind, hacts, hread⟩
    rcases List.eq_nil_or_concat behind with rfl | ⟨front, last, rfl⟩
    · obtain ⟨rfl, hb⟩ := List.append_inj' hacts rfl
      cases hb
      exact .inr hread
    · rw [List.concat_eq_append, ← List.cons_append, ← List.append_assoc] at hacts
      obtain ⟨rfl, -⟩ := List.append_inj' hacts rfl
      exact .inl ⟨before, b, front, rfl, hread⟩
  · rintro (⟨before, b, behind, rfl, hread⟩ | hread)
    · exact ⟨before, b, behind ++ [a], by simp, hread⟩
    · exact ⟨acts, a, [], rfl, hread⟩

theorem ask_unread (h : (c.view i).Placed) (key : String) (q : Query) :
    (c.ask i key q).2.unread = c.unread.removeAll ((c.view i).resolved key q) := by
  cases q with
  | raw => exact List.removeAll_nil.symm
  | contains => exact List.removeAll_nil.symm
  | string => exact h.crosses_string key c.unread
  | get s => exact ((h.crosses_string key).bind fun _ => Reads.crosses_of _) c.unread
  | get? s => exact h.crosses_get? s key c.unread
  | getD s default => exact ((h.crosses_get? s key).bind fun _ => Reads.crosses_pure _) c.unread
  | bind s => exact h.crosses_tree s key c.unread

theorem append_unread (c : Configuration) (i : Nat) (pairs : List (String × String)) :
    (c.append i pairs).unread = c.unread ++ (c.view i).addedKeys pairs := by
  cases pairs with
  | nil => exact (List.append_nil _).symm
  | cons p pairs => rfl

theorem Sound.mem_addedKeys (h : Sound document c) {pairs : List (String × String)} :
    k ∈ (c.view 0).addedKeys pairs ↔ k ∈ Assoc.keys pairs ∧ k ∉ document.keys := by
  have hadded : (c.view 0).addedKeys pairs = (View.ofStore document).addedKeys pairs := by
    show (c.view 0).bare.addedKeys pairs = _
    rw [h.view_bare]
  have hfull : ∀ k, (View.ofStore document).fullKey k = k := dottedKey_empty_left
  rw [hadded]
  simp only [View.addedKeys, hfull, List.mem_map, List.mem_filter, Assoc.keys, Prod.exists]
  constructor
  · rintro ⟨a, x, ⟨hmem, hno⟩, rfl⟩
    refine ⟨⟨a, x, hmem, rfl⟩, fun ha => ?_⟩
    rw [← Store.contains_iff] at ha
    rw [View.ofStore, ha] at hno
    cases hno
  · rintro ⟨⟨a, x, hmem, rfl⟩, hno⟩
    refine ⟨a, x, ⟨hmem, ?_⟩, rfl⟩
    rw [← Store.contains_iff] at hno
    simpa [View.ofStore] using hno

/-- The keys of the whole document that have not been read, in its order. -/
theorem Sound.remains_eq (h : Sound document c) : c.remains 0 = document.keys.filter fun k => c.unread.contains k := by
  have hremains : c.remains 0 =
      (c.view 0).bare.own.store.keys.filter fun key => c.unread.contains ((c.view 0).bare.fullKey key) := rfl
  have hfull : ∀ k, (View.ofStore document).fullKey k = k := dottedKey_empty_left
  rw [hremains, h.view_bare]
  simp only [hfull]
  rfl

/-! ### What a run keeps -/

/-- The views show keys of the document, of which those are not read that are on the list. -/
structure Audited (document : Store) (read : String → Prop) (c : Configuration) : Prop where
  placed : ∀ (i : Nat) (v : View), c.views[i]? = some v → v.Placed ∧ ∀ k ∈ v.document.store.keys, k ∈ document.keys
  came : ∀ k, read k → k ∈ document.keys
  unread : ∀ k ∈ document.keys, k ∈ c.unread ↔ ¬read k

theorem Audited.view (h : Audited document read c) (i : Nat) : (c.view i).Placed := by
  cases hv : c.views[i]? with
  | none =>
    rw [Configuration.view, hv]
    exact View.placed_empty
  | some v =>
    rw [view_eq hv]
    exact (h.placed i v hv).1

theorem audited_ofStore {store : Store} (hseg : ∀ k ∈ store.keys, Segmented k) :
    Audited store (Read store []) (ofStore store) where
  placed := by
    intro i v hv
    obtain ⟨rfl, rfl⟩ : i = 0 ∧ View.ofStore store = v := by
      cases i with
      | zero => exact ⟨rfl, Option.some.inj hv⟩
      | succ i => cases hv
    exact ⟨View.placed_ofStore hseg, fun _ hk => hk⟩
  came k hk := absurd hk (not_read_nil store k)
  unread k hk := ⟨fun _ => not_read_nil store k, fun _ => hk⟩

theorem Audited.ask (h : Audited document read c) (i : Nat) (key : String) (q : Query) :
    Audited document (fun k => read k ∨ k ∈ document.keys ∧ k ∈ (c.view i).resolved key q) (c.ask i key q).2 where
  placed := by
    rw [c.ask_views i key q]
    exact h.placed
  came k hk := hk.elim (h.came k) And.left
  unread k hk := by
    have hleft : k ∈ c.unread.removeAll ((c.view i).resolved key q) ↔
        k ∈ c.unread ∧ k ∉ (c.view i).resolved key q := by
      simp [List.removeAll]
    rw [ask_unread (h.view i), hleft, h.unread k hk, not_or, not_and]
    exact and_congr_right fun _ => ⟨fun hno _ => hno, fun hno => hno hk⟩

theorem Audited.openView (h : Audited document read c) (i : Nat) (key : String) :
    Audited document read (c.openView i key).2.2 := by
  have heq := congrArg Prod.snd (c.openView_eq i key)
  cases hk : Assoc.get? key (c.view i).kept with
  | some n =>
    rw [hk] at heq
    exact heq ▸ h
  | none =>
    rw [hk] at heq
    rw [heq]
    refine ⟨fun j w hw => ?_, h.came, h.unread⟩
    have hlen : (c.opened i key).views.length = c.views.length + 1 := by simp [Configuration.opened]
    have hlt : j < (c.opened i key).views.length := (List.getElem?_eq_some_iff.mp hw).1
    by_cases hj : j = c.views.length
    · rw [hj, getElem?_opened_length] at hw
      cases hw
      refine ⟨(h.view i).below key, ?_⟩
      cases hv : c.views[i]? with
      | none =>
        rw [Configuration.view, hv]
        intro k hk
        cases hk
      | some v =>
        rw [view_eq hv]
        exact (h.placed i v hv).2
    · obtain ⟨v, hv⟩ : ∃ v, c.views[j]? = some v := ⟨_, List.getElem?_eq_getElem (by omega)⟩
      obtain ⟨w', hw', hbare, -⟩ := getElem?_opened c i key hv
      obtain rfl : w = w' := Option.some.inj (hw.symm.trans hw')
      obtain ⟨hplaced, hsub⟩ := h.placed j v hv
      refine ⟨hplaced.of_bare hbare, ?_⟩
      show ∀ k ∈ w.bare.document.store.keys, k ∈ document.keys
      rw [hbare]
      exact hsub

theorem Audited.append (hsound : Sound document c) (h : Audited document read c) {pairs : List (String × String)}
    (hseg : ∀ k ∈ (document.setAll pairs).keys, Segmented k) :
    Audited (document.setAll pairs) read (c.append 0 pairs) where
  placed := by
    intro i w hw
    have hgrow : ∀ k ∈ document.keys, k ∈ (document.setAll pairs).keys := fun k hk =>
      Assoc.mem_keys_insertAll.mpr (.inl hk)
    by_cases hi : i = 0
    · subst hi
      have hbare : w.bare = (View.ofStore (document.setAll pairs)).bare := by
        rw [← view_eq hw, (hsound.append pairs).view_bare]
        rfl
      refine ⟨(View.placed_ofStore hseg).of_bare hbare, ?_⟩
      show ∀ k ∈ w.bare.document.store.keys, k ∈ (document.setAll pairs).keys
      rw [hbare]
      exact fun k hk => hk
    · by_cases hne : pairs = []
      · subst hne
        obtain ⟨hplaced, hsub⟩ := h.placed i w hw
        exact ⟨hplaced, fun k hk => hgrow k (hsub k hk)⟩
      · rw [getElem?_append c hne, if_neg hi] at hw
        obtain ⟨hplaced, hsub⟩ := h.placed i w hw
        exact ⟨hplaced, fun k hk => hgrow k (hsub k hk)⟩
  came k hk := Assoc.mem_keys_insertAll.mpr (.inl (h.came k hk))
  unread k hk := by
    rw [append_unread, List.mem_append, hsound.mem_addedKeys]
    by_cases hold : k ∈ document.keys
    · simp only [hold, not_true_eq_false, and_false, or_false]
      exact h.unread k hold
    · -- a key that has just come has not been read yet
      have hnew : k ∈ Assoc.keys pairs := (Assoc.mem_keys_insertAll.mp hk).resolve_left hold
      exact ⟨fun _ hread => hold (h.came k hread), fun _ => .inr ⟨hnew, hold⟩⟩

theorem Audited.act (hsound : Sound document c) (h : Audited document read c) (a : Act)
    (hseg : ∀ k ∈ (document.setAll a.pairs).keys, Segmented k) :
    Audited (document.setAll a.pairs) (fun k => read k ∨ k ∈ document.keys ∧ k ∈ a.resolved c) (c.act a) := by
  cases a with
  | ask i key q => exact h.ask i key q
  | openView i key =>
    obtain ⟨hplaced, hcame, hunread⟩ := h.openView i key
    refine ⟨hplaced, fun k hk => ?_, fun k hk => ?_⟩
    · exact hk.elim (hcame k) And.left
    · exact (hunread k hk).trans (by simp [Act.resolved])
  | append pairs =>
    obtain ⟨hplaced, hcame, hunread⟩ := h.append hsound hseg
    refine ⟨hplaced, fun k hk => ?_, fun k hk => ?_⟩
    · exact hk.elim (hcame k) fun hk => Assoc.mem_keys_insertAll.mpr (.inl hk.1)
    · exact (hunread k hk).trans (by simp [Act.resolved])

theorem appended_concat (acts : List Act) (a : Act) : appended (acts ++ [a]) = appended acts ++ a.pairs := by
  simp [appended]

/-- After a run, just those keys are unread that no act has resolved. -/
theorem audited_after {store : Store} {acts : List Act}
    (hseg : ∀ k ∈ (store.setAll (appended acts)).keys, Segmented k) :
    Audited (store.setAll (appended acts)) (Read store acts) ((ofStore store).after acts) := by
  induction acts using List.reverseRecOn with
  | nil => exact audited_ofStore hseg
  | append_singleton acts a ih =>
    have hgrown : store.setAll (appended (acts ++ [a])) = (store.setAll (appended acts)).setAll a.pairs := by
      rw [appended_concat, Store.setAll_append]
    have hsound := ((sound_ofStore store).after acts).1
    have haudited := ih fun k hk => hseg k (hgrown ▸ Assoc.mem_keys_insertAll.mpr (.inl hk))
    have hread : Read store (acts ++ [a]) = fun k => Read store acts k ∨
        k ∈ (store.setAll (appended acts)).keys ∧ k ∈ a.resolved ((ofStore store).after acts) :=
      funext fun k => propext read_concat
    have hafter : (ofStore store).after (acts ++ [a]) = ((ofStore store).after acts).act a :=
      List.foldl_append
    rw [hread, hafter, hgrown]
    exact haudited.act hsound a (hgrown ▸ hseg)

/-- After any run, the unread keys of the document are those that no act has resolved since they came, in the order of
    the document. A typed read of a key marks that key and no other, and only if the text of the key is there; pairs that
    are laid over the document leave the keys that it has as they are. -/
theorem remains_after (store : Store) (acts : List Act)
    (hseg : ∀ k ∈ (store.setAll (appended acts)).keys, Segmented k) :
    let document := store.setAll (appended acts)
    let c := (ofStore store).after acts
    ((c.remains 0).Sublist document.keys ∧ (c.remains 0).Nodup ∧
      ∀ k, k ∈ c.remains 0 ↔ k ∈ document.keys ∧ ¬Read store acts k) ∧
    (∀ i key q, q.ofOne →
      ((∀ text, (c.ask i key .string).1 ≠ .ok text) → (c.ask i key q).2.remains 0 = c.remains 0) ∧
      ((∃ text, (c.ask i key .string).1 = .ok text) →
        (c.ask i key q).2.remains 0 = (c.remains 0).filter (· != (c.view i).fullKey key))) ∧
    (∀ pairs, ∀ k ∈ document.keys, k ∈ (c.append 0 pairs).remains 0 ↔ k ∈ c.remains 0) := by
  intro document c
  have hsound : Sound document c := ((sound_ofStore store).after acts).1
  have haudited : Audited document (Read store acts) c := audited_after hseg
  have hremains : c.remains 0 = document.keys.filter fun k => c.unread.contains k := hsound.remains_eq
  refine ⟨⟨?_, ?_, fun k => ?_⟩, fun i key q hq => ?_, fun pairs k hk => ?_⟩
  · rw [hremains]
    exact List.filter_sublist
  · rw [hremains]
    exact document.nodup.filter _
  · rw [hremains, List.mem_filter, List.contains_iff_mem]
    exact and_congr_right fun hk => haudited.unread k hk
  · have hplaced : (c.view i).Placed := haudited.view i
    have hasked : (c.view i).asked key q = [key] := by
      cases q with
      | raw | contains | bind s => cases hq
      | string | get s | get? s | getD s default => rfl
    have hresolved : (c.view i).resolved key q = if (c.view i).resolves key then [(c.view i).fullKey key] else [] := by
      rw [View.resolved, hasked]
      split
      · next hr => rw [List.takeWhile_cons_of_pos hr]; rfl
      · next hr => rw [List.takeWhile_cons_of_neg hr]; rfl
    have hiff := hplaced.string_ok_iff key c.unread
    have hafter : (c.ask i key q).2.remains 0 =
        document.keys.filter fun k => (c.unread.removeAll ((c.view i).resolved key q)).contains k := by
      rw [(hsound.of_views (c.ask_views i key q)).remains_eq, ask_unread hplaced]
    constructor
    · intro hno
      have hr : ¬(c.view i).resolves key = true := fun hr => (hiff.mpr hr).elim hno
      rw [hafter, hremains, hresolved, if_neg hr, List.removeAll_nil]
    · intro hsome
      have hr : (c.view i).resolves key = true := hiff.mp hsome
      rw [hafter, hremains, hresolved, if_pos hr, List.filter_filter]
      refine List.filter_congr fun k _ => ?_
      rw [Bool.eq_iff_iff]
      simp [List.removeAll, and_comm]
  · have hgrow : k ∈ (document.setAll pairs).keys := Assoc.mem_keys_insertAll.mpr (.inl hk)
    rw [hremains, (hsound.append pairs).remains_eq, List.mem_filter, List.mem_filter, List.contains_iff_mem,
      List.contains_iff_mem, append_unread, List.mem_append, hsound.mem_addedKeys]
    simp [hk, hgrow]

/-- Pairs that are laid over a document of which a view is open. -/
def relaid : Store where
  pairs := [("db.host", "local"), ("db.url", "$\x7bdb.host\x7d")]
  nodup := by decide

/-- A text that is read through a view from before the pairs, and is no number. -/
theorem remains_relaid :
    let acts : List Act := [.openView 0 "db", .append [("db.host", "far"), ("db.port", "$\x7bx\x7d")]]
    let c := (ofStore relaid).after acts
    (∀ k, k ∈ c.remains 0 ↔ k ∈ ["db.host", "db.url", "db.port"] ∧ ¬Read relaid acts k) ∧
      (c.ask 1 "host" (.get .float)).2.remains 0 = (c.remains 0).filter (· != "db.host") := by
  intro acts c
  have h := remains_after relaid acts (by unfold Segmented; decide)
  have hplain : Reference.expand relaid.pairs .fail ["db.host"] [] "local".toList = .ok ("local".toList, []) := by
    rw [Reference.expand_sweep, Reference.sweep]
    rfl
  have hvalue : Reference.resolveKey relaid.pairs .fail "db.host" = .ok (some "local") := by
    have hraw : Assoc.get? "db.host" relaid.pairs = some "local" := by decide
    rw [Reference.resolveKey_stored hraw, hplain]
    rfl
  have htext : (c.ask 1 "host" .string).1 = .ok "local" := by
    have hread : (c.view 1).value? "host" = do
        let value ← .of (Reference.resolveKey relaid.pairs .fail "db.host")
        Reads.crossOff "db.host"
        return value := rfl
    show ((c.view 1).string "host" |>.run.run c.unread).1 = _
    rw [View.string, hread, hvalue]
    rfl
  exact ⟨h.1.2.2, (h.2.1 1 "host" (.get .float) rfl).2 ⟨_, htext⟩⟩

end Configuration

end Settings
