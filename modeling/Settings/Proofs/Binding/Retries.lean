import Settings.Proofs.Binding.Skipping

/-! # How often binding starts over

Whenever binding reads a tree again, the tree has lost one entry of one of its maps. So binding starts over at most as
often as the tree has nodes below its root, whatever the reader of the type accepts, and wherever it finds misfits. -/

namespace Settings

/-! ### Losing an entry -/

namespace Tree

/-- `Loses path t t'`: the tree `t'` is `t` without the entry of a map that the path leads to, and without all that
    is below this entry. All other entries and items are as they were, in the same order. -/
inductive Loses : List PathStep → Tree → Tree → Prop
  | entry {k : String} {u : Tree} {before after : List (String × Tree)} (hk : k ∉ Assoc.keys before) :
      Loses [.key k] (map (before ++ (k, u) :: after)) (map (before ++ after))
  | member {k : String} {path : List PathStep} {u u' : Tree} {before after : List (String × Tree)}
      (hk : k ∉ Assoc.keys before) (h : Loses path u u') :
      Loses (.key k :: path) (map (before ++ (k, u) :: after)) (map (before ++ (k, u') :: after))
  | item {path : List PathStep} {u u' : Tree} {before after : List Tree} (h : Loses path u u') :
      Loses (.index before.length :: path) (list (before ++ u :: after)) (list (before ++ u' :: after))

variable {t t' : Tree} {ts ts' : List Tree} {ms ms' : List (String × Tree)} {k : String} {i : Nat}
  {path : List PathStep} {f : Tree → Option Tree}

theorem exists_entry (hk : k ∈ Assoc.keys ms) :
    ∃ before u after, ms = before ++ (k, u) :: after ∧ k ∉ Assoc.keys before := by
  induction ms with
  | nil => exact absurd hk List.not_mem_nil
  | cons p ms ih =>
    obtain ⟨a, u⟩ := p
    by_cases ha : a = k
    · exact ⟨[], u, ms, by rw [ha]; rfl, List.not_mem_nil⟩
    · obtain ⟨before, u', after, rfl, hbefore⟩ := ih ((List.mem_cons.mp hk).resolve_left (Ne.symm ha))
      exact ⟨(a, u) :: before, u', after, rfl, fun h => (List.mem_cons.mp h).elim (Ne.symm ha) hbefore⟩

theorem erase_entry {before after : List (String × Tree)} (hk : k ∉ Assoc.keys before) (u : Tree) :
    Assoc.erase k (before ++ (k, u) :: after) = before ++ after := by
  induction before with
  | nil => exact if_pos rfl
  | cons p before ih =>
    rw [Assoc.keys_cons, List.mem_cons, not_or] at hk
    exact (if_neg (Ne.symm hk.1)).trans (congrArg (p :: ·) (ih hk.2))

theorem alterMember_eq_some_iff :
    alterMember k f ms = some ms' ↔ ∃ before u u' after, ms = before ++ (k, u) :: after ∧ k ∉ Assoc.keys before ∧
      f u = some u' ∧ ms' = before ++ (k, u') :: after := by
  constructor
  · intro h
    induction ms generalizing ms' with
    | nil => cases h
    | cons p ms ih =>
      obtain ⟨a, u⟩ := p
      rw [alterMember] at h
      split at h
      · next ha =>
        obtain ⟨u', hu, rfl⟩ := Option.map_eq_some_iff.mp h
        exact ⟨[], u, u', ms, by rw [ha]; rfl, List.not_mem_nil, hu, by rw [ha]; rfl⟩
      · next ha =>
        obtain ⟨ms'', hms, rfl⟩ := Option.map_eq_some_iff.mp h
        obtain ⟨before, v, v', after, rfl, hbefore, hv, rfl⟩ := ih hms
        exact ⟨(a, u) :: before, v, v', after, rfl, fun h => (List.mem_cons.mp h).elim (Ne.symm ha) hbefore, hv, rfl⟩
  · rintro ⟨before, u, u', after, rfl, hbefore, hu, rfl⟩
    induction before with
    | nil => rw [List.nil_append, alterMember, if_pos rfl, hu]; rfl
    | cons p before ih =>
      rw [Assoc.keys_cons, List.mem_cons, not_or] at hbefore
      rw [List.cons_append, alterMember, if_neg (Ne.symm hbefore.1), ih hbefore.2]
      rfl

theorem alterItem_eq_some_iff :
    alterItem f i ts = some ts' ↔ ∃ before u u' after, ts = before ++ u :: after ∧ i = before.length ∧
      f u = some u' ∧ ts' = before ++ u' :: after := by
  constructor
  · intro h
    induction ts generalizing i ts' with
    | nil => cases i <;> cases h
    | cons u ts ih =>
      cases i with
      | zero =>
        obtain ⟨u', hu, rfl⟩ := Option.map_eq_some_iff.mp h
        exact ⟨[], u, u', ts, rfl, rfl, hu, rfl⟩
      | succ i =>
        obtain ⟨ts'', hts, rfl⟩ := Option.map_eq_some_iff.mp h
        obtain ⟨before, v, v', after, rfl, rfl, hv, rfl⟩ := ih hts
        exact ⟨u :: before, v, v', after, rfl, rfl, hv, rfl⟩
  · rintro ⟨before, u, u', after, rfl, rfl, hu, rfl⟩
    induction before with
    | nil => rw [List.nil_append, List.length_nil, alterItem, hu]; rfl
    | cons v before ih => rw [List.cons_append, List.length_cons, alterItem, ih]; rfl

/-- What is taken out at a path that ends with a key is one entry of a map. -/
theorem remove?_eq_some_iff (k : String) :
    t.remove? (path ++ [.key k]) = some t' ↔ Loses (path ++ [.key k]) t t' := by
  induction path generalizing t t' with
  | nil =>
    -- The last key is the one at which an entry goes.
    constructor
    · intro h
      cases t with
      | map ms =>
        rw [List.nil_append, remove?] at h
        split at h
        · next hk =>
          cases h
          obtain ⟨before, u, after, rfl, hbefore⟩ := exists_entry (Assoc.get?_isSome_iff.mp hk)
          rw [erase_entry hbefore]
          exact .entry hbefore
        · cases h
      | _ => cases h
    · intro h
      cases h with
      | @entry _ u before after hk =>
        have hmem : k ∈ Assoc.keys (before ++ (k, u) :: after) := by simp [Assoc.keys]
        rw [List.nil_append, remove?, if_pos (Assoc.get?_isSome_iff.mpr hmem), erase_entry hk]
      | member hk h => cases h
  | cons step path ih =>
    have hne : path ++ [.key k] ≠ [] := by simp
    rw [List.cons_append]
    cases step with
    | key a =>
      constructor
      · intro h
        cases t with
        | map ms =>
          rw [remove?_key hne] at h
          obtain ⟨ms', hms, rfl⟩ := Option.map_eq_some_iff.mp h
          obtain ⟨before, u, u', after, rfl, hbefore, hu, rfl⟩ := alterMember_eq_some_iff.mp hms
          exact .member hbefore (ih.mp hu)
        | _ => simp [remove?] at h
      · generalize hpath : path ++ [.key k] = rest at hne ih ⊢
        intro h
        cases h with
        | entry => exact absurd rfl hne
        | member hk h =>
          rw [remove?_key hne, alterMember_eq_some_iff.mpr ⟨_, _, _, _, rfl, hk, ih.mpr h, rfl⟩]
          rfl
    | index i =>
      constructor
      · intro h
        cases t with
        | list ts =>
          rw [remove?_index hne] at h
          obtain ⟨ts', hts, rfl⟩ := Option.map_eq_some_iff.mp h
          obtain ⟨before, u, u', after, rfl, rfl, hu, rfl⟩ := alterItem_eq_some_iff.mp hts
          exact .item (ih.mp hu)
        | _ => simp [remove?] at h
      · intro h
        cases h with
        | item h =>
          rw [remove?_index hne, alterItem_eq_some_iff.mpr ⟨_, _, _, _, rfl, rfl, ih.mpr h, rfl⟩]
          rfl

end Tree

/-- A path up to the last key on it ends with that key. -/
theorem exists_lastKey {path : List PathStep} (h : upToKey path ≠ []) : ∃ front k, upToKey path = front ++ [.key k] := by
  induction path with
  | nil => exact absurd rfl h
  | cons step path ih =>
    by_cases hpath : upToKey path = []
    · cases step with
      | key k => exact ⟨[], k, by rw [upToKey_key, hpath]; rfl⟩
      | index i => exact absurd (by rw [upToKey_index, if_pos hpath]) h
    · obtain ⟨front, k, hfront⟩ := ih hpath
      cases step with
      | key a => exact ⟨.key a :: front, k, by rw [upToKey_key, hfront]; rfl⟩
      | index i => exact ⟨.index i :: front, k, by rw [upToKey_index, if_neg hpath, hfront]; rfl⟩

theorem Misfit.remove?_field {m : Misfit} {path : List PathStep} (hf : m.field? = some path) {t t' : Tree} :
    t.remove? path = some t' ↔ Tree.Loses path t t' := by
  rw [Misfit.field?_eq] at hf
  split at hf
  · cases hf
  · next hne =>
    cases hf
    obtain ⟨front, k, hfront⟩ := exists_lastKey hne
    rw [hfront]
    exact Tree.remove?_eq_some_iff k

/-! ### Retries -/

/-- The notice of a field that is left out. -/
def Notice.isSkipped : Notice → Bool
  | .skipped .. => true
  | _ => false

section Retries
variable {α : Type} {read : Tree → Fit α} {n : Nat} {t u : Tree}

/-- `Retries read n t u`: with `n` retries the tree `t` has become `u`. Each of them reads the tree before it without
    one entry, that of the field around the misfit. -/
inductive Retries (read : Tree → Fit α) : Nat → Tree → Tree → Prop
  | done {t : Tree} : Retries read 0 t t
  | again {n : Nat} {t t' u : Tree} {m : Misfit} {path : List PathStep} (hm : read t = .error m)
      (hf : m.field? = some path) (hloses : Tree.Loses path t t') (h : Retries read n t' u) : Retries read (n + 1) t u

/-- Each retry costs the tree a node at least. -/
theorem Retries.add_size_le (h : Retries read n t u) : n + u.size ≤ t.size := by
  induction h with
  | done => exact Nat.le_of_eq (Nat.zero_add _)
  | again hm hf hloses h ih =>
    have hsize := Tree.size_remove?_lt ((Misfit.remove?_field hf).mpr hloses)
    omega

theorem Retries.lt_size (h : Retries read n t u) : n < t.size := by
  have hpos := u.size_pos
  have hsize := h.add_size_le
  omega

/-- No retry follows where the tree fits, or where the field around its misfit cannot be taken out. -/
theorem not_retries_one (h : ∀ m path, read t = .error m → m.field? = some path → t.remove? path = none) (u : Tree) :
    ¬ Retries read 1 t u := by
  intro hretry
  cases hretry with
  | again hm hf hloses => cases (h _ _ hm hf).symm.trans ((Misfit.remove?_field hf).mpr hloses)

/-- Binding ends at a tree: no retry follows, and the result is the value that is read, or else the misfit. -/
structure Settles (type : String) (read : Tree → Fit α) (u : Tree) (result : Except Fault α) : Prop where
  last : ∀ u', ¬ Retries read 1 u u'
  outcome : result =
    match read u with
    | .ok (a, _) => .ok a
    | .error m => .error (.binding type m.message)

theorem countP_ignored (type : String) (ignored : List (List String)) :
    (ignored.map fun path => Notice.ignored type (".".intercalate path)).countP Notice.isSkipped = 0 := by
  rw [List.countP_eq_zero]
  intro notice h
  obtain ⟨path, -, rfl⟩ := List.mem_map.mp h
  exact Bool.false_ne_true

/-- Binding starts over a number of times, which is less than the size of the tree (that counts the root too), and which
    its notices tell. Then it ends, with a value or with the misfit of what is left. -/
theorem bindWith_retries (type : String) (read : Tree → Fit α) (t : Tree) :
    (∀ n u, Retries read n t u → n < t.size) ∧
    ∃ n u, Retries read n t u ∧ Settles type read u (bindWith type read t).result ∧
      (bindWith type read t).notices.countP Notice.isSkipped = n := by
  refine ⟨fun n u h => h.lt_size, ?_⟩
  fun_induction bindWith type read t with
  | case1 t a ignored hread =>
    have hlast : ∀ u', ¬ Retries read 1 t u' := not_retries_one fun m path hm _ => nomatch hread.symm.trans hm
    exact ⟨0, t, .done, ⟨hlast, by rw [hread]⟩, countP_ignored type ignored⟩
  | case2 t m hread hfield =>
    have hlast : ∀ u', ¬ Retries read 1 t u' := not_retries_one fun m' path hm hf => by
      cases hread.symm.trans hm
      cases hfield.symm.trans hf
    exact ⟨0, t, .done, ⟨hlast, by rw [hread]; rfl⟩, rfl⟩
  | case3 t m hread path hfield hnone =>
    have hlast : ∀ u', ¬ Retries read 1 t u' := not_retries_one fun m' path' hm hf => by
      cases hread.symm.trans hm
      cases hfield.symm.trans hf
      exact hnone
    exact ⟨0, t, .done, ⟨hlast, by rw [hread]; rfl⟩, rfl⟩
  | case4 t m hread path hfield rest hrest ih =>
    obtain ⟨n, u, hretries, hsettles, hcount⟩ := ih
    refine ⟨n + 1, u, .again hread hfield ((Misfit.remove?_field hfield).mp hrest) hretries, ?_, ?_⟩
    · rw [Noted.result_bind]
      exact hsettles
    · rw [Noted.notices_bind_of_ok (Noted.result_note _), List.countP_append, hcount, Nat.add_comm]
      rfl

end Retries

end Settings
