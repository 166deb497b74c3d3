import Settings.Store

/-! # Laying pairs over pairs

Pairs that are laid over others one by one may be laid over them in several goes, or be laid over each other
first. -/

namespace Settings.Assoc

variable {κ β : Type} [DecidableEq κ] {k a : κ} {v b : β} {l pairs : List (κ × β)}

theorem mem_insert {p : κ × β} (h : p ∈ insert k v l) : p = (k, v) ∨ p ∈ l := by
  induction l with
  | nil => exact .inl (List.mem_singleton.mp h)
  | cons q l ih =>
    unfold insert at h
    split at h
    · next hk =>
      rcases List.mem_cons.mp h with rfl | h
      · exact .inl (by rw [hk])
      · exact .inr (List.mem_cons_of_mem q h)
    · rcases List.mem_cons.mp h with rfl | h
      · exact .inr List.mem_cons_self
      · exact (ih h).imp id (List.mem_cons_of_mem q)

theorem mem_insertAll {p : κ × β} (h : p ∈ insertAll l pairs) : p ∈ l ∨ p ∈ pairs := by
  induction pairs generalizing l with
  | nil => exact .inl h
  | cons q pairs ih =>
    rcases ih (l := insert q.1 q.2 l) h with h | h
    · rcases mem_insert h with rfl | h
      · exact .inr List.mem_cons_self
      · exact .inl h
    · exact .inr (List.mem_cons_of_mem q h)

theorem mem_ofList {p : κ × β} (h : p ∈ ofList pairs) : p ∈ pairs := (mem_insertAll h).resolve_left (nomatch ·)

theorem mem_keys_insertAll : a ∈ keys (insertAll l pairs) ↔ a ∈ keys l ∨ a ∈ keys pairs := by
  induction pairs generalizing l with
  | nil => simp [insertAll]
  | cons p pairs ih =>
    have hstep : insertAll l (p :: pairs) = insertAll (insert p.1 p.2 l) pairs := rfl
    rw [hstep, ih, mem_keys_insert, keys_cons, List.mem_cons, or_assoc, or_left_comm]

theorem length_insert_le (k : κ) (v : β) (l : List (κ × β)) : (insert k v l).length ≤ l.length + 1 := by
  induction l with
  | nil => exact Nat.le_refl _
  | cons p l ih =>
    unfold insert
    split
    · exact Nat.le_succ _
    · exact Nat.succ_le_succ ih

theorem length_insertAll_le (l pairs : List (κ × β)) : (insertAll l pairs).length ≤ l.length + pairs.length := by
  induction pairs generalizing l with
  | nil => exact Nat.le_refl _
  | cons p pairs ih =>
    have hstep := length_insert_le p.1 p.2 l
    have hrest := ih (insert p.1 p.2 l)
    rw [List.length_cons]
    exact Nat.le_trans hrest (by omega)

/-- Where no pair takes the place of another one, each is put behind those that are there. -/
theorem insertAll_of_length (h : (insertAll l pairs).length = l.length + pairs.length) :
    insertAll l pairs = l ++ pairs := by
  induction pairs generalizing l with
  | nil => exact (List.append_nil l).symm
  | cons p pairs ih =>
    have hstep : insertAll l (p :: pairs) = insertAll (insert p.1 p.2 l) pairs := rfl
    have hle := length_insertAll_le (insert p.1 p.2 l) pairs
    have hinsert := length_insert_le p.1 p.2 l
    rw [hstep] at h ⊢
    rw [List.length_cons] at h
    have hfresh : p.1 ∉ keys l := fun hk => by
      have hkeys := congrArg List.length ((keys_insert p.1 p.2 l).trans (if_pos hk))
      rw [keys, keys, List.length_map, List.length_map] at hkeys
      omega
    rw [ih (by omega), insert_of_not_mem hfresh, List.append_assoc]
    rfl

theorem insertAll_append (l pairs more : List (κ × β)) :
    insertAll l (pairs ++ more) = insertAll (insertAll l pairs) more := List.foldl_append

theorem get?_insertAll_of_not_mem (h : k ∉ keys pairs) (l : List (κ × β)) : get? k (insertAll l pairs) = get? k l := by
  induction pairs generalizing l with
  | nil => rfl
  | cons p pairs ih =>
    obtain ⟨hp, hpairs⟩ := not_or.mp (mt List.mem_cons.mpr h)
    exact (ih hpairs _).trans (get?_insert_of_ne hp p.2 l)

theorem get?_insertAll_of_mem (h : (keys pairs).Nodup) (hmem : (k, v) ∈ pairs) (l : List (κ × β)) :
    get? k (insertAll l pairs) = some v := by
  induction pairs generalizing l with
  | nil => cases hmem
  | cons p pairs ih =>
    obtain ⟨hp, hpairs⟩ := List.nodup_cons.mp h
    rcases List.mem_cons.mp hmem with rfl | hmem
    · exact (get?_insertAll_of_not_mem hp _).trans (get?_insert_self k v l)
    · exact ih hpairs hmem _

theorem filter_insert {P : κ → Bool} (hk : P k = false) (v : β) (l : List (κ × β)) :
    (insert k v l).filter (P ·.1) = l.filter (P ·.1) := by
  induction l with
  | nil => simp [insert, hk]
  | cons p l ih =>
    unfold insert
    split
    · next hp => simp [hp, hk]
    · rw [List.filter_cons, List.filter_cons, ih]

/-- The pairs of other keys keep their values and their order. -/
theorem filter_insertAll {P : κ → Bool} (h : ∀ k ∈ keys pairs, P k = false) (l : List (κ × β)) :
    (insertAll l pairs).filter (P ·.1) = l.filter (P ·.1) := by
  induction pairs generalizing l with
  | nil => rfl
  | cons p pairs ih =>
    obtain ⟨hp, hpairs⟩ := List.forall_mem_cons.mp h
    exact (ih hpairs _).trans (filter_insert hp p.2 l)

theorem eraseDups_concat (ks : List κ) (k : κ) :
    (ks ++ [k]).eraseDups = if k ∈ ks then ks.eraseDups else ks.eraseDups ++ [k] := by
  rw [List.eraseDups_append]
  split
  · next h => simp [List.removeAll, h]
  · next h => simp [List.removeAll, List.eraseDups_cons, h]

/-- Keys that are set one after the other stand in the order in which they first come. -/
theorem keys_insert_eraseDups {ks : List κ} (h : keys l = ks.eraseDups) (k : κ) (v : β) :
    keys (insert k v l) = (ks ++ [k]).eraseDups := by
  rw [keys_insert, eraseDups_concat, h]
  simp only [List.mem_eraseDups]

theorem insert_insert_self (k : κ) (v b : β) (l : List (κ × β)) : insert k v (insert k b l) = insert k v l := by
  induction l with
  | nil => simp [insert]
  | cons p l ih =>
    by_cases hk : p.1 = k
    · simp [insert, hk]
    · simp [insert, hk, ih]

/-- A key that has its place may be set before or after another one. -/
theorem insert_comm (hne : a ≠ k) (ha : a ∈ keys l) (v b : β) :
    insert a b (insert k v l) = insert k v (insert a b l) := by
  induction l with
  | nil => cases ha
  | cons p l ih =>
    by_cases hpa : p.1 = a
    · have hpk : p.1 ≠ k := fun h => hne (hpa.symm.trans h)
      simp [insert, hpa, hne]
    · have ha : a ∈ keys l := (List.mem_cons.mp ha).resolve_left (Ne.symm hpa)
      by_cases hpk : p.1 = k
      · simp [insert, hpk, Ne.symm hne]
      · simp [insert, hpa, hpk, ih ha]

theorem insert_insertAll (hk : k ∉ keys pairs) (hl : k ∈ keys l) (v : β) :
    insert k v (insertAll l pairs) = insertAll (insert k v l) pairs := by
  induction pairs generalizing l with
  | nil => rfl
  | cons p pairs ih =>
    rw [keys_cons, List.mem_cons, not_or] at hk
    have hstep := ih hk.2 (mem_keys_insert.mpr (.inr hl)) (l := insert p.1 p.2 l)
    rw [insert_comm hk.1 hl] at hstep
    exact hstep

/-- A key may be set among the pairs that are laid over others, or behind them. -/
theorem insertAll_insert (h : (keys pairs).Nodup) (l : List (κ × β)) (k : κ) (v : β) :
    insertAll l (insert k v pairs) = insert k v (insertAll l pairs) := by
  induction pairs generalizing l with
  | nil => rfl
  | cons p pairs ih =>
    obtain ⟨hp, hpairs⟩ := List.nodup_cons.mp h
    by_cases hk : p.1 = k
    · subst hk
      have hover := insert_insertAll hp (mem_keys_insert.mpr (.inl rfl)) v (l := insert p.1 p.2 l)
      rw [insert_insert_self] at hover
      rw [insert, if_pos rfl]
      exact hover.symm
    · rw [insert, if_neg hk]
      exact ih hpairs (insert p.1 p.2 l)

/-- Keys may be told apart before or after they are renamed. -/
theorem map_insert {f : κ → κ} (hf : ∀ a b, f a = f b → a = b) (k : κ) (v : β) (l : List (κ × β)) :
    (insert k v l).map (Prod.map f id) = insert (f k) v (l.map (Prod.map f id)) := by
  induction l with
  | nil => rfl
  | cons p l ih =>
    obtain ⟨a, b⟩ := p
    by_cases hk : a = k
    · simp [insert, hk]
    · have hfk : f a ≠ f k := fun h => hk (hf a k h)
      simp [insert, hk, hfk, ih]

omit [DecidableEq κ] in
theorem nodup_map {f : κ → κ} (hf : ∀ a b, f a = f b → a = b) (h : (keys l).Nodup) :
    (keys (l.map (Prod.map f id))).Nodup := by
  have hkeys : keys (l.map (Prod.map f id)) = (keys l).map f := by
    simp [keys, Function.comp_def]
  rw [hkeys]
  exact List.pairwise_map.mpr (h.imp fun hne heq => hne (hf _ _ heq))

end Settings.Assoc

namespace Settings.Store

theorem setAll_append (s : Store) (pairs more : List (String × String)) :
    s.setAll (pairs ++ more) = (s.setAll pairs).setAll more := ext' (Assoc.insertAll_append s.pairs pairs more)

theorem get?_setAll_of_not_mem {k : String} {pairs : List (String × String)} (h : k ∉ Assoc.keys pairs) (s : Store) :
    (s.setAll pairs).get? k = s.get? k := Assoc.get?_insertAll_of_not_mem h s.pairs

end Settings.Store
