/-!
# Ordered associations

Pairs of a key and a value in the order in which the keys first came. A later value of a key takes the
place of the earlier one. Stores and the maps of trees are such lists of pairs.
-/
namespace Settings.Assoc

variable {κ β : Type}

section Basic
variable [DecidableEq κ]

/-- The value of a key. -/
def get? (k : κ) : List (κ × β) → Option β
  | [] => none
  | (a, b) :: r => if a = k then some b else get? k r

/-- Sets the value of a key: in its place, or else behind all pairs. -/
def insert (k : κ) (v : β) : List (κ × β) → List (κ × β)
  | [] => [(k, v)]
  | (a, b) :: r => if a = k then (a, v) :: r else (a, b) :: insert k v r

/-- Leaves out the first pair of a key. -/
def erase (k : κ) : List (κ × β) → List (κ × β)
  | [] => []
  | (a, b) :: r => if a = k then r else (a, b) :: erase k r

/-- Lays pairs over `l`, one after the other. -/
def insertAll (l : List (κ × β)) (pairs : List (κ × β)) : List (κ × β) :=
  pairs.foldl (fun acc p => insert p.1 p.2 acc) l

/-- The pairs with each key in its first place and with its last value. -/
def ofList (pairs : List (κ × β)) : List (κ × β) := insertAll [] pairs

end Basic

/-- The keys in order. -/
def keys (l : List (κ × β)) : List κ := l.map Prod.fst

@[simp] theorem keys_nil : keys ([] : List (κ × β)) = [] := rfl

@[simp] theorem keys_cons (p : κ × β) (l : List (κ × β)) : keys (p :: l) = p.1 :: keys l := rfl

theorem not_mem_of_nodup {k : κ} {v : β} {l r : List (κ × β)} (h : (keys (l ++ (k, v) :: r)).Nodup) : k ∉ keys l := by
  rw [keys, List.map_append, List.nodup_append] at h
  exact fun hk => h.2.2 k hk k List.mem_cons_self rfl

variable [DecidableEq κ]

theorem get?_eq_none_iff {k : κ} {l : List (κ × β)} : get? k l = none ↔ k ∉ keys l := by
  induction l with
  | nil => simp [get?]
  | cons p r ih =>
    simp only [get?, keys_cons, List.mem_cons, not_or]
    split
    · next h => simp [h]
    · next h => simp [ih, Ne.symm h]

theorem get?_isSome_iff {k : κ} {l : List (κ × β)} : (get? k l).isSome ↔ k ∈ keys l := by
  rw [← Decidable.not_iff_not, ← get?_eq_none_iff]; simp

theorem mem_of_get? {k : κ} {v : β} {l : List (κ × β)} (h : get? k l = some v) : (k, v) ∈ l := by
  induction l with
  | nil => simp [get?] at h
  | cons p r ih =>
    simp only [get?] at h
    split at h
    · next hk => simp only [Option.some.injEq] at h; simp [← hk, ← h]
    · exact List.mem_cons_of_mem _ (ih h)

theorem mem_keys_of_get? {k : κ} {v : β} {l : List (κ × β)} (h : get? k l = some v) : k ∈ keys l :=
  List.mem_map_of_mem (mem_of_get? h)

theorem get?_of_mem {k : κ} {v : β} {l : List (κ × β)} (hl : (keys l).Nodup) (h : (k, v) ∈ l) : get? k l = some v := by
  obtain ⟨l, r, rfl⟩ := List.append_of_mem h
  have hk := not_mem_of_nodup hl
  clear hl h
  induction l with
  | nil => exact if_pos rfl
  | cons p l ih =>
    rw [keys_cons, List.mem_cons, not_or] at hk
    exact (if_neg (Ne.symm hk.1)).trans (ih hk.2)

theorem keys_insert (k : κ) (v : β) (l : List (κ × β)) :
    keys (insert k v l) = if k ∈ keys l then keys l else keys l ++ [k] := by
  induction l with
  | nil => simp [insert]
  | cons p r ih =>
    simp only [insert, keys_cons, List.mem_cons]
    split
    · next h => simp [h]
    · next h => simp only [keys_cons, ih, Ne.symm h, false_or]; split <;> simp

theorem mem_keys_insert {k a : κ} {v : β} {l : List (κ × β)} : a ∈ keys (insert k v l) ↔ a = k ∨ a ∈ keys l := by
  rw [keys_insert]
  split
  · next h => exact ⟨Or.inr, fun h' => h'.elim (· ▸ h) id⟩
  · simp [or_comm]

theorem insert_of_not_mem {k : κ} {v : β} {l : List (κ × β)} (h : k ∉ keys l) : insert k v l = l ++ [(k, v)] := by
  induction l with
  | nil => rfl
  | cons p r ih =>
    rw [keys_cons, List.mem_cons, not_or] at h
    rw [insert, if_neg (Ne.symm h.1), ih h.2, List.cons_append]

theorem nodup_insert {k : κ} {v : β} {l : List (κ × β)} (h : (keys l).Nodup) : (keys (insert k v l)).Nodup := by
  rw [keys_insert]
  split
  · exact h
  · next hk => exact List.nodup_append.2 ⟨h, by simp, by rintro a ha b hb rfl; simp at hb; exact hk (hb ▸ ha)⟩

theorem nodup_insertAll {l pairs : List (κ × β)} (h : (keys l).Nodup) : (keys (insertAll l pairs)).Nodup := by
  induction pairs generalizing l with
  | nil => exact h
  | cons p ps ih => exact ih (nodup_insert h)

theorem insertAll_of_nodup {l pairs : List (κ × β)} (h : (keys (l ++ pairs)).Nodup) :
    insertAll l pairs = l ++ pairs := by
  induction pairs generalizing l with
  | nil => exact (List.append_nil l).symm
  | cons p ps ih =>
    have hstep : insertAll l (p :: ps) = insertAll (l ++ [p]) ps := by
      rw [insertAll, List.foldl_cons, insert_of_not_mem (not_mem_of_nodup h)]
      rfl
    rw [List.append_cons] at h ⊢
    rw [hstep, ih h]

theorem nodup_ofList (pairs : List (κ × β)) : (keys (ofList pairs)).Nodup := nodup_insertAll (by simp)

@[simp] theorem get?_insert_self (k : κ) (v : β) (l : List (κ × β)) : get? k (insert k v l) = some v := by
  induction l with
  | nil => simp [insert, get?]
  | cons p r ih =>
    simp only [insert]
    split
    · next h => simp [get?, h]
    · next h => simp [get?, h, ih]

theorem get?_insert_of_ne {k a : κ} (h : a ≠ k) (v : β) (l : List (κ × β)) :
    get? a (insert k v l) = get? a l := by
  induction l with
  | nil => simp [insert, get?, Ne.symm h]
  | cons p r ih =>
    simp only [insert]
    split
    · next hp =>
      have : p.1 ≠ a := fun e => h (e ▸ hp)
      simp [get?, this]
    · simp only [get?, ih]

theorem erase_sublist (k : κ) (l : List (κ × β)) : (erase k l).Sublist l := by
  induction l with
  | nil => exact List.Sublist.refl _
  | cons p r ih =>
    simp only [erase]
    split
    · exact List.sublist_cons_self _ _
    · exact ih.cons_cons _

theorem get?_erase_of_ne {k a : κ} {l : List (κ × β)} (h : a ≠ k) : get? a (erase k l) = get? a l := by
  induction l with
  | nil => rfl
  | cons p r ih =>
    simp only [erase, get?]
    split
    · next hp => rw [if_neg fun e => h (e.symm.trans hp)]
    · simp only [get?, ih]

theorem get?_erase_self {k : κ} {l : List (κ × β)} (h : (keys l).Nodup) : get? k (erase k l) = none := by
  induction l with
  | nil => rfl
  | cons p r ih =>
    obtain ⟨hp, hr⟩ := List.nodup_cons.mp h
    simp only [erase]
    split
    · next hk => exact get?_eq_none_iff.mpr (hk ▸ hp)
    · next hk => simp only [get?, if_neg hk, ih hr]

theorem get?_map {α : Type} (k : κ) (g : κ → α → β) (l : List (κ × α)) :
    get? k (l.map fun p => (p.1, g p.1 p.2)) = (get? k l).map (g k) := by
  induction l with
  | nil => rfl
  | cons p l ih =>
    rw [List.map_cons, get?, get?, ih]
    split
    · next hp => rw [hp, Option.map_some]
    · rfl

end Settings.Assoc
